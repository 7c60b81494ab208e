import Minix.Tools.Files

/-!
# Putting a file on an image and getting it back

A file that is there already is overwritten, and nothing else changes. A new file is made like a
directory: it has entries for itself and its parent, and the parent has one more link.
-/

namespace Minix.Tools

open Function Transition IndexTree

/-- An image as the tool relies on it. -/
structure Consistent (img : Img) : Prop where
  layout : Layout img.sb
  root : S_ISDIR (img.inode rootInode).iMode
  /-- the first bit of each map is for nothing -/
  reserved : img.imap 0 = true ∧ img.zmap 0 = true
  inode : ∀ j, IsFile img j → img.imap j = true
  size : ∀ j, IsFile img j → (img.inode j).iSize ≤ img.sb.sMaxSize
  proper : ∀ j, IsFile img j → Proper (indOf img) (rootOf (img.inode j))
  zone : ∀ j, IsFile img j → ∀ z, ZoneOf img j z →
    validDataBlock img.sb z ∧ img.zmap (bitOf img.sb z) = true
  once : ∀ j j' z, IsFile img j → IsFile img j' → ZoneOf img j z → ZoneOf img j' z → j = j'
  /-- directories have no holes -/
  dir : ∀ j, IsFile img j → S_ISDIR (img.inode j).iMode →
    ∀ q < blocks (img.inode j).iSize, HasBlock img j q

variable {img₀ img img' : Img} {ip j k n o q rp : Nat} {path name host : List UInt8}

/-- A directory is neither special nor a regular file. -/
theorem isDir_ne (h : S_ISDIR k) : ¬IsSpecial k ∧ ¬S_ISREG k := by
  unfold S_ISDIR at h
  unfold IsSpecial S_ISREG
  rw [h]
  decide

/-- All blocks of a directory are there. -/
theorem Consistent.whole (hc : Consistent img) (hj : IsFile img j)
    (hd : S_ISDIR (img.inode j).iMode) : Whole img j :=
  ⟨(isDir_ne hd).1, hc.size j hj, hc.dir j hj hd⟩

/-- The blocks of other files are data blocks in use. -/
theorem Consistent.foreign (hc : Consistent img) {z : Nat} (hz : Foreign img ip z) :
    validDataBlock img.sb z ∧ img.zmap (bitOf img.sb z) = true := by
  obtain ⟨j, -, hj, hz⟩ := hz
  exact hc.zone j hj z hz

/-- Work on a file starts. -/
theorem Consistent.own (hc : Consistent img) (hip : IsFile img ip) : Own img ip img where
  sb := rfl
  inode _ _ := rfl
  kept _ _ := rfl
  busy _ hz := (hc.foreign hz).2
  zero := hc.reserved.2
  proper := hc.proper ip hip
  zone z hz := ⟨(hc.zone ip hip z hz).1, fun ⟨j, hj, hfile, hz'⟩ =>
    hj (hc.once j ip z hfile hip hz' hz)⟩
  used z hz := (hc.zone ip hip z hz).2

/-! ## The other files stay the same -/

/-- A file is the same in two images. -/
structure SameFile (img : Img) (j : Nat) (img' : Img) : Prop where
  inode : img'.inode j = img.inode j
  zone : ∀ t, zoneOf img' j t = zoneOf img j t
  byte : ∀ o, fileByte img' j o = fileByte img j o

/-- Another file is the same after work on this one. -/
theorem Frame.same (h : Frame img₀ ip img) (hj : IsFile img₀ j) (hne : j ≠ ip) :
    SameFile img₀ j img := by
  have hinode := h.inode j hne
  have hzone (t : FileSlot) : zoneOf img j t = zoneOf img₀ j t := by
    unfold zoneOf
    rw [hinode]
    refine lookup_congr (fun z hz => ?_) t
    funext i
    unfold indOf
    rw [h.kept z ⟨j, hne, hj, Or.inl hz⟩]
  refine ⟨hinode, hzone, fun o => ?_⟩
  unfold fileByte
  cases slotOf NDIRECT NINDIRECT (o / BSIZE) with
  | none => rfl
  | some t =>
    dsimp only
    rw [hzone t]
    by_cases hz : zoneOf img₀ j t = 0
    · rw [if_pos hz, if_pos hz]
    · rw [if_neg hz, if_neg hz, h.kept _ ⟨j, hne, hj, uses_lookup hz⟩]

/-- And its blocks are still all there. -/
theorem Frame.whole (h : Frame img₀ ip img) (hj : IsFile img₀ j) (hne : j ≠ ip)
    (hw : Whole img₀ j) : Whole img j := by
  have hsame := h.same hj hne
  refine ⟨hsame.inode ▸ hw.type, ?_, fun q hq => ?_⟩
  · rw [hsame.inode, h.sb]
    exact hw.size
  · rw [hsame.inode] at hq
    obtain ⟨t, ht, hz, hv⟩ := hw.blocks q hq
    exact ⟨t, ht, (hsame.zone t).trans_ne hz, by rw [hsame.zone, h.sb]; exact hv⟩

/-! ## Names are found again -/

/-- The directories of an image, as they are in another one. -/
structure SameDirs (img img' : Img) : Prop where
  sb : img'.sb = img.sb
  layout : Layout img.sb
  mode : ∀ j, S_ISDIR (img.inode j).iMode → img'.inode j = img.inode j
  whole : ∀ j, IsFile img j → S_ISDIR (img.inode j).iMode → Whole img j ∧ Whole img' j
  bytes : ∀ j, IsFile img j → S_ISDIR (img.inode j).iMode →
    ∀ n off, bytesAt img' j n off = bytesAt img j n off

/-- Work on a regular file leaves the directories. -/
theorem Consistent.sameDirs (hc : Consistent img) (h : Frame img ip img')
    (hip : S_ISREG (img.inode ip).iMode) : SameDirs img img' := by
  have hne (j : Nat) (hd : S_ISDIR (img.inode j).iMode) : j ≠ ip := by
    rintro rfl
    exact (isDir_ne hd).2 hip
  refine ⟨h.sb, hc.layout, fun j hd => h.inode j (hne j hd), fun j hj hd => ?_,
    fun j hj hd n off => ?_⟩
  · have hw := hc.whole hj hd
    exact ⟨hw, h.whole hj (hne j hd) hw⟩
  · have hsame := h.same hj (hne j hd)
    unfold bytesAt
    rw [hsame.inode]
    exact List.map_congr_left fun i _ => hsame.byte _

/-- An image has its own directories. -/
theorem Consistent.sameDirs_refl (hc : Consistent img) : SameDirs img img :=
  ⟨rfl, hc.layout, fun _ _ => rfl, fun _ hj hd => ⟨hc.whole hj hd, hc.whole hj hd⟩,
    fun _ _ _ _ _ => rfl⟩

/-- In both images the result is the same, and the image stays as it is. -/
structure Agree (img img' : Img) {α : Type} (m : Tool α) (r : α) : Prop where
  left : m img = .ok (r, img)
  right : m img' = .ok (r, img')

namespace Agree

variable {α β : Type} {m : Tool α} {f : α → Tool β} {a : α} {b : β}

/-- A result is the same on both images. -/
theorem pure (a : α) : Agree img img' (Pure.pure a) a := ⟨rfl, rfl⟩

/-- Two pieces of work one after the other. -/
theorem bind (h : Agree img img' m a) (hf : Agree img img' (f a) b) :
    Agree img img' (m >>= f) b := by
  constructor
  · change (m img >>= fun r => f r.1 r.2) = _
    rw [h.left]
    exact hf.left
  · change (m img' >>= fun r => f r.1 r.2) = _
    rw [h.right]
    exact hf.right

end Agree

section Lookup

variable (hs : SameDirs img img') (hj : IsFile img j) (hd : S_ISDIR (img.inode j).iMode)

include hs hd

/-- The size of a directory. -/
theorem agree_sizeOf : Agree img img' (sizeOf j) (img.inode j).iSize :=
  ⟨rfl, congrArg (fun i : Inode => Except.ok (i.iSize, img')) (hs.mode j hd)⟩

/-- The mode of a directory. -/
theorem agree_modeOf : Agree img img' (modeOf j) (img.inode j).iMode :=
  ⟨rfl, congrArg (fun i : Inode => Except.ok (i.iMode, img')) (hs.mode j hd)⟩

/-- A directory is one on both images. -/
theorem agree_assertDir : Agree img img' (assertDir j) () := by
  unfold assertDir
  refine (agree_modeOf hs hd).bind ?_
  rw [if_pos hd]
  exact .pure ()

include hj

/-- What is read from a directory. -/
theorem agree_iread {off : Nat} (hoff : off ≤ (img.inode j).iSize) (hn : off % BSIZE + n ≤ BSIZE) :
    Agree img img' (iread j n off) (some (bytesAt img j n off)) := by
  obtain ⟨hw, hw'⟩ := hs.whole j hj hd
  refine ⟨iread_whole hs.layout hw hoff hn, ?_⟩
  rw [iread_whole (hs.sb ▸ hs.layout) hw' (by rw [hs.mode j hd]; exact hoff) hn,
    hs.bytes j hj hd]

/-- An inode that a directory leads to. -/
def InRange (sb : Superblock) (r : Option Nat) : Prop := ∀ i, r = some i → 0 < i ∧ i < sb.sNinodes

omit hs hd hj in
/-- `iget` takes valid inode numbers only. -/
theorem inRange_iget (sb : Superblock) (inum : Nat) : InRange sb (iget sb inum) := by
  intro i hi
  unfold iget at hi
  split at hi
  · rename_i h
    exact Option.some.inj hi ▸ h
  · cases hi

/-- The search of a directory, entry by entry. -/
theorem agree_dlookupLoop (name : List UInt8) (fuel off : Nat) (hoff : off % DIRENT = 0)
    (hfuel : off + DIRENT * fuel < (img.inode j).iSize + DIRENT) :
    ∃ r, Agree img img' (dlookupLoop j name fuel off) r ∧ InRange img.sb (r.bind Prod.fst) := by
  induction fuel generalizing off with
  | zero => exact ⟨none, .pure _, nofun⟩
  | succ fuel ih =>
    have hnext := ih (off + DIRENT) (by rw [Nat.add_mod_right, hoff]) (by
      rw [Nat.mul_succ] at hfuel
      omega)
    have hread : Agree img img' (iread j DIRENT off) (some (bytesAt img j DIRENT off)) :=
      agree_iread hs hj hd (by dsimp only [DIRENT] at hfuel; omega)
      (by dsimp only [DIRENT, BSIZE] at hoff ⊢; omega)
    rw [dlookupLoop]
    by_cases hshort : (bytesAt img j DIRENT off).length ≠ DIRENT
    · refine ⟨none, hread.bind ?_, nofun⟩
      dsimp only
      rw [if_pos hshort]
      exact .pure _
    · by_cases hname : SameName name (nameOf (bytesAt img j DIRENT off))
      · refine ⟨some (iget img.sb (inumOf (bytesAt img j DIRENT off)), off), hread.bind ?_,
          inRange_iget _ _⟩
        dsimp only
        rw [if_neg hshort, if_pos hname]
        exact ⟨rfl, congrArg (fun sb => Except.ok (some (iget sb _, off), img')) hs.sb⟩
      · obtain ⟨r, hr, hrange⟩ := hnext
        refine ⟨r, hread.bind ?_, hrange⟩
        dsimp only
        rw [if_neg hshort, if_neg hname]
        exact hr

/-- The search of a directory finds the same inode. -/
theorem agree_dlookup (name : List UInt8) :
    ∃ r, Agree img img' (dlookup j name) r ∧ InRange img.sb (r.bind Prod.fst) := by
  obtain ⟨r, hr, hrange⟩ := agree_dlookupLoop hs hj hd name (entries (img.inode j).iSize) 0 rfl (by
    unfold entries
    dsimp only [DIRENT]
    omega)
  exact ⟨r, (agree_assertDir hs hd).bind ((agree_sizeOf hs hd).bind hr), hrange⟩

end Lookup

/-- The tool stops in the first image, or the result is the same in both. -/
def AgreeOrStop (img img' : Img) (sb : Superblock) (m : Tool (Option Nat)) : Prop :=
  (∃ r, Agree img img' m r ∧ InRange sb r) ∨ ∃ e, m img = .error e

/-- Work that goes on after an agreement, or stops. -/
theorem Agree.orStop {α : Type} {m : Tool α} {f : α → Tool (Option Nat)} {a : α} {sb : Superblock}
    (h : Agree img img' m a) (hf : AgreeOrStop img img' sb (f a)) :
    AgreeOrStop img img' sb (m >>= f) := by
  rcases hf with ⟨r, hr, hrange⟩ | ⟨e, he⟩
  · exact Or.inl ⟨r, h.bind hr, hrange⟩
  · refine Or.inr ⟨e, ?_⟩
    change (m img >>= fun r => f r.1 r.2) = _
    rw [h.left]
    exact he

/-- What is not a directory is no directory to look in. -/
theorem assertDir_error (h : ¬S_ISDIR (img.inode j).iMode) {α : Type} (f : Unit → Tool α) :
    (assertDir j >>= f) img = .error .abort := by
  have he : assertDir j img = .error .abort := by
    change (if S_ISDIR (img.inode j).iMode then _ else _ : Tool Unit) img = _
    rw [if_neg h]
    rfl
  change (assertDir j img >>= fun r => f r.1 r.2) = _
  rw [he]
  rfl

/-- A path leads to the same inode, component by component. -/
theorem agree_ilookupLoop (hs : SameDirs img img') (fuel : Nat) (path : List UInt8)
    (hrp : 0 < rp ∧ rp < img.sb.sNinodes) :
    AgreeOrStop img img' img.sb (ilookupLoop fuel rp path) := by
  induction fuel generalizing rp path with
  | zero => exact Or.inl ⟨none, .pure _, nofun⟩
  | succ fuel ih =>
    rw [ilookupLoop]
    by_cases hd : S_ISDIR (img.inode rp).iMode
    · have hj : IsFile img rp := ⟨hrp, Or.inr hd⟩
      refine (agree_assertDir hs hd).orStop ?_
      dsimp only
      by_cases hname : (skipelem path).1 = []
      · rw [if_pos hname]
        exact Or.inl ⟨some rp, .pure _, fun i hi => Option.some.inj hi ▸ hrp⟩
      · rw [if_neg hname]
        obtain ⟨r, hr, hrange⟩ := agree_dlookup hs hj hd (skipelem path).1
        refine hr.orStop ?_
        cases hip : r.bind Prod.fst with
        | none => exact Or.inl ⟨none, .pure _, nofun⟩
        | some ip =>
          dsimp only
          by_cases hpath : (skipelem path).2 = []
          · rw [if_pos hpath]
            exact Or.inl ⟨some ip, .pure _, hip ▸ hrange⟩
          · rw [if_neg hpath]
            refine (agree_modeOf hs hd).orStop ?_
            rw [if_neg (not_not.mpr hd)]
            exact ih _ (hrange ip hip)
    · exact Or.inr ⟨.abort, assertDir_error hd _⟩

/-- A path that is looked up leads to the same inode in both images. -/
theorem agree_ilookup (hs : SameDirs img img') {r : Option Nat} {img₁ : Img}
    (h : ilookup rootInode path img = .ok (r, img₁)) :
    Agree img img' (ilookup rootInode path) r ∧ InRange img.sb r := by
  have hroot : 0 < rootInode ∧ rootInode < img.sb.sNinodes := ⟨by decide, hs.layout.inodes.1⟩
  rcases agree_ilookupLoop hs (path.length + 1) path hroot with ⟨r', hr, hrange⟩ | ⟨e, he⟩
  · have he : r' = r := (Prod.mk.inj (Except.ok.inj (hr.left.symm.trans h))).1
    subst he
    exact ⟨hr, hrange⟩
  · exact nomatch (show Except.error e = Except.ok (r, img₁) from he.symm.trans h)

/-! ## Getting a file -/

/-- A file that holds bytes has all of its blocks. -/
theorem Holds.whole (h : Holds img₀ ip host img) (hmax : host.length ≤ img₀.sb.sMaxSize) :
    Whole img ip where
  type := not_special h.type
  size := by rw [h.size, h.own.sb]; exact hmax
  blocks := by rw [h.size]; exact h.blocks

/-- A piece of the file is what has been written there. -/
theorem Holds.bytesAt (h : Holds img₀ ip host img) {off : Nat} :
    bytesAt img ip n off = (host.drop off).take n := by
  unfold Tools.bytesAt
  rw [h.size]
  refine List.ext_getElem ?_ fun i hi hi' => ?_
  · rw [List.length_map, List.length_range, List.length_take, List.length_drop]
  · rw [List.getElem_map, List.getElem_range, List.getElem_take, List.getElem_drop]
    rw [List.length_map, List.length_range] at hi
    rw [h.bytes (off + i) (by omega), List.getD_eq_getElem]

/-- The loop of `get` yields the bytes from a block on. -/
theorem getLoop_holds (hl : Layout img₀.sb) (h : Holds img₀ ip host img)
    (hmax : host.length ≤ img₀.sb.sMaxSize) {fuel : Nat} (hk : fuel + k = blocks host.length) :
    Returns (fun s => s = img) (getLoop ip fuel (BSIZE * k)) fun r s =>
      r = some (host.drop (BSIZE * k)) ∧ s = img := by
  induction fuel generalizing k with
  | zero =>
    have hall : host.length ≤ BSIZE * k := by
      unfold blocks at hk
      dsimp only [BSIZE] at hk ⊢
      omega
    exact Outcome.pure fun s hs => ⟨by rw [List.drop_of_length_le hall], hs⟩
  | succ fuel ih =>
    have hnext : BSIZE * k + BSIZE = BSIZE * (k + 1) := (Nat.mul_succ _ _).symm
    have hoff : BSIZE * k ≤ (img.inode ip).iSize := by
      rw [h.size]
      unfold blocks at hk
      dsimp only [BSIZE] at hk ⊢
      omega
    have hread : iread ip BSIZE (BSIZE * k) img =
        .ok (some (Tools.bytesAt img ip BSIZE (BSIZE * k)), img) :=
      iread_whole (h.own.sb ▸ hl) (h.whole hmax) hoff (by dsimp only [BSIZE]; omega)
    rw [h.bytesAt] at hread
    rw [getLoop]
    refine Outcome.read (fun s hs => by rw [hs]; exact hread) ?_
    dsimp only
    rw [hnext]
    refine Outcome.bind (ih (by omega)) fun r => Outcome.fact fun hr => ?_
    refine Outcome.pure fun s hs => ⟨?_, hs⟩
    rw [hr, Option.map_some, ← hnext, ← List.drop_drop, List.take_append_drop]

/-- `get` yields all the bytes of a file that its path leads to. -/
theorem doGet_holds (hl : Layout img₀.sb) (h : Holds img₀ ip host img)
    (hmax : host.length ≤ img₀.sb.sMaxSize)
    (hpath : ilookup rootInode path img = .ok (some ip, img)) :
    doGet path img = .ok (some host, img) := by
  have hget : Returns (fun s => s = img) (doGet path) fun r s => r = some host ∧ s = img := by
    unfold doGet
    refine Outcome.read (fun s hs => by rw [hs]; exact hpath) ?_
    dsimp only
    refine Outcome.read (a := (img.inode ip).iSize) (fun s hs => by rw [hs]; rfl) ?_
    have hloop := getLoop_holds (k := 0) hl h hmax (Nat.add_zero _)
    rw [h.size]
    exact hloop
  obtain ⟨r, s, he, rfl, rfl⟩ := Outcome.returns hget rfl
  exact he

/-! ## Putting and getting -/

/-- A file has been put on an image: getting it gives the same bytes, and the other files and the
link counts of the other inodes are as before. Of the directories at most one has changed, for the
entry of a file that is new. -/
structure Done (img : Img) (path host : List UInt8) (img' : Img) (ip : Nat) : Prop where
  put : doPut path host img = .ok (true, img')
  found : ilookup rootInode path img' = .ok (some ip, img')
  type : S_ISREG (img'.inode ip).iMode
  get : ∃ img'', doGet path img' = .ok (some host, img'')
  links : ∀ j ≠ ip, (img'.inode j).iNlinks = (img.inode j).iNlinks
  size : ∀ j ≠ ip, IsFile img j → S_ISREG (img.inode j).iMode →
    (img'.inode j).iSize = (img.inode j).iSize
  byte : ∀ j ≠ ip, IsFile img j → S_ISREG (img.inode j).iMode →
    ∀ o < (img.inode j).iSize, fileByte img' j o = fileByte img j o
  dirs : ∃ dp : Option Nat, (ilookup rootInode path img = .ok (some ip, img) → dp = none) ∧
    ∀ j, IsFile img j → S_ISDIR (img.inode j).iMode → dp ≠ some j →
      (img'.inode j).iSize = (img.inode j).iSize ∧
        ∀ o < (img.inode j).iSize, fileByte img' j o = fileByte img j o

/-- What is asked of `put` for a path and a file of the host. -/
def PutGet (img : Img) (path host : List UInt8) : Prop := ∃ img' ip, Done img path host img' ip

/-- A path that is new, or that of a regular file. -/
structure Target (img : Img) (path : List UInt8) (r : Option Nat) : Prop where
  found : ilookup rootInode path img = .ok (r, img)
  type : ∀ ip, r = some ip → S_ISREG (img.inode ip).iMode

/-- There are enough blocks and inodes. -/
structure Enough (img : Img) (host : List UInt8) : Prop where
  size : host.length ≤ img.sb.sMaxSize
  blocks : needed (blocks host.length) ≤ free img
  inode : ∃ j, 0 < j ∧ j < img.sb.sNinodes ∧ img.imap j = false

/-- A file that is there is overwritten. -/
theorem Target.overwritten (ht : Target img path (some ip)) (hc : Consistent img)
    (he : Enough img host) : PutGet img path host := by
  have hreg := ht.type ip rfl
  have hip : IsFile img ip :=
    ⟨(agree_ilookup hc.sameDirs_refl ht.found).2 ip rfl, Or.inl hreg⟩
  have hput : Returns (fun s => s = img) (doPut path host) fun r s =>
      r = true ∧ Holds img ip host s := by
    unfold doPut
    refine Outcome.read (fun s hs => by rw [hs]; exact ht.found) ?_
    dsimp only
    refine Outcome.read (a := (img.inode ip).iMode) (fun s hs => by rw [hs]; rfl) ?_
    refine Outcome.ite (fun h => absurd hreg h) fun _ => ?_
    have htrunc := itruncate_empty hc.layout (fun z hz => (hc.foreign hz).1) (hc.own hip) hreg
    refine Outcome.bind htrunc fun _ => Outcome.from_state ?_
    rintro s ⟨hs, hfree⟩
    refine Outcome.read (a := s) (fun s' hs' => by rw [hs']; rfl) ?_
    rw [hs.own.sb]
    refine putLoop_holds (k := 0) hc.layout he.size (Nat.add_zero _) (Nat.zero_le _) hs ?_
    exact he.blocks.trans (hfree.trans (Nat.le_add_right _ _))
  obtain ⟨r, s, hrun, rfl, hs⟩ := Outcome.returns hput rfl
  have hframe := hs.own.toFrame
  have hfound := (agree_ilookup (hc.sameDirs hframe hreg) ht.found).1.right
  refine ⟨s, ip, hrun, hfound, hs.type, ⟨s, doGet_holds hc.layout hs he.size hfound⟩,
    fun j hj => by rw [hframe.inode j hj], fun j hj _ _ => by rw [hframe.inode j hj],
    fun j hj hfile _ o _ => (hframe.same hfile hj).byte o, none, fun _ => rfl,
    fun j hfile hdir _ => ?_⟩
  have hj : j ≠ ip := by
    rintro rfl
    exact (isDir_ne hdir).2 hreg
  exact ⟨by rw [hframe.inode j hj], fun o _ => (hframe.same hfile hj).byte o⟩

/-! ## New files -/

/-- Inodes stay the same, but for the zones and the size of one. -/
structure Near (ip : Nat) (img img' : Img) : Prop where
  sb : img'.sb = img.sb
  inode : ∀ j ≠ ip, img'.inode j = img.inode j
  mode : (img'.inode ip).iMode = (img.inode ip).iMode
  links : (img'.inode ip).iNlinks = (img.inode ip).iNlinks

/-- An image that stays as it is. -/
theorem Near.refl (ip : Nat) (img : Img) : Near ip img img := ⟨rfl, fun _ _ => rfl, rfl, rfl⟩

/-- A part of the tool that only works on the zones and the size of an inode. -/
abbrev Stays (ip : Nat) (img : Img) {α : Type} (m : Tool α) : Prop :=
  Outcome (Near ip img) m (fun _ => Near ip img) fun _ => True

/-- A change of one inode that leaves its mode and its links. -/
theorem Near.modify (f : Inode → Inode) (h : Near ip img img')
    (hmode : (f (img'.inode ip)).iMode = (img'.inode ip).iMode)
    (hlinks : (f (img'.inode ip)).iNlinks = (img'.inode ip).iNlinks) :
    Near ip img { img' with inode := update img'.inode ip (f (img'.inode ip)) } where
  sb := h.sb
  inode j hj := (update_of_ne hj _ _).trans (h.inode j hj)
  mode := (congrArg Inode.iMode (update_self _ _ _)).trans (hmode.trans h.mode)
  links := (congrArg Inode.iNlinks (update_self _ _ _)).trans (hlinks.trans h.links)

/-- A block is allocated. -/
theorem balloc_stays : Stays ip img balloc := by
  unfold balloc
  refine Outcome.bind (Q := fun _ => Near ip img) (Outcome.get fun _ => id) fun s => ?_
  split
  · exact Outcome.throw fun _ _ => trivial
  · refine Outcome.bind (Q := fun _ => Near ip img)
      (Outcome.modify fun s hs => ⟨hs.sb, hs.inode, hs.mode, hs.links⟩) fun _ => ?_
    refine Outcome.ite (fun _ => ?_) fun _ => Outcome.throw fun _ _ => trivial
    refine Outcome.bind (Q := fun _ => Near ip img)
      (Outcome.modify fun s hs => ⟨hs.sb, hs.inode, hs.mode, hs.links⟩) fun _ => ?_
    exact Outcome.pure fun _ => id

/-- A zone number is read. -/
theorem zoneAt_stays : Stays ip img (zoneAt j k) := fun _ => id

/-- An entry of an indirect block is read. -/
theorem entryAt_stays : Stays ip img (entryAt j k) := fun _ => id

/-- A zone number of the inode is set. -/
theorem setZone_stays (z : Nat) : Stays ip img (setZone ip k z) :=
  Outcome.modify fun _ hs => hs.modify (setZoneOf k z) rfl rfl

/-- An entry of an indirect block is set. -/
theorem setEntry_stays (z : Nat) : Stays ip img (setEntry j k z) :=
  Outcome.modify fun _ hs => ⟨hs.sb, hs.inode, hs.mode, hs.links⟩

/-- A missing block is allocated and noted. -/
theorem orAlloc_stays {look : Tool Nat} {store : Nat → Tool Unit} (hlook : Stays ip img look)
    (hstore : ∀ z, Stays ip img (store z)) : Stays ip img (orAlloc look store) := by
  unfold orAlloc
  refine Outcome.bind hlook fun z => Outcome.ite (fun _ => ?_) fun _ => Outcome.pure fun _ => id
  refine Outcome.bind balloc_stays fun b => Outcome.bind (hstore b) fun _ => ?_
  exact Outcome.pure fun _ => id

/-- `bmap` changes the zones of its inode only. -/
theorem bmap_stays (n : Nat) : Stays ip img (bmap ip n) := by
  have hzone (k : Nat) : Stays ip img (orAlloc (zoneAt ip k) (setZone ip k)) :=
    orAlloc_stays zoneAt_stays setZone_stays
  have hentry (b k : Nat) : Stays ip img (orAlloc (entryAt b k) (setEntry b k)) :=
    orAlloc_stays entryAt_stays setEntry_stays
  unfold bmap
  refine Outcome.ite (fun _ => hzone n) fun _ => Outcome.ite (fun _ => ?_) fun _ => ?_
  · refine Outcome.bind (hzone 7) fun d => ?_
    exact Outcome.bind (hentry d (n - 7)) fun _ => entryAt_stays
  · generalize NINDIRECT * NINDIRECT = last
    refine Outcome.ite (fun _ => ?_) fun _ => Outcome.pure fun _ => id
    dsimp only
    refine Outcome.bind (hzone 8) fun d => Outcome.bind (hentry d _) fun dd => ?_
    exact Outcome.bind (hentry dd _) fun _ => entryAt_stays

/-- The loop of a read, which may allocate blocks. -/
theorem ireadLoop_stays (fuel n off : Nat) : Stays ip img (ireadLoop ip fuel n off) := by
  induction fuel generalizing n off with
  | zero => exact Outcome.pure fun _ => id
  | succ fuel ih =>
    rw [ireadLoop]
    refine Outcome.ite (fun _ => Outcome.pure fun _ => id) fun _ => ?_
    refine Outcome.bind (bmap_stays _) fun b => Outcome.bind (Q := fun _ => Near ip img)
      (Outcome.get fun _ => id) fun s => Outcome.ite (fun _ => ?_) fun _ => Outcome.pure fun _ => id
    exact Outcome.bind (ih _ _) fun _ => Outcome.pure fun _ => id

/-- A read of a file. -/
theorem iread_stays (n off : Nat) : Stays ip img (iread ip n off) := by
  unfold iread
  refine Outcome.bind (Q := fun _ => Near ip img) (fun _ => id) fun i => ?_
  refine Outcome.ite (fun _ => Outcome.pure fun _ => id) fun _ => ?_
  refine Outcome.ite (fun _ => Outcome.pure fun _ => id) fun _ => ?_
  exact Outcome.bind (ireadLoop_stays _ _ _) fun _ => Outcome.pure fun _ => id

/-- The loop of a write, which may allocate blocks. -/
theorem iwriteLoop_stays (fuel : Nat) (buf : List UInt8) (off : Nat) :
    Stays ip img (iwriteLoop ip fuel buf off) := by
  induction fuel generalizing buf off with
  | zero => exact Outcome.pure fun _ => id
  | succ fuel ih =>
    rw [iwriteLoop]
    refine Outcome.ite (fun _ => Outcome.pure fun _ => id) fun _ => ?_
    refine Outcome.bind (bmap_stays _) fun b => Outcome.bind (Q := fun _ => Near ip img)
      (Outcome.get fun _ => id) fun s => Outcome.ite (fun _ => ?_) fun _ => Outcome.pure fun _ => id
    refine Outcome.bind (Q := fun _ => Near ip img)
      (Outcome.modify fun _ hs => ⟨hs.sb, hs.inode, hs.mode, hs.links⟩) fun _ => ?_
    exact Outcome.bind (ih _ _) fun _ => Outcome.pure fun _ => id

/-- A write to a file changes its zones and its size. -/
theorem iwrite_stays (buf : List UInt8) (off : Nat) : Stays ip img (iwrite ip buf off) := by
  unfold iwrite
  refine Outcome.bind (Q := fun _ => Near ip img) (fun _ => id) fun i => ?_
  refine Outcome.ite (fun _ => Outcome.pure fun _ => id) fun _ => ?_
  refine Outcome.bind (Q := fun _ => Near ip img) (Outcome.get fun _ => id) fun s => ?_
  refine Outcome.ite (fun _ => Outcome.pure fun _ => id) fun _ => ?_
  refine Outcome.bind (iwriteLoop_stays _ _ _) fun t => ?_
  refine Outcome.bind (Q := fun _ => Near ip img) (fun _ => id) fun size => ?_
  refine Outcome.bind (Outcome.provided (fun _ => ?_) fun _ _ => id) fun _ =>
    Outcome.pure fun _ => id
  exact Outcome.modify fun _ hs => hs.modify (fun i => { i with iSize := off + t }) rfl rfl

/-- The loop of `put`, block by block. -/
theorem putLoop_stays (host : List UInt8) (fuel off : Nat) :
    Stays ip img (putLoop ip host fuel off) := by
  induction fuel generalizing off with
  | zero => exact Outcome.pure fun _ => id
  | succ fuel ih =>
    rw [putLoop]
    refine Outcome.bind (iwrite_stays _ _) fun r => ?_
    refine Outcome.ite (fun _ => Outcome.pure fun _ => id) fun _ => ?_
    exact Outcome.ite (fun _ => Outcome.pure fun _ => id) fun _ => ih _

/-- The search for a free entry of a directory. -/
theorem daddentLoop_stays (name : List UInt8) (fuel off : Nat) :
    Stays ip img (daddentLoop ip name fuel off) := by
  induction fuel generalizing off with
  | zero => exact Outcome.pure fun _ => id
  | succ fuel ih =>
    rw [daddentLoop]
    refine Outcome.bind (iread_stays _ _) fun r => ?_
    cases r with
    | none => exact Outcome.pure fun _ => id
    | some de =>
      dsimp only
      refine Outcome.ite (fun _ => Outcome.pure fun _ => id) fun _ => ?_
      refine Outcome.ite (fun _ => Outcome.pure fun _ => id) fun _ => ?_
      exact Outcome.ite (fun _ => Outcome.pure fun _ => id) fun _ => ih _

/-- An inode has been made, and the directory that it is for is still what it was. -/
structure Made (img : Img) (rp mode size ip : Nat) (s : Img) : Prop where
  sb : s.sb = img.sb
  inum : 0 < ip ∧ ip < img.sb.sNinodes
  ne : rp ≠ ip
  dir : (s.inode rp).iMode = (img.inode rp).iMode
  links : (s.inode rp).iNlinks = (img.inode rp).iNlinks
  mode : (s.inode ip).iMode = mode
  size : (s.inode ip).iSize = size

variable {mode size z : Nat} {s : Img}

/-- Work on the new inode leaves the directory alone. -/
theorem Made.near (h : Made img rp mode size ip s) (hn : Near ip s img') (size' : Nat)
    (hsize : (img'.inode ip).iSize = size') : Made img rp mode size' ip img' :=
  ⟨hn.sb.trans h.sb, h.inum, h.ne, by rw [hn.inode rp h.ne, h.dir],
    by rw [hn.inode rp h.ne, h.links], hn.mode.trans h.mode, hsize⟩

/-- An inode that is allocated is cleared. -/
theorem ialloc_made (himap : img.imap rp = true) (mode : Nat) :
    Outcome (fun s => s = img) (ialloc mode)
      (fun ip s => Made img rp mode 0 ip s ∧ (s.inode ip).iZone 0 = 0) fun _ => True := by
  unfold ialloc
  refine Outcome.read (fun s hs => by rw [hs]; rfl) ?_
  cases hfind : firstFree img.imap img.sb.sNinodes with
  | none => exact Outcome.throw fun _ _ => trivial
  | some b =>
    have hoff : img.imap b = false := by
      have h := List.find?_some hfind
      rwa [Bool.not_eq_true'] at h
    have hne : rp ≠ b := by
      rintro rfl
      rw [himap] at hoff
      cases hoff
    refine Outcome.bind (Q := fun _ s => s.sb = img.sb ∧ s.inode = img.inode)
      (Outcome.modify fun s hs => hs ▸ ⟨rfl, rfl⟩) fun _ => ?_
    cases hget : iget img.sb b with
    | none => exact Outcome.throw fun _ _ => trivial
    | some ip =>
      have hip : b = ip ∧ 0 < ip ∧ ip < img.sb.sNinodes := by
        unfold iget at hget
        split at hget
        · rename_i hb
          obtain rfl := Option.some.inj hget
          exact ⟨rfl, hb⟩
        · cases hget
      obtain ⟨rfl, hip⟩ := hip
      refine Outcome.bind (Q := fun _ s => s.sb = img.sb ∧
        s.inode = update img.inode b ⟨mode, 0, 0, fun _ => 0⟩)
        (Outcome.modify fun s hs => ⟨hs.1, congrArg (update · b _) hs.2⟩) fun _ => ?_
      refine Outcome.pure fun s hs => ?_
      have hnew : s.inode b = ⟨mode, 0, 0, fun _ => 0⟩ := by rw [hs.2, update_self]
      have hold : s.inode rp = img.inode rp := by rw [hs.2, update_of_ne hne]
      exact ⟨⟨hs.1, hip, hne, by rw [hold], by rw [hold], by rw [hnew], by rw [hnew]⟩, by rw [hnew]⟩

/-- The entry of the new file is put in the directory. -/
theorem daddent_made (name : List UInt8) :
    Outcome (fun s => Made img rp mode 0 ip s ∧ (s.inode ip).iZone 0 = 0) (daddent rp name ip)
      (fun _ s => Made img rp mode 0 ip s ∧ (s.inode ip).iZone 0 = 0) fun _ => True := by
  have hnear {α : Type} {m : Tool α} (hm : ∀ s, Stays rp s m) :
      Outcome (fun s => Made img rp mode 0 ip s ∧ (s.inode ip).iZone 0 = 0) m
        (fun _ s => Made img rp mode 0 ip s ∧ (s.inode ip).iZone 0 = 0) fun _ => True := by
    refine Outcome.from_state fun s hs => (hm s).conseq (fun s' hs' => hs' ▸ Near.refl rp s) ?_
    intro _ s' hn
    have hsame := hn.inode ip hs.1.ne.symm
    exact ⟨⟨hn.sb.trans hs.1.sb, hs.1.inum, hs.1.ne, hn.mode.trans hs.1.dir,
      hn.links.trans hs.1.links, hsame ▸ hs.1.mode, hsame ▸ hs.1.size⟩, hsame ▸ hs.2⟩
  unfold daddent
  refine Outcome.bind (hnear fun s => (fun _ => id : Stays rp s (sizeOf rp))) fun n => ?_
  refine Outcome.bind (hnear fun s => daddentLoop_stays name _ 0) fun r => ?_
  cases r with
  | none => exact Outcome.pure fun _ => id
  | some off =>
    dsimp only
    refine Outcome.bind (hnear fun s => iwrite_stays _ off) fun r => ?_
    refine Outcome.ite (fun _ => Outcome.pure fun _ => id) fun _ => ?_
    refine Outcome.bind (Outcome.provided (fun _ => Outcome.modify fun s hs => ?_) fun _ _ => id)
      fun _ => Outcome.pure fun _ => id
    have hdir : update s.inode ip { s.inode ip with iNlinks := ((s.inode ip).iNlinks + 1) % 256 }
        rp = s.inode rp := update_of_ne hs.1.ne _ _
    have hself : update s.inode ip { s.inode ip with iNlinks := ((s.inode ip).iNlinks + 1) % 256 }
        ip = { s.inode ip with iNlinks := ((s.inode ip).iNlinks + 1) % 256 } := update_self _ _ _
    refine ⟨⟨hs.1.sb, hs.1.inum, hs.1.ne, ?_, ?_, ?_, ?_⟩, ?_⟩
    all_goals dsimp only
    · rw [hdir, hs.1.dir]
    · rw [hdir, hs.1.links]
    · rw [hself, hs.1.mode]
    · rw [hself, hs.1.size]
    · rw [hself, hs.2]

/-- `balloc` returns a data block. -/
theorem balloc_valid :
    Outcome (fun s => s = img) balloc
      (fun b s => validDataBlock img.sb b ∧ s.sb = img.sb ∧ s.inode = img.inode) fun _ => True := by
  unfold balloc
  refine Outcome.read (fun s hs => by rw [hs]; rfl) ?_
  split
  · exact Outcome.throw fun _ _ => trivial
  · rename_i b _
    refine Outcome.bind (Q := fun _ s => s.sb = img.sb ∧ s.inode = img.inode)
      (Outcome.modify fun s hs => hs ▸ ⟨rfl, rfl⟩) fun _ => ?_
    refine Outcome.ite (fun hv => ?_) fun _ => Outcome.throw fun _ _ => trivial
    refine Outcome.bind (Q := fun _ s => s.sb = img.sb ∧ s.inode = img.inode)
      (Outcome.modify fun s hs => hs) fun _ => ?_
    exact Outcome.pure fun s hs => ⟨hv, hs⟩

/-- The new inode gets its first block. -/
theorem bmap_first (h : Made img rp mode size ip s) (hzero : (s.inode ip).iZone 0 = 0) :
    Outcome (fun s' => s' = s) (bmap ip 0)
      (fun z s' => Made img rp mode size ip s' ∧ (s'.inode ip).iZone 0 = z ∧
        validDataBlock s'.sb z) fun _ => True := by
  unfold bmap
  rw [if_pos (by decide)]
  unfold orAlloc
  refine Outcome.read (a := 0) (fun s' hs => by rw [hs, zoneAt_eq, hzero]) ?_
  refine Outcome.ite (fun _ => ?_) fun hne => absurd rfl hne
  refine Outcome.bind balloc_valid fun b => ?_
  refine Outcome.bind ((setZone_spec 0).errors fun _ h => h.elim) fun _ => ?_
  refine Outcome.pure fun s' hs' => ?_
  obtain ⟨s₁, ⟨hv, hsb, hinode⟩, rfl⟩ := hs'
  have hself : (withZone s₁ ip 0 b).inode ip = setZoneOf 0 b (s.inode ip) := by
    rw [← hinode]
    exact update_self _ _ _
  have hother : (withZone s₁ ip 0 b).inode rp = s.inode rp := by
    rw [← hinode]
    exact update_of_ne h.ne _ _
  refine ⟨⟨hsb.trans h.sb, h.inum, h.ne, by rw [hother, h.dir], by rw [hother, h.links], ?_, ?_⟩,
    withZone_iZone _ _ _ _, ?_⟩
  · rw [hself]
    exact h.mode
  · rw [hself]
    exact h.size
  · have hsb' : (withZone s₁ ip 0 b).sb = s.sb := hsb
    rw [hsb']
    exact hv

/-- The first block of the new inode is there, with an entry for itself. -/
structure Dotted (ip : Nat) (s : Img) (b : Nat) : Prop where
  zone : (s.inode ip).iZone 0 = b
  valid : validDataBlock s.sb b
  bytes : ∀ o < DIRENT, s.block b o = (mkDirent ip dot).getD o 0

/-- An entry of a directory has its length. -/
theorem length_mkDirent (inum : Nat) (name : List UInt8) (h : name.length ≤ DIRSIZ) :
    (mkDirent inum name).length = DIRENT := by
  unfold mkDirent
  rw [List.length_cons, List.length_cons, List.length_append, List.length_take,
    List.length_replicate]
  dsimp only [DIRSIZ, DIRENT] at h ⊢
  omega

/-- An entry is written in the first block of the new inode. -/
theorem iwrite_entry (hl : Layout img.sb) (hmode : ¬IsSpecial mode) {de : List UInt8}
    (hde : de.length = DIRENT) (h : Made img rp mode size ip s) (hsize : size ≤ DIRENT)
    {Q : Nat → Img → Prop}
    (hbmap : Outcome (fun s' => s' = s) (bmap ip 0) Q fun _ => True)
    (hQ : ∀ z s', Q z s' → Made img rp mode size ip s' ∧ (s'.inode ip).iZone 0 = z ∧
      validDataBlock s'.sb z) :
    Outcome (fun s' => s' = s) (iwrite ip de size)
      (fun r s' => r = some DIRENT ∧ Made img rp mode (size + DIRENT) ip s' ∧
        ∃ s₁ z, Q z s₁ ∧ s' = withSize (withBlock s₁ z (storeBytes size de)) ip (size + DIRENT))
      fun _ => True := by
  have hmax := hl.size.1
  have hu : uint (size + de.length) = size + de.length := uint_of_lt (by
    rw [hde]
    dsimp only [DIRENT] at hsize ⊢
    omega)
  have hmod : size % BSIZE = size := Nat.mod_eq_of_lt (by
    dsimp only [DIRENT, BSIZE] at hsize ⊢
    omega)
  have hdiv : size / BSIZE = 0 := Nat.div_eq_of_lt (by
    dsimp only [DIRENT, BSIZE] at hsize ⊢
    omega)
  unfold iwrite
  refine Outcome.read (a := s.inode ip) (fun s' hs => by rw [hs]; rfl) ?_
  refine Outcome.ite (fun hs => absurd (h.mode ▸ hs) hmode) fun _ => ?_
  refine Outcome.read (a := s) (fun s' hs => by rw [hs]; rfl) ?_
  refine Outcome.ite (fun hs => ?_) fun _ => ?_
  · rw [hu, h.size, h.sb, hde] at hs
    dsimp only [DIRENT, BSIZE] at hs hsize hmax
    omega
  · have hturn := iwriteLoop_turn de size (hdiv.symm ▸ hbmap)
      (fun z s' hq => (hQ z s' hq).2.2) (by rw [hde]; decide)
      (by rw [hmod, hde]; dsimp only [DIRENT, BSIZE] at hsize ⊢; omega)
    refine Outcome.bind hturn fun r => Outcome.fact fun hr => Outcome.from_state ?_
    rintro s' ⟨s₁, z, hq, rfl⟩
    subst hr
    obtain ⟨hmade, hz, hv⟩ := hQ z s₁ hq
    have hold : ((withBlock s₁ z (storeBytes (size % BSIZE) de)).inode ip).iSize = size :=
      hmade.size
    refine Outcome.read (a := size)
      (fun s hs => by rw [hs]; exact congrArg _ (congrArg (·, _) hold)) ?_
    rw [hde, hmod]
    refine Outcome.bind (Q := fun _ s => s =
        withSize (withBlock s₁ z (storeBytes size de)) ip (size + DIRENT))
      (Outcome.provided (fun _ => Outcome.modify fun s hs => by rw [hs]; rfl)
        fun hs => absurd ⟨by decide, by dsimp only [DIRENT]; omega⟩ hs)
      fun _ => Outcome.pure fun s hs => ⟨rfl, ?_, s₁, z, hq, hs⟩
    subst hs
    have hself := withSize_inode (withBlock s₁ z (storeBytes size de)) ip (size + DIRENT)
    have hother : (withSize (withBlock s₁ z (storeBytes size de)) ip (size + DIRENT)).inode rp =
      s₁.inode rp := update_of_ne hmade.ne _ _
    exact ⟨hmade.sb, hmade.inum, hmade.ne, by rw [hother, hmade.dir], by rw [hother, hmade.links],
      by rw [hself]; exact hmade.mode, by rw [hself]⟩

/-- The new inode gets an entry for itself, as a directory does. -/
theorem daddent_dot (hl : Layout img.sb) (hmode : ¬IsSpecial mode) :
    Outcome (fun s => Made img rp mode 0 ip s ∧ (s.inode ip).iZone 0 = 0) (daddent ip dot ip)
      (fun _ s => Made img rp mode DIRENT ip s ∧ ∃ b, Dotted ip s b) fun _ => True := by
  refine Outcome.from_state fun s hs => ?_
  obtain ⟨h, hzero⟩ := hs
  unfold daddent
  refine Outcome.read (a := 0)
    (fun s' hs' => by rw [hs']; exact congrArg (fun n => Except.ok (n, s)) h.size) ?_
  refine Outcome.read (a := some 0) (fun s' hs' => rfl) ?_
  dsimp only
  have hwrite := iwrite_entry hl hmode (length_mkDirent ip dot (by decide)) h (Nat.zero_le _)
    (bmap_first h hzero) fun _ _ => id
  refine Outcome.bind hwrite fun r => Outcome.fact fun hr => ?_
  subst hr
  refine Outcome.pre (P := fun s' => Made img rp mode DIRENT ip s' ∧ ∃ b, Dotted ip s' b) ?_ ?_
  · refine Outcome.ite (fun hne => absurd rfl hne) fun _ => ?_
    refine Outcome.bind (Q := fun _ s' => Made img rp mode DIRENT ip s' ∧ ∃ b, Dotted ip s' b)
      (Outcome.provided (fun hne => absurd rfl hne) fun _ _ => id) fun _ => ?_
    exact Outcome.pure fun _ => id
  · rintro s' ⟨hmade, s₁, z, ⟨-, hz, hv⟩, rfl⟩
    refine ⟨hmade, z, ?_, hv, fun o ho => ?_⟩
    · rw [withSize_inode]
      exact hz
    · have hlen := length_mkDirent ip dot (by decide)
      refine Eq.trans (congrFun (update_self (β := fun _ => Block) _ _ _) _) ?_
      exact storeBytes_inside (Nat.zero_le o) (by rw [hlen]; omega)

/-- What is read of the entry that the new inode has for itself. -/
theorem Dotted.read {b : Nat} (hl : Layout img.sb) (hmode : ¬IsSpecial mode)
    (h : Made img rp mode DIRENT ip s) (hd : Dotted ip s b) :
    iread ip DIRENT 0 s = .ok (some (mkDirent ip dot), s) := by
  have hb : zoneOf s ip (.direct 0) = b := hd.zone
  have hne : zoneOf s ip (.direct 0) ≠ 0 :=
    hb.trans_ne (valid_pos (h.sb ▸ hl) hd.valid).1.ne'
  have hw : Whole s ip := by
    refine ⟨h.mode.symm ▸ hmode, ?_, fun q hq => ?_⟩
    · have hmax := hl.size.1
      rw [h.size, h.sb]
      exact (by decide : DIRENT ≤ BSIZE).trans hmax
    · rw [h.size] at hq
      have hq₀ : q = 0 := Nat.lt_one_iff.mp hq
      subst hq₀
      exact ⟨.direct 0, rfl, hne, hb.symm ▸ hd.valid⟩
  have hbytes : bytesAt s ip DIRENT 0 = mkDirent ip dot := by
    have hlen := length_mkDirent ip dot (by decide)
    unfold bytesAt
    rw [h.size]
    have hlength : ((List.range (min DIRENT (DIRENT - 0))).map fun i =>
        fileByte s ip (0 + i)).length = (mkDirent ip dot).length := by
      rw [List.length_map, List.length_range, hlen]
      rfl
    refine List.ext_getElem hlength fun i hi hi' => ?_
    rw [hlen] at hi'
    rw [List.getElem_map, List.getElem_range, Nat.zero_add]
    have hdiv : i / BSIZE = 0 := Nat.div_eq_of_lt (hi'.trans (by decide))
    have hmod : i % BSIZE = i := Nat.mod_eq_of_lt (hi'.trans (by decide))
    rw [fileByte_of_slot (t := .direct 0) (by rw [hdiv]; rfl) hne, hb, hmod, hd.bytes i hi',
      List.getD_eq_getElem]
  rw [iread_whole (h.sb ▸ hl) hw (Nat.zero_le _) (by decide), hbytes]

/-- Its inode number can be read back. -/
theorem inumOf_mkDirent (name : List UInt8) (h : n < 65536) : inumOf (mkDirent n name) = n := by
  change (UInt8.ofNat n).toNat + (UInt8.ofNat (n / 256)).toNat * 256 = n
  rw [UInt8.toNat_ofNat', UInt8.toNat_ofNat']
  omega

/-- So can the name of the directory itself. -/
theorem nameOf_mkDirent_dot (n : Nat) : nameOf (mkDirent n dot) = dot := rfl

/-- The directory of a new file has got one more link. -/
structure Parent (img : Img) (rp ip : Nat) (s : Img) : Prop where
  ne : rp ≠ ip
  mode : (s.inode rp).iMode = (img.inode rp).iMode
  links : (s.inode rp).iNlinks = ((img.inode rp).iNlinks + 1) % 256

/-- The new inode gets an entry for its directory, which then has one more link. -/
theorem daddent_dotDot (hl : Layout img.sb) (hmode : ¬IsSpecial mode) :
    Outcome (fun s => Made img rp mode DIRENT ip s ∧ ∃ b, Dotted ip s b) (daddent ip dotDot rp)
      (fun _ => Parent img rp ip) fun _ => True := by
  refine Outcome.from_state fun s ⟨h, b, hd⟩ => ?_
  have hb : zoneOf s ip (.direct 0) = b := hd.zone
  have hne : zoneOf s ip (.direct 0) ≠ 0 :=
    hb.trans_ne (valid_pos (h.sb ▸ hl) hd.valid).1.ne'
  have hinum : inumOf (mkDirent ip dot) ≠ 0 := by
    rw [inumOf_mkDirent _ (h.inum.2.trans hl.inodes.2)]
    exact h.inum.1.ne'
  unfold daddent
  refine Outcome.read (a := DIRENT)
    (fun s' hs' => by rw [hs']; exact congrArg (fun n => Except.ok (n, s)) h.size) ?_
  have hloop : Returns (fun s' => s' = s) (daddentLoop ip dotDot (entries DIRENT) 0)
      fun r s' => r = some DIRENT ∧ s' = s := by
    have hentries : entries DIRENT = 1 := rfl
    have hlen := length_mkDirent ip dot (by decide)
    have hname : ¬SameName (nameOf (mkDirent ip dot)) dotDot := by
      rw [nameOf_mkDirent_dot]
      decide
    rw [hentries, daddentLoop]
    refine Outcome.read (fun s' hs' => by rw [hs']; exact hd.read hl hmode h) ?_
    dsimp only
    rw [if_neg (not_not.mpr hlen), if_neg hinum, if_neg hname]
    exact Outcome.pure fun s' hs' => ⟨rfl, hs'⟩
  refine Outcome.bind (hloop.errors fun _ hs' => hs'.elim) fun r => Outcome.fact fun hr => ?_
  subst hr
  dsimp only
  have hbmap : Outcome (fun s' => s' = s) (bmap ip 0) (fun z s' => z = b ∧ s' = s)
      fun _ => True := by
    intro s' hs'
    subst hs'
    rw [bmap_mapped (t := .direct 0) rfl hne]
    exact ⟨hb, rfl⟩
  have hwrite := iwrite_entry hl hmode (length_mkDirent rp dotDot (by decide)) h le_rfl hbmap
    fun z s' hq => by obtain ⟨rfl, rfl⟩ := hq; exact ⟨h, hd.zone, hd.valid⟩
  refine Outcome.bind hwrite fun r => Outcome.fact fun hr => ?_
  subst hr
  refine Outcome.pre (P := Made img rp mode (DIRENT + DIRENT) ip) ?_ fun _ hs' => hs'.1
  refine Outcome.ite (fun hne => absurd rfl hne) fun _ => ?_
  refine Outcome.bind (Q := fun _ => Parent img rp ip)
    (Outcome.provided (fun _ => Outcome.modify fun s' hs' => ?_) fun hn => absurd (by decide) hn)
    fun _ => Outcome.pure fun _ => id
  have hself : update s'.inode rp { s'.inode rp with iNlinks := ((s'.inode rp).iNlinks + 1) % 256 }
      rp = { s'.inode rp with iNlinks := ((s'.inode rp).iNlinks + 1) % 256 } := update_self _ _ _
  refine ⟨hs'.ne, ?_, ?_⟩
  all_goals dsimp only
  · rw [hself]
    exact hs'.dir
  · rw [hself, hs'.links]

/-- A directory that has a new file has one more link, as if the file were a directory. -/
theorem icreatLoop_links (hc : Consistent img) (hmode : ¬IsSpecial mode) (fuel : Nat)
    (path : List UInt8) (hrp : 0 < rp ∧ rp < img.sb.sNinodes) :
    Outcome (fun s => s = img) (icreatLoop mode fuel rp path)
      (fun r s => ∀ ip dp, r = some (ip, dp) → dp ≠ ip ∧ S_ISDIR (s.inode dp).iMode ∧
        (s.inode dp).iNlinks = ((img.inode dp).iNlinks + 1) % 256) fun _ => True := by
  induction fuel generalizing rp path with
  | zero => exact Outcome.pure fun _ _ _ _ => nofun
  | succ fuel ih =>
    rw [icreatLoop]
    by_cases hd : S_ISDIR (img.inode rp).iMode
    · have hs := hc.sameDirs_refl
      have hj : IsFile img rp := ⟨hrp, Or.inr hd⟩
      refine Outcome.read (fun s hs' => by rw [hs']; exact (agree_assertDir hs hd).left) ?_
      dsimp only
      refine Outcome.ite (fun _ => Outcome.pure fun _ _ _ _ => nofun) fun _ => ?_
      obtain ⟨r, hr, hrange⟩ := agree_dlookup hs hj hd (skipelem path).1
      refine Outcome.read (fun s hs' => by rw [hs']; exact hr.left) ?_
      refine Outcome.ite (fun _ => ?_) fun _ => ?_
      · refine Outcome.ite (fun _ => Outcome.pure fun _ _ _ _ => nofun) fun _ => ?_
        refine Outcome.bind (ialloc_made (hc.inode rp hj) mode) fun ip => ?_
        refine Outcome.bind (daddent_made (skipelem path).1) fun _ => ?_
        refine Outcome.from_state fun s₁ ⟨h, hzero⟩ => ?_
        refine Outcome.read (a := (img.inode rp).iMode)
          (fun s hs' => by rw [hs']; exact congrArg (fun m => Except.ok (m, s₁)) h.dir) ?_
        refine Outcome.bind (Q := fun _ => Parent img rp ip)
          (Outcome.provided (fun _ => ?_) fun hn => absurd hd hn) fun _ =>
          Outcome.pure fun s hs' ip' dp he => ?_
        · refine Outcome.bind ((daddent_dot hc.layout hmode).pre fun s hs' => hs' ▸ ⟨h, hzero⟩)
            fun _ => Outcome.bind (daddent_dotDot hc.layout hmode) fun _ => ?_
          exact Outcome.pure fun _ => id
        · obtain ⟨rfl, rfl⟩ := Prod.mk.inj (Option.some.inj he)
          exact ⟨hs'.ne, hs'.mode.symm ▸ hd, hs'.links⟩
      · cases hip : r.bind Prod.fst with
        | none => exact Outcome.pure fun _ _ _ _ => nofun
        | some ip =>
          dsimp only
          refine Outcome.read (a := (img.inode ip).iMode) (fun s hs' => by rw [hs']; rfl) ?_
          refine Outcome.ite (fun _ => Outcome.pure fun _ _ _ _ => nofun) fun _ => ?_
          exact ih _ (hrange ip hip)
    · intro s hs'
      subst hs'
      rw [assertDir_error hd]
      trivial

/-- A file that is made makes a link to its directory. -/
theorem Target.made (ht : Target img path none) (hc : Consistent img) : ¬PutGet img path host := by
  rintro ⟨img', ip, hdone⟩
  have hmode : ¬IsSpecial (S_IFREG ||| S_IRWXU) := by decide
  have hput : Outcome (fun s => s = img) (doPut path host)
      (fun r s => r = true → ∃ dp, S_ISDIR (s.inode dp).iMode ∧
        (s.inode dp).iNlinks = ((img.inode dp).iNlinks + 1) % 256) fun _ => True := by
    unfold doPut
    refine Outcome.read (fun s hs => by rw [hs]; exact ht.found) ?_
    dsimp only
    have hcreat := icreatLoop_links hc hmode (path.length + 1) path
      ⟨by decide, hc.layout.inodes.1⟩
    refine Outcome.bind hcreat fun r => ?_
    cases r with
    | none => exact Outcome.pure fun _ _ => nofun
    | some x =>
      obtain ⟨ip, dp⟩ := x
      dsimp only
      refine Outcome.from_state fun s hs => ?_
      obtain ⟨hne, hdir, hlinks⟩ := hs ip dp rfl
      refine Outcome.read (a := s) (fun s' hs' => by rw [hs']; rfl) ?_
      have hstays : Stays ip s (putLoop ip host (blocks s.sb.sMaxSize) 0) := putLoop_stays host _ 0
      refine hstays.conseq (fun s' hs' => by rw [hs']; exact Near.refl ip s) ?_
      intro r s' hn _
      refine ⟨dp, ?_, ?_⟩
      · rw [hn.inode dp hne]
        exact hdir
      · rw [hn.inode dp hne]
        exact hlinks
  have hrun := hput img rfl
  rw [hdone.put] at hrun
  obtain ⟨dp, hdir, hlinks⟩ := hrun rfl
  have hne : dp ≠ ip := by
    rintro rfl
    exact (isDir_ne hdir).2 hdone.type
  have hsame := hdone.links dp hne
  omega

/-- Putting and getting works exactly for files that are there already. -/
theorem put_get_iff {r : Option Nat} (hc : Consistent img) (he : Enough img host)
    (ht : Target img path r) : PutGet img path host ↔ r ≠ none := by
  cases r with
  | none => exact iff_of_false (ht.made hc) (not_not.mpr rfl)
  | some ip => exact iff_of_true (ht.overwritten hc he) (Option.some_ne_none ip)

/-- An image with an empty file `f` in the root directory. -/
def exampleImg : Img where
  sb := ⟨32, 20, 1, 1, 5, 268966912⟩
  imap i := i ≤ 2
  zmap b := b ≤ 1
  inode i :=
    if i = 1 then ⟨0o40755, 48, 2, fun k => if k = 0 then 5 else 0⟩
    else if i = 2 then ⟨0o100644, 0, 1, fun _ => 0⟩
    else ⟨0, 0, 0, fun _ => 0⟩
  block b :=
    if b = 5 then fun x => (mkDirent 1 dot ++ mkDirent 1 dotDot ++ mkDirent 2 [102]).getD x 0
    else fun _ => 0

/-- The files of the example are its root directory and an empty file. -/
theorem exampleImg_file (h : IsFile exampleImg j) : j = 1 ∨ j = 2 := by
  by_contra hne
  obtain ⟨h₁, h₂⟩ := not_or.mp hne
  have hinode : exampleImg.inode j = ⟨0, 0, 0, fun _ => 0⟩ := (if_neg h₁).trans (if_neg h₂)
  have htype := h.type
  rw [hinode] at htype
  exact absurd htype (by decide)

/-- Only the root directory has a block. -/
theorem exampleImg_zone {z : Nat} (h : IsFile exampleImg j) (hz : ZoneOf exampleImg j z) :
    j = 1 ∧ z = 5 := by
  rcases exampleImg_file h with rfl | rfl
  · rcases hz with hz | ⟨hz, t, ht⟩
    · exact absurd hz (not_isIndex_of_roots rfl rfl z)
    · obtain ⟨k, -, hk⟩ := lookup_of_roots rfl rfl (ht.symm ▸ hz)
      have hk : z = if k.val = 0 then 5 else 0 := ht.symm.trans hk
      split at hk
      · exact ⟨rfl, hk⟩
      · exact absurd hk hz
  · rcases hz with hz | ⟨hz, t, ht⟩
    · exact absurd hz (not_isIndex_of_roots rfl rfl z)
    · obtain ⟨k, -, hk⟩ := lookup_of_roots rfl rfl (ht.symm ▸ hz)
      exact absurd (ht.symm.trans hk) hz

/-- The example is consistent. -/
theorem exampleImg_consistent : Consistent exampleImg where
  layout := ⟨by decide, by decide, by decide⟩
  root := by decide
  reserved := by decide
  inode j hj := by
    rcases exampleImg_file hj with rfl | rfl <;> rfl
  size j hj := by
    rcases exampleImg_file hj with rfl | rfl <;> decide
  proper j hj := by
    rcases exampleImg_file hj with rfl | rfl
    · refine proper_of_roots rfl rfl fun i i' hi he => ?_
      have hval (k : Fin NDIRECT) : (rootOf (exampleImg.inode 1)).direct k =
        if k.val = 0 then 5 else 0 := rfl
      rw [hval] at hi he
      rw [hval] at he
      split at hi
      · rename_i h₁
        rw [if_pos h₁] at he
        split at he
        · rename_i h₂
          exact Fin.ext (h₁.trans h₂.symm)
        · cases he
      · exact absurd rfl hi
    · exact proper_of_roots rfl rfl fun i i' hi _ => absurd rfl hi
  zone j hj z hz := by
    obtain ⟨rfl, rfl⟩ := exampleImg_zone hj hz
    decide
  once j j' z hj hj' hz hz' :=
    (exampleImg_zone hj hz).1.trans (exampleImg_zone hj' hz').1.symm
  dir j hj hd q hq := by
    rcases exampleImg_file hj with rfl | rfl
    · have hq : q < 1 := hq
      obtain rfl := Nat.lt_one_iff.mp hq
      exact ⟨.direct 0, rfl, by decide, by decide⟩
    · exact absurd hd (by decide)

/-- It has enough room for 5 bytes. -/
theorem exampleImg_enough {host : List UInt8} (h : host.length = 5) : Enough exampleImg host where
  size := by rw [h]; decide
  blocks := by rw [h]; decide
  inode := ⟨3, by decide, by decide, by decide⟩

/-- The empty file is overwritten. -/
theorem put_get_old : PutGet exampleImg [102] [1, 2, 3, 4, 5] ↔ some 2 ≠ none :=
  put_get_iff exampleImg_consistent (exampleImg_enough rfl) ⟨rfl, by decide⟩

/-- A new file makes another link to the root directory, and has 32 bytes. -/
theorem put_get_new : ¬∀ img path host r, Consistent img → Enough img host → Target img path r →
    PutGet img path host := by
  intro hall
  have hnew : Target exampleImg [103] none := ⟨rfl, fun _ => nofun⟩
  exact hnew.made exampleImg_consistent (hall exampleImg [103] [1, 2, 3, 4, 5] none
    exampleImg_consistent (exampleImg_enough rfl) hnew)

end Minix.Tools
