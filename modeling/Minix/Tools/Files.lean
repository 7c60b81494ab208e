import Mathlib.Data.List.GetD
import Minix.Tools.Zones

/-!
# Reading, writing and truncating

The contents of a file are the bytes that its slots lead to. What is written can be read again, and
needs as many blocks as there are, with the indirect ones.
-/

namespace Minix.Tools

open Function Transition IndexTree

/-- A byte of a file; there are zeros where there is no block. -/
def fileByte (img : Img) (ip o : Nat) : UInt8 :=
  match slotOf NDIRECT NINDIRECT (o / BSIZE) with
  | some t => if zoneOf img ip t = 0 then 0 else img.block (zoneOf img ip t) (o % BSIZE)
  | none => 0

/-- A block of a file is there. -/
def HasBlock (img : Img) (ip q : Nat) : Prop :=
  ∃ t, slotOf NDIRECT NINDIRECT q = some t ∧ zoneOf img ip t ≠ 0 ∧
    validDataBlock img.sb (zoneOf img ip t)

/-- A file without holes. -/
structure Whole (img : Img) (ip : Nat) : Prop where
  type : ¬IsSpecial (img.inode ip).iMode
  size : (img.inode ip).iSize ≤ img.sb.sMaxSize
  blocks : ∀ q < blocks (img.inode ip).iSize, HasBlock img ip q

/-- How many blocks a file has that is made up of so many blocks of data: there are two zones of
indirect blocks, and the second one has others behind it. -/
def needed (k : Nat) : Nat :=
  k + (if 7 < k then 1 else 0) + (if 519 < k then 1 + (k - 519 + 511) / 512 else 0)

variable {img₀ img img' : Img} {ip j k n o q off : Nat} {t : FileSlot} {buf : List UInt8}

/-- The byte at an offset, by the zone of its slot. -/
theorem fileByte_of_slot (ht : slotOf NDIRECT NINDIRECT (o / BSIZE) = some t)
    (hz : zoneOf img ip t ≠ 0) :
    fileByte img ip o = img.block (zoneOf img ip t) (o % BSIZE) := by
  unfold fileByte
  rw [ht]
  exact if_neg hz

/-- The largest size of a file on the image. -/
theorem maxSize_lt (hl : Layout img.sb) : img.sb.sMaxSize ≤ 268966912 := hl.size.2

/-! ## Reading -/

/-- A piece of one block is read in one turn. -/
theorem ireadLoop_block (hb : HasBlock img ip (off / BSIZE)) (hn : off % BSIZE + n ≤ BSIZE) :
    ireadLoop ip n n off img =
      .ok ((List.range n).map fun i => fileByte img ip (off + i), img) := by
  cases n with
  | zero => rfl
  | succ n =>
    obtain ⟨t, ht, hz, hv⟩ := hb
    have hmin : min (n + 1) (BSIZE - off % BSIZE) = n + 1 := Nat.min_eq_left (by omega)
    have hrest (fuel off' : Nat) : ireadLoop ip fuel 0 off' img = .ok ([], img) := by
      cases fuel <;> rfl
    have hbytes : (List.range (n + 1)).map (fun i => fileByte img ip (off + i)) =
        (List.range (n + 1)).map fun i => img.block (zoneOf img ip t) (off % BSIZE + i) := by
      refine List.map_congr_left fun i hi => ?_
      have hi := List.mem_range.mp hi
      dsimp only [BSIZE] at hn ht ⊢
      have hq : (off + i) / 1024 = off / 1024 := by omega
      have hr : (off + i) % 1024 = off % 1024 + i := by omega
      rw [fileByte_of_slot (by rw [hq]; exact ht) hz]
      dsimp only [BSIZE]
      rw [hr]
    have h : Returns (fun s => s = img) (ireadLoop ip (n + 1) (n + 1) off) fun r s =>
        r = (List.range (n + 1)).map (fun i => fileByte img ip (off + i)) ∧ s = img := by
      rw [ireadLoop]
      refine Outcome.ite (fun h => absurd h (Nat.succ_ne_zero n)) fun _ => ?_
      refine Outcome.read (fun s hs => by rw [hs]; exact bmap_mapped ht hz) ?_
      refine Outcome.read (fun s hs => by rw [hs]; rfl) ?_
      refine Outcome.ite (fun _ => ?_) fun h => absurd hv h
      rw [hmin]
      dsimp only
      rw [Nat.sub_self]
      refine Outcome.read (fun s hs => by rw [hs]; exact hrest _ _) ?_
      refine Outcome.pure fun s hs => ⟨?_, hs⟩
      rw [List.append_nil, hbytes]
    obtain ⟨r, s, he, rfl, rfl⟩ := Outcome.returns h rfl
    exact he

/-- What is read of a file without holes. -/
def bytesAt (img : Img) (ip n off : Nat) : List UInt8 :=
  (List.range (min n ((img.inode ip).iSize - off))).map fun i => fileByte img ip (off + i)

/-- `iread` within a block returns the bytes of the file there. -/
theorem iread_whole (hl : Layout img.sb) (hw : Whole img ip) (hoff : off ≤ (img.inode ip).iSize)
    (hn : off % BSIZE + n ≤ BSIZE) :
    iread ip n off img = .ok (some (bytesAt img ip n off), img) := by
  have hsize := hw.size
  have hmax := maxSize_lt hl
  have hu : uint (off + n) = off + n := by
    unfold uint
    dsimp only [BSIZE] at hn
    omega
  have hmin : (if uint (off + n) > (img.inode ip).iSize then (img.inode ip).iSize - off else n) =
      min n ((img.inode ip).iSize - off) := by
    rw [hu]
    split <;> omega
  have hloop : ireadLoop ip (min n ((img.inode ip).iSize - off))
      (min n ((img.inode ip).iSize - off)) off img = .ok (bytesAt img ip n off, img) := by
    by_cases hend : off < (img.inode ip).iSize
    · refine ireadLoop_block (hw.blocks _ ?_) (by omega)
      unfold blocks
      dsimp only [BSIZE]
      omega
    · unfold bytesAt
      have h0 : min n ((img.inode ip).iSize - off) = 0 := by omega
      rw [h0]
      rfl
  have h : Returns (fun s => s = img) (iread ip n off) fun r s =>
      r = some (bytesAt img ip n off) ∧ s = img := by
    unfold iread
    refine Outcome.read (a := img.inode ip) (fun s hs => by rw [hs]; rfl) ?_
    refine Outcome.ite (fun h => absurd h hw.type) fun _ => ?_
    refine Outcome.ite (fun h => by rw [hu] at h; omega) fun _ => ?_
    dsimp only
    rw [hmin]
    refine Outcome.read (fun s hs => by rw [hs]; exact hloop) ?_
    exact Outcome.pure fun s hs => ⟨rfl, hs⟩
  obtain ⟨r, s, he, rfl, rfl⟩ := Outcome.returns h rfl
  exact he

/-! ## Writing -/

/-- The image after something has been done to a block. -/
def withBlock (img : Img) (b : Nat) (f : Block → Block) : Img :=
  { img with block := update img.block b (f (img.block b)) }

/-- The image after a size has been stored. -/
def withSize (img : Img) (ip n : Nat) : Img :=
  { img with inode := update img.inode ip { img.inode ip with iSize := n } }

/-- The zones of a file do not change with a block that is no indirect one. -/
theorem zoneOf_withBlock {z : Nat} (hz : ¬IndexZone img ip z) (f : Block → Block) (t : FileSlot) :
    zoneOf (withBlock img z f) ip t = zoneOf img ip t := by
  unfold zoneOf withBlock
  rw [indOf_update]
  exact lookup_outside hz t

/-- Data of the file may change. -/
theorem Own.store (ho : Own img₀ ip img) (hz : zoneOf img ip t ≠ 0) (f : Block → Block) :
    Own img₀ ip (withBlock img (zoneOf img ip t) f) := by
  have hni := ho.proper.apart t hz
  have hind : indOf (withBlock img (zoneOf img ip t) f) = update (indOf img) (zoneOf img ip t) _ :=
    indOf_update _ _ _
  have huses : ZoneOf (withBlock img (zoneOf img ip t) f) ip = ZoneOf img ip := by
    unfold ZoneOf
    rw [hind]
    exact uses_outside hni
  refine ⟨⟨ho.sb, ho.inode, fun z hz' => ?_, ho.busy, ho.zero⟩, ?_, ?_, ?_⟩
  · have hne : z ≠ zoneOf img ip t := by
      rintro rfl
      exact (ho.zone _ (uses_lookup hz)).2 hz'
    exact (update_of_ne hne _ _).trans (ho.kept z hz')
  · rw [hind]
    exact ho.proper.outside hni
  · rw [huses]
    exact ho.zone
  · rw [huses]
    exact ho.used

/-- The inode after its size has been set. -/
theorem withSize_inode (img : Img) (ip n : Nat) :
    (withSize img ip n).inode ip = { img.inode ip with iSize := n } := update_self _ _ _

/-- Its zone numbers are as before. -/
theorem rootOf_withSize (img : Img) (ip n : Nat) :
    rootOf ((withSize img ip n).inode ip) = rootOf (img.inode ip) := by
  rw [withSize_inode]
  rfl

/-- And so is each zone of the file. -/
theorem zoneOf_withSize (img : Img) (ip n : Nat) (t : FileSlot) :
    zoneOf (withSize img ip n) ip t = zoneOf img ip t := by
  unfold zoneOf
  rw [rootOf_withSize]
  rfl

/-- Setting the size leaves the file in possession of its zones. -/
theorem Own.withSize (ho : Own img₀ ip img) (n : Nat) : Own img₀ ip (withSize img ip n) := by
  have hroot := rootOf_withSize img ip n
  refine ⟨⟨ho.sb, fun j hj => (update_of_ne hj _ _).trans (ho.inode j hj), ho.kept, ho.busy,
    ho.zero⟩, ?_, ?_, ?_⟩
  · rw [hroot]
    exact ho.proper
  · unfold ZoneOf
    rw [hroot]
    exact ho.zone
  · unfold ZoneOf
    rw [hroot]
    exact ho.used

/-- A file that has been written: it has these contents, and no other file has changed. -/
structure Holds (img₀ : Img) (ip : Nat) (content : List UInt8) (img : Img) : Prop where
  own : Own img₀ ip img
  type : S_ISREG (img.inode ip).iMode
  size : (img.inode ip).iSize = content.length
  blocks : ∀ q < blocks content.length, HasBlock img ip q
  bytes : ∀ o < content.length, fileByte img ip o = content.getD o 0

/-- A regular file is no special one. -/
theorem not_special (h : S_ISREG k) : ¬IsSpecial k := by
  unfold S_ISREG at h
  unfold IsSpecial
  rw [h]
  decide

/-- A zone that the file uses is a data zone. -/
theorem Own.hasBlock (ho : Own img₀ ip img) (ht : slotOf NDIRECT NINDIRECT q = some t)
    (hz : zoneOf img ip t ≠ 0) : HasBlock img ip q :=
  ⟨t, ht, hz, ho.sb ▸ (ho.zone _ (uses_lookup hz)).1⟩

/-- The single indirect block is there when it leads to a block. -/
theorem HasBlock.single (h : HasBlock img ip q) (hq : 7 ≤ q ∧ q < 519) :
    (img.inode ip).iZone 7 ≠ 0 := by
  obtain ⟨t, ht, hz, -⟩ := h
  rcases slotOf_cases ht with ⟨i, rfl, rfl⟩ | ⟨j, -, rfl⟩ | ⟨i, j, rfl, rfl⟩
  · exact absurd i.isLt (Nat.not_lt.mpr hq.1)
  · exact fun h => hz (if_pos h)
  · dsimp only [NDIRECT, NINDIRECT] at hq
    omega

/-- So is the double indirect block, with its entry. -/
theorem HasBlock.double (h : HasBlock img ip q) (hq : 519 ≤ q) :
    (img.inode ip).iZone 8 ≠ 0 ∧
      entryOf (img.block ((img.inode ip).iZone 8)) ((q - 519) / 512) ≠ 0 := by
  obtain ⟨t, ht, hz, -⟩ := h
  rcases slotOf_cases ht with ⟨i, rfl, rfl⟩ | ⟨j, rfl, rfl⟩ | ⟨i, j, rfl, rfl⟩
  · have hi := i.isLt
    dsimp only [NDIRECT] at hi
    omega
  · have hj := j.isLt
    dsimp only [NDIRECT, NINDIRECT] at hj hq
    omega
  · have hj := j.isLt
    dsimp only [NDIRECT, NINDIRECT] at hj ⊢
    have hi : (7 + 512 + 512 * i.val + j.val - 519) / 512 = i := by omega
    rw [hi]
    have hd : (img.inode ip).iZone 8 ≠ 0 := fun h => hz (by
      have hroot : (rootOf (img.inode ip)).double = 0 := h
      simp only [zoneOf, lookup]
      rw [hroot, entry_zero, entry_zero])
    refine ⟨hd, fun h => hz ?_⟩
    have he : entry (indOf img) (rootOf (img.inode ip)).double i = 0 := (entry_of_ne hd).trans h
    simp only [zoneOf, lookup]
    rw [he, entry_zero]

/-- How many zones a file of up to seven blocks needs. -/
theorem needed_direct (h : k ≤ 7) : needed k = k := by
  unfold needed
  rw [if_neg (by omega), if_neg (by omega), Nat.add_zero]

/-- How many with a single indirect block. -/
theorem needed_single (h : 7 < k ∧ k ≤ 519) : needed k = k + 1 := by
  unfold needed
  rw [if_pos h.1, if_neg (by omega)]

/-- How many with a double indirect block. -/
theorem needed_double (h : 519 < k) : needed k = k + 2 + (k - 8) / 512 := by
  unfold needed
  rw [if_pos (by omega), if_pos h]
  omega

/-- The blocks of a file that is one block longer. -/
theorem needed_next (hblocks : ∀ q < k, HasBlock img ip q)
    (ht : slotOf NDIRECT NINDIRECT k = some t) :
    needed k + missing img ip t + 1 ≤ needed (k + 1) := by
  rcases slotOf_cases ht with ⟨i, rfl, rfl⟩ | ⟨j, rfl, rfl⟩ | ⟨i, j, rfl, rfl⟩
  · have hi := i.isLt
    dsimp only [NDIRECT, missing] at hi ⊢
    rw [needed_direct (by omega), needed_direct (by omega)]
  · have hj := j.isLt
    dsimp only [NDIRECT, NINDIRECT, missing] at hj hblocks ⊢
    rw [needed_single (k := 7 + j.val + 1) (by omega)]
    by_cases hj₀ : j.val = 0
    · have hcost := cost_le ((img.inode ip).iZone 7)
      rw [needed_direct (by omega)]
      omega
    · have hprev := (hblocks (7 + j.val - 1) (by omega)).single (by omega)
      rw [needed_single (by omega), cost_of_ne hprev]
  · have hi := i.isLt
    have hj := j.isLt
    have hcost := cost_le (entryOf (img.block ((img.inode ip).iZone 8)) i)
    dsimp only [NDIRECT, NINDIRECT, missing] at hi hj hblocks ⊢
    rw [needed_double (k := 7 + 512 + 512 * i.val + j.val + 1) (by omega)]
    by_cases hfirst : 512 * i.val + j.val = 0
    · rw [needed_single (by omega)]
      split <;> omega
    · obtain ⟨hd, he⟩ := (hblocks (7 + 512 + 512 * i.val + j.val - 1) (by omega)).double (by omega)
      rw [needed_double (by omega), if_neg hd]
      by_cases hj₀ : j.val = 0
      · omega
      · have hidx : (7 + 512 + 512 * i.val + j.val - 1 - 519) / 512 = i := by omega
        rw [hidx] at he
        rw [cost_of_ne he]
        omega

/-- A piece that ends in one block is written in one turn. -/
theorem iwriteLoop_turn (buf : List UInt8) (off : Nat) {P : Img → Prop} {Q : Nat → Img → Prop}
    {E : Stop → Prop}
    (hbmap : Outcome P (bmap ip (off / BSIZE)) Q E) (hv : ∀ z s, Q z s → validDataBlock s.sb z)
    (hbuf : 0 < buf.length) (hn : off % BSIZE + buf.length ≤ BSIZE) :
    Outcome P (iwriteLoop ip buf.length buf off)
      (fun r s => r = buf.length ∧ ∃ s₁ z, Q z s₁ ∧
        s = withBlock s₁ z (storeBytes (off % BSIZE) buf)) E := by
  obtain ⟨n, hlen⟩ : ∃ n, buf.length = n + 1 := ⟨buf.length - 1, by omega⟩
  have hmin : min buf.length (BSIZE - off % BSIZE) = buf.length := Nat.min_eq_left (by omega)
  have hrest (fuel off' : Nat) (s : Img) : iwriteLoop ip fuel [] off' s = .ok (0, s) := by
    cases fuel <;> rfl
  conv in iwriteLoop ip _ _ _ => rw [hlen]
  rw [iwriteLoop]
  refine Outcome.ite (fun h => absurd h (by omega)) fun _ => ?_
  refine Outcome.bind hbmap fun z => Outcome.from_state fun s₁ hq => ?_
  refine Outcome.read (fun s hs => by rw [hs]; rfl) ?_
  refine Outcome.ite (fun _ => ?_) fun h => absurd (hv z s₁ hq) h
  rw [hmin]
  dsimp only
  rw [List.take_length, List.drop_length]
  refine Outcome.bind (Q := fun _ s => s = withBlock s₁ z (storeBytes (off % BSIZE) buf))
    (Outcome.modify fun s hs => by rw [hs]; rfl) fun _ => ?_
  refine Outcome.read (fun s hs => hrest _ _ s) ?_
  exact Outcome.pure fun s hs => ⟨Nat.add_zero _, s₁, z, hq, hs⟩

/-- The block that is found is a data block. -/
theorem Found.valid {z : Nat} {s : Img} (hf : Found img₀ ip img t k z s) :
    validDataBlock s.sb z := by
  have hz := hf.grown.own.zone z (hf.name ▸ uses_lookup (hf.name.trans_ne hf.ne))
  rw [hf.grown.own.sb]
  exact hz.1

/-- The zones after both a block and the size have been written. -/
theorem zoneOf_size_block {z : Nat} (hz : ¬IndexZone img ip z) (f : Block → Block) (n : Nat)
    (t : FileSlot) : zoneOf (withSize (withBlock img z f) ip n) ip t = zoneOf img ip t :=
  (zoneOf_withSize _ _ _ _).trans (zoneOf_withBlock hz f t)

/-- A byte that has been stored. -/
theorem storeBytes_inside {blk : Block} (h : off ≤ o) (h' : o < off + buf.length) :
    storeBytes off buf blk o = buf.getD (o - off) 0 := if_pos ⟨h, h'⟩

/-- What is in a file after a block of data has been added at its end. -/
theorem Holds.append {content : List UInt8} {s₁ : Img} {z : Nat}
    (h : Holds img₀ ip content img) (hmul : content.length % BSIZE = 0)
    (ht : slotOf NDIRECT NINDIRECT (content.length / BSIZE) = some t)
    (hbuf : 0 < buf.length ∧ buf.length ≤ BSIZE) (hf : Found img₀ ip img t k z s₁) :
    Holds img₀ ip (content ++ buf)
      (withSize (withBlock s₁ z (storeBytes (content.length % BSIZE) buf)) ip
        (content.length + buf.length)) := by
  obtain ⟨hz, hname, hg⟩ := hf
  have hne : zoneOf s₁ ip t ≠ 0 := hname.trans_ne hz
  have hni : ¬IndexZone s₁ ip z := hname ▸ hg.own.proper.apart t hne
  have hnames := zoneOf_size_block hni (storeBytes (content.length % BSIZE) buf)
    (content.length + buf.length)
  have hown : Own img₀ ip (withSize (withBlock s₁ z (storeBytes (content.length % BSIZE) buf)) ip
      (content.length + buf.length)) := by
    have hstore := hg.own.store hne (storeBytes (content.length % BSIZE) buf)
    rw [hname] at hstore
    exact hstore.withSize _
  have hblock : ∀ q < Tools.blocks content.length, ∃ t', slotOf NDIRECT NINDIRECT q = some t' ∧
      t' ≠ t ∧ zoneOf img ip t' ≠ 0 := by
    intro q hq
    obtain ⟨t', ht', hz', -⟩ := h.blocks q hq
    refine ⟨t', ht', fun he => ?_, hz'⟩
    have hq' := slotOf_inj (he ▸ ht') ht
    unfold Tools.blocks at hq
    dsimp only [BSIZE] at hmul hq hq'
    omega
  refine ⟨hown, ?_, ?_, fun q hq => ?_, fun o ho => ?_⟩
  · rw [withSize_inode]
    have hmode := h.type
    rw [← hg.mode] at hmode
    exact hmode
  · rw [withSize_inode, List.length_append]
  · rw [List.length_append] at hq
    by_cases hlast : q = content.length / BSIZE
    · exact hown.hasBlock (hlast ▸ ht) ((hnames t).trans_ne hne)
    · obtain ⟨t', ht', -, hz'⟩ := hblock q (by
        unfold Tools.blocks at hq ⊢
        dsimp only [BSIZE] at hmul hbuf hq hlast ⊢
        omega)
      exact hown.hasBlock ht' ((hnames t').trans_ne ((hg.names t' hz').trans_ne hz'))
  · rw [List.length_append] at ho
    by_cases hold : o < content.length
    · obtain ⟨t', ht', htt, hz'⟩ := hblock (o / BSIZE) (by
        unfold Tools.blocks
        dsimp only [BSIZE]
        omega)
      have hz₁ : zoneOf s₁ ip t' ≠ 0 := (hg.names t' hz').trans_ne hz'
      have hzz : zoneOf s₁ ip t' ≠ z := fun he =>
        htt (hg.own.proper.inj t' t hz₁ (he.trans hname.symm))
      rw [fileByte_of_slot ht' ((hnames t').trans_ne hz₁), hnames]
      have hbytes := h.bytes o hold
      rw [fileByte_of_slot ht' hz', ← hg.data t' hz', ← hg.names t' hz'] at hbytes
      rw [List.getD_append _ _ _ _ hold, ← hbytes]
      exact congrFun (update_of_ne hzz _ _) _
    · have hq : o / BSIZE = content.length / BSIZE := by
        dsimp only [BSIZE] at hmul hbuf ⊢
        omega
      have hr : content.length % BSIZE ≤ o % BSIZE ∧
          o % BSIZE < content.length % BSIZE + buf.length ∧
          o % BSIZE - content.length % BSIZE = o - content.length := by
        dsimp only [BSIZE] at hmul hbuf ⊢
        omega
      rw [fileByte_of_slot (hq ▸ ht) ((hnames t).trans_ne hne), hnames, hname,
        List.getD_append_right _ _ _ _ (Nat.le_of_not_lt hold), ← hr.2.2]
      refine Eq.trans (congrFun (update_self (β := fun _ => Block) _ _ _) _) ?_
      exact storeBytes_inside hr.1 hr.2.1

/-- Neither takes a zone from the free ones. -/
theorem free_size_block (img : Img) (z n : Nat) (f : Block → Block) :
    free (withSize (withBlock img z f) ip n) = free img := rfl

/-- The blocks of a file up to a block that is not full. -/
theorem blocks_add (hmul : n % BSIZE = 0) (hk : 0 < k ∧ k ≤ BSIZE) :
    blocks (n + k) = n / BSIZE + 1 := by
  unfold blocks
  dsimp only [BSIZE] at hmul hk ⊢
  omega

/-- A block of data is added at the end of a file. -/
theorem iwrite_holds {content : List UInt8} (buf : List UInt8) (hl : Layout img₀.sb)
    (h : Holds img₀ ip content img)
    (hmul : content.length % BSIZE = 0) (hbuf : buf.length ≤ BSIZE)
    (hmax : content.length + buf.length ≤ img₀.sb.sMaxSize) :
    Outcome (fun s => s = img) (iwrite ip buf content.length)
      (fun r s => r = some buf.length ∧ Holds img₀ ip (content ++ buf) s ∧
        free img + needed (content.length / BSIZE) ≤
          free s + needed (blocks (content.length + buf.length)))
      fun _ => free img + needed (content.length / BSIZE) <
        needed (blocks (content.length + buf.length)) := by
  have hmax' := maxSize_lt hl
  have hu : uint (content.length + buf.length) = content.length + buf.length :=
    uint_of_lt (by omega)
  unfold iwrite
  refine Outcome.read (a := img.inode ip) (fun s hs => by rw [hs]; rfl) ?_
  refine Outcome.ite (fun hs => absurd hs (not_special h.type)) fun _ => ?_
  refine Outcome.read (a := img) (fun s hs => by rw [hs]; rfl) ?_
  refine Outcome.ite (fun hs => ?_) fun _ => ?_
  · rw [hu, h.size, h.own.sb] at hs
    omega
  · rcases Nat.eq_zero_or_pos buf.length with hzero | hpos
    · obtain rfl := List.length_eq_zero_iff.mp hzero
      have hloop : iwriteLoop ip 0 [] content.length img = .ok (0, img) := rfl
      refine Outcome.read (fun s hs => by rw [hs]; exact hloop) ?_
      refine Outcome.read (a := (img.inode ip).iSize) (fun s hs => by rw [hs]; rfl) ?_
      refine Outcome.bind (Q := fun _ s => s = img)
        (Outcome.provided (fun hs => absurd hs.1 (Nat.lt_irrefl 0)) fun _ _ => id)
        fun _ => Outcome.pure fun s hs => ?_
      subst hs
      refine ⟨rfl, by rw [List.append_nil]; exact h, le_of_eq ?_⟩
      unfold blocks
      dsimp only [BSIZE] at hmul ⊢
      congr 2
      rw [List.length_nil]
      omega
    · obtain ⟨t, ht⟩ : ∃ t, slotOf NDIRECT NINDIRECT (content.length / BSIZE) = some t := by
        refine slotOf_isSome ?_
        dsimp only [BSIZE, NDIRECT, NINDIRECT]
        omega
      have hfit : content.length % BSIZE + buf.length ≤ BSIZE := by omega
      have hnext := needed_next (k := content.length / BSIZE) (fun q hq => h.blocks q (by
        unfold blocks
        dsimp only [BSIZE] at hq ⊢
        omega)) ht
      rw [blocks_add hmul ⟨hpos, hbuf⟩]
      have hturn := iwriteLoop_turn buf _ (bmap_spec hl h.own ht) (fun _ _ hf => hf.valid) hpos hfit
      refine Outcome.bind (hturn.errors fun _ hs => by omega) fun r => Outcome.fact fun hr =>
        Outcome.from_state ?_
      rintro s ⟨s₁, z, hf, rfl⟩
      subst hr
      have hold : ((withBlock s₁ z (storeBytes (content.length % BSIZE) buf)).inode ip).iSize =
          content.length := hf.grown.size.trans h.size
      refine Outcome.read (a := content.length)
        (fun s hs => by rw [hs]; exact congrArg _ (congrArg (·, _) hold)) ?_
      refine Outcome.bind (Q := fun _ s => s = withSize
        (withBlock s₁ z (storeBytes (content.length % BSIZE) buf)) ip
          (content.length + buf.length))
        (Outcome.provided (fun _ => Outcome.modify fun s hs => by rw [hs]; rfl)
          fun hs => absurd ⟨hpos, by omega⟩ hs)
        fun _ => Outcome.pure fun s hs => ?_
      subst hs
      refine ⟨rfl, h.append hmul ht ⟨hpos, hbuf⟩ hf, ?_⟩
      have hfree := hf.grown.free
      rw [free_size_block]
      omega

/-- A longer file needs no fewer zones. -/
theorem needed_mono (h : k ≤ n) : needed k ≤ needed n := by
  rcases Nat.lt_or_ge 519 k with hk | hk
  · rw [needed_double hk, needed_double (hk.trans_le h)]
    omega
  rcases Nat.lt_or_ge 7 k with hk' | hk'
  · rw [needed_single ⟨hk', hk⟩]
    rcases Nat.lt_or_ge 519 n with hn | hn
    · rw [needed_double hn]
      omega
    · rw [needed_single ⟨hk'.trans_le h, hn⟩]
      omega
  · rw [needed_direct hk']
    unfold needed
    omega

/-- The host file is copied block by block, and nothing goes wrong when there are enough of them. -/
theorem putLoop_holds {host : List UInt8} {fuel : Nat} (hl : Layout img₀.sb)
    (hhost : host.length ≤ img₀.sb.sMaxSize) (hk : fuel + k = blocks img₀.sb.sMaxSize)
    (hle : BSIZE * k ≤ host.length) (h : Holds img₀ ip (host.take (BSIZE * k)) img)
    (hfree : needed (blocks host.length) ≤ free img + needed k) :
    Returns (fun s => s = img) (putLoop ip host fuel (BSIZE * k)) fun r s =>
      r = true ∧ Holds img₀ ip host s := by
  induction fuel generalizing k img with
  | zero =>
    have hall : host.length ≤ BSIZE * k := by
      unfold blocks at hk
      dsimp only [BSIZE] at hk ⊢
      omega
    rw [List.take_of_length_le hall] at h
    exact Outcome.pure fun s hs => ⟨rfl, hs ▸ h⟩
  | succ fuel ih =>
    have hlen : (host.take (BSIZE * k)).length = BSIZE * k := by
      rw [List.length_take, Nat.min_eq_left hle]
    have hbuf : ((host.drop (BSIZE * k)).take BSIZE).length =
        min BSIZE (host.length - BSIZE * k) := by
      rw [List.length_take, List.length_drop]
    have hwrite := iwrite_holds ((host.drop (BSIZE * k)).take BSIZE) hl h
      (by rw [hlen]; exact Nat.mul_mod_right _ _) (by rw [hbuf]; exact Nat.min_le_left _ _)
      (by rw [hlen, hbuf]; omega)
    have hdiv : BSIZE * k / BSIZE = k := Nat.mul_div_cancel_left k (by decide)
    have hmono : needed (blocks (BSIZE * k + min BSIZE (host.length - BSIZE * k))) ≤
        needed (blocks host.length) := needed_mono (by
      unfold blocks
      dsimp only [BSIZE] at hle ⊢
      omega)
    rw [hlen, hdiv, hbuf] at hwrite
    rw [putLoop]
    refine Outcome.bind (hwrite.errors fun _ hs => absurd (hmono.trans hfree) (not_le.mpr hs))
      fun r => Outcome.fact fun hr => Outcome.from_state ?_
    rintro s ⟨hs, hfree'⟩
    subst hr
    rw [hbuf]
    refine Outcome.ite (fun hne => absurd rfl hne) fun _ => ?_
    refine Outcome.ite (fun hlast => ?_) fun hfull => ?_
    · have hall : host.take (BSIZE * k) ++ (host.drop (BSIZE * k)).take BSIZE = host := by
        rw [List.take_of_length_le (l := host.drop (BSIZE * k)), List.take_append_drop]
        rw [List.length_drop]
        omega
      rw [hall] at hs
      exact Outcome.pure fun s' hs' => ⟨rfl, hs' ▸ hs⟩
    · have hnext : BSIZE * (k + 1) = BSIZE * k + BSIZE := Nat.mul_succ _ _
      have hmin : min BSIZE (host.length - BSIZE * k) = BSIZE := by omega
      rw [← List.take_add, ← hnext] at hs
      rw [hmin, ← hnext] at hfree'
      have hblocks : blocks (BSIZE * (k + 1)) = k + 1 := by
        unfold blocks
        dsimp only [BSIZE]
        omega
      rw [hblocks] at hfree'
      rw [← hnext]
      exact ih (by omega) (by omega) hs (by omega)

/-! ## Truncating -/

/-- While the zones of a file are freed, the other files and the blocks stay as they are. -/
structure Freeing (img₀ : Img) (ip : Nat) (img : Img) (i : Inode) (s : Img) : Prop where
  frame : Frame img₀ ip s
  block : s.block = img.block
  free : free img ≤ free s
  inode : s.inode ip = i

/-- A zone that may be freed. -/
def Spare (img₀ : Img) (ip z : Nat) : Prop := validDataBlock img₀.sb z ∧ ¬Foreign img₀ ip z

/-- A zone of the file belongs to nobody else. -/
theorem Own.spare (ho : Own img₀ ip img) {z : Nat} (hz : ZoneOf img ip z) : Spare img₀ ip z :=
  ho.zone z hz

variable {z : Nat} {i : Inode}

/-- The zones of others have bits of their own in the map. -/
theorem foreign_valid (hf : ∀ z, Foreign img₀ ip z → validDataBlock img₀.sb z) (hl : Layout img₀.sb)
    {y : Nat} (hy : Foreign img₀ ip y) (hz : Spare img₀ ip z) :
    bitOf img₀.sb y ≠ bitOf img₀.sb z :=
  fun h => hz.2 (bitOf_inj hl (hf y hy) hz.1 h ▸ hy)

section Freeing

variable (hl : Layout img₀.sb) (hf : ∀ z, Foreign img₀ ip z → validDataBlock img₀.sb z)

include hl hf

/-- `bfree` of a zone of the file, as a step of the release. -/
theorem bfree_freeing (hz : Spare img₀ ip z) :
    Returns (Freeing img₀ ip img i) (bfree z) fun _ => Freeing img₀ ip img i := by
  refine Outcome.from_state fun s h => ?_
  have hsb := h.frame.sb
  refine (bfree_spec (hsb.symm ▸ hl) (hsb.symm ▸ hz.1)).post fun _ s' hs => ?_
  subst hs
  have hbit := bitOf_range hl hz.1
  refine ⟨⟨hsb, h.frame.inode, h.frame.kept, fun y hy => ?_, ?_⟩, h.block, h.free.trans ?_, h.inode⟩
  · dsimp only
    rw [hsb, update_of_ne (foreign_valid hf hl hy hz)]
    exact h.frame.busy y hy
  · dsimp only
    rw [hsb, update_of_ne (by omega)]
    exact h.frame.zero
  · refine Finset.card_le_card fun b hb => ?_
    obtain ⟨hle, hoff⟩ := mem_freeBits.mp hb
    refine mem_freeBits.mpr ⟨hle, ?_⟩
    dsimp only
    by_cases hbz : b = bitOf s.sb z
    · rw [hbz, update_self]
    · rw [update_of_ne hbz, hoff]

/-- A block of zone numbers is gone through. -/
theorem freeEntries_freeing {f : Nat → Tool Unit} (hz : Spare img₀ ip z)
    (h : ∀ j < NINDIRECT, entryOf (img.block z) j ≠ 0 →
      Returns (Freeing img₀ ip img i) (f (entryOf (img.block z) j)) fun _ =>
        Freeing img₀ ip img i) :
    Returns (Freeing img₀ ip img i) (freeEntries z f) fun _ => Freeing img₀ ip img i := by
  have hturn (j : Nat) (hj : j < NINDIRECT) : Returns (Freeing img₀ ip img i)
      (do let e ← entryAt z j; provided (e ≠ 0) (f e)) fun _ => Freeing img₀ ip img i := by
    refine Outcome.read (a := entryOf (img.block z) j) (fun s hs => ?_) ?_
    · rw [entryAt_eq, hs.block]
    · exact Outcome.provided (h j hj) fun _ _ => id
  unfold freeEntries
  generalize NINDIRECT = n at hturn
  exact Outcome.bind (Outcome.forM_range (P := fun _ => Freeing img₀ ip img i) hturn)
    fun _ => bfree_freeing hl hf hz

/-- `free_ind`, given that its entries are zones of the file. -/
theorem freeInd_freeing (hz : Spare img₀ ip z)
    (h : ∀ j < NINDIRECT, entryOf (img.block z) j ≠ 0 → Spare img₀ ip (entryOf (img.block z) j)) :
    Returns (Freeing img₀ ip img i) (freeInd z) fun _ => Freeing img₀ ip img i := by
  unfold freeInd
  exact freeEntries_freeing hl hf hz fun j hj he => bfree_freeing hl hf (h j hj he)

/-- `free_dind`, given the same of the entries of its entries. -/
theorem freeDind_freeing (hz : Spare img₀ ip z)
    (h : ∀ j < NINDIRECT, entryOf (img.block z) j ≠ 0 → Spare img₀ ip (entryOf (img.block z) j) ∧
      ∀ k < NINDIRECT, entryOf (img.block (entryOf (img.block z) j)) k ≠ 0 →
        Spare img₀ ip (entryOf (img.block (entryOf (img.block z) j)) k)) :
    Returns (Freeing img₀ ip img i) (freeDind z) fun _ => Freeing img₀ ip img i := by
  unfold freeDind
  exact freeEntries_freeing hl hf hz fun j hj he =>
    freeInd_freeing hl hf (h j hj he).1 (h j hj he).2

omit hl hf in
/-- A zone number of the inode is cleared after the zone has been freed. -/
theorem dropZone_freeing {f : Nat → Tool Unit} (k : Nat)
    (h : i.iZone k ≠ 0 →
      Returns (Freeing img₀ ip img i) (f (i.iZone k)) fun _ => Freeing img₀ ip img i) :
    Returns (Freeing img₀ ip img i) (dropZone ip k f) fun _ =>
      Freeing img₀ ip img (setZoneOf k 0 i) := by
  unfold dropZone
  refine Outcome.read (a := i.iZone k) (fun s hs => ?_) ?_
  · rw [zoneAt_eq, hs.inode]
  · refine Outcome.provided (fun hz => Outcome.bind (h hz) fun _ => ?_) fun hz s hs => ?_
    · refine (setZone_spec k).post fun _ s' hs' => ?_
      obtain ⟨s, hs, rfl⟩ := hs'
      refine ⟨⟨hs.frame.sb, fun j hj => ?_, hs.frame.kept, hs.frame.busy, hs.frame.zero⟩, hs.block,
        hs.free, ?_⟩
      · exact (update_of_ne hj _ _).trans (hs.frame.inode j hj)
      · exact (update_self _ _ _).trans (congrArg _ hs.inode)
    · have hsame : setZoneOf k 0 i = i := by
        unfold setZoneOf
        rw [← not_not.mp hz, update_eq_self]
      rw [hsame]
      exact hs

end Freeing

/-- The first zone numbers have been cleared. -/
def cleared (i : Inode) (n : Nat) : Inode :=
  { i with iZone := fun k => if k < n then 0 else i.iZone k }

/-- One more zone number is cleared. -/
theorem cleared_succ (i : Inode) (n : Nat) : setZoneOf n 0 (cleared i n) = cleared i (n + 1) := by
  unfold setZoneOf cleared
  dsimp only
  congr 1
  funext k
  by_cases hk : k = n
  · rw [hk, update_self, if_pos (Nat.lt_succ_self n)]
  · rw [update_of_ne hk]
    by_cases hlt : k < n
    · rw [if_pos hlt, if_pos (Nat.lt_succ_of_lt hlt)]
    · rw [if_neg hlt, if_neg (by omega)]

/-- The next zone number is not cleared yet. -/
theorem cleared_iZone (i : Inode) (n : Nat) : (cleared i n).iZone n = i.iZone n :=
  if_neg (Nat.lt_irrefl n)

/-- A file without zones is empty. -/
theorem Frame.empty (h : Frame img₀ ip img) (hmode : S_ISREG (img.inode ip).iMode)
    (hsize : (img.inode ip).iSize = 0) (hzero : ∀ k < 9, (img.inode ip).iZone k = 0) :
    Holds img₀ ip [] img := by
  have hs : (rootOf (img.inode ip)).single = 0 := hzero 7 (by decide)
  have hd : (rootOf (img.inode ip)).double = 0 := hzero 8 (by decide)
  have hdirect (k : Fin NDIRECT) : (rootOf (img.inode ip)).direct k = 0 :=
    hzero k (k.isLt.trans (by decide))
  have hnone (z : Nat) : ¬ZoneOf img ip z := by
    rintro (hz | ⟨hz, t, ht⟩)
    · exact not_isIndex_of_roots hs hd z hz
    · obtain ⟨k, -, hk⟩ := lookup_of_roots hs hd (ht.symm ▸ hz)
      exact hz (ht.symm.trans (hk.trans (hdirect k)))
  refine ⟨⟨h, proper_of_roots hs hd fun k _ hk => absurd (hdirect k) hk,
    fun z hz => absurd hz (hnone z), fun z hz => absurd hz (hnone z)⟩, hmode, hsize,
    fun q hq => absurd hq (Nat.not_lt_zero q), fun o ho => absurd ho (Nat.not_lt_zero o)⟩

/-- The zones that the slots of a file lead to are its own. -/
theorem Own.spare_zone (ho : Own img₀ ip img) (k : Nat) (hk : k < 9)
    (hz : (img.inode ip).iZone k ≠ 0) : Spare img₀ ip ((img.inode ip).iZone k) := by
  refine ho.spare ?_
  by_cases hk₇ : k < NDIRECT
  · exact uses_lookup (s := .direct ⟨k, hk₇⟩) hz
  · dsimp only [NDIRECT] at hk₇
    obtain rfl | rfl : k = 7 ∨ k = 8 := by omega
    · exact Or.inl (.single hz)
    · exact Or.inl (.double hz)

/-- The entries of the single indirect block are zones of the file. -/
theorem Own.spare_single (ho : Own img₀ ip img) (hz : (img.inode ip).iZone 7 ≠ 0) (j : Nat)
    (hj : j < NINDIRECT) (he : entryOf (img.block ((img.inode ip).iZone 7)) j ≠ 0) :
    Spare img₀ ip (entryOf (img.block ((img.inode ip).iZone 7)) j) := by
  have hname : zoneOf img ip (.single ⟨j, hj⟩) = entryOf (img.block ((img.inode ip).iZone 7)) j :=
    entry_of_ne hz
  exact ho.spare (hname ▸ uses_lookup (hname.trans_ne he))

/-- So are those of the double indirect block and of the blocks it names. -/
theorem Own.spare_double (ho : Own img₀ ip img) (hz : (img.inode ip).iZone 8 ≠ 0) (j : Nat)
    (hj : j < NINDIRECT) (he : entryOf (img.block ((img.inode ip).iZone 8)) j ≠ 0) :
    Spare img₀ ip (entryOf (img.block ((img.inode ip).iZone 8)) j) ∧
      ∀ k < NINDIRECT,
        entryOf (img.block (entryOf (img.block ((img.inode ip).iZone 8)) j)) k ≠ 0 →
        Spare img₀ ip (entryOf (img.block (entryOf (img.block ((img.inode ip).iZone 8)) j)) k) := by
  have hentry : entry (indOf img) (rootOf (img.inode ip)).double ⟨j, hj⟩ =
      entryOf (img.block ((img.inode ip).iZone 8)) j := entry_of_ne hz
  constructor
  · have hindex := IsIndex.entry (r := rootOf (img.inode ip)) ⟨j, hj⟩ (hentry.trans_ne he)
    rw [hentry] at hindex
    exact ho.spare (Or.inl hindex)
  · intro k hk hek
    have hname := (double_leaf rfl hz (i := ⟨j, hj⟩) rfl ⟨k, hk⟩).lookup.trans (entry_of_ne he)
    have hname : zoneOf img ip (.double ⟨j, hj⟩ ⟨k, hk⟩) =
      entryOf (img.block (entryOf (img.block ((img.inode ip).iZone 8)) j)) k := hname
    exact ho.spare (hname ▸ uses_lookup (hname.trans_ne hek))

/-- All the zones of a file are freed, and it is empty then. -/
theorem itruncate_empty (hl : Layout img₀.sb)
    (hf : ∀ z, Foreign img₀ ip z → validDataBlock img₀.sb z) (ho : Own img₀ ip img)
    (hmode : S_ISREG (img.inode ip).iMode) :
    Returns (fun s => s = img) (itruncate ip 0) fun _ s =>
      Holds img₀ ip [] s ∧ free img ≤ free s := by
  have hstart : Freeing img₀ ip img (cleared (img.inode ip) 0) img :=
    ⟨ho.toFrame, rfl, le_rfl, rfl⟩
  have hdirect : ∀ k < NDIRECT, Returns (Freeing img₀ ip img (cleared (img.inode ip) k))
      (dropZone ip k bfree) fun _ => Freeing img₀ ip img (cleared (img.inode ip) (k + 1)) := by
    intro k hk
    rw [← cleared_succ]
    refine dropZone_freeing k fun hz => ?_
    rw [cleared_iZone] at hz ⊢
    exact bfree_freeing hl hf (ho.spare_zone k (hk.trans (by decide)) hz)
  have hsingle : Returns (Freeing img₀ ip img (cleared (img.inode ip) 7))
      (dropZone ip 7 freeInd) fun _ => Freeing img₀ ip img (cleared (img.inode ip) 8) := by
    rw [← cleared_succ _ 7]
    refine dropZone_freeing 7 fun hz => ?_
    rw [cleared_iZone] at hz ⊢
    exact freeInd_freeing hl hf (ho.spare_zone 7 (by decide) hz) (ho.spare_single hz)
  have hdouble : Returns (Freeing img₀ ip img (cleared (img.inode ip) 8))
      (dropZone ip 8 freeDind) fun _ => Freeing img₀ ip img (cleared (img.inode ip) 9) := by
    rw [← cleared_succ _ 8]
    refine dropZone_freeing 8 fun hz => ?_
    rw [cleared_iZone] at hz ⊢
    exact freeDind_freeing hl hf (ho.spare_zone 8 (by decide) hz) (ho.spare_double hz)
  unfold itruncate
  refine Outcome.read (a := (img.inode ip).iMode) (fun s hs => by rw [hs]; rfl) ?_
  refine Outcome.ite (fun h => absurd h (not_special hmode)) fun _ => ?_
  refine Outcome.ite (fun h => absurd rfl h) fun _ => ?_
  refine Outcome.bind ((Outcome.forM_range hdirect).pre fun s hs => hs ▸ hstart) fun _ => ?_
  refine Outcome.bind hsingle fun _ => Outcome.bind hdouble fun _ => ?_
  refine Outcome.bind (Q := fun _ s => Holds img₀ ip [] s ∧ free img ≤ free s)
    (Outcome.modify fun s hs => ?_) fun _ => Outcome.pure fun s hs => hs
  have hinode : (update s.inode ip { s.inode ip with iSize := 0 }) ip =
      { cleared (img.inode ip) 9 with iSize := 0 } :=
    (update_self _ _ _).trans (by rw [hs.inode])
  refine ⟨Frame.empty ⟨hs.frame.sb, fun j hj => (update_of_ne hj _ _).trans (hs.frame.inode j hj),
    hs.frame.kept, hs.frame.busy, hs.frame.zero⟩ ?_ ?_ ?_, hs.free⟩
  all_goals dsimp only
  · rw [hinode]
    exact hmode
  · rw [hinode]
  · intro k hk
    rw [hinode]
    exact if_pos hk

end Minix.Tools
