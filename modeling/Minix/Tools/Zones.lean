import Mathlib.Data.Finset.Card
import Minix.Lib.IndexTree
import Minix.Tools.Image

/-!
# The zones of a file in an image

While the tool works on one file, the zones of the other files stay as they are. The zones of the
file itself are a tree of index blocks, in which nothing is linked twice, and which grows by blocks
that have been free.
-/

namespace Minix.Tools

open Function Transition IndexTree

/-- The entries of a block, when it is taken as an indirect block. -/
def indOf (img : Img) (z : Nat) (j : Fin NINDIRECT) : Nat := entryOf (img.block z) j

/-- The zone numbers that are in an inode. -/
def rootOf (i : Inode) : Root Nat NDIRECT where
  direct k := i.iZone k
  single := i.iZone 7
  double := i.iZone 8

/-- The slots for the zones of a file. -/
abbrev FileSlot := Slot NDIRECT NINDIRECT

/-- The zone of a slot. -/
abbrev zoneOf (img : Img) (ip : Nat) : FileSlot → Nat := lookup (indOf img) (rootOf (img.inode ip))

/-- The indirect blocks of a file. -/
abbrev IndexZone (img : Img) (ip : Nat) : Nat → Prop := IsIndex (indOf img) (rootOf (img.inode ip))

/-- The zones of a file. -/
abbrev ZoneOf (img : Img) (ip : Nat) : Nat → Prop := Uses (indOf img) (rootOf (img.inode ip))

/-- Regular files and directories have zones. -/
structure IsFile (img : Img) (ip : Nat) : Prop where
  inum : 0 < ip ∧ ip < img.sb.sNinodes
  type : S_ISREG (img.inode ip).iMode ∨ S_ISDIR (img.inode ip).iMode

/-- The bit of a data zone. -/
def bitOf (sb : Superblock) (z : Nat) : Nat := z + 1 - sb.sFirstdatazone

/-- A super block that makes sense: all of its numbers are 16 bits wide but for the maximal size,
which is what the zones of an inode have room for at most. -/
structure Layout (sb : Superblock) : Prop where
  zones : 0 < sb.sFirstdatazone ∧ sb.sFirstdatazone ≤ sb.sNzones ∧ sb.sNzones < 65536
  inodes : rootInode < sb.sNinodes ∧ sb.sNinodes < 65536
  size : BSIZE ≤ sb.sMaxSize ∧
    sb.sMaxSize ≤ (NDIRECT + NINDIRECT + NINDIRECT * NINDIRECT) * BSIZE

/-- The zones of the other files. -/
def Foreign (img : Img) (ip z : Nat) : Prop := ∃ j, j ≠ ip ∧ IsFile img j ∧ ZoneOf img j z

/-- The free bits of the zone map. -/
def freeBits (img : Img) : Finset Nat :=
  (Finset.range (datasize img.sb + 1)).filter fun b => img.zmap b = false

/-- The number of free blocks. -/
def free (img : Img) : Nat := (freeBits img).card

/-- A block has been allocated. -/
def claim (img : Img) (z : Nat) : Img :=
  { img with
    zmap := update img.zmap (bitOf img.sb z) true
    block := update img.block z fun _ => 0 }

/-- What stays the same of `img₀` while the tool works on a file. -/
structure Frame (img₀ : Img) (ip : Nat) (img : Img) : Prop where
  sb : img.sb = img₀.sb
  inode : ∀ j ≠ ip, img.inode j = img₀.inode j
  kept : ∀ z, Foreign img₀ ip z → img.block z = img₀.block z
  busy : ∀ z, Foreign img₀ ip z → img.zmap (bitOf img₀.sb z) = true
  zero : img.zmap 0 = true

/-- The zones of the file are its own. -/
structure Own (img₀ : Img) (ip : Nat) (img : Img) : Prop extends Frame img₀ ip img where
  proper : Proper (indOf img) (rootOf (img.inode ip))
  zone : ∀ z, ZoneOf img ip z → validDataBlock img₀.sb z ∧ ¬Foreign img₀ ip z
  used : ∀ z, ZoneOf img ip z → img.zmap (bitOf img₀.sb z) = true

variable {img₀ img img' img'' : Img} {sb : Superblock} {ip j k n v z z' : Nat} {blk : Block}
  {s : FileSlot}

/-! ## Zone numbers -/

/-- A number of 32 bits is not cut. -/
theorem uint_of_lt (h : n < 2 ^ 32) : uint n = n := Nat.mod_eq_of_lt h

/-- Data blocks are those from the first data zone on. -/
theorem valid_iff (hl : Layout sb) :
    validDataBlock sb z ↔ sb.sFirstdatazone ≤ z ∧ z < sb.sNzones := by
  obtain ⟨h₁, h₂, h₃⟩ := hl.zones
  have hu : uint (sb.sNzones + 2 ^ 32 - 1) = sb.sNzones - 1 := by
    unfold uint
    omega
  unfold validDataBlock
  rw [hu]
  omega

/-- The number of data blocks. -/
theorem datasize_eq (hl : Layout sb) : datasize sb = sb.sNzones - sb.sFirstdatazone := by
  obtain ⟨h₁, h₂, h₃⟩ := hl.zones
  unfold datasize uint
  omega

/-- The bits of data zones differ, and are in the map behind the first one. -/
theorem bitOf_range (hl : Layout sb) (hz : validDataBlock sb z) :
    0 < bitOf sb z ∧ bitOf sb z ≤ datasize sb := by
  have hz := (valid_iff hl).mp hz
  rw [datasize_eq hl]
  unfold bitOf
  omega

/-- Each data block has a bit of its own. -/
theorem bitOf_inj (hl : Layout sb) (hz : validDataBlock sb z) (hz' : validDataBlock sb z')
    (h : bitOf sb z = bitOf sb z') : z = z' := by
  have hz := (valid_iff hl).mp hz
  have hz' := (valid_iff hl).mp hz'
  unfold bitOf at h
  omega

/-- The number of a data block is a positive word. -/
theorem valid_pos (hl : Layout sb) (hz : validDataBlock sb z) : 0 < z ∧ z < 65536 := by
  have hz := (valid_iff hl).mp hz
  have hlay := hl.zones
  omega

/-! ## Entries -/

/-- An entry that was set is read back. -/
theorem entryOf_setEntryOf_self (h : z < 65536) : entryOf (setEntryOf j z blk) j = z := by
  have hne : 2 * j ≠ 2 * j + 1 := by omega
  unfold entryOf setEntryOf
  rw [update_of_ne hne, update_self, update_self, UInt8.toNat_ofNat', UInt8.toNat_ofNat']
  omega

/-- The others stay. -/
theorem entryOf_setEntryOf_of_ne (h : k ≠ j) : entryOf (setEntryOf j z blk) k = entryOf blk k := by
  unfold entryOf setEntryOf
  rw [update_of_ne (by omega), update_of_ne (by omega), update_of_ne (by omega),
    update_of_ne (by omega)]

/-- The entries of a block of zeros are zero. -/
theorem entryOf_zero (j : Nat) : entryOf (fun _ => 0) j = 0 := by
  unfold entryOf
  rw [UInt8.toNat_zero, Nat.zero_mul]

/-- The entries of a block that is replaced. -/
theorem indOf_update (img : Img) (z : Nat) (data : Block) :
    indOf { img with block := update img.block z data } =
      update (indOf img) z fun j => entryOf data j := by
  funext z' j
  unfold indOf
  dsimp only
  by_cases hz : z' = z
  · subst hz
    rw [update_self, update_self]
  · rw [update_of_ne hz, update_of_ne hz]

/-- An empty block has no entries. -/
theorem indOf_claim (img : Img) (z : Nat) :
    indOf (claim img z) = update (indOf img) z fun _ => 0 := by
  have h := indOf_update img z fun _ => 0
  simp only [entryOf_zero] at h
  exact h

/-- An entry is stored. -/
theorem indOf_setEntry (img : Img) (z : Nat) (j : Fin NINDIRECT) (hv : v < 65536) :
    indOf { img with block := update img.block z (setEntryOf j v (img.block z)) } =
      update (indOf img) z (update (indOf img z) j v) := by
  rw [indOf_update]
  congr 1
  funext k
  by_cases hk : k = j
  · subst hk
    rw [update_self, entryOf_setEntryOf_self hv]
  · rw [update_of_ne hk, entryOf_setEntryOf_of_ne fun h => hk (Fin.ext h)]
    rfl

/-! ## Allocation -/

/-- A free bit is a clear one of the map. -/
theorem mem_freeBits {b : Nat} :
    b ∈ freeBits img ↔ b ≤ datasize img.sb ∧ img.zmap b = false := by
  unfold freeBits
  rw [Finset.mem_filter, Finset.mem_range, Nat.lt_succ_iff]

/-- A data zone that is free. -/
structure Fresh (img : Img) (z : Nat) : Prop where
  valid : validDataBlock img.sb z
  free : img.zmap (bitOf img.sb z) = false

/-- One block less is free when one is claimed. -/
theorem free_claim (hl : Layout img.sb) (hf : Fresh img z) : free img = free (claim img z) + 1 := by
  have hrange := bitOf_range hl hf.valid
  have herase : freeBits (claim img z) = (freeBits img).erase (bitOf img.sb z) := by
    ext b
    rw [Finset.mem_erase, mem_freeBits, mem_freeBits]
    change b ≤ datasize img.sb ∧ update img.zmap (bitOf img.sb z) true b = false ↔ _
    by_cases hb : b = bitOf img.sb z
    · subst hb
      rw [update_self]
      exact ⟨fun h => absurd h.2 (by decide), fun h => absurd rfl h.1⟩
    · rw [update_of_ne hb]
      exact ⟨fun h => ⟨hb, h⟩, And.right⟩
  have hmem : bitOf img.sb z ∈ freeBits img := mem_freeBits.mpr ⟨hrange.2, hf.free⟩
  unfold free
  rw [herase, Finset.card_erase_of_mem hmem]
  have hpos := Finset.card_pos.mpr ⟨_, hmem⟩
  omega

/-- Fatal errors come from an image without free blocks. -/
theorem balloc_spec (hl : Layout img.sb) (hzero : img.zmap 0 = true) :
    Outcome (fun s => s = img) balloc (fun z s => Fresh img z ∧ s = claim img z)
      fun _ => free img = 0 := by
  unfold balloc
  refine Outcome.read (fun s hs => by rw [hs]; rfl) ?_
  cases hfind : firstFree img.zmap (datasize img.sb) with
  | none =>
    refine Outcome.throw fun _ _ => Finset.card_eq_zero.mpr (Finset.eq_empty_of_forall_notMem ?_)
    intro b hb
    obtain ⟨hle, hoff⟩ := mem_freeBits.mp hb
    have hon := List.find?_eq_none.mp hfind b (List.mem_range.mpr (by omega))
    rw [hoff] at hon
    exact hon rfl
  | some b =>
    have hoff : img.zmap b = false := by
      have h := List.find?_some hfind
      rwa [Bool.not_eq_true'] at h
    have hle := List.mem_range.mp (List.mem_of_find?_eq_some hfind)
    have hpos : b ≠ 0 := fun h => by rw [h, hzero] at hoff; cases hoff
    obtain ⟨h₁, h₂, h₃⟩ := hl.zones
    rw [datasize_eq hl] at hle
    have hblk : uint (b + img.sb.sFirstdatazone + 2 ^ 32 - 1) = b + img.sb.sFirstdatazone - 1 := by
      unfold uint
      omega
    dsimp only
    rw [hblk]
    have hvalid : validDataBlock img.sb (b + img.sb.sFirstdatazone - 1) :=
      (valid_iff hl).mpr (by omega)
    have hbit : bitOf img.sb (b + img.sb.sFirstdatazone - 1) = b := by
      unfold bitOf
      omega
    refine Outcome.bind (Q := fun _ s => s = { img with zmap := update img.zmap b true })
      (Outcome.modify fun s hs => by rw [hs]) fun _ => ?_
    refine Outcome.ite (fun _ => ?_) fun h => absurd hvalid h
    refine Outcome.bind (Q := fun _ s => s = claim img (b + img.sb.sFirstdatazone - 1))
      (Outcome.modify fun s hs => ?_) fun _ => Outcome.pure fun s hs => ?_
    · unfold claim
      rw [hs, hbit]
    · exact ⟨⟨hvalid, hbit.symm ▸ hoff⟩, hs⟩

/-- A block that is freed is not one of another file. -/
theorem bfree_spec (hl : Layout img.sb) (hv : validDataBlock img.sb z) :
    Returns (fun s => s = img) (bfree z) fun _ s =>
      s = { img with zmap := update img.zmap (bitOf img.sb z) false } := by
  have hz := (valid_iff hl).mp hv
  have hlay := hl.zones
  have hbit : uint (z + 2 ^ 32 - img.sb.sFirstdatazone + 1) = bitOf img.sb z := by
    unfold uint bitOf
    omega
  unfold bfree
  refine Outcome.read (fun s hs => by rw [hs]; rfl) ?_
  refine Outcome.ite (fun _ => ?_) fun h => absurd hv h
  dsimp only
  rw [hbit]
  exact Outcome.modify fun s hs => by rw [hs]

/-! ## The tree of a file grows -/

/-- A free block is no zone of the file. -/
theorem Own.not_zone (ho : Own img₀ ip img) (hf : Fresh img z) : ¬ZoneOf img ip z := fun h => by
  have hbusy := ho.used z h
  rw [← ho.sb, hf.free] at hbusy
  cases hbusy

/-- Nor is it one of another file. -/
theorem Frame.not_foreign (h : Frame img₀ ip img) (hf : Fresh img z) : ¬Foreign img₀ ip z :=
  fun hz => by
    have hbusy := h.busy z hz
    rw [← h.sb, hf.free] at hbusy
    cases hbusy

/-- What is kept of a file when a block or none is added to its zones: all the numbers that there
were, the data, and what else is in the inode. -/
structure Grown (img₀ : Img) (ip : Nat) (img : Img) (k : Nat) (img' : Img) : Prop where
  own : Own img₀ ip img'
  mode : (img'.inode ip).iMode = (img.inode ip).iMode
  size : (img'.inode ip).iSize = (img.inode ip).iSize
  names : ∀ t, zoneOf img ip t ≠ 0 → zoneOf img' ip t = zoneOf img ip t
  data : ∀ t, zoneOf img ip t ≠ 0 → img'.block (zoneOf img ip t) = img.block (zoneOf img ip t)
  free : free img ≤ free img' + k

/-- A file that stays as it is. -/
theorem Grown.refl (ho : Own img₀ ip img) (k : Nat) : Grown img₀ ip img k img :=
  ⟨ho, rfl, rfl, fun _ _ => rfl, fun _ _ => rfl, Nat.le_add_right _ _⟩

/-- A file that grows twice. -/
theorem Grown.trans (h : Grown img₀ ip img k img') (h' : Grown img₀ ip img' n img'') :
    Grown img₀ ip img (k + n) img'' where
  own := h'.own
  mode := h'.mode.trans h.mode
  size := h'.size.trans h.size
  names t ht := by
    have hname := h.names t ht
    exact (h'.names t (hname ▸ ht)).trans hname
  data t ht := by
    have hname := h.names t ht
    have hdata := h'.data t (hname ▸ ht)
    rw [hname] at hdata
    exact hdata.trans (h.data t ht)
  free := by
    have h₁ := h.free
    have h₂ := h'.free
    omega

/-- A fresh block has been put in the tree. -/
structure Added (ip : Nat) (img : Img) (z : Nat) (img' : Img) : Prop where
  sb : img'.sb = img.sb
  inode : ∀ j ≠ ip, img'.inode j = img.inode j
  mode : (img'.inode ip).iMode = (img.inode ip).iMode
  size : (img'.inode ip).iSize = (img.inode ip).iSize
  zmap : img'.zmap = (claim img z).zmap
  block : ∀ y, y ≠ z → ¬IndexZone img ip y → img'.block y = img.block y
  proper : Proper (indOf img') (rootOf (img'.inode ip))
  zone : ∀ y, ZoneOf img' ip y → y = z ∨ ZoneOf img ip y
  names : ∀ t, zoneOf img ip t ≠ 0 → zoneOf img' ip t = zoneOf img ip t

/-- A file that grows by one block. -/
theorem Added.grown (hl : Layout img₀.sb) (ho : Own img₀ ip img) (hf : Fresh img z)
    (h : Added ip img z img') : Grown img₀ ip img 1 img' := by
  have hnot := ho.not_zone hf
  have hforeign := ho.not_foreign hf
  have hbit := bitOf_range hl (ho.sb ▸ hf.valid)
  have hfree : Tools.free img' = Tools.free (claim img z) := by
    unfold Tools.free freeBits
    rw [h.sb, h.zmap]
    rfl
  have hzmap (b : Nat) (hb : img.zmap b = true) : img'.zmap b = true := by
    rw [h.zmap]
    change update img.zmap (bitOf img.sb z) true b = true
    by_cases hbz : b = bitOf img.sb z
    · rw [hbz, update_self]
    · rw [update_of_ne hbz, hb]
  have hframe : Frame img₀ ip img' := by
    refine ⟨h.sb.trans ho.sb, fun j hj => (h.inode j hj).trans (ho.inode j hj), fun y hy => ?_,
      fun y hy => hzmap _ (ho.busy y hy), hzmap 0 ho.zero⟩
    exact (h.block y (fun he => hforeign (he ▸ hy))
      fun hi => (ho.zone y (Or.inl hi)).2 hy).trans (ho.kept y hy)
  refine ⟨⟨hframe, h.proper, fun y hy => ?_, fun y hy => ?_⟩, h.mode, h.size, h.names,
    fun t ht => ?_, ?_⟩
  · rcases h.zone y hy with rfl | hy
    · exact ⟨ho.sb ▸ hf.valid, hforeign⟩
    · exact ho.zone y hy
  · rcases h.zone y hy with rfl | hy
    · rw [h.zmap, ← ho.sb]
      exact update_self _ _ _
    · exact hzmap _ (ho.used y hy)
  · exact h.block _ (fun he => hnot (he ▸ uses_lookup ht)) (ho.proper.apart t ht)
  · rw [hfree, free_claim (ho.sb ▸ hl) hf]

/-- What a missing block costs. -/
def cost (z : Nat) : Nat := if z = 0 then 1 else 0

/-- A zone number is looked up, and added when it is missing; and then it can be found, as `F` says
in more detail. -/
theorem orAlloc_spec {look : Tool Nat} {store : Nat → Tool Unit} {F : Nat → Img → Prop}
    (hl : Layout img₀.sb) (ho : Own img₀ ip img) (hlook : look img = .ok (z, img)) (hF : F z img)
    (hstore : z = 0 → ∀ b, Fresh img b → Returns (fun s => s = claim img b) (store b) fun _ s =>
      Added ip img b s ∧ F b s) :
    Outcome (fun s => s = img) (orAlloc look store)
      (fun b s => b ≠ 0 ∧ F b s ∧ Grown img₀ ip img (cost z) s)
      fun _ => z = 0 ∧ free img = 0 := by
  unfold orAlloc
  refine Outcome.read (fun s hs => by rw [hs, hlook]) (Outcome.ite (fun hz => ?_) fun hz => ?_)
  · refine Outcome.bind ((balloc_spec (ho.sb ▸ hl) ho.zero).errors fun _ h => ⟨hz, h⟩) fun b => ?_
    refine Outcome.fact fun hf => ?_
    refine Outcome.bind ((hstore hz b hf).errors fun _ h => h.elim) fun _ => ?_
    refine Outcome.pure fun s hs => ⟨?_, hs.2, ?_⟩
    · exact (valid_pos (ho.sb ▸ hl) hf.valid).1.ne'
    · rw [hz]
      exact hs.1.grown hl ho hf
  · refine Outcome.pure fun s hs => ?_
    subst hs
    exact ⟨hz, hF, Grown.refl ho _⟩

/-- Nothing is added when the number is there. -/
theorem orAlloc_found {look : Tool Nat} {store : Nat → Tool Unit} (hlook : look img = .ok (z, img))
    (hz : z ≠ 0) : orAlloc look store img = .ok (z, img) := by
  have h : Returns (fun s => s = img) (orAlloc look store) fun b s => b = z ∧ s = img := by
    unfold orAlloc
    refine Outcome.read (fun s hs => by rw [hs, hlook]) ?_
    refine Outcome.ite (fun h => absurd h hz) fun _ => ?_
    exact Outcome.pure fun s hs => ⟨rfl, hs⟩
  obtain ⟨b, s, he, rfl, rfl⟩ := Outcome.returns h rfl
  exact he

/-! ## The places of zone numbers -/

/-- The single indirect block is set. -/
theorem rootOf_single (i : Inode) (z : Nat) :
    rootOf (setZoneOf 7 z i) = { rootOf i with single := z } := by
  unfold rootOf
  congr 1
  · funext k
    exact update_of_ne (by have := k.isLt; dsimp only [NDIRECT] at this; omega) _ _

/-- The double indirect block is set. -/
theorem rootOf_double (i : Inode) (z : Nat) :
    rootOf (setZoneOf 8 z i) = { rootOf i with double := z } := by
  unfold rootOf
  congr 1
  · funext k
    exact update_of_ne (by have := k.isLt; dsimp only [NDIRECT] at this; omega) _ _

/-- A direct zone is set. -/
theorem rootOf_direct (i : Inode) (k : Fin NDIRECT) (z : Nat) :
    rootOf (setZoneOf k z i) =
      { rootOf i with direct := update (rootOf i).direct k z } := by
  have hk := k.isLt
  dsimp only [NDIRECT] at hk
  unfold rootOf setZoneOf
  dsimp only
  congr 1
  · funext k'
    by_cases hkk : k' = k
    · rw [hkk, update_self, update_self]
    · rw [update_of_ne hkk, update_of_ne fun h => hkk (Fin.ext h)]
  · exact update_of_ne (by omega) _ _
  · exact update_of_ne (by omega) _ _

/-- The image after a zone number has been stored in an inode. -/
def withZone (img : Img) (ip k z : Nat) : Img :=
  { img with inode := update img.inode ip (setZoneOf k z (img.inode ip)) }

/-- A zone number is read. -/
theorem zoneAt_eq (img : Img) (ip k : Nat) :
    zoneAt ip k img = .ok ((img.inode ip).iZone k, img) := rfl

/-- A zone number is set. -/
theorem setZone_spec {P : Img → Prop} (k : Nat) :
    Returns P (setZone ip k z) fun _ s' => ∃ s, P s ∧ s' = withZone s ip k z :=
  fun s hs => ⟨s, hs, rfl⟩

/-- It is read back. -/
theorem withZone_iZone (img : Img) (ip k z : Nat) :
    ((withZone img ip k z).inode ip).iZone k = z := by
  have hinode : (withZone img ip k z).inode ip = setZoneOf k z (img.inode ip) := update_self _ _ _
  rw [hinode]
  exact update_self _ _ _

/-- A fresh block is entered in the inode. -/
theorem added_zone (r : Root Nat NDIRECT)
    (hroot : rootOf (setZoneOf k z (img.inode ip)) = r)
    (hproper : Proper (indOf (claim img z)) r)
    (hzone : ∀ y, Uses (indOf (claim img z)) r y → y = z ∨ ZoneOf img ip y)
    (hnames : ∀ t, zoneOf img ip t ≠ 0 → lookup (indOf (claim img z)) r t = zoneOf img ip t) :
    Added ip img z (withZone (claim img z) ip k z) := by
  have hinode : (withZone (claim img z) ip k z).inode ip = setZoneOf k z (img.inode ip) :=
    update_self _ _ _
  have hind : indOf (withZone (claim img z) ip k z) = indOf (claim img z) := rfl
  refine ⟨rfl, fun j hj => update_of_ne hj _ _, by rw [hinode]; rfl, by rw [hinode]; rfl, rfl,
    fun y hy _ => update_of_ne hy _ _, ?_, ?_, ?_⟩
  · rw [hinode, hroot, hind]
    exact hproper
  · unfold ZoneOf
    rw [hinode, hroot, hind]
    exact hzone
  · unfold zoneOf
    rw [hinode, hroot, hind]
    exact hnames

/-- An entry of the image after one has been stored in a block. -/
def withEntry (img : Img) (b j z : Nat) : Img :=
  { img with block := update img.block b (setEntryOf j z (img.block b)) }

/-- An entry is set. -/
theorem setEntry_spec {P : Img → Prop} {b : Nat} :
    Returns P (setEntry b j z) fun _ s' => ∃ s, P s ∧ s' = withEntry s b j z :=
  fun s hs => ⟨s, hs, rfl⟩

/-- An entry is read. -/
theorem entryAt_eq (img : Img) (b j : Nat) :
    entryAt b j img = .ok (entryOf (img.block b) j, img) := rfl

/-- It is read back. -/
theorem withEntry_entryOf (img : Img) (b j : Nat) (hz : z < 65536) :
    entryOf ((withEntry img b j z).block b) j = z := by
  have hblock : (withEntry img b j z).block b = setEntryOf j z (img.block b) := update_self _ _ _
  rw [hblock, entryOf_setEntryOf_self hz]

/-- A fresh block is entered in a block of the tree. -/
theorem added_entry {d : Nat} (j : Fin NINDIRECT) (hlt : z < 65536) (hd : IndexZone img ip d)
    (hproper : Proper (update (indOf (claim img z)) d (update (indOf (claim img z) d) j z))
      (rootOf (img.inode ip)))
    (hzone : ∀ y, Uses (update (indOf (claim img z)) d (update (indOf (claim img z) d) j z))
      (rootOf (img.inode ip)) y → y = z ∨ ZoneOf img ip y)
    (hnames : ∀ t, zoneOf img ip t ≠ 0 →
      lookup (update (indOf (claim img z)) d (update (indOf (claim img z) d) j z))
        (rootOf (img.inode ip)) t = zoneOf img ip t) :
    Added ip img z (withEntry (claim img z) d j z) := by
  have hind : indOf (withEntry (claim img z) d j z) =
      update (indOf (claim img z)) d (update (indOf (claim img z) d) j z) :=
    indOf_setEntry (claim img z) d j hlt
  refine ⟨rfl, fun _ _ => rfl, rfl, rfl, rfl, fun y hy hyi => ?_, ?_, ?_, ?_⟩
  · have hyd : y ≠ d := fun h => hyi (h ▸ hd)
    exact (update_of_ne hyd _ _).trans (update_of_ne hy _ _)
  · rw [hind]
    exact hproper
  · unfold ZoneOf
    rw [hind]
    exact hzone
  · unfold zoneOf
    rw [hind]
    exact hnames

section Places

variable (hl : Layout img₀.sb) (ho : Own img₀ ip img)

include hl ho

/-- What is known of a fresh block. -/
theorem Own.fresh (hf : Fresh img z) :
    z ≠ 0 ∧ z < 65536 ∧ ¬ZoneOf img ip z ∧ ¬IndexZone img ip z := by
  have hpos := valid_pos (ho.sb ▸ hl) hf.valid
  exact ⟨hpos.1.ne', hpos.2, ho.not_zone hf, fun h => ho.not_zone hf (Or.inl h)⟩

/-- A direct zone is there or gets allocated. -/
theorem direct_spec (k : Fin NDIRECT) :
    Outcome (fun s => s = img) (orAlloc (zoneAt ip k) (setZone ip k))
      (fun b s => b ≠ 0 ∧ zoneOf s ip (.direct k) = b ∧
        Grown img₀ ip img (cost (zoneOf img ip (.direct k))) s)
      fun _ => zoneOf img ip (.direct k) = 0 ∧ free img = 0 := by
  refine orAlloc_spec hl ho (zoneAt_eq img ip k) rfl fun hz b hf => ?_
  obtain ⟨hb, -, hnot, hni⟩ := ho.fresh hl hf
  refine Outcome.post (setZone_spec _) fun _ s hs => ?_
  obtain ⟨-, rfl, rfl⟩ := hs
  refine ⟨?_, withZone_iZone _ _ _ _⟩
  have hproper := ho.proper.outside (e := fun _ => 0) hni
  have hstored := stored_direct (v := b) hproper.separate k
  have huses : ¬Uses (update (indOf img) b fun _ => 0) (rootOf (img.inode ip)) b := by
    rw [uses_outside hni]
    exact hnot
  refine added_zone _ (rootOf_direct _ k b) ?_ ?_ ?_
  · rw [indOf_claim]
    exact hstored.proper hproper huses
  · rw [indOf_claim]
    intro y hy
    have hy := hstored.uses hy
    rw [uses_outside hni] at hy
    exact hy
  · rw [indOf_claim]
    intro t ht
    rw [hstored.names, lookup_outside hni]
    refine if_neg fun he => ht ?_
    rw [he]
    exact hz

/-- So does the single indirect block. -/
theorem single_spec :
    Outcome (fun s => s = img) (orAlloc (zoneAt ip 7) (setZone ip 7))
      (fun b s => b ≠ 0 ∧ (s.inode ip).iZone 7 = b ∧
        Grown img₀ ip img (cost ((img.inode ip).iZone 7)) s)
      fun _ => (img.inode ip).iZone 7 = 0 ∧ free img = 0 := by
  refine orAlloc_spec hl ho (zoneAt_eq img ip 7) rfl fun hz b hf => ?_
  obtain ⟨hb, -, hnot, hni⟩ := ho.fresh hl hf
  refine Outcome.post (setZone_spec _) fun _ s hs => ?_
  obtain ⟨-, rfl, rfl⟩ := hs
  have hlinked := link_single hb hni ho.proper.separate hz
  refine ⟨added_zone _ (rootOf_single _ b) ?_ ?_ ?_, withZone_iZone _ _ _ _⟩
  · rw [indOf_claim]
    exact hlinked.proper ho.proper hnot
  · rw [indOf_claim]
    exact fun y hy => hlinked.uses hy
  · rw [indOf_claim]
    exact fun t _ => hlinked.names t

/-- So does the double indirect block. -/
theorem double_spec :
    Outcome (fun s => s = img) (orAlloc (zoneAt ip 8) (setZone ip 8))
      (fun b s => b ≠ 0 ∧ (s.inode ip).iZone 8 = b ∧
        Grown img₀ ip img (cost ((img.inode ip).iZone 8)) s)
      fun _ => (img.inode ip).iZone 8 = 0 ∧ free img = 0 := by
  refine orAlloc_spec hl ho (zoneAt_eq img ip 8) rfl fun hz b hf => ?_
  obtain ⟨hb, -, hnot, hni⟩ := ho.fresh hl hf
  refine Outcome.post (setZone_spec _) fun _ s hs => ?_
  obtain ⟨-, rfl, rfl⟩ := hs
  have hlinked := link_double hb hni hz
  refine ⟨added_zone _ (rootOf_double _ b) ?_ ?_ ?_, withZone_iZone _ _ _ _⟩
  · rw [indOf_claim]
    exact hlinked.proper ho.proper hnot
  · rw [indOf_claim]
    exact fun y hy => hlinked.uses hy
  · rw [indOf_claim]
    exact fun t _ => hlinked.names t

/-- An indirect block that the double indirect one is to have. -/
theorem entry_spec {d : Nat} (hd : (img.inode ip).iZone 8 = d) (hd₀ : d ≠ 0) (i : Fin NINDIRECT) :
    Outcome (fun s => s = img) (orAlloc (entryAt d i) (setEntry d i))
      (fun b s => b ≠ 0 ∧ (entryOf (s.block d) i = b ∧ (s.inode ip).iZone 8 = d) ∧
        Grown img₀ ip img (cost (entryOf (img.block d) i)) s)
      fun _ => entryOf (img.block d) i = 0 ∧ free img = 0 := by
  have hroot : (rootOf (img.inode ip)).double = d := hd
  have hindex : IndexZone img ip d := hroot ▸ .double (hroot.trans_ne hd₀)
  refine orAlloc_spec hl ho (entryAt_eq img d i) ⟨rfl, hd⟩ fun hz b hf => ?_
  obtain ⟨hb, hlt, hnot, hni⟩ := ho.fresh hl hf
  refine Outcome.post setEntry_spec fun _ s hs => ?_
  obtain ⟨-, rfl, rfl⟩ := hs
  have hdb : d ≠ b := fun h => hni (h ▸ hindex)
  have hlinked := link_entry (i := i) hb hni ho.proper.separate (hroot.trans_ne hd₀)
    ((entry_of_ne (hroot.trans_ne hd₀)).trans (by rw [hroot]; exact hz))
  rw [hroot, update_comm hdb] at hlinked
  have hsame : indOf (claim img b) d = indOf img d := by
    rw [indOf_claim, update_of_ne hdb]
  refine ⟨added_entry i hlt hindex ?_ ?_ ?_, withEntry_entryOf _ _ _ hlt, hd⟩
  · rw [hsame, indOf_claim]
    exact hlinked.proper ho.proper hnot
  · rw [hsame, indOf_claim]
    exact fun y hy => hlinked.uses hy
  · rw [hsame, indOf_claim]
    exact fun t _ => hlinked.names t

/-- The last step: a data block. -/
theorem leaf_spec {d : Nat} {j : Fin NINDIRECT} {t : FileSlot}
    (hleaf : Leaf (indOf img) (rootOf (img.inode ip)) t d j) (hd : d ≠ 0) :
    Outcome (fun s => s = img) (orAlloc (entryAt d j) (setEntry d j))
      (fun b s => b ≠ 0 ∧ (entryOf (s.block d) j = b ∧ zoneOf s ip t = b) ∧
        Grown img₀ ip img (cost (zoneOf img ip t)) s)
      fun _ => zoneOf img ip t = 0 ∧ free img = 0 := by
  have hindex := hleaf.isIndex hd
  have hname : zoneOf img ip t = entryOf (img.block d) j := hleaf.lookup.trans (entry_of_ne hd)
  rw [hname]
  refine orAlloc_spec hl ho (entryAt_eq img d j) ⟨rfl, hname⟩ fun hz b hf => ?_
  obtain ⟨hb, hlt, hnot, hni⟩ := ho.fresh hl hf
  refine Outcome.post setEntry_spec fun _ s hs => ?_
  obtain ⟨-, rfl, rfl⟩ := hs
  have hproper := ho.proper.outside (e := fun _ => 0) hni
  have hstored := stored_leaf (v := b) hproper.separate (hleaf.outside hni) hd
  have huses : ¬Uses (update (indOf img) b fun _ => 0) (rootOf (img.inode ip)) b := by
    rw [uses_outside hni]
    exact hnot
  refine ⟨added_entry j hlt hindex ?_ ?_ ?_, withEntry_entryOf _ _ _ hlt, ?_⟩
  · rw [indOf_claim]
    exact hstored.proper hproper huses
  · rw [indOf_claim]
    intro y hy
    have hy := hstored.uses hy
    rw [uses_outside hni] at hy
    exact hy
  · rw [indOf_claim]
    intro t' ht'
    rw [hstored.names, lookup_outside hni]
    refine if_neg fun he => ht' ?_
    rw [he]
    exact hname.trans hz
  · unfold zoneOf withEntry
    rw [indOf_setEntry (claim img b) d j hlt, indOf_claim]
    exact (hstored.names t).trans (if_pos rfl)

end Places

/-- At most one block is allocated for a zone. -/
theorem cost_le (z : Nat) : cost z ≤ 1 := by
  unfold cost
  split <;> decide

/-- None for one that is there. -/
theorem cost_of_ne (h : z ≠ 0) : cost z = 0 := if_neg h

/-- A file that grows by at most so many blocks. -/
theorem Grown.mono (h : Grown img₀ ip img k img') (hk : k ≤ n) : Grown img₀ ip img n img' :=
  { h with free := h.free.trans (Nat.add_le_add_left hk _) }

/-- How many indirect blocks are missing on the way to a slot. -/
def missing (img : Img) (ip : Nat) : FileSlot → Nat
  | .direct _ => 0
  | .single _ => cost ((img.inode ip).iZone 7)
  | .double i _ =>
    if (img.inode ip).iZone 8 = 0 then 2 else cost (entryOf (img.block ((img.inode ip).iZone 8)) i)

/-- `bmap` has found or added a block for a slot. -/
structure Found (img₀ : Img) (ip : Nat) (img : Img) (t : FileSlot) (k z : Nat) (s : Img) :
    Prop where
  ne : z ≠ 0
  name : zoneOf s ip t = z
  grown : Grown img₀ ip img k s

/-- A zone in an indirect block that is there. -/
theorem leaf_found (hl : Layout img₀.sb) {d : Nat} {j : Fin NINDIRECT} {t : FileSlot} {s : Img}
    (hg : Grown img₀ ip img k s) (hleaf : Leaf (indOf s) (rootOf (s.inode ip)) t d j) (hd : d ≠ 0) :
    Outcome (fun s' => s' = s) (do let _ ← orAlloc (entryAt d j) (setEntry d j); entryAt d j)
      (Found img₀ ip img t (k + 1)) fun _ => free img ≤ k := by
  refine Outcome.bind ((leaf_spec hl hg.own hleaf hd).errors fun _ h => ?_) fun b => ?_
  · have hfree := hg.free
    omega
  · rintro s' ⟨hb, ⟨hentry, hname⟩, hg'⟩
    exact ⟨hentry ▸ hb, hname.trans hentry.symm, hg.trans (hg'.mono (cost_le _))⟩

/-- A slot behind an entry of the double indirect block. -/
theorem double_leaf {d b : Nat} {i : Fin NINDIRECT} (hz : (img.inode ip).iZone 8 = d) (hd : d ≠ 0)
    (hentry : entryOf (img.block d) i = b) (j : Fin NINDIRECT) :
    Leaf (indOf img) (rootOf (img.inode ip)) (.double i j) b j := by
  have hroot : (rootOf (img.inode ip)).double = d := hz
  have he : entry (indOf img) (rootOf (img.inode ip)).double i = b := by
    rw [hroot, entry_of_ne hd]
    exact hentry
  exact he ▸ .double i j

/-- The block of a slot is found, or added with the indirect blocks that are missing. -/
theorem bmap_spec (hl : Layout img₀.sb) (ho : Own img₀ ip img) {t : FileSlot}
    (ht : slotOf NDIRECT NINDIRECT n = some t) :
    Outcome (fun s => s = img) (bmap ip n) (Found img₀ ip img t (missing img ip t + 1))
      fun _ => free img ≤ missing img ip t := by
  unfold bmap
  rcases slotOf_cases ht with ⟨i, rfl, rfl⟩ | ⟨j, rfl, rfl⟩ | ⟨i, j, rfl, rfl⟩
  · rw [if_pos i.isLt]
    refine ((direct_spec hl ho i).post ?_).errors fun _ h => h.2.le
    rintro b s ⟨hb, hname, hg⟩
    exact ⟨hb, hname, hg.mono (by have := cost_le (zoneOf img ip (.direct i)); omega)⟩
  · have hj : NDIRECT + j.val - 7 = j := Nat.add_sub_cancel_left ..
    rw [if_neg (Nat.not_lt.mpr (Nat.le_add_right ..)), hj, if_pos j.isLt]
    refine Outcome.bind ((single_spec hl ho).errors fun _ h => h.2.le.trans (Nat.zero_le _))
      fun d => Outcome.from_state ?_
    rintro s ⟨hd, hz, hg⟩
    refine leaf_found hl hg ?_ hd
    have hroot : (rootOf (s.inode ip)).single = d := hz
    exact hroot ▸ .single j
  · have hi := i.isLt
    have hj := j.isLt
    dsimp only [NDIRECT, NINDIRECT] at hi hj ⊢
    have hn : 7 + 512 + 512 * i.val + j.val - 7 - 512 = 512 * i.val + j.val := by omega
    have hq : (512 * i.val + j.val) / 512 = i := by omega
    have hr : (512 * i.val + j.val) % 512 = j := by omega
    rw [if_neg (by omega), if_neg (by omega), hn, if_pos (by omega), hq, hr]
    by_cases hd : (img.inode ip).iZone 8 = 0
    · have hmissing : missing img ip (.double i j) = 2 := if_pos hd
      rw [hmissing]
      refine Outcome.bind ((double_spec hl ho).errors fun _ h => h.2.le.trans (Nat.zero_le _))
        fun d => Outcome.from_state ?_
      rintro s ⟨hd', hz, hg⟩
      have hg := hg.mono (cost_le _)
      refine Outcome.bind ((entry_spec hl hg.own hz hd' i).errors fun _ h => ?_)
        fun dd => Outcome.from_state ?_
      · have hfree := hg.free
        omega
      · rintro s' ⟨hdd, ⟨hentry, hz'⟩, hg'⟩
        exact leaf_found hl (hg.trans (hg'.mono (cost_le _))) (double_leaf hz' hd' hentry j) hdd
    · have hmissing : missing img ip (.double i j) =
          cost (entryOf (img.block ((img.inode ip).iZone 8)) i) := if_neg hd
      rw [hmissing]
      refine Outcome.read (fun s hs => by rw [hs]; exact orAlloc_found (zoneAt_eq img ip 8) hd) ?_
      have hentry := entry_spec hl ho rfl hd i
      refine Outcome.bind (hentry.errors fun _ h => h.2.le.trans (Nat.zero_le _)) fun dd =>
        Outcome.from_state ?_
      rintro s ⟨hdd, ⟨hentry, hz⟩, hg⟩
      exact leaf_found hl hg (double_leaf hz hd hentry j) hdd

/-- Nothing is allocated for a zone that is there. -/
theorem orAlloc_read {α : Type} {look : Tool Nat} {store : Nat → Tool Unit} {f : Nat → Tool α}
    {Q : α → Img → Prop} {E : Stop → Prop} (hlook : look img = .ok (z, img)) (hz : z ≠ 0)
    (hf : Outcome (fun s => s = img) (f z) Q E) :
    Outcome (fun s => s = img) (orAlloc look store >>= f) Q E :=
  Outcome.read (fun s hs => by rw [hs]; exact orAlloc_found hlook hz) hf

/-- Nothing changes when a slot has a block. -/
theorem bmap_mapped {t : FileSlot} (ht : slotOf NDIRECT NINDIRECT n = some t)
    (hz : zoneOf img ip t ≠ 0) : bmap ip n img = .ok (zoneOf img ip t, img) := by
  have h : Returns (fun s => s = img) (bmap ip n) fun b s => b = zoneOf img ip t ∧ s = img := by
    unfold bmap
    rcases slotOf_cases ht with ⟨i, rfl, rfl⟩ | ⟨j, rfl, rfl⟩ | ⟨i, j, rfl, rfl⟩
    · rw [if_pos i.isLt]
      rintro s rfl
      rw [orAlloc_found (zoneAt_eq s ip i) hz]
      exact ⟨rfl, rfl⟩
    · have hj : NDIRECT + j.val - 7 = j := Nat.add_sub_cancel_left ..
      have hd : (img.inode ip).iZone 7 ≠ 0 := fun h => hz (if_pos h)
      have hname : zoneOf img ip (.single j) = entryOf (img.block ((img.inode ip).iZone 7)) j :=
        entry_of_ne hd
      rw [hname] at hz ⊢
      rw [if_neg (Nat.not_lt.mpr (Nat.le_add_right ..)), hj, if_pos j.isLt]
      refine orAlloc_read (zoneAt_eq img ip 7) hd (orAlloc_read (entryAt_eq img _ j) hz ?_)
      rintro s rfl
      exact ⟨rfl, rfl⟩
    · have hi := i.isLt
      have hj := j.isLt
      dsimp only [NDIRECT, NINDIRECT] at hi hj ⊢
      have hn : 7 + 512 + 512 * i.val + j.val - 7 - 512 = 512 * i.val + j.val := by omega
      have hq : (512 * i.val + j.val) / 512 = i := by omega
      have hr : (512 * i.val + j.val) % 512 = j := by omega
      have hd : (img.inode ip).iZone 8 ≠ 0 := fun h => hz (by
        have hroot : (rootOf (img.inode ip)).double = 0 := h
        simp only [zoneOf, lookup]
        rw [hroot, entry_zero, entry_zero])
      have hdd : entryOf (img.block ((img.inode ip).iZone 8)) i ≠ 0 := fun h => hz (by
        have he : entry (indOf img) (rootOf (img.inode ip)).double i = 0 := (entry_of_ne hd).trans h
        simp only [zoneOf, lookup]
        rw [he, entry_zero])
      have hname := (double_leaf rfl hd rfl j).lookup.trans (entry_of_ne hdd)
      have hname : zoneOf img ip (.double i j) =
        entryOf (img.block (entryOf (img.block ((img.inode ip).iZone 8)) i)) j := hname
      rw [hname] at hz ⊢
      rw [if_neg (by omega), if_neg (by omega), hn, if_pos (by omega), hq, hr]
      refine orAlloc_read (zoneAt_eq img ip 8) hd (orAlloc_read (entryAt_eq img _ i) hdd
        (orAlloc_read (entryAt_eq img _ j) hz ?_))
      rintro s rfl
      exact ⟨rfl, rfl⟩
  obtain ⟨b, s, he, rfl, rfl⟩ := Outcome.returns h rfl
  exact he

end Minix.Tools
