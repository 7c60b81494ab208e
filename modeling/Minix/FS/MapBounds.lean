import Minix.FS.ReadWrite
import Minix.FS.ZoneTrees
import Mathlib.Tactic.IntervalCases
import Mathlib.Tactic.Positivity

/-!
# Indices of zone tables

`read_map` checks no position. Which positions keep its indices inside `i_zone` and the indirect
blocks, and what the callers that get a position from the size of the file make of that.
-/

namespace Minix.FS.ZoneMaps

open Function Inodes Transition

/-- max # of zones in a file -/
abbrev MAX_ZONES : Nat := NR_DZONE_NUM + NR_INDIRECTS + NR_INDIRECTS * NR_INDIRECTS

variable {σ α β : Type}

/-- The largest size that the direct, single and double indirect zones can map. -/
def maxSize (sp : Super) : Int := MAX_ZONES * (BLOCK_SIZE * 2 ^ scaleOf sp)

/-- The largest file size of a device is one that zones can map, and these sizes are longs. -/
structure Sized (sp : Super) : Prop where
  nonneg : 0 ≤ sp.sMaxSize
  max_size : sp.sMaxSize ≤ maxSize sp
  fits_long : maxSize sp ≤ MAX_P_LONG

/-- The super block of an inode. -/
def SuperOf (sup : SuperPtr → Super) (ip : Inode) (sp : Super) : Prop :=
  (getSuper sup ip.iDev).map sup = some sp

/-- The super block of an inode, if there is one, has a largest file size that zones can map. -/
def SizedFor (sup : SuperPtr → Super) (ip : Inode) : Prop := ∀ sp, SuperOf sup ip sp → Sized sp

/-- The size of an inode is a size that its zones can map. -/
structure Fits (sup : SuperPtr → Super) (ip : Inode) : Prop where
  nonneg : 0 ≤ ip.iSize
  fits_long : ip.iSize ≤ MAX_P_LONG
  max_size : ∀ sp, SuperOf sup ip sp → ip.iSize ≤ maxSize sp

/-- A position that zones can map, or that the inode has no double indirect block for. -/
structure Mapped (sup : SuperPtr → Super) (ip : Inode) (position : Int) : Prop where
  nonneg : 0 ≤ position
  inside : ∀ sp, SuperOf sup ip sp → position < maxSize sp ∨ ip.iZone 8 = NO_ZONE

/-- An inode with other zones, at most. -/
def SameFile (ip ip' : Inode) : Prop := { ip' with iZone := ip.iZone, iDirt := ip.iDirt } = ip

/-- A piece of work keeps its indices inside the tables, and changes no more of the inode than its
zones. -/
abbrev Keeps (ip : Inode) (m : B σ α) : Prop :=
  Outcome (fun s => SameFile ip s.rip) m (fun _ s => SameFile ip s.rip) (· ≠ .bounds)

/-- The same for work that does not even change the zones. -/
abbrev Looks (ip : Inode) (m : B σ α) : Prop :=
  Outcome (fun s => s.rip = ip) m (fun _ s => s.rip = ip) (· ≠ .bounds)

variable {io : DevIo σ} {sup : SuperPtr → Super} {ip ip' : Inode} {sp : Super} {position : Int}

section SameFile

/-- An inode that stays as it is. -/
theorem SameFile.refl (ip : Inode) : SameFile ip ip := rfl

/-- An inode that is the same. -/
theorem SameFile.of_eq (h : ip' = ip) : SameFile ip ip' := h ▸ SameFile.refl ip

/-- Two changes of zones one after the other. -/
theorem SameFile.trans {ip'' : Inode} (h : SameFile ip ip') (h' : SameFile ip' ip'') :
    SameFile ip ip'' := by
  unfold SameFile at *
  rw [← h, ← h']

/-- All but the zones and the dirty mark can be read from the inode before. -/
theorem SameFile.eq (h : SameFile ip ip') :
    ip' = { ip with iZone := ip'.iZone, iDirt := ip'.iDirt } := by rw [← h]

/-- The device of the inode stays. -/
theorem SameFile.iDev (h : SameFile ip ip') : ip'.iDev = ip.iDev := by rw [← h]

/-- So does the size. -/
theorem SameFile.iSize (h : SameFile ip ip') : ip'.iSize = ip.iSize := by rw [← h]

/-- So does the number of its users. -/
theorem SameFile.iCount (h : SameFile ip ip') : ip'.iCount = ip.iCount := by rw [← h]

/-- So does the type. -/
theorem SameFile.type (h : SameFile ip ip') : ip'.type = ip.type := by
  rw [← h]
  rfl

/-- The inode stays on its device, so its super block is the same. -/
theorem SameFile.superOf (h : SameFile ip ip') : SuperOf sup ip' sp ↔ SuperOf sup ip sp := by
  unfold SuperOf
  rw [h.iDev]

/-- A size that zones can map stays one. -/
theorem SameFile.fits (h : SameFile ip ip') (hf : Fits sup ip) : Fits sup ip' where
  nonneg := h.iSize ▸ hf.nonneg
  fits_long := h.iSize ▸ hf.fits_long
  max_size sp hsp := h.iSize ▸ hf.max_size sp (h.superOf.mp hsp)

/-- And so does the largest file size of the device. -/
theorem SameFile.sized (h : SameFile ip ip') (hsz : SizedFor sup ip) : SizedFor sup ip' :=
  fun sp hsp => hsz sp (h.superOf.mp hsp)

end SameFile

/-! ## Arithmetic of positions -/

section Positions

/-- Zones have one, two or four blocks. -/
theorem scaleOf_le (h : maxSize sp ≤ MAX_P_LONG) : scaleOf sp ≤ 2 := by
  by_contra hlt
  have hpow : 2 ^ 3 ≤ 2 ^ scaleOf sp := Nat.pow_le_pow_right (by decide) (by omega)
  have hcast : ((2 ^ scaleOf sp : Nat) : Int) = 2 ^ scaleOf sp := by push_cast; rfl
  unfold maxSize at h
  simp only [MAX_ZONES, NR_DZONE_NUM, NR_ZONE_NUMS, NR_INDIRECTS, BLOCK_SIZE, MAX_P_LONG] at h
  omega

/-- The largest size is not negative. -/
theorem maxSize_nonneg (sp : Super) : 0 ≤ maxSize sp := by
  unfold maxSize
  positivity

/-- A number that fits in a long is not cut. -/
theorem long_of_lt {n : Int} (h₀ : -2147483648 ≤ n) (h : n ≤ MAX_P_LONG) : long n = n :=
  Int.bmod_eq_of_le (by omega) (by simp only [MAX_P_LONG] at h; omega)

/-- The cases of a file system whose file sizes are longs. -/
theorem scale_cases (h : maxSize sp ≤ MAX_P_LONG) :
    (scaleOf sp = 0 ∧ zoneSize (scaleOf sp) = 1024 ∧ maxSize sp = 268966912) ∨
    (scaleOf sp = 1 ∧ zoneSize (scaleOf sp) = 2048 ∧ maxSize sp = 537933824) ∨
    (scaleOf sp = 2 ∧ zoneSize (scaleOf sp) = 4096 ∧ maxSize sp = 1075867648) := by
  have hle := scaleOf_le h
  unfold maxSize
  generalize scaleOf sp = scale at *
  interval_cases scale <;> decide

/-- The zone of a position that can be mapped. -/
theorem fileZone_lt (h : maxSize sp ≤ MAX_P_LONG) (h₀ : 0 ≤ position) (hm : position < maxSize sp) :
    fileZone sp position < MAX_ZONES := by
  unfold fileZone
  rw [Int.tdiv_eq_ediv_of_nonneg h₀, Int.shiftRight_eq_div_pow]
  simp only [MAX_ZONES, NR_DZONE_NUM, NR_ZONE_NUMS, NR_INDIRECTS, BLOCK_SIZE]
  rcases scale_cases h with ⟨hs, -, hx⟩ | ⟨hs, -, hx⟩ | ⟨hs, -, hx⟩
  all_goals
    rw [hs]
    omega

/-- The last byte of the block that starts at a position, if that is in the same zone. -/
theorem next_inside (h : maxSize sp ≤ MAX_P_LONG) (h₀ : 0 ≤ position) (hm : position < maxSize sp)
    (hq : (long (position + BLOCK_SIZE - 1)).tdiv (zoneSize (scaleOf sp)) =
      position.tdiv (zoneSize (scaleOf sp))) :
    0 ≤ long (position + BLOCK_SIZE - 1) ∧ long (position + BLOCK_SIZE - 1) < maxSize sp := by
  have hnn : 0 ≤ position + BLOCK_SIZE - 1 := by simp only [BLOCK_SIZE]; omega
  rcases scale_cases h with ⟨-, hz, hx⟩ | ⟨-, hz, hx⟩ | ⟨-, hz, hx⟩
  all_goals
    rw [hx] at hm
    have hlong : long (position + BLOCK_SIZE - 1) = position + BLOCK_SIZE - 1 :=
      long_of_lt (by omega) (by simp only [BLOCK_SIZE, MAX_P_LONG]; omega)
    rw [hlong, hz, Int.tdiv_eq_ediv_of_nonneg hnn, Int.tdiv_eq_ediv_of_nonneg h₀] at hq
    rw [hlong, hx]
    simp only [BLOCK_SIZE] at hq hnn ⊢
    omega

/-- The start of the zone that a position is in. -/
theorem zoneStart_le (h : maxSize sp ≤ MAX_P_LONG) (h₀ : 0 ≤ position) :
    0 ≤ position.tdiv (zoneSize (scaleOf sp)) * zoneSize (scaleOf sp) ∧
    position.tdiv (zoneSize (scaleOf sp)) * zoneSize (scaleOf sp) ≤ position := by
  rcases scale_cases h with ⟨-, hz, -⟩ | ⟨-, hz, -⟩ | ⟨-, hz, -⟩
  all_goals
    rw [hz, Int.tdiv_eq_ediv_of_nonneg h₀]
    omega

/-- The zone of a position is not negative when the position is not. -/
theorem fileZone_nonneg (h₀ : 0 ≤ position) : 0 ≤ fileZone sp position := by
  unfold fileZone
  rw [Int.tdiv_eq_ediv_of_nonneg h₀, Int.shiftRight_eq_div_pow]
  positivity

end Positions

/-! ## What each operation does -/

/-- A result has no index. -/
theorem keeps_pure (a : α) : Keeps ip (pure a : B σ α) := Outcome.pure fun _ h => h

/-- Neither has a panic. -/
theorem keeps_stuck : Keeps ip (throwThe Halt Halt.stuck : B σ α) := Outcome.throw fun _ _ => nofun

/-- Neither has a look at the state. -/
theorem keeps_get : Keeps ip (MonadState.get : B σ (Work σ)) := Outcome.get fun _ h => h

/-- What only looks at the inode may be done whatever its zones. -/
theorem Looks.keeps {m : B σ α} (h : ∀ ip', SameFile ip ip' → Looks ip' m) : Keeps ip m := by
  intro s hs
  have hm := h s.rip hs s rfl
  split
  · rename_i r s' he
    rw [he] at hm
    have hrip : s'.rip = s.rip := hm
    change SameFile ip s'.rip
    rw [hrip]
    exact hs
  · rename_i e he
    rw [he] at hm
    exact hm

/-- A function that leaves the inode alone, and may panic. -/
theorem looks_orStuck {f : Work σ → Option (α × Work σ)}
    (hf : ∀ s r, f s = some r → r.2.rip = s.rip) : Looks ip (orStuck f) := by
  intro s hs
  unfold orStuck
  cases he : f s with
  | none => exact nofun
  | some r => exact (hf s r he).trans hs

/-- `get_block` does not touch the inode. -/
theorem looks_getBlock (dev block : Nat) (flag : SearchFlag) :
    Looks ip (getBlock io dev block flag) :=
  looks_orStuck fun s r he => by
    obtain ⟨c, -, rfl⟩ := Option.map_eq_some_iff.mp he
    rfl

/-- Nor does `put_block`. -/
theorem looks_putBlock (bp : BufPtr) (blockType : Nat) : Looks ip (putBlock io bp blockType) :=
  looks_orStuck fun s r he => by
    obtain ⟨c, -, rfl⟩ := Option.map_eq_some_iff.mp he
    rfl

/-- Nor does `free_zone`. -/
theorem looks_freeZone (dev z : Nat) : Looks (σ := σ) ip (freeZone sup dev z) :=
  looks_orStuck fun s r he => by
    obtain ⟨c, -, rfl⟩ := Option.map_eq_some_iff.mp he
    rfl

/-- Nor does `alloc_zone`. -/
theorem looks_allocZone (dev z : Nat) : Looks (σ := σ) ip (allocZone sup dev z) :=
  looks_orStuck fun s r he => by
    unfold FS.allocZone at he
    obtain ⟨p, -, he⟩ := Option.bind_eq_some_iff.mp he
    obtain ⟨b, -, he⟩ := Option.bind_eq_some_iff.mp he
    dsimp only at he
    split at he
    · exact (Option.some.inj he) ▸ rfl
    · exact (Option.some.inj he) ▸ rfl

/-- Nor does a store in a buffer. -/
theorem looks_storeBuf (bp : BufPtr) (f : Block → Block) :
    Looks (σ := σ) ip (storeBuf bp f) := Outcome.modify fun _ h => h

/-- The device of the inode. -/
theorem devOf_looks {Q : α → Work σ → Prop} {E : Halt → Prop} {f : Nat → B σ α}
    (h : Outcome (fun s => s.rip = ip) (f ip.iDev) Q E) :
    Outcome (fun s => s.rip = ip) (devOf >>= f) Q E :=
  .read (fun s hs => by rw [← hs]; rfl) h

/-- The super block of the inode, if there is one. -/
theorem superOf_known {P : Work σ → Prop} (dev : Nat) :
    Outcome P (superOf sup dev) (fun sp s => (getSuper sup dev).map sup = some sp ∧ P s)
      (· ≠ .bounds) := by
  intro s hs
  unfold superOf orStuck
  cases (getSuper sup dev).map sup with
  | none => exact nofun
  | some sp => exact ⟨rfl, hs⟩

/-- The scale factor belongs to the super block of the inode. -/
theorem scaleFactor_known {P : Work σ → Prop} (hP : ∀ s, P s → SameFile ip s.rip) :
    Outcome P (scaleFactor sup)
      (fun scale s => ∃ sp, (SuperOf sup ip sp ∧ scale = scaleOf sp) ∧ P s) (· ≠ .bounds) := by
  unfold scaleFactor
  refine .bind (Q := fun dev s => dev = ip.iDev ∧ P s) ?_ fun dev => Outcome.fact fun hdev => ?_
  · exact fun s hs => ⟨(hP s hs).iDev, hs⟩
  · subst hdev
    refine (superOf_known _).bind fun sp => Outcome.fact fun hsp => Outcome.pure fun s hs => ?_
    exact ⟨sp, ⟨hsp, rfl⟩, hs⟩

/-- A zone number of the inode, by an index that is in the table. -/
theorem zoneAt_looks {i : Int} (h₀ : 0 ≤ i) (h : i < NR_ZONE_NUMS) :
    Outcome (σ := Work σ) (fun s => s.rip = ip) (zoneAt i)
      (fun z s => z = ip.iZone ⟨i.toNat, by omega⟩ ∧ s.rip = ip) (· ≠ .bounds) := by
  unfold zoneAt
  rw [dif_pos ⟨h₀, by omega⟩]
  exact fun s hs => ⟨by rw [← hs], hs⟩

/-- An entry of an indirect block is read inside the block. -/
theorem looks_indAt (bp : BufPtr) {i : Int} (h₀ : 0 ≤ i) (h : i < NR_INDIRECTS) :
    Looks (σ := σ) ip (indAt bp i) := by
  unfold indAt
  rw [dif_pos ⟨h₀, by omega⟩]
  exact fun s hs => hs

/-- An entry of an indirect block is written inside the block. -/
theorem keeps_setInd (bp : BufPtr) {i : Int} (h₀ : 0 ≤ i) (h : i < NR_INDIRECTS) (z : Nat) :
    Keeps (σ := σ) ip (setInd bp i z) := by
  unfold setInd
  rw [dif_pos ⟨h₀, by omega⟩]
  exact Outcome.modify fun _ hs => hs

/-- An entry of `i_zone` is written inside the array. -/
theorem keeps_setZone {i : Int} (h₀ : 0 ≤ i) (h : i < NR_ZONE_NUMS) (z : Nat) :
    Keeps (σ := σ) ip (setZone i z) := by
  unfold setZone
  rw [dif_pos ⟨h₀, by omega⟩]
  exact Outcome.modify fun _ hs => hs

/-- An entry of `i_zone` is read inside the array. -/
theorem keeps_zoneAt {i : Int} (h₀ : 0 ≤ i) (h : i < NR_ZONE_NUMS) : Keeps (σ := σ) ip (zoneAt i) :=
  Looks.keeps fun _ _ => (zoneAt_looks h₀ h).post fun _ _ hs => hs.2

/-- The device of the inode is looked up. -/
theorem keeps_devOf : Keeps (σ := σ) ip devOf := fun _ hs => hs

/-! ## Looking zones up -/

/-- The zone of the single indirect block, and an index into that block. -/
theorem singleInd_looks {scale : Nat} {excess : Int} (h₀ : 0 ≤ excess)
    (h : excess < NR_INDIRECTS + NR_INDIRECTS * NR_INDIRECTS ∨ ip.iZone 8 = NO_ZONE) :
    Outcome (fun s => s.rip = ip) (singleInd io scale excess)
      (fun r s => (r.1 = NO_ZONE ∨ 0 ≤ r.2 ∧ r.2 < NR_INDIRECTS) ∧ s.rip = ip) (· ≠ .bounds) := by
  unfold singleInd
  refine .ite (fun hlt => ?_) fun hge => ?_
  · refine (zoneAt_looks (by decide) (by decide)).bind fun z => Outcome.fact fun _ => ?_
    exact Outcome.pure fun s hs => ⟨Or.inr ⟨h₀, hlt⟩, hs⟩
  · refine (zoneAt_looks (by decide) (by decide)).bind fun z => Outcome.fact fun hz => ?_
    refine .ite (fun hno => Outcome.pure fun s hs => ⟨Or.inl rfl, hs⟩) fun hyes => ?_
    have hlt := h.resolve_right fun h8 => hyes (hz.trans h8)
    simp only [NR_INDIRECTS] at hlt hge
    refine devOf_looks ((looks_getBlock _ _ _).bind fun bp => ?_)
    refine (looks_indAt bp (by simp only [NR_INDIRECTS]; omega)
      (by simp only [NR_INDIRECTS]; omega)).bind fun z => ?_
    refine (looks_putBlock bp _).bind fun _ => Outcome.pure fun s hs => ⟨Or.inr ?_, hs⟩
    simp only [NR_INDIRECTS]
    omega

/-- `read_map` keeps its indices inside the tables for a position that can be mapped. -/
theorem readMap_looks (hsz : SizedFor sup ip) (h : Mapped sup ip position) :
    Looks ip (readMap io sup position) := by
  unfold readMap
  refine (scaleFactor_known fun _ hs => SameFile.of_eq hs).bind fun scale => ?_
  refine .given fun sp => Outcome.fact fun hsp => ?_
  obtain ⟨hsup, rfl⟩ := hsp
  have hfit := (hsz sp hsup).fits_long
  have hnn : 0 ≤ fileZone sp position := fileZone_nonneg h.nonneg
  have hin : fileZone sp position < MAX_ZONES ∨ ip.iZone 8 = NO_ZONE :=
    (h.inside sp hsup).imp_left (fileZone_lt hfit h.nonneg)
  unfold fileZone at hnn hin
  dsimp only
  generalize position.tdiv BLOCK_SIZE >>> scaleOf sp = zone at *
  refine .ite (fun hlt => ?_) fun hge => ?_
  · have hlt' : zone < NR_ZONE_NUMS := hlt.trans (by decide : (NR_DZONE_NUM : Int) < NR_ZONE_NUMS)
    refine (zoneAt_looks hnn hlt').bind fun z => Outcome.fact fun _ => ?_
    exact Outcome.pure fun s hs => hs
  · have hrange : zone - NR_DZONE_NUM < NR_INDIRECTS + NR_INDIRECTS * NR_INDIRECTS ∨
        ip.iZone 8 = NO_ZONE := by
      simp only [MAX_ZONES, NR_DZONE_NUM, NR_ZONE_NUMS, NR_INDIRECTS] at hin ⊢
      omega
    refine (singleInd_looks (by omega) hrange).bind fun r => Outcome.fact fun hr => ?_
    obtain ⟨z, excess⟩ := r
    refine .ite (fun _ => Outcome.pure fun s hs => hs) fun hz => ?_
    obtain ⟨h₀, hlt⟩ := hr.resolve_left hz
    refine devOf_looks ((looks_getBlock _ _ _).bind fun bp => ?_)
    refine (looks_indAt bp h₀ hlt).bind fun z => ?_
    exact (looks_putBlock bp _).bind fun _ => Outcome.pure fun s hs => hs

/-- A position below the largest file size can be mapped, whatever the zones are. -/
def Inside (sup : SuperPtr → Super) (ip : Inode) (position : Int) : Prop :=
  0 ≤ position ∧ ∀ sp, SuperOf sup ip sp → position < maxSize sp

/-- A position below the largest size can be mapped. -/
theorem Inside.mapped (h : Inside sup ip position) (hs : SameFile ip ip') :
    Mapped sup ip' position := ⟨h.1, fun sp hsp => Or.inl (h.2 sp (hs.superOf.mp hsp))⟩

/-- `read_map` stays inside its tables at a position below the largest size. -/
theorem readMap_keeps (hsz : SizedFor sup ip) (h : Inside sup ip position) :
    Keeps ip (readMap io sup position) :=
  Looks.keeps fun _ hs => readMap_looks (hs.sized hsz) (h.mapped hs)

/-- Only a device with a super block is looked at. -/
theorem readMap_super : Outcome (fun s : Work σ => SameFile ip s.rip) (readMap io sup position)
    (fun _ _ => ∃ sp, SuperOf sup ip sp) fun _ => True := by
  unfold readMap
  refine ((scaleFactor_known fun _ hs => hs).errors fun _ _ => trivial).bind fun scale => ?_
  exact .given fun sp => Outcome.fact fun hsp => Outcome.const ⟨sp, hsp.1⟩

/-! ## Entering zones -/

/-- `get_block` keeps what is only looked at. -/
theorem keeps_getBlock (dev block : Nat) (flag : SearchFlag) :
    Keeps ip (getBlock io dev block flag) := Looks.keeps fun _ _ => looks_getBlock dev block flag

/-- So does `put_block`. -/
theorem keeps_putBlock (bp : BufPtr) (blockType : Nat) : Keeps ip (putBlock io bp blockType) :=
  Looks.keeps fun _ _ => looks_putBlock bp blockType

/-- So does a store in a buffer. -/
theorem keeps_storeBuf (bp : BufPtr) (f : Block → Block) : Keeps (σ := σ) ip (storeBuf bp f) :=
  Looks.keeps fun _ _ => looks_storeBuf bp f

/-- So does clearing a buffer. -/
theorem keeps_zeroBlock (bp : BufPtr) : Keeps (σ := σ) ip (zeroBlock bp) := keeps_storeBuf bp _

/-- So does `free_zone`. -/
theorem keeps_freeZone (dev z : Nat) : Keeps (σ := σ) ip (freeZone sup dev z) :=
  Looks.keeps fun _ _ => looks_freeZone dev z

/-- So does `alloc_zone`. -/
theorem keeps_allocZone (dev z : Nat) : Keeps (σ := σ) ip (allocZone sup dev z) :=
  Looks.keeps fun _ _ => looks_allocZone dev z

/-- So does reading an entry of an indirect block. -/
theorem keeps_indAt (bp : BufPtr) {i : Int} (h₀ : 0 ≤ i) (h : i < NR_INDIRECTS) :
    Keeps (σ := σ) ip (indAt bp i) := Looks.keeps fun _ _ => looks_indAt bp h₀ h

/-- Work under a condition may use the condition. -/
theorem keeps_provided {c : Prop} [Decidable c] {m : B σ Unit} (h : c → Keeps ip m) :
    Keeps ip (provided c m) := Outcome.provided h fun _ _ hs => hs

/-- A zone for a single indirect block. -/
theorem allocInd_keeps : Keeps (σ := σ) ip (allocInd sup) :=
  keeps_devOf.bind fun _ => (keeps_zoneAt (by decide) (by decide)).bind fun z => keeps_allocZone _ z

/-- The double indirect block is allocated if it is missing. -/
theorem doubleInd_keeps : Keeps (σ := σ) ip (doubleInd sup) := by
  refine (keeps_zoneAt (by decide) (by decide)).bind fun z => ?_
  refine .ite (fun _ => ?_) fun _ => keeps_pure _
  refine allocInd_keeps.bind fun z => (keeps_provided fun _ => ?_).bind fun _ => keeps_pure _
  exact keeps_setZone (by decide) (by decide) z

/-- A place for an indirect zone number is inside its table. -/
def ZonePtr.Inside : ZonePtr → Prop
  | .inode => True
  | .ind _ index => 0 ≤ index ∧ index < NR_INDIRECTS

/-- The place where the number of a single indirect block is noted is inside a table, and so is what
is left of the position. -/
theorem placeInd_keeps {scale : Nat} {excess : Int} (h₀ : 0 ≤ excess) :
    Outcome (fun s => SameFile ip s.rip) (placeInd io sup scale excess)
      (fun r s => (∀ zp e, r = .ok (zp, e) → zp.Inside ∧ 0 ≤ e ∧ e < NR_INDIRECTS) ∧
        SameFile ip s.rip) (· ≠ .bounds) := by
  unfold placeInd
  refine .ite (fun hlt => Outcome.pure fun s hs => ⟨?_, hs⟩) fun hge => ?_
  · rintro zp e ⟨⟩
    exact ⟨trivial, h₀, hlt⟩
  · refine doubleInd_keeps.bind fun r => ?_
    obtain ⟨z, newDbl⟩ := r
    refine .ite (fun _ => keeps_get.bind fun s => Outcome.pure fun s hs => ⟨nofun, hs⟩) fun _ => ?_
    refine .ite (fun _ => Outcome.pure fun s hs => ⟨nofun, hs⟩) fun hindex => ?_
    refine keeps_devOf.bind fun dev => (keeps_getBlock _ _ _).bind fun bp => ?_
    refine (keeps_provided fun _ => keeps_zeroBlock bp).bind fun _ => ?_
    refine Outcome.pure fun s hs => ⟨?_, hs⟩
    rintro zp e ⟨⟩
    simp only [ZonePtr.Inside, NR_INDIRECTS] at *
    omega

/-- A zone number is read from such a place. -/
theorem ZonePtr.Inside.read {zp : ZonePtr} (h : zp.Inside) : Keeps (σ := σ) ip zp.read := by
  cases zp with
  | inode => exact keeps_zoneAt (by decide) (by decide)
  | ind bp index => exact keeps_indAt bp h.1 h.2

/-- A zone number is written to such a place. -/
theorem ZonePtr.Inside.write {zp : ZonePtr} (h : zp.Inside) (z : Nat) :
    Keeps (σ := σ) ip (zp.write z) := by
  cases zp with
  | inode => exact keeps_setZone (by decide) (by decide) z
  | ind bp index => exact keeps_setInd bp h.1 h.2 z

/-- The buffer behind such a place is put back. -/
theorem release_keeps (zp : ZonePtr) : Keeps ip (zp.release io) := by
  cases zp with
  | inode => exact keeps_pure _
  | ind bp index => exact keeps_putBlock bp _

/-- A missing single indirect block is allocated and linked. -/
theorem linkInd_keeps {zp : ZonePtr} (h : zp.Inside) : Keeps (σ := σ) ip (linkInd sup zp) := by
  refine h.read.bind fun z => .ite (fun _ => ?_) fun _ => keeps_pure _
  exact allocInd_keeps.bind fun z => (h.write z).bind fun _ => keeps_pure _

/-- The new zone is entered in a single indirect block. -/
theorem enterInd_keeps {scale : Nat} {zp : ZonePtr} {excess : Int} (h : zp.Inside)
    (h₀ : 0 ≤ excess) (hlt : excess < NR_INDIRECTS) (newZone : Nat) :
    Keeps ip (enterInd io sup scale zp excess newZone) := by
  refine (linkInd_keeps h).bind fun r => (release_keeps zp).bind fun _ => ?_
  refine .ite (fun _ => keeps_get.bind fun s => keeps_pure _) fun _ => ?_
  refine keeps_devOf.bind fun dev => (keeps_getBlock _ _ _).bind fun bp => ?_
  refine (keeps_provided fun _ => keeps_zeroBlock bp).bind fun _ => ?_
  refine (keeps_setInd bp h₀ hlt newZone).bind fun _ => (keeps_putBlock bp _).bind fun _ => ?_
  exact keeps_pure _

/-- A change of the inode that leaves all but its zones. -/
theorem modifyRip_keeps {f : Inode → Inode} (hf : ∀ ip, SameFile ip (f ip)) :
    Keeps (σ := σ) ip (modifyRip f) := Outcome.modify fun s hs => hs.trans (hf s.rip)

/-- `write_map` checks its position. -/
theorem writeMap_keeps (h₀ : 0 ≤ position) (newZone : Nat) :
    Keeps ip (writeMap io sup position newZone) := by
  unfold writeMap
  have hdirt : ∀ ip : Inode, SameFile ip { ip with iDirt := DIRTY } := fun _ => rfl
  refine (modifyRip_keeps hdirt).bind fun _ => ?_
  refine (scaleFactor_known fun _ hs => hs).bind fun scale => .given fun sp => Outcome.fact ?_
  rintro ⟨-, rfl⟩
  have hnn : 0 ≤ fileZone sp position := fileZone_nonneg h₀
  unfold fileZone at hnn
  dsimp only
  generalize position.tdiv BLOCK_SIZE >>> scaleOf sp = zone at *
  refine .ite (fun hlt => ?_) fun hge => ?_
  · have hlt' : zone < NR_ZONE_NUMS := hlt.trans (by decide : (NR_DZONE_NUM : Int) < NR_ZONE_NUMS)
    exact (keeps_setZone hnn hlt' newZone).bind fun _ => keeps_pure _
  · refine (placeInd_keeps (by omega)).bind fun r => Outcome.fact fun hr => ?_
    cases r with
    | error e => exact keeps_pure _
    | ok r =>
      obtain ⟨hzp, h₀, hlt⟩ := hr r.1 r.2 rfl
      exact enterInd_keeps hzp h₀ hlt newZone

/-! ## New blocks -/

/-- Blocks of a range are cleared. -/
theorem clearBlocks_keeps (blo bhi : Nat) : Keeps ip (clearBlocks io blo bhi) := by
  unfold clearBlocks
  refine .ite (fun _ => keeps_stuck) fun _ => ?_
  generalize List.range' blo (bhi + 1 - blo) = blocks
  induction blocks with
  | nil => exact keeps_pure _
  | cons b blocks ih =>
    refine Outcome.bind (Q := fun _ s => SameFile ip s.rip) ?_ fun _ => ih
    refine keeps_devOf.bind fun dev => (keeps_getBlock _ _ _).bind fun bp => ?_
    exact (keeps_zeroBlock bp).bind fun _ => keeps_putBlock bp _

/-- The position that `clear_zone` looks up is in the same zone as the position it gets. -/
theorem clearZone_keeps (hsz : SizedFor sup ip) {pos : Int} (h : Inside sup ip pos) (flag : Bool) :
    Keeps ip (clearZone io sup pos flag) := by
  unfold clearZone
  refine (scaleFactor_known fun _ hs => hs).bind fun scale => .given fun sp => Outcome.fact ?_
  rintro ⟨hsup, rfl⟩
  have hfit := (hsz sp hsup).fits_long
  refine .ite (fun _ => keeps_pure _) fun _ => ?_
  dsimp only
  have hstart : ∃ start, (if flag = true then
      pos.tdiv (zoneSize (scaleOf sp)) * zoneSize (scaleOf sp) else pos) = start ∧
      0 ≤ start ∧ start ≤ pos := by
    split
    · exact ⟨_, rfl, zoneStart_le hfit h.1⟩
    · exact ⟨_, rfl, h.1, le_rfl⟩
  obtain ⟨start, he, h₀, hle⟩ := hstart
  rw [he]
  refine .ite (fun _ => keeps_pure _) fun hnext => ?_
  obtain ⟨hnn, hin⟩ := next_inside hfit h₀ (hle.trans_lt (h.2 sp hsup)) (not_not.mp hnext)
  have hinside : Inside sup ip (long (start + BLOCK_SIZE - 1)) :=
    ⟨hnn, fun sp' hsp' => Option.some.inj (hsup.symm.trans hsp') ▸ hin⟩
  refine (readMap_keeps hsz hinside).bind fun blo => .ite (fun _ => keeps_pure _) fun _ => ?_
  exact clearBlocks_keeps blo _

/-- The inode as it is now. -/
theorem get_same : Outcome (fun s : Work σ => SameFile ip s.rip) MonadState.get
    (fun s₀ s => SameFile ip s₀.rip ∧ SameFile ip s.rip) (fun e : Halt => e ≠ .bounds) :=
  Outcome.get fun _ h => ⟨h, h⟩

/-- The super block of a device is looked up. -/
theorem superOf_keeps (dev : Nat) : Keeps (σ := σ) ip (superOf sup dev) :=
  (superOf_known dev).post fun _ _ h => h.2

/-- A new block is fetched and cleared. -/
theorem freshBlock_keeps (b : Nat) : Keeps ip (freshBlock io b) :=
  keeps_devOf.bind fun dev => (keeps_getBlock dev b _).bind fun bp =>
    (keeps_zeroBlock bp).bind fun _ => keeps_pure _

/-- The search for a zone starts with that of the first zone of the file. -/
theorem firstZone_keeps : Keeps (σ := σ) ip (firstZone sup) :=
  keeps_get.bind fun _ => .ite (fun _ => (superOf_keeps _).bind fun _ => keeps_pure _)
    fun _ => keeps_zoneAt (by decide) (by decide)

/-- A zone that could not be entered is given back. -/
theorem giveBack_keeps (z : Nat) (r : Int) : Keeps (σ := σ) ip (giveBack sup z r) := by
  refine keeps_devOf.bind fun dev => (keeps_freeZone dev z).bind fun _ => ?_
  refine Outcome.bind (Q := fun _ s => SameFile ip s.rip) (Outcome.modify fun _ h => h) fun _ => ?_
  exact keeps_pure _

/-- `new_block` stays inside the tables at a position below the largest size. -/
theorem newBlock_keeps (hsz : SizedFor sup ip) (h : Inside sup ip position) :
    Keeps ip (newBlock io sup position) := by
  refine (readMap_keeps hsz h).bind fun b => .ite (fun _ => freshBlock_keeps b) fun _ => ?_
  refine firstZone_keeps.bind fun near => keeps_devOf.bind fun dev => ?_
  refine (keeps_allocZone dev near).bind fun z => .ite (fun _ => keeps_pure _) fun _ => ?_
  refine (writeMap_keeps h.1 z).bind fun r => .ite (fun _ => giveBack_keeps z r) fun _ => ?_
  refine keeps_get.bind fun s => ?_
  refine (keeps_provided fun _ => clearZone_keeps hsz h true).bind fun _ => ?_
  exact ((scaleFactor_known fun _ hs => hs).post fun _ _ ⟨_, _, hs⟩ => hs).bind fun scale =>
    freshBlock_keeps _

/-! ## Transfers -/

/-- The block of a chunk: that of a device by its number, that of a file by its position. -/
theorem chunkBlock_keeps (hsz : SizedFor sup ip) {rwFlag : RwFlag} {off chunk : Nat}
    (h : ip.type ≠ I_BLOCK_SPECIAL → Inside sup ip position) :
    Keeps ip (chunkBlock io sup rwFlag position off chunk) := by
  refine get_same.bind fun s₀ => Outcome.fact fun hs₀ => .ite (fun _ => ?_) fun hspecial => ?_
  · exact (keeps_getBlock _ _ _).bind fun bp => keeps_pure _
  · have hin := h (hs₀.type ▸ hspecial)
    refine (readMap_keeps hsz hin).bind fun b => .ite (fun _ => ?_) fun _ => ?_
    · exact (keeps_getBlock _ _ _).bind fun bp => keeps_pure _
    · cases rwFlag with
      | READING =>
        exact (keeps_getBlock _ _ _).bind fun bp => (keeps_zeroBlock bp).bind fun _ => keeps_pure _
      | WRITING => exact newBlock_keeps hsz hin

/-- The copy of a chunk to or from the user. -/
theorem rwUser_keeps (user : UserSpace) (rwFlag : RwFlag) (bp : BufPtr) (off chunk buff : Nat) :
    Keeps (σ := σ) ip (rwUser user rwFlag bp off chunk buff) := by
  unfold rwUser
  cases rwFlag with
  | READING => exact keeps_pure _
  | WRITING =>
    dsimp only
    split
    · exact (keeps_storeBuf bp _).bind fun _ => keeps_pure _
    · exact (keeps_storeBuf bp _).bind fun _ => keeps_pure _

/-- `rw_chunk` stays inside the tables at a position below the largest size. -/
theorem rwChunk_keeps (hsz : SizedFor sup ip) {user : UserSpace} {rwFlag : RwFlag}
    {off chunk buff : Nat} (h : ip.type ≠ I_BLOCK_SPECIAL → Inside sup ip position) :
    Keeps ip (rwChunk io sup user rwFlag position off chunk buff) := by
  refine (chunkBlock_keeps hsz h).bind fun r => ?_
  cases r with
  | none => exact keeps_get.bind fun _ => keeps_pure _
  | some bp =>
    refine keeps_get.bind fun s => (keeps_provided fun _ => keeps_zeroBlock bp).bind fun _ => ?_
    refine (rwUser_keeps user rwFlag bp off chunk buff).bind fun r => ?_
    exact (keeps_putBlock bp _).bind fun _ => keeps_pure _

/-- What is known of the position and the bytes that are left when a chunk is moved is handed on to
the next one. -/
structure Advances (sup : SuperPtr → Super) (ip : Inode) (rwFlag : RwFlag) (fSize : Int)
    (I : Int → Nat → Prop) : Prop where
  inside : ∀ position nbytes, I position nbytes → nbytes ≠ 0 →
    (rwFlag = .READING → position < fSize) → ip.type ≠ I_BLOCK_SPECIAL → Inside sup ip position
  next : ∀ position nbytes, I position nbytes → nbytes ≠ 0 →
    (rwFlag = .READING → position < fSize) →
      I (long (position + chunkSize rwFlag fSize position nbytes))
        (nbytes - chunkSize rwFlag fSize position nbytes)

/-- The loop over chunks keeps any invariant of positions that says where they are. -/
theorem rwLoop_keeps (hsz : SizedFor sup ip) {user : UserSpace} {rwFlag : RwFlag} {fSize : Int}
    {I : Int → Nat → Prop} (hI : Advances sup ip rwFlag fSize I) (fuel : Nat) (buff cumIo : Nat)
    {nbytes : Nat} (h : I position nbytes) :
    Outcome (fun s => SameFile ip s.rip)
      (rwLoop io sup user rwFlag fSize fuel position buff nbytes cumIo)
      (fun r s => (∃ n, I r.2.1 n) ∧ SameFile ip s.rip) (· ≠ .bounds) := by
  induction fuel generalizing position buff nbytes cumIo with
  | zero => exact Outcome.throw fun _ _ => nofun
  | succ fuel ih =>
    unfold rwLoop
    refine .ite (fun _ => Outcome.pure fun s hs => ⟨⟨_, h⟩, hs⟩) fun hgo => ?_
    rw [not_or, not_and] at hgo
    obtain ⟨hn, hread⟩ := hgo
    have hlt : rwFlag = .READING → position < fSize := fun hr => by have := hread hr; omega
    refine (rwChunk_keeps hsz (hI.inside _ _ h hn hlt)).bind fun r => ?_
    refine .ite (fun _ => Outcome.pure fun s hs => ⟨⟨_, h⟩, hs⟩) fun _ => keeps_get.bind fun s => ?_
    refine .ite (fun _ => Outcome.pure fun s hs => ⟨⟨_, h⟩, hs⟩) fun _ => ?_
    exact ih _ _ (hI.next _ _ h hn hlt)

/-- A chunk has at most as many bytes as are left. -/
theorem chunkSize_le (rwFlag : RwFlag) (fSize position : Int) (nbytes : Nat) :
    chunkSize rwFlag fSize position nbytes ≤ nbytes := by
  unfold chunkSize
  dsimp only
  split <;> omega

/-- A read ends within the file. -/
theorem reading_advances (hf : Fits sup ip) :
    Advances sup ip .READING (fileSize ip) fun position _ => 0 ≤ position where
  inside position nbytes h _ hlt hspecial := by
    have he : fileSize ip = ip.iSize := if_neg fun h => hspecial h.1
    exact ⟨h, fun sp hsp => (he ▸ hlt rfl).trans_le (hf.max_size sp hsp)⟩
  next position nbytes h _ hlt := by
    have hle : fileSize ip ≤ MAX_P_LONG := by
      unfold fileSize
      split
      · exact le_rfl
      · exact hf.fits_long
    have hchunk : position + chunkSize .READING (fileSize ip) position nbytes ≤ fileSize ip := by
      have := hlt rfl
      unfold chunkSize
      rw [if_pos rfl]
      omega
    rw [long_of_lt (by omega) (hchunk.trans hle)]
    omega

/-- A write ends below the largest file size. -/
theorem writing_advances (hsz : SizedFor sup ip) (hsp : SuperOf sup ip sp) (fSize : Int) :
    Advances sup ip .WRITING fSize fun position nbytes =>
      0 ≤ position ∧ position + nbytes ≤ maxSize sp where
  inside position nbytes h hn _ _ := by
    refine ⟨h.1, fun sp' hsp' => ?_⟩
    rw [← Option.some.inj (hsp.symm.trans hsp')]
    omega
  next position nbytes h _ _ := by
    have hle := chunkSize_le .WRITING fSize position nbytes
    have hfit := (hsz sp hsp).fits_long
    rw [long_of_lt (by omega) (by omega)]
    omega

/-- A write to a device has no position in a file. -/
theorem special_advances (hspecial : ip.type = I_BLOCK_SPECIAL) (rwFlag : RwFlag) (fSize : Int) :
    Advances sup ip rwFlag fSize fun _ _ => True where
  inside _ _ _ _ _ hne := absurd hspecial hne
  next _ _ _ _ _ := trivial

/-- A write by the memory manager of more than 32K, whose count is negative, is not caught when it
makes a file too big; here it does not. -/
def Request.Limited (sup : SuperPtr → Super) (ip : Inode) (position : Int) (q : Request) : Prop :=
  q.rwFlag = .WRITING → q.nbytes < 0 → ip.type ≠ I_CHAR_SPECIAL → ip.type ≠ I_BLOCK_SPECIAL →
    ∀ sp, SuperOf sup ip sp → position + unshort q.nbytes ≤ maxSize sp

/-- A check that lets a write pass leaves room for it. -/
theorem Request.room {q : Request} (hsp : SuperOf sup ip sp) (hsz : Sized sp)
    (hw : q.rwFlag = .WRITING) (hchar : ip.type ≠ I_CHAR_SPECIAL)
    (hblock : ip.type ≠ I_BLOCK_SPECIAL) (hq : q.Limited sup ip position)
    (hle : ¬position > long (sp.sMaxSize - q.nbytes)) :
    position + unshort q.nbytes ≤ maxSize sp := by
  by_cases hneg : q.nbytes < 0
  · exact hq hw hneg hchar hblock sp hsp
  · have hint := q.isInt
    have hmax := hsz.max_size
    have hnn := hsz.nonneg
    have hfit := hmax.trans hsz.fits_long
    rw [long_of_lt (by omega) (by omega)] at hle
    unfold unshort
    omega

/-- The check before a write: when it passes, the bytes to write have room below the largest size.
-/
theorem checkGrowth_keeps (hsz : SizedFor sup ip) (hf : Fits sup ip) {q : Request}
    (hchar : ip.type ≠ I_CHAR_SPECIAL) (hq : q.Limited sup ip position) :
    Outcome (fun s => SameFile ip s.rip) (checkGrowth io sup q position)
      (fun r s => (r = none → q.rwFlag = .WRITING → ip.type ≠ I_BLOCK_SPECIAL → ∃ sp,
        SuperOf sup ip sp ∧ position + unshort q.nbytes ≤ maxSize sp) ∧ SameFile ip s.rip)
      (· ≠ .bounds) := by
  refine get_same.bind fun s₀ => Outcome.fact fun hs₀ => .ite (fun hw => ?_) fun hno => ?_
  · rw [hs₀.iDev, hs₀.iSize]
    refine (superOf_known ip.iDev).bind fun sp => Outcome.fact fun hsp => ?_
    refine .ite (fun _ => Outcome.pure fun s hs => ⟨nofun, hs⟩) fun hle => ?_
    have hroom := q.room hsp (hsz sp hsp) hw.1 hchar (hs₀.type ▸ hw.2) hq hle
    refine Outcome.bind (Q := fun _ s => SameFile ip s.rip) (keeps_provided fun hgt => ?_) fun _ =>
      Outcome.pure fun s hs => ⟨fun _ _ _ => ⟨sp, hsp, hroom⟩, hs⟩
    refine clearZone_keeps hsz ⟨hf.nonneg, fun sp' hsp' => ?_⟩ false
    rw [← Option.some.inj (hsp.symm.trans hsp')]
    omega
  · refine Outcome.pure fun s hs => ⟨fun _ hw hspecial => absurd ⟨hw, ?_⟩ hno, hs⟩
    exact hs₀.type ▸ hspecial

/-- Where a transfer may leave the position of a file. -/
structure Ends (sup : SuperPtr → Super) (ip : Inode) (rwFlag : RwFlag) (position : Int) : Prop where
  reading : rwFlag = .READING → ip.type ≠ I_CHAR_SPECIAL → 0 ≤ position
  writing : rwFlag = .WRITING → ip.type ≠ I_CHAR_SPECIAL → ip.type ≠ I_BLOCK_SPECIAL →
    0 ≤ position ∧ position ≤ MAX_P_LONG ∧ ∀ sp, SuperOf sup ip sp → position ≤ maxSize sp

/-- A change of zones leaves the bounds of a position. -/
theorem SameFile.ends {rwFlag : RwFlag} (h : SameFile ip ip') (he : Ends sup ip rwFlag position) :
    Ends sup ip' rwFlag position where
  reading hr hc := he.reading hr (h.type ▸ hc)
  writing hw hc hb := by
    obtain ⟨hnn, hlong, hmax⟩ := he.writing hw (h.type ▸ hc) (h.type ▸ hb)
    exact ⟨hnn, hlong, fun sp hsp => hmax sp (h.superOf.mp hsp)⟩

/-- Where the loop over chunks may leave the position. -/
theorem rwLoop_ends (hsz : SizedFor sup ip) (hf : Fits sup ip) {rwFlag : RwFlag} {user : UserSpace}
    {nbytes : Nat} (h₀ : 0 ≤ position)
    (hroom : rwFlag = .WRITING → ip.type ≠ I_BLOCK_SPECIAL →
      ∃ sp, SuperOf sup ip sp ∧ position + nbytes ≤ maxSize sp) (fuel buff cumIo : Nat) :
    Outcome (fun s => SameFile ip s.rip)
      (rwLoop io sup user rwFlag (fileSize ip) fuel position buff nbytes cumIo)
      (fun r s => Ends sup ip rwFlag r.2.1 ∧ SameFile ip s.rip) (· ≠ .bounds) := by
  cases rwFlag with
  | READING =>
    refine (rwLoop_keeps hsz (reading_advances hf) fuel buff cumIo h₀).post ?_
    rintro r s ⟨⟨_, hend⟩, hs⟩
    exact ⟨⟨fun _ _ => hend, nofun⟩, hs⟩
  | WRITING =>
    by_cases hspecial : ip.type = I_BLOCK_SPECIAL
    · refine (rwLoop_keeps hsz (special_advances hspecial _ _) fuel buff cumIo trivial).post ?_
      exact fun r s hs => ⟨⟨nofun, fun _ _ hne => absurd hspecial hne⟩, hs.2⟩
    · obtain ⟨sp, hsp, hle⟩ := hroom rfl hspecial
      refine (rwLoop_keeps hsz (writing_advances hsz hsp _) fuel buff cumIo ⟨h₀, hle⟩).post ?_
      rintro r s ⟨⟨n, hnn, hend⟩, hs⟩
      have hfit := (hsz sp hsp).fits_long
      refine ⟨⟨nofun, fun _ _ _ => ⟨hnn, by omega, fun sp' hsp' => ?_⟩⟩, hs⟩
      rw [← Option.some.inj (hsp.symm.trans hsp')]
      omega

/-- A transfer stays inside the tables and leaves the position in its bounds. -/
theorem transfer_keeps (hsz : SizedFor sup ip) (hf : Fits sup ip) {q : Request} (h₀ : 0 ≤ position)
    (hq : q.Limited sup ip position) :
    Outcome (fun s => SameFile ip s.rip) (transfer io sup q position)
      (fun r s => (∀ res, r = .ok res → Ends sup ip q.rwFlag res.2.1) ∧ SameFile ip s.rip)
      (· ≠ .bounds) := by
  refine Outcome.bind (Q := fun _ s => SameFile ip s.rip) (Outcome.modify fun _ h => h) fun _ => ?_
  refine get_same.bind fun s₀ => Outcome.fact fun hs₀ => .ite (fun hchar => ?_) fun hchar => ?_
  · rw [hs₀.type] at hchar
    have hends : ∀ p, Ends sup ip q.rwFlag p := fun p =>
      ⟨fun _ hne => absurd hchar hne, fun _ hne => absurd hchar hne⟩
    refine .ite (fun _ => Outcome.pure fun s hs => ⟨?_, hs⟩) fun _ =>
      Outcome.pure fun s hs => ⟨?_, hs⟩
    · rintro res ⟨⟩
      exact hends _
    · rintro res ⟨⟩
      exact hends _
  · refine (checkGrowth_keeps hsz hf (hs₀.type ▸ hchar) hq).bind fun r => Outcome.fact fun hr => ?_
    cases r with
    | some e => exact Outcome.pure fun s hs => ⟨nofun, hs⟩
    | none =>
      refine .ite (fun _ => Outcome.pure fun s hs => ⟨nofun, hs⟩) fun _ => ?_
      have hsize : fileSize s₀.rip = fileSize ip := by
        unfold fileSize
        rw [hs₀.type, hs₀.iSize]
      rw [hsize]
      refine (rwLoop_ends hsz hf h₀ (hr rfl) _ _ _).bind fun r => Outcome.fact fun hends =>
        Outcome.pure fun s hs => ⟨?_, hs⟩
      rintro res ⟨⟩
      exact hends

/-! ## Truncation -/

/-- A piece of work keeps its indices inside the tables, and leaves an inode of a device whose size
its zones can map. -/
abbrev Settles (sup : SuperPtr → Super) (ip : Inode) (m : B σ α) : Prop :=
  Outcome (fun s => SameFile ip s.rip) m
    (fun _ s => Fits sup s.rip ∧ s.rip.iDev = ip.iDev ∧ s.rip.iCount = ip.iCount) (· ≠ .bounds)

/-- The zones of a file are freed, which are found by `read_map`. -/
theorem freeZones_keeps (hsz : SizedFor sup ip) (hf : Fits sup ip) (hsp : SuperOf sup ip sp)
    (fuel : Nat) (h₀ : 0 ≤ position) :
    Keeps ip (freeZones io sup (scaleOf sp) fuel position) := by
  induction fuel generalizing position with
  | zero => exact Outcome.throw fun _ _ => nofun
  | succ fuel ih =>
    refine get_same.bind fun s₀ => Outcome.fact fun hs₀ => ?_
    refine .ite (fun hlt => ?_) fun _ => keeps_pure _
    rw [hs₀.iSize] at hlt
    have hle := hf.max_size sp hsp
    have hin : Inside sup ip position :=
      ⟨h₀, fun sp' hsp' => Option.some.inj (hsp.symm.trans hsp') ▸ hlt.trans_le hle⟩
    have hnext : 0 ≤ long (position + zoneSize (scaleOf sp)) := by
      rcases scale_cases (hsz sp hsp).fits_long with ⟨-, hz, hx⟩ | ⟨-, hz, hx⟩ | ⟨-, hz, hx⟩
      all_goals
        rw [hz, long_of_lt (by omega) (by simp only [MAX_P_LONG]; omega)]
        omega
    refine (readMap_keeps hsz hin).bind fun b => ?_
    refine Outcome.bind (keeps_provided fun _ => ?_) fun _ => ih hnext
    exact keeps_devOf.bind fun dev => keeps_freeZone dev _

/-- The single indirect blocks of a double indirect one are freed. -/
theorem freeInds_keeps (bp : BufPtr) {izs : List Nat} (hin : ∀ iz ∈ izs, iz < NR_INDIRECTS) :
    Keeps (σ := σ) ip (freeInds sup bp izs) := by
  unfold freeInds
  induction izs with
  | nil => exact keeps_pure _
  | cons iz izs ih =>
    refine Outcome.bind (Q := fun _ s => SameFile ip s.rip) ?_ fun _ =>
      ih fun j hj => hin j (List.mem_cons_of_mem iz hj)
    have hlt := hin iz List.mem_cons_self
    refine keeps_devOf.bind fun dev => ?_
    exact (keeps_indAt bp (by omega) (by omega)).bind fun z => keeps_freeZone dev z

/-- The double indirect block is freed. -/
theorem freeDouble_keeps (scale z : Nat) : Keeps ip (freeDouble io sup scale z) := by
  have hin : ∀ iz ∈ List.range NR_INDIRECTS, iz < NR_INDIRECTS := fun iz => List.mem_range.mp
  unfold freeDouble
  generalize List.range NR_INDIRECTS = izs at hin
  refine keeps_devOf.bind fun _ => (keeps_getBlock _ _ _).bind fun bp => ?_
  refine (freeInds_keeps bp hin).bind fun _ => (keeps_putBlock bp _).bind fun _ => ?_
  exact keeps_devOf.bind fun dev => keeps_freeZone dev z

/-- A pipe is truncated as if it were full. -/
theorem truncate_settles (hsz : SizedFor sup ip) (hf : Fits sup ip) :
    Settles sup ip (truncate io sup) := by
  refine (scaleFactor_known fun _ hs => hs).bind fun scale => .given fun sp => Outcome.fact ?_
  rintro ⟨hsp, rfl⟩
  -- the inode as the loop sees it
  let ip' : Inode := { ip with iSize := if ip.iPipe then Pipes.PIPE_SIZE else ip.iSize }
  have hpipe : (Pipes.PIPE_SIZE : Int) ≤ maxSize sp := by
    rcases scale_cases (hsz sp hsp).fits_long with ⟨-, -, hx⟩ | ⟨-, -, hx⟩ | ⟨-, -, hx⟩ <;>
      rw [hx] <;> decide
  have hf' : Fits sup ip' := by
    refine ⟨?_, ?_, fun sp' hsp' => Option.some.inj (hsp.symm.trans hsp') ▸ ?_⟩
    all_goals
      dsimp only [ip']
      split
    exacts [by decide, hf.nonneg, by decide, hf.fits_long, hpipe, hf.max_size sp hsp]
  have hsz' : SizedFor sup ip' := hsz
  refine Outcome.bind (Q := fun _ s => SameFile ip' s.rip) ?_ fun _ => ?_
  · refine Outcome.modify fun s hs => ?_
    dsimp only
    rw [hs.eq]
    rfl
  · refine keeps_get.bind fun s => (freeZones_keeps hsz' hf' hsp _ le_rfl).bind fun _ => ?_
    refine keeps_devOf.bind fun dev => (keeps_zoneAt (by decide) (by decide)).bind fun z => ?_
    refine (keeps_freeZone dev z).bind fun _ => ?_
    refine (keeps_zoneAt (by decide) (by decide)).bind fun z => ?_
    refine (keeps_provided fun _ => freeDouble_keeps _ z).bind fun _ => ?_
    refine Outcome.modify fun s hs => ?_
    have hzero : (0 : Int) ≤ MAX_P_LONG := by decide
    exact ⟨⟨le_rfl, hzero, fun sp' _ => maxSize_nonneg sp'⟩, hs.iDev, hs.iCount⟩

/-! ## Directories -/

/-- How many slots have been passed after `k` blocks of a directory with room for no name. -/
def Passed (oldSlots k newSlots : Nat) : Prop :=
  newSlots ≤ oldSlots ∧ (oldSlots < 65535 → newSlots = NR_DIR_ENTRIES * k)

/-- The search of a block for a free slot counts every slot it passes. -/
theorem scanSlots_over {b : Block} {string : Name} {oldSlots : Nat}
    {dps : List (Fin NR_DIR_ENTRIES)} {newSlots newSlots' : Nat} (hold : oldSlots ≤ 65535)
    (hle : newSlots ≤ oldSlots)
    (he : scanSlots b string .ENTER oldSlots dps newSlots = (.ended, newSlots')) :
    newSlots' ≤ oldSlots ∧ (oldSlots < 65535 → newSlots' = newSlots + dps.length) := by
  induction dps generalizing newSlots with
  | nil =>
    cases he
    exact ⟨hle, fun _ => rfl⟩
  | cons dp dps ih =>
    unfold scanSlots at he
    dsimp only at he
    split at he
    · cases he
    · rename_i hgt
      split at he
      · rename_i h
        exact absurd rfl h.1
      · split at he
        · cases he
        · obtain ⟨h₁, h₂⟩ := ih (Nat.le_of_not_lt hgt) he
          refine ⟨h₁, fun hlt => ?_⟩
          rw [h₂ hlt, List.length_cons]
          unfold unshort
          omega

/-- The number of slots is cut to 16 bits. -/
theorem scanSlots_le (b : Block) (string : Name) (flag : DirFlag) (oldSlots : Nat)
    (dps : List (Fin NR_DIR_ENTRIES)) {newSlots : Nat} (h : newSlots < 65536) :
    (scanSlots b string flag oldSlots dps newSlots).2 < 65536 := by
  induction dps generalizing newSlots with
  | nil => exact h
  | cons dp dps ih =>
    have hlt : unshort (newSlots + 1) < 65536 := by
      unfold unshort
      omega
    unfold scanSlots
    dsimp only
    split
    · exact hlt
    · split
      · exact hlt
      · split
        · exact hlt
        · exact ih hlt

/-- A directory with room for no name is not of the largest size. -/
theorem Passed.inside (hsz : SizedFor sup ip) (hf : Fits sup ip) {k newSlots : Nat}
    (h : Passed (unshort (ip.iSize.tdiv DIR_ENTRY_SIZE)) k newSlots)
    (hk : ip.iSize ≤ BLOCK_SIZE * k) : Inside sup ip ip.iSize := by
  refine ⟨hf.nonneg, fun sp hsp => lt_of_le_of_ne (hf.max_size sp hsp) fun he => ?_⟩
  obtain ⟨hle, hslots⟩ := h
  rw [Int.tdiv_eq_ediv_of_nonneg hf.nonneg, he] at hle hslots
  rcases scale_cases (hsz sp hsp).fits_long with ⟨-, -, hx⟩ | ⟨-, -, hx⟩ | ⟨-, -, hx⟩
  all_goals
    rw [he, hx] at hk
    rw [hx] at hle hslots
    simp only [unshort, DIR_ENTRY_SIZE, NR_DIR_ENTRIES, BLOCK_SIZE] at hle hslots hk
    omega

/-- What a search of the blocks of a directory leads to. -/
structure Scanned (ip : Inode) (flag : DirFlag) (oldSlots : Nat)
    (r : Search (BufPtr × Fin NR_DIR_ENTRIES) × Nat) : Prop where
  slots : r.2 < 65536
  full : flag = .ENTER → r.1 = .ended → ∃ k : Nat, ip.iSize ≤ BLOCK_SIZE * k ∧ Passed oldSlots k r.2

/-- The search of a directory stays inside its tables. -/
theorem scanBlocks_keeps (hsz : SizedFor sup ip) (hf : Fits sup ip) {string : Name} {flag : DirFlag}
    {oldSlots : Nat} (hold : oldSlots ≤ 65535) (fuel : Nat) {k newSlots : Nat}
    (hslots : newSlots < 65536) (hk : flag = .ENTER → Passed oldSlots k newSlots) :
    Outcome (fun s => SameFile ip s.rip)
      (scanBlocks io sup string flag oldSlots fuel (BLOCK_SIZE * k : Nat) newSlots)
      (fun r s => Scanned ip flag oldSlots r ∧ SameFile ip s.rip) (· ≠ .bounds) := by
  induction fuel generalizing k newSlots with
  | zero => exact Outcome.throw fun _ _ => nofun
  | succ fuel ih =>
    refine get_same.bind fun s₀ => Outcome.fact fun hs₀ => .ite (fun hlt => ?_) fun hge => ?_
    · rw [hs₀.iSize] at hlt
      have hin : Inside sup ip ((BLOCK_SIZE * k : Nat) : Int) :=
        ⟨Int.natCast_nonneg _, fun sp hsp => hlt.trans_le (hf.max_size sp hsp)⟩
      refine Outcome.bind (((readMap_keeps hsz hin).and readMap_super).post fun _ _ h => h.symm)
        fun b => Outcome.fact fun hsup => ?_
      obtain ⟨sp, hsp⟩ := hsup
      have hnext : long ((BLOCK_SIZE * k : Nat) + BLOCK_SIZE) = (BLOCK_SIZE * (k + 1) : Nat) := by
        have hle := hlt.trans_le (hf.max_size sp hsp)
        rcases scale_cases (hsz sp hsp).fits_long with ⟨-, -, hx⟩ | ⟨-, -, hx⟩ | ⟨-, -, hx⟩
        all_goals
          rw [hx] at hle
          simp only [BLOCK_SIZE] at hle ⊢
          rw [long_of_lt (by omega) (by simp only [MAX_P_LONG]; omega)]
          omega
      refine keeps_devOf.bind fun dev => (keeps_getBlock _ _ _).bind fun bp => ?_
      refine keeps_get.bind fun s => ?_
      have hle := scanSlots_le (s.cache.bData bp) string flag oldSlots
        (List.finRange NR_DIR_ENTRIES) hslots
      split
      · rename_i dp n he
        rw [he] at hle
        exact Outcome.pure fun s hs => ⟨⟨hle, nofun⟩, hs⟩
      · rename_i dp n he
        rw [he] at hle
        exact Outcome.pure fun s hs => ⟨⟨hle, nofun⟩, hs⟩
      · rename_i n he
        rw [he] at hle
        refine (keeps_putBlock bp _).bind fun _ => ?_
        rw [hnext]
        refine ih hle fun hflag => ?_
        subst hflag
        obtain ⟨h₁, h₂⟩ := scanSlots_over hold (hk rfl).1 he
        refine ⟨h₁, fun hlt => ?_⟩
        rw [h₂ hlt, (hk rfl).2 hlt, List.length_finRange]
        rfl
    · rw [hs₀.iSize] at hge
      refine Outcome.pure fun s hs => ⟨⟨hslots, fun hflag _ => ⟨k, ?_, hk hflag⟩⟩, hs⟩
      simp only [BLOCK_SIZE] at hge ⊢
      omega

/-- The slots of a directory can be counted, so that their bytes can be mapped. -/
theorem Fits.slots (hsz : SizedFor sup ip) {n : Nat} (hn : n < 65536) :
    Fits sup { ip with iSize := (n * DIR_ENTRY_SIZE : Nat) } := by
  refine ⟨Int.natCast_nonneg _, ?_, fun sp hsp => ?_⟩
  · simp only [DIR_ENTRY_SIZE, MAX_P_LONG]
    omega
  · dsimp only
    rcases scale_cases (hsz sp hsp).fits_long with ⟨-, -, hx⟩ | ⟨-, -, hx⟩ | ⟨-, -, hx⟩
    all_goals
      rw [hx]
      simp only [DIR_ENTRY_SIZE]
      omega

/-- What changes zones only leaves a size that can be mapped. -/
theorem Keeps.settles {m : B σ α} (h : Keeps ip m) (hf : Fits sup ip) : Settles sup ip m :=
  h.post fun _ _ hs => ⟨hs.fits hf, hs.iDev, hs.iCount⟩

/-- A name is entered in a free slot; the directory may grow by it. -/
theorem enterName_settles (hsz : SizedFor sup ip) (hf : Fits sup ip) {string : Name}
    {numb oldSlots newSlots : Nat} (hslots : newSlots < 65536) (bp : BufPtr)
    (dp : Fin NR_DIR_ENTRIES) :
    Settles sup ip (enterName io string numb oldSlots newSlots bp dp) := by
  refine (keeps_storeBuf bp _).bind fun _ => (keeps_putBlock bp _).bind fun _ => ?_
  refine Outcome.bind (Outcome.modify fun s hs => ?_) fun _ => Outcome.pure fun s hs => hs
  refine ⟨?_, hs.iDev, hs.iCount⟩
  dsimp only
  split
  · exact ⟨(Fits.slots (hs.sized hsz) hslots).nonneg, (Fits.slots (hs.sized hsz) hslots).fits_long,
      (Fits.slots (hs.sized hsz) hslots).max_size⟩
  · exact ⟨(hs.fits hf).nonneg, (hs.fits hf).fits_long, (hs.fits hf).max_size⟩

/-- An entry that was found is read or deleted. -/
theorem takeEntry_keeps {flag : DirFlag} {numb : Nat} {bp : BufPtr} {dp : Fin NR_DIR_ENTRIES} :
    Keeps ip (takeEntry io flag numb bp dp) :=
  keeps_get.bind fun _ => (keeps_provided fun _ => keeps_storeBuf bp _).bind fun _ =>
    (keeps_putBlock bp _).bind fun _ => keeps_pure _

/-- A directory without a free slot gets a new block. -/
theorem extendDir_settles (hsz : SizedFor sup ip) (hf : Fits sup ip) {string : Name}
    {numb oldSlots newSlots : Nat} (h : Inside sup ip ip.iSize) :
    Settles sup ip (extendDir io sup string numb oldSlots newSlots) := by
  refine .ite (fun _ => (keeps_pure _).settles hf) fun _ => ?_
  refine get_same.bind fun s₀ => Outcome.fact fun hs₀ => ?_
  rw [hs₀.iSize]
  refine (newBlock_keeps hsz h).bind fun r => ?_
  cases r with
  | none => exact keeps_get.bind fun _ => (keeps_pure _).settles hf
  | some bp => exact enterName_settles hsz hf (by unfold unshort; omega) bp 0

/-- `search_dir` stays inside the tables, and the directory keeps a size that zones can map. -/
theorem searchDir_settles (hsz : SizedFor sup ip) (hf : Fits sup ip) (fp : Fproc) (string : Name)
    (numb : Nat) (flag : DirFlag) : Settles sup ip (searchDir io sup fp string numb flag) := by
  refine get_same.bind fun s₀ => Outcome.fact fun hs₀ => ?_
  refine .ite (fun _ => (keeps_pure _).settles hf) fun _ => ?_
  have hperm : ∀ {f : Work σ → Option Int}, Keeps ip (orStuck fun s => (f s).map fun r => (r, s)) :=
    fun {f} => Looks.keeps fun _ _ => looks_orStuck fun s r he => by
      obtain ⟨_, -, rfl⟩ := Option.map_eq_some_iff.mp he
      rfl
  refine hperm.bind fun r => .ite (fun _ => (keeps_pure _).settles hf) fun _ => ?_
  rw [hs₀.iSize]
  have hslots : unshort (ip.iSize.tdiv DIR_ENTRY_SIZE) ≤ 65535 := by
    unfold unshort
    omega
  have hstart : flag = .ENTER → Passed (unshort (ip.iSize.tdiv DIR_ENTRY_SIZE)) 0 0 := fun _ =>
    ⟨Nat.zero_le _, fun _ => rfl⟩
  refine (scanBlocks_keeps hsz hf hslots _ (by decide) hstart).bind fun r => ?_
  refine Outcome.fact fun hr => ?_
  obtain ⟨found, newSlots⟩ := r
  cases found with
  | found dp => exact takeEntry_keeps.settles hf
  | room dp => exact enterName_settles hsz hf hr.slots dp.1 dp.2
  | ended =>
    refine .ite (fun _ => (keeps_pure _).settles hf) fun hflag => ?_
    obtain ⟨k, hk, hp⟩ := hr.full (not_not.mp hflag) rfl
    exact extendDir_settles hsz hf (hp.inside hsz hf hk)

end Minix.FS.ZoneMaps
