import Mathlib.Data.Fin.VecNotation
import Mathlib.GroupTheory.Perm.Basic
import Minix.Kernel.Memory

/-!
# The winchester task

A request for a partition becomes the number of a sector of the drive, which is split into cylinder,
head and sector, and these are packed into the bytes of a command. Where the partitions are comes
from a table on the drive, and they are sorted.

An integer has 16 bits, a long 32. The controller is asked to move a block a few times; what it
answers is an input.
-/

namespace Minix.Kernel.Winchester

open Function

/-- physical sector size in bytes -/
abbrev SECTOR_SIZE : Int := 512

/-- how often to try rd/wt before quitting -/
abbrev MAX_ERRORS : Nat := 4

/-- maximum number of drives -/
abbrev NR_DEVICES : Int := 10

/-- IBM partition table starts here in sect 0 -/
abbrev PART_TABLE : Nat := 0x1C6

/-- hd0 + hd1 + hd2 + hd3 + hd4 = 5 -/
abbrev DEV_PER_DRIVE : Int := 5

/-- command for the drive to read -/
abbrev WIN_READ : BitVec 16 := 0x20

/-- command for the drive to write -/
abbrev WIN_WRITE : BitVec 16 := 0x30

/-- general error -/
abbrev ERR : Int := -1

abbrev EIO : Int := -5

/-- `(int) n`. -/
def int (n : Int) : Int := Int.bmod n 65536

/-- What is kept of a device: the parameters of its drive, and where it lies. -/
structure Wini where
  /-- maximum number of heads -/
  heads : Int
  /-- maximum number of sectors per track -/
  maxsec : Int
  /-- control byte (steprate) -/
  ctlbyte : Int
  /-- write precompensation cylinder / 4 -/
  precomp : Int
  /-- lowest sector of partition -/
  low : Int
  /-- size of partition in sectors -/
  size : Int
  deriving DecidableEq

/-- The main drive structs, before they have been set. -/
def noWini : Nat → Wini := fun _ => ⟨0, 0, 0, 0, 0, 0⟩

/-- `*(int *)&buf[offset]`. -/
def intAt (buf : Nat → UInt8) (offset : Nat) : Int :=
  int ((buf offset).toNat + (buf (offset + 1)).toNat * 256 : Nat)

/-- The four bytes from `offset` on, lowest first. -/
def fieldAt (buf : Nat → UInt8) (offset : Nat) : Nat :=
  (buf offset).toNat + (buf (offset + 1)).toNat * 256 + (buf (offset + 2)).toNat * 65536 +
    (buf (offset + 3)).toNat * 16777216

/-- `*(long *)&buf[offset]`. -/
def longAt (buf : Nat → UInt8) (offset : Nat) : Int := long (fieldAt buf offset)

/-- This routine copies the parameters from src to dest and sets the parameters for partition 0 and
5. -/
def copyParams (src : Nat → UInt8) (dest : Nat) (wini : Nat → Wini) : Nat → Wini := fun n =>
  if dest ≤ n ∧ n < dest + 5 then
    { wini n with
      heads := (src 2).toNat
      precomp := intAt src 5 / 4
      ctlbyte := (src 8).toNat
      maxsec := (src 14).toNat
      size := if n = dest then long (intAt src 0 * (src 2).toNat * (src 14).toNat)
        else (wini n).size }
  else wini n

/-- The start of a partition, rounded up to a block. -/
def alignLow (low : Int) : Int :=
  if low.tmod 2 ≠ 0 then long ((low.tdiv 2 + 1) * 2) else low

/-- By how much the start has moved. -/
def adjust (low : Int) : Int := if low.tmod 2 ≠ 0 then long (alignLow low - low) else 0

/-- One entry of the partition table is copied. -/
def copyEntry (buf : Nat → UInt8) (drive : Nat) (wini : Nat → Wini) (i : Nat) : Nat → Wini :=
  let offset := PART_TABLE + i * 0x10
  let low := longAt buf offset
  let size := longAt buf (offset + 4)
  update wini (i + drive + 1)
    { wini (i + drive + 1) with low := alignLow low, size := long (size - adjust low) }

/-- Two neighbours are exchanged when they are out of order; unused partitions come last. -/
def sortStep (base : Nat) (wini : Nat → Wini) (j : Nat) : Nat → Wini :=
  let a := wini (base + j)
  let b := wini (base + j + 1)
  if a.low = 0 ∧ b.low ≠ 0 ∨ a.low > b.low ∧ b.low ≠ 0 then
    update (update wini (base + j) b) (base + j + 1) a
  else wini

/-- `sort(&wini[base])`. -/
def sort (base : Nat) (wini : Nat → Wini) : Nat → Wini :=
  (List.range 4).foldl (fun wini _ => (List.range 3).foldl (sortStep base) wini) wini

/-- This routine copies the partition table for the selected drive to the variables wn_low and
wn_size. -/
def copyPrt (buf : Nat → UInt8) (drive : Nat) (wini : Nat → Wini) : Nat → Wini :=
  sort (drive + 1) ((List.range 4).foldl (copyEntry buf drive) wini)

/-- The partition table of a drive is saved, unless it can't be read or is invalid. -/
def savePrt (table : Nat → Option (Nat → UInt8)) (wini : Nat → Wini) (i : Nat) : Nat → Wini :=
  if i * 5 ≥ NR_DEVICES then wini
  else match table i with
    | none => wini
    | some buf => if buf 510 ≠ 0x55 ∨ buf 511 ≠ 0xAA then wini else copyPrt buf (i * 5) wini

/-- This routine is called at startup to initialize the partition table, with the parameter vectors,
the number of drives and the first block of each of them. -/
def initParams (vec0 vec1 : Nat → UInt8) (nrDrives : Nat)
    (table : Nat → Option (Nat → UInt8)) : Nat → Wini :=
  (List.range nrDrives).foldl (savePrt table) (copyParams vec1 5 (copyParams vec0 0 noWini))

/-- The place on a drive that a request is for. -/
structure Chs where
  drive : Int
  cylinder : Int
  sector : Int
  head : Int

/-- The start of `w_do_rdwt`: decode the message parameters. -/
def decode (nrDrives : Nat) (wini : Nat → Wini) (m : DevMess) : Except Int (Wini × Chs) :=
  if m.device < 0 ∨ m.device ≥ NR_DEVICES then .error EIO
  else if m.count ≠ BLOCK_SIZE then .error EINVAL
  else
    let wn := wini m.device.toNat
    let drive := m.device.tdiv DEV_PER_DRIVE
    if drive ≥ nrDrives then .error EIO
    else if m.position.tmod BLOCK_SIZE ≠ 0 then .error EINVAL
    else
      let sector := m.position.tdiv SECTOR_SIZE
      if sector + 2 > wn.size then .error EOF
      else
        let sector := long (sector + wn.low)
        let track := int (wn.heads * wn.maxsec)
        .ok (wn, {
          drive := drive
          cylinder := int (sector.tdiv track)
          sector := int (sector.tmod wn.maxsec + 1)
          head := int ((sector.tmod track).tdiv wn.maxsec) })

/-- The common command block of a transfer. -/
def command (wn : Wini) (chs : Chs) (opcode : Int) : Fin 8 → BitVec 16 :=
  let cylinder := BitVec.ofInt 16 chs.cylinder
  ![BitVec.ofInt 16 wn.ctlbyte, BitVec.ofInt 16 wn.precomp, 2, BitVec.ofInt 16 chs.sector,
    cylinder &&& 0xFF, (cylinder &&& 0x0300) >>> 8,
    (BitVec.ofInt 16 chs.drive <<< 4) ||| BitVec.ofInt 16 chs.head ||| 0xA0,
    if opcode = DISK_READ then WIN_READ else WIN_WRITE]

/-- How the controller takes one attempt: whether it accepts the command, and whether it carries it
out. -/
structure Attempt where
  accepted : Bool
  done : Bool

/-- `w_transfer`, with the command blocks that are sent. -/
def transfer (usrBuf : Int) (cmd : Fin 8 → BitVec 16) (a : Attempt) :
    Int × List (Fin 8 → BitVec 16) :=
  if usrBuf = 0 then (ERR, [])
  else if ¬a.accepted then (ERR, [])
  else (if a.done then OK else ERR, [cmd])

/-- This loop allows a failed operation to be repeated, as long as there are attempts left. -/
def attempts (usrBuf : Int) (cmd : Fin 8 → BitVec 16) (ctl : Nat → Attempt) :
    Nat → Int × List (Fin 8 → BitVec 16)
  | 0 => ( EIO, [])
  | n + 1 =>
    let r := transfer usrBuf cmd (ctl n)
    if r.1 = OK then (BLOCK_SIZE, r.2)
    else
      let rest := attempts usrBuf cmd ctl n
      (rest.1, r.2 ++ rest.2)

/-- Carry out a read or write request from the disk, for a process with the map `map`. -/
def wDoRdwt (nrDrives : Nat) (wini : Nat → Wini) (map : ProcMap) (ctl : Nat → Attempt)
    (m : DevMess) : Int × List (Fin 8 → BitVec 16) :=
  match decode nrDrives wini m with
  | .error r => (r, [])
  | .ok (wn, chs) =>
    attempts (umap map D (virBytes m.address) 1024) (command wn chs m.mType) ctl MAX_ERRORS

/-! ## The partitions of a drive -/

section Partitions

variable {base drive : Nat} {w w' w'' : Nat → Wini} {buf : Nat → UInt8}

/-- Four devices have been put in another order. -/
def Shuffled (base : Nat) (w w' : Nat → Wini) : Prop :=
  ∃ σ : Equiv.Perm (Fin 4), (∀ j : Fin 4, w' (base + j) = w (base + σ j)) ∧
    ∀ n, n < base ∨ base + 4 ≤ n → w' n = w n

theorem Shuffled.refl (base : Nat) (w : Nat → Wini) : Shuffled base w w :=
  ⟨1, fun _ => rfl, fun _ _ => rfl⟩

theorem Shuffled.trans (h : Shuffled base w w') (h' : Shuffled base w' w'') :
    Shuffled base w w'' := by
  obtain ⟨σ, hσ, hout⟩ := h
  obtain ⟨τ, hτ, hout'⟩ := h'
  exact ⟨σ * τ, fun j => (hτ j).trans (hσ (τ j)), fun n hn => (hout' n hn).trans (hout n hn)⟩

/-- Two neighbours are exchanged. -/
theorem Shuffled.swap (w : Nat → Wini) {j : Nat} (hj : j < 3) : Shuffled base w
    (update (update w (base + j) (w (base + j + 1))) (base + j + 1) (w (base + j))) := by
  refine ⟨Equiv.swap ⟨j, by omega⟩ ⟨j + 1, by omega⟩, fun i => ?_, fun n hn => ?_⟩
  · by_cases hi : i = ⟨j, by omega⟩
    · subst hi
      rw [Equiv.swap_apply_left, update_of_ne (by dsimp only; omega), update_self]
      rfl
    by_cases hi' : i = ⟨j + 1, by omega⟩
    · subst hi'
      rw [Equiv.swap_apply_right]
      exact update_self _ _ _
    · have hne : i.val ≠ j ∧ i.val ≠ j + 1 :=
        ⟨fun h => hi (Fin.ext h), fun h => hi' (Fin.ext h)⟩
      rw [Equiv.swap_apply_of_ne_of_ne hi hi', update_of_ne (by omega), update_of_ne (by omega)]
  · rw [update_of_ne (by omega), update_of_ne (by omega)]

theorem Shuffled.foldl {f : (Nat → Wini) → Nat → Nat → Wini} {l : List Nat}
    (hf : ∀ w, ∀ j ∈ l, Shuffled base w (f w j)) (w : Nat → Wini) :
    Shuffled base w (l.foldl f w) := by
  induction l generalizing w with
  | nil => exact .refl base w
  | cons j l ih =>
    exact (hf w j List.mem_cons_self).trans
      (ih (fun w j hj => hf w j (List.mem_cons_of_mem _ hj)) (f w j))

/-- Sorting loses no partition. -/
theorem sort_shuffled (base : Nat) (w : Nat → Wini) : Shuffled base w (sort base w) := by
  refine .foldl (fun w _ _ => .foldl (fun w j hj => ?_) w) w
  unfold sortStep
  dsimp only
  split
  · exact .swap w (List.mem_range.mp hj)
  · exact .refl base w

/-- A device with the start and size of an entry. -/
def placed (buf : Nat → UInt8) (i : Nat) (wn : Wini) : Wini :=
  let offset := PART_TABLE + i * 0x10
  let low := longAt buf offset
  { wn with low := alignLow low, size := long (longAt buf (offset + 4) - adjust low) }

theorem copyEntry_apply (buf : Nat → UInt8) (drive : Nat) (w : Nat → Wini) (i n : Nat) :
    copyEntry buf drive w i n = if n = i + drive + 1 then placed buf i (w n) else w n := by
  unfold copyEntry
  dsimp only
  rw [update_apply]
  split
  · rename_i h
    rw [h]
    rfl
  · rfl

/-- All four entries are copied. -/
theorem copyEntries_eq (buf : Nat → UInt8) (drive : Nat) (w : Nat → Wini) (n : Nat) :
    (List.range 4).foldl (copyEntry buf drive) w n =
      if drive < n ∧ n ≤ drive + 4 then placed buf (n - drive - 1) (w n) else w n := by
  have hrange : List.range 4 = [0, 1, 2, 3] := rfl
  rw [hrange]
  simp only [List.foldl_cons, List.foldl_nil, copyEntry_apply]
  by_cases h : drive < n ∧ n ≤ drive + 4
  · obtain ⟨i, hi, rfl⟩ : ∃ i, i < 4 ∧ n = i + drive + 1 := ⟨n - drive - 1, by omega, by omega⟩
    have hsub : i + drive + 1 - drive - 1 = i := by omega
    rw [if_pos h, hsub]
    obtain rfl | rfl | rfl | rfl : i = 0 ∨ i = 1 ∨ i = 2 ∨ i = 3 := by omega
    all_goals simp
  · rw [if_neg h, if_neg (by omega), if_neg (by omega), if_neg (by omega), if_neg (by omega)]

/-- Each device of a drive gets one of the entries of the table. -/
theorem copyPrt_placed (buf : Nat → UInt8) (drive : Nat) (w : Nat → Wini) :
    ∃ σ : Equiv.Perm (Fin 4), (∀ j : Fin 4, copyPrt buf drive w (drive + 1 + j) =
        placed buf (σ j) (w (drive + 1 + σ j))) ∧
      ∀ n, n < drive + 1 ∨ drive + 1 + 4 ≤ n → copyPrt buf drive w n = w n := by
  obtain ⟨σ, hσ, hout⟩ := sort_shuffled (drive + 1) ((List.range 4).foldl (copyEntry buf drive) w)
  refine ⟨σ, fun j => (hσ j).trans ?_, fun n hn => (hout n hn).trans ?_⟩
  · have hlt := (σ j).isLt
    have hsub : drive + 1 + (σ j).val - drive - 1 = σ j := by omega
    rw [copyEntries_eq, if_pos (by omega), hsub]
  · rw [copyEntries_eq, if_neg (by omega)]

/-- The table of a drive, if it can be read and is valid. -/
def ValidTable (table : Nat → Option (Nat → UInt8)) (i : Nat) (buf : Nat → UInt8) : Prop :=
  table i = some buf ∧ buf 510 = 0x55 ∧ buf 511 = 0xAA

theorem savePrt_outside (table : Nat → Option (Nat → UInt8)) (w : Nat → Wini) {i n : Nat}
    (hn : n < i * 5 + 1 ∨ i * 5 + 1 + 4 ≤ n) : savePrt table w i n = w n := by
  unfold savePrt
  split
  · rfl
  cases table i with
  | none => rfl
  | some buf =>
    dsimp only
    split
    · rfl
    · obtain ⟨σ, -, hout⟩ := copyPrt_placed buf (i * 5) w
      exact hout n hn

theorem savePrt_valid {table : Nat → Option (Nat → UInt8)} {i : Nat} (hi : i < 2)
    (h : ValidTable table i buf) (w : Nat → Wini) :
    savePrt table w i = copyPrt buf (i * 5) w := by
  obtain ⟨ht, hlo, hhi⟩ := h
  have hdev : ¬((i * 5 : Nat) : Int) ≥ NR_DEVICES := by
    dsimp only [NR_DEVICES]
    omega
  unfold savePrt
  rw [if_neg (by exact_mod_cast hdev), ht]
  exact if_neg (not_or.mpr ⟨not_not.mpr hlo, not_not.mpr hhi⟩)

theorem savePrts_outside (table : Nat → Option (Nat → UInt8)) (w : Nat → Wini) {i j : Nat}
    (hj : j < 4) {l : List Nat} (hl : i ∉ l) :
    l.foldl (savePrt table) w (i * 5 + 1 + j) = w (i * 5 + 1 + j) := by
  induction l generalizing w with
  | nil => rfl
  | cons k l ih =>
    obtain ⟨hne, hl⟩ := not_or.mp (mt List.mem_cons.mpr hl)
    rw [List.foldl_cons, ih _ hl, savePrt_outside table w (by omega)]

/-- The devices of a drive with a valid table get its entries. -/
theorem savePrts_placed {table : Nat → Option (Nat → UInt8)} {i nrDrives : Nat} (hi : i < 2)
    (hd : i < nrDrives) (h : ValidTable table i buf) (w : Nat → Wini) :
    ∃ σ : Equiv.Perm (Fin 4), ∀ j : Fin 4,
      (List.range nrDrives).foldl (savePrt table) w (i * 5 + 1 + j) =
        placed buf (σ j) (w (i * 5 + 1 + σ j)) := by
  induction nrDrives with
  | zero => exact absurd hd (Nat.not_lt_zero i)
  | succ n ih =>
    rw [List.range_succ, List.foldl_append]
    by_cases hin : i < n
    · obtain ⟨σ, hσ⟩ := ih hin
      refine ⟨σ, fun j => (savePrts_outside table _ j.isLt fun hmem => ?_).trans (hσ j)⟩
      exact hin.ne (List.mem_singleton.mp hmem)
    · obtain rfl : i = n := by omega
      obtain ⟨σ, hσ, -⟩ := copyPrt_placed buf (i * 5) ((List.range i).foldl (savePrt table) w)
      refine ⟨σ, fun j => ?_⟩
      have hout := savePrts_outside table w (σ j).isLt (List.not_mem_range_self (n := i))
      rw [List.foldl_cons, List.foldl_nil, savePrt_valid hi h, hσ j, hout]

/-- The parameters of a drive. -/
def paramsOf (vec0 vec1 : Nat → UInt8) (i : Nat) : Nat → UInt8 := if i = 0 then vec0 else vec1

theorem copyParams_inside (vec : Nat → UInt8) (w : Nat → Wini) {dest n : Nat}
    (hn : dest ≤ n ∧ n < dest + 5) : (copyParams vec dest w n).heads = (vec 2).toNat ∧
      (copyParams vec dest w n).maxsec = (vec 14).toNat := by
  unfold copyParams
  rw [if_pos hn]
  exact ⟨rfl, rfl⟩

theorem copyParams_outside (vec : Nat → UInt8) (w : Nat → Wini) {dest n : Nat}
    (hn : ¬(dest ≤ n ∧ n < dest + 5)) : copyParams vec dest w n = w n := if_neg hn

/-- The devices of a drive have its geometry. -/
theorem copyParams_drive (vec0 vec1 : Nat → UInt8) (w : Nat → Wini) {i n : Nat} (hi : i < 2)
    (hn : i * 5 ≤ n ∧ n < i * 5 + 5) :
    (copyParams vec1 5 (copyParams vec0 0 w) n).heads = (paramsOf vec0 vec1 i 2).toNat ∧
      (copyParams vec1 5 (copyParams vec0 0 w) n).maxsec = (paramsOf vec0 vec1 i 14).toNat := by
  obtain rfl | rfl : i = 0 ∨ i = 1 := by omega
  · rw [copyParams_outside vec1 _ (by omega)]
    exact copyParams_inside vec0 w (by omega)
  · exact copyParams_inside vec1 _ (by omega)

/-- A partition is one of the entries of the table, and has the geometry of its drive. -/
theorem initParams_partition {table : Nat → Option (Nat → UInt8)} {vec0 vec1 : Nat → UInt8}
    {i nrDrives : Nat} (hi : i < 2) (hd : i < nrDrives) (h : ValidTable table i buf) :
    ∃ σ : Equiv.Perm (Fin 4), ∀ j : Fin 4, ∃ wn : Wini,
      initParams vec0 vec1 nrDrives table (i * 5 + 1 + j) = placed buf (σ j) wn ∧
        wn.heads = (paramsOf vec0 vec1 i 2).toNat ∧
        wn.maxsec = (paramsOf vec0 vec1 i 14).toNat := by
  obtain ⟨σ, hσ⟩ := savePrts_placed hi hd h (copyParams vec1 5 (copyParams vec0 0 noWini))
  refine ⟨σ, fun j => ⟨_, hσ j, copyParams_drive vec0 vec1 noWini hi ?_⟩⟩
  have hlt := (σ j).isLt
  omega

end Partitions

/-! ## The start of a partition -/

section Starts

/-- The start of an entry, as it is aligned to a block. -/
def alignedStart (low : Nat) : Nat := low + low % 2

/-- How an integer is halved. -/
theorem tdiv_two (n : Int) : n.tmod 2 ≠ 0 ∧ n % 2 = 1 ∧
      (0 ≤ n ∧ n.tdiv 2 = n / 2 ∨ n < 0 ∧ n.tdiv 2 = n / 2 + 1) ∨
    n.tmod 2 = 0 ∧ n % 2 = 0 ∧ n.tdiv 2 = n / 2 := by
  rw [Int.tmod_eq_emod, Int.tdiv_eq_ediv]
  have hs : (2 : Int).sign = 1 := rfl
  rw [hs]
  split
  · rename_i h
    omega
  · rename_i h
    omega

/-- The start is the aligned one, unless it can't be kept in a long; and what is left is in the
entry. -/
theorem alignLow_spec {low0 size0 : Nat} (hl : low0 < 4294967296) (hs : size0 < 4294967296) :
    (alignedStart low0 < 2147483648 → alignLow (long low0) = alignedStart low0) ∧
      ∀ P : Int, 0 ≤ P → P + 2 ≤ long (long size0 - adjust (long low0)) →
        alignedStart low0 + P + 2 ≤ low0 + size0 := by
  obtain ⟨⟨q, hq⟩, hlo, hhi⟩ := long_cases low0
  obtain ⟨⟨q', hq'⟩, hlo', hhi'⟩ := long_cases size0
  unfold alignedStart adjust alignLow
  generalize long low0 = low at *
  generalize long size0 = size at *
  rcases tdiv_two low with ⟨hne, hodd, hhalf⟩ | ⟨heq, heven, -⟩
  · rw [if_pos hne, if_pos hne]
    obtain ⟨⟨q1, hq1⟩, hlo1, hhi1⟩ := long_cases ((low.tdiv 2 + 1) * 2)
    generalize long ((low.tdiv 2 + 1) * 2) = wnLow at *
    obtain ⟨⟨q2, hq2⟩, hlo2, hhi2⟩ := long_cases (wnLow - low)
    generalize long (wnLow - low) = adjust at *
    obtain ⟨⟨q3, hq3⟩, hlo3, hhi3⟩ := long_cases (size - adjust)
    generalize long (size - adjust) = left at *
    generalize low.tdiv 2 = half at *
    constructor
    · intro hA
      omega
    · intro P hP hsz
      rcases hhalf with ⟨hpos, rfl⟩ | ⟨hneg, rfl⟩
      · omega
      · omega
  · rw [if_neg (not_not.mpr heq), if_neg (not_not.mpr heq)]
    obtain ⟨⟨q3, hq3⟩, hlo3, hhi3⟩ := long_cases (size - 0)
    generalize long (size - 0) = left at *
    constructor
    · intro hA
      omega
    · intro P hP hsz
      omega

end Starts

/-! ## The bytes of a command -/

/-- The cylinder that a command names. -/
def cylOf (cmd : Fin 8 → BitVec 16) : Nat := (cmd 4).toNat % 256 + (cmd 5).toNat % 256 * 256

/-- The head that it names. -/
def headOf (cmd : Fin 8 → BitVec 16) : Nat := (cmd 6).toNat % 16

/-- The drive that it names. -/
def driveOf (cmd : Fin 8 → BitVec 16) : Nat := (cmd 6).toNat / 16 % 2

/-- The sector that it names. -/
def secOf (cmd : Fin 8 → BitVec 16) : Nat := (cmd 3).toNat % 256

/-- A command names two consecutive sectors of a drive, from the one with this number on. -/
structure Names (cmd : Fin 8 → BitVec 16) (drive heads maxsec : Nat) (linear : Int) : Prop where
  count : cmd 2 = 2
  drive : driveOf cmd = drive
  head : headOf cmd < heads
  sector : 1 ≤ secOf cmd ∧ secOf cmd ≤ maxsec
  linear : linear = ((cylOf cmd * heads + headOf cmd) * maxsec + (secOf cmd - 1) : Nat)

section Commands

variable {wn : Wini} {chs : Chs} {opcode : Int}

/-- Two bits of the cylinder are kept in the second byte. -/
theorem cylinder_high (n : Nat) : ((BitVec.ofNat 16 n &&& 0x0300) >>> 8).toNat = n / 256 % 4 := by
  have hmask : (0x0300 : BitVec 16).toNat >>> 8 = 2 ^ 2 - 1 := rfl
  rw [BitVec.toNat_ushiftRight, BitVec.toNat_and, Nat.shiftRight_and_distrib, hmask,
    Nat.and_two_pow_sub_one_eq_mod, BitVec.toNat_ofNat, Nat.shiftRight_eq_div_pow]
  omega

theorem cylinder_low (n : Nat) : (BitVec.ofNat 16 n &&& 0xFF).toNat = n % 256 := by
  have hmask : (0xFF : BitVec 16).toNat = 2 ^ 8 - 1 := rfl
  rw [BitVec.toNat_and, hmask, Nat.and_two_pow_sub_one_eq_mod, BitVec.toNat_ofNat]
  omega

/-- The drive and the head are kept in one byte. -/
theorem drive_head : ∀ d : Fin 2, ∀ h : Fin 16,
    ((BitVec.ofNat 16 d.val <<< 4) ||| BitVec.ofNat 16 h.val ||| 0xA0).toNat =
      160 + d.val * 16 + h.val := by decide

/-- There are no more than 1024 cylinders in a command. -/
theorem command_cyl (wn : Wini) (chs : Chs) (opcode : Int) :
    cylOf (command wn chs opcode) < 1024 := by
  obtain ⟨n, hn⟩ : ∃ n, BitVec.ofInt 16 chs.cylinder = BitVec.ofNat 16 n :=
    ⟨(BitVec.ofInt 16 chs.cylinder).toNat, by rw [BitVec.ofNat_toNat, BitVec.setWidth_eq]⟩
  have hlo : (command wn chs opcode 4).toNat = n % 256 := by
    change (BitVec.ofInt 16 chs.cylinder &&& 0xFF).toNat = _
    rw [hn, cylinder_low]
  have hhi : (command wn chs opcode 5).toNat = n / 256 % 4 := by
    change ((BitVec.ofInt 16 chs.cylinder &&& 0x0300) >>> 8).toNat = _
    rw [hn, cylinder_high]
  unfold cylOf
  omega

/-- What a command names. -/
theorem command_names (wn : Wini) (opcode : Int) {c s h d : Nat} (hd : d < 2)
    (hc : c < 1024) (hs : s < 256) (hh : h < 16)
    (he : chs = ⟨d, c, s, h⟩) :
    cylOf (command wn chs opcode) = c ∧ headOf (command wn chs opcode) = h ∧
      driveOf (command wn chs opcode) = d ∧ secOf (command wn chs opcode) = s := by
  subst he
  have hlo : (command wn ⟨d, c, s, h⟩ opcode 4).toNat = c % 256 := by
    change (BitVec.ofInt 16 (c : Int) &&& 0xFF).toNat = _
    rw [BitVec.ofInt_natCast, cylinder_low]
  have hhi : (command wn ⟨d, c, s, h⟩ opcode 5).toNat = c / 256 % 4 := by
    change ((BitVec.ofInt 16 (c : Int) &&& 0x0300) >>> 8).toNat = _
    rw [BitVec.ofInt_natCast, cylinder_high]
  have hdh : (command wn ⟨d, c, s, h⟩ opcode 6).toNat = 160 + d * 16 + h := by
    change ((BitVec.ofInt 16 (d : Int) <<< 4) ||| BitVec.ofInt 16 (h : Int) ||| 0xA0).toNat = _
    rw [BitVec.ofInt_natCast, BitVec.ofInt_natCast]
    exact drive_head ⟨d, hd⟩ ⟨h, hh⟩
  have hsec : (command wn ⟨d, c, s, h⟩ opcode 3).toNat = s := by
    change (BitVec.ofInt 16 (s : Int)).toNat = _
    rw [BitVec.ofInt_natCast, BitVec.toNat_ofNat]
    omega
  unfold cylOf headOf driveOf secOf
  rw [hlo, hhi, hdh, hsec]
  omega

end Commands

/-! ## A request for a partition -/

section Requests

variable {vec0 vec1 : Nat → UInt8} {nrDrives i n : Nat} {table : Nat → Option (Nat → UInt8)}
  {buf : Nat → UInt8} {map : ProcMap} {m : DevMess} {wini : Nat → Wini}
  {heads maxsec low0 size0 : Nat}

/-- A request for a block of a device. -/
structure BlockRequest (m : DevMess) (n : Nat) : Prop where
  device : m.device = n
  count : m.count = BLOCK_SIZE
  position : 0 ≤ m.position ∧ m.position < 2147483648
  aligned : m.position % BLOCK_SIZE = 0

/-- The sector of the partition that a request is for. -/
def relSector (m : DevMess) : Int := m.position / SECTOR_SIZE

/-- The two sectors of a request, from the aligned start of an entry on, are inside the entry. -/
def Inside (m : DevMess) (low0 size0 : Nat) : Prop :=
  alignedStart low0 + relSector m + 2 ≤ low0 + size0

/-- A request for a partition gets to the sectors that it is for, or to none. -/
structure Isolated (nrDrives : Nat) (wini : Nat → Wini) (map : ProcMap) (m : DevMess)
    (drive heads maxsec low0 size0 : Nat) : Prop where
  refused : ¬Inside m low0 size0 → ∀ ctl, wDoRdwt nrDrives wini map ctl m = (EOF, [])
  named : ∀ ctl, ∀ cmd ∈ (wDoRdwt nrDrives wini map ctl m).2,
    Inside m low0 size0 ∧ Names cmd drive heads maxsec (alignedStart low0 + relSector m)

/-- When a request is accepted, and its buffer is mapped, then its cylinder and its head fit in the
bits that a command has for them. -/
def FitsCommand (wn : Wini) (map : ProcMap) (m : DevMess) (heads maxsec low0 : Nat) : Prop :=
  relSector m + 2 ≤ wn.size → umap map D (virBytes m.address) 1024 ≠ 0 →
    (alignedStart low0 + relSector m) / (heads * maxsec : Nat) < 1024 ∧
      (alignedStart low0 + relSector m) % (heads * maxsec : Nat) / maxsec < 16

/-- All the attempts send the same command. -/
theorem attempts_sent {usrBuf : Int} {cmd c : Fin 8 → BitVec 16} {ctl : Nat → Attempt} {k : Nat}
    (h : c ∈ (attempts usrBuf cmd ctl k).2) : c = cmd ∧ usrBuf ≠ 0 := by
  have hone : ∀ a, c ∈ (transfer usrBuf cmd a).2 → c = cmd ∧ usrBuf ≠ 0 := by
    intro a ha
    unfold transfer at ha
    split at ha
    · cases ha
    · rename_i hne
      split at ha
      · cases ha
      · exact ⟨List.mem_singleton.mp ha, hne⟩
  induction k with
  | zero => cases h
  | succ k ih =>
    unfold attempts at h
    dsimp only at h
    split at h
    · exact hone _ h
    · exact (List.mem_append.mp h).elim (hone _) ih

/-- What is decoded from a request. -/
theorem decode_request (wini : Nat → Wini) (hm : BlockRequest m n) (hi : i < 2) (hd : i < nrDrives)
    (hn : i * 5 ≤ n ∧ n < i * 5 + 5) : decode nrDrives wini m =
      if relSector m + 2 > (wini n).size then .error EOF
      else
        let sector := long (relSector m + (wini n).low)
        let track := int ((wini n).heads * (wini n).maxsec)
        .ok (wini n, {
          drive := i
          cylinder := int (sector.tdiv track)
          sector := int (sector.tmod (wini n).maxsec + 1)
          head := int ((sector.tmod track).tdiv (wini n).maxsec) }) := by
  have hpos := hm.position
  have hal := hm.aligned
  have hdev : ¬(m.device < 0 ∨ m.device ≥ NR_DEVICES) := by
    have := hm.device
    dsimp only [NR_DEVICES]
    omega
  have hdrive : m.device.tdiv DEV_PER_DRIVE = i := by
    have := hm.device
    rw [Int.tdiv_eq_ediv_of_nonneg (by omega)]
    dsimp only [DEV_PER_DRIVE]
    omega
  have hn' : m.device.toNat = n := by
    have := hm.device
    omega
  have hal' : ¬m.position.tmod BLOCK_SIZE ≠ 0 := by
    rw [Int.tmod_eq_emod_of_nonneg hpos.1]
    exact not_not.mpr hal
  have hsec : m.position.tdiv SECTOR_SIZE = relSector m := Int.tdiv_eq_ediv_of_nonneg hpos.1
  unfold decode
  rw [if_neg hdev, if_neg (not_not.mpr hm.count), hdrive, hn', hsec]
  dsimp only
  rw [if_neg (by omega), if_neg hal']

/-- A sector of a drive is a place on a cylinder. -/
theorem chs_split {c h s : Nat} (hh : h < heads) (hs : s < maxsec) :
    ((c * heads + h) * maxsec + s) / (heads * maxsec) = c ∧
      ((c * heads + h) * maxsec + s) % (heads * maxsec) / maxsec = h := by
  have hlt : h * maxsec + s < heads * maxsec := calc
    h * maxsec + s < h * maxsec + maxsec := Nat.add_lt_add_left hs _
    _ = (h + 1) * maxsec := (Nat.succ_mul h maxsec).symm
    _ ≤ heads * maxsec := Nat.mul_le_mul_right maxsec hh
  have heq : (c * heads + h) * maxsec + s = heads * maxsec * c + (h * maxsec + s) := by
    rw [Nat.add_mul, Nat.mul_assoc, Nat.mul_comm c, Nat.add_assoc]
  rw [heq, Nat.mul_add_div (by omega), Nat.div_eq_of_lt hlt, Nat.mul_add_mod,
    Nat.mod_eq_of_lt hlt, Nat.mul_comm h, Nat.mul_add_div (by omega), Nat.div_eq_of_lt hs]
  exact ⟨rfl, rfl⟩

/-- What is named by a command fits in it. -/
theorem Names.fits {wn : Wini} {chs : Chs} {opcode : Int} {drive : Nat} {linear : Int}
    (h : Names (command wn chs opcode) drive heads maxsec linear) :
    linear / (heads * maxsec : Nat) < 1024 ∧ linear % (heads * maxsec : Nat) / maxsec < 16 := by
  have hc := command_cyl wn chs opcode
  have hs := h.sector
  have hh16 : headOf (command wn chs opcode) < 16 := Nat.mod_lt _ (by decide)
  obtain ⟨hdiv, hmod⟩ := chs_split (c := cylOf (command wn chs opcode)) h.head
    (by omega : secOf (command wn chs opcode) - 1 < maxsec)
  rw [h.linear, ← Int.natCast_ediv, ← Int.natCast_emod, ← Int.natCast_ediv, hdiv, hmod]
  exact ⟨Int.ofNat_lt.mpr hc, Int.ofNat_lt.mpr hh16⟩

/-- The geometry of a drive: the sectors of a cylinder fit an int. -/
structure Geometry (heads maxsec : Nat) : Prop where
  headed : 1 ≤ heads
  sectored : 1 ≤ maxsec ∧ maxsec ≤ 255
  fits : heads * maxsec ≤ 32767

/-- A sector that fits in a command is named by it. -/
theorem names_of_fits {wn : Wini} {opcode : Int} {linear : Nat} (hg : Geometry heads maxsec)
    (hi : i < 2) (hw : wn.heads = heads ∧ wn.maxsec = maxsec)
    (hf : linear / (heads * maxsec) < 1024 ∧ linear % (heads * maxsec) / maxsec < 16) :
    Names (command wn {
      drive := i
      cylinder := int ((linear : Int).tdiv (int (wn.heads * wn.maxsec)))
      sector := int ((linear : Int).tmod wn.maxsec + 1)
      head := int (((linear : Int).tmod (int (wn.heads * wn.maxsec))).tdiv wn.maxsec) } opcode)
      i heads maxsec linear := by
  have hint : ∀ k : Nat, k ≤ 32767 → int (k : Int) = k := fun k hk => by
    unfold int
    rw [Int.bmod_def]
    split <;> omega
  have hsec : linear % maxsec < maxsec := Nat.mod_lt _ hg.sectored.1
  have hmax := hg.sectored
  have htrack : int (wn.heads * wn.maxsec) = (heads * maxsec : Nat) := by
    rw [hw.1, hw.2, ← Int.natCast_mul, hint _ hg.fits]
  have hchs : (⟨i, int ((linear : Int).tdiv (int (wn.heads * wn.maxsec))),
      int ((linear : Int).tmod wn.maxsec + 1),
      int (((linear : Int).tmod (int (wn.heads * wn.maxsec))).tdiv wn.maxsec)⟩ : Chs) =
      ⟨i, (linear / (heads * maxsec) : Nat), (linear % maxsec + 1 : Nat),
        (linear % (heads * maxsec) / maxsec : Nat)⟩ := by
    rw [htrack, hw.2, ← Int.ofNat_tdiv, ← Int.ofNat_tmod, ← Int.ofNat_tmod, ← Int.ofNat_tdiv,
      hint _ (by omega), hint _ (by omega), ← hint (linear % maxsec + 1) (by omega)]
    rfl
  obtain ⟨hcyl, hhead, hdrive, hsector⟩ := command_names wn opcode hi hf.1
    (by omega : linear % maxsec + 1 < 256) hf.2 rfl
  rw [hchs]
  have hlt : linear % (heads * maxsec) / maxsec < heads :=
    Nat.div_lt_of_lt_mul ((Nat.mod_lt _ (Nat.mul_pos hg.headed hg.sectored.1)).trans_eq
      (Nat.mul_comm heads maxsec))
  refine ⟨rfl, hdrive, hhead.trans_lt hlt, by omega, ?_⟩
  rw [hcyl, hhead, hsector, Nat.add_sub_cancel, Nat.mul_comm heads, ← Nat.div_div_eq_div_mul,
    Nat.mod_mul_right_div_self, Nat.div_add_mod', Nat.div_add_mod']

/-- When the controller accepts a command, it is sent. -/
theorem attempts_accepted {usrBuf : Int} (hne : usrBuf ≠ 0) (cmd : Fin 8 → BitVec 16) :
    (attempts usrBuf cmd (fun _ => ⟨true, true⟩) MAX_ERRORS).2 = [cmd] := by
  unfold attempts transfer
  rw [if_neg hne]
  rfl

/-- A partition with the start and the size of an entry is isolated just when the places in it fit
in a command. -/
theorem isolated_iff {wn : Wini} (hm : BlockRequest m n) (hi : i < 2) (hd : i < nrDrives)
    (hn : i * 5 ≤ n ∧ n < i * 5 + 5) (hg : Geometry heads maxsec) (hwn : wini n = wn)
    (hw : wn.heads = heads ∧ wn.maxsec = maxsec) (hl : low0 < 4294967296) (hs : size0 < 4294967296)
    (hlow : wn.low = alignLow (long low0))
    (hsize : wn.size = long (long size0 - adjust (long low0))) :
    Isolated nrDrives wini map m i heads maxsec low0 size0 ↔
      FitsCommand wn map m heads maxsec low0 := by
  obtain ⟨hstart, hinside⟩ := alignLow_spec hl hs
  have hpos := hm.position
  obtain ⟨P, hP⟩ : ∃ P : Nat, relSector m = P :=
    Int.eq_ofNat_of_zero_le (Int.ediv_nonneg hpos.1 (by decide))
  have hdec := decode_request wini hm hi hd hn
  rw [hwn] at hdec
  by_cases hacc : relSector m + 2 > wn.size
  · rw [if_pos hacc] at hdec
    have hrun : ∀ ctl, wDoRdwt nrDrives wini map ctl m = (EOF, []) := fun ctl => by
      unfold wDoRdwt
      rw [hdec]
    refine ⟨fun _ hle => absurd hle (not_le.mpr hacc), fun _ => ⟨fun _ => hrun, ?_⟩⟩
    intro ctl cmd hcmd
    rw [hrun ctl] at hcmd
    cases hcmd
  · have hin : Inside m low0 size0 := hinside _ (by omega) (hsize ▸ not_lt.mp hacc)
    rw [if_neg hacc] at hdec
    have hrun : ∀ ctl, wDoRdwt nrDrives wini map ctl m =
        attempts (umap map D (virBytes m.address) 1024) _ ctl MAX_ERRORS := fun ctl => by
      unfold wDoRdwt
      rw [hdec]
    constructor
    · intro h _ hne
      have hsent := h.named (fun _ => ⟨true, true⟩) _ (by
        rw [hrun, attempts_accepted hne]
        exact List.mem_singleton.mpr rfl)
      exact hsent.2.fits
    · intro hf
      refine ⟨fun hout => absurd hin hout, fun ctl cmd hcmd => ⟨hin, ?_⟩⟩
      rw [hrun] at hcmd
      obtain ⟨rfl, hne⟩ := attempts_sent hcmd
      obtain ⟨hcyl, hhead⟩ := hf (not_lt.mp hacc) hne
      rw [hP, ← Int.natCast_add, ← Int.natCast_ediv] at hcyl
      rw [hP, ← Int.natCast_add, ← Int.natCast_emod, ← Int.natCast_ediv] at hhead
      have hcyl : (alignedStart low0 + P) / (heads * maxsec) < 1024 := Int.ofNat_lt.mp hcyl
      have hhead : (alignedStart low0 + P) % (heads * maxsec) / maxsec < 16 :=
        Int.ofNat_lt.mp hhead
      rw [hP, ← Int.natCast_add]
      have hfits := hg.fits
      have hlt : alignedStart low0 + P < 33554432 := by
        have := (Nat.div_lt_iff_lt_mul (Nat.mul_pos hg.headed hg.sectored.1)).mp hcyl
        omega
      have hsector : long ((P : Int) + wn.low) = (alignedStart low0 + P : Nat) := by
        rw [hlow, hstart (by omega), long_eq (by omega) (by omega)]
        omega
      rw [hsector]
      exact names_of_fits hg hi hw ⟨hcyl, hhead⟩

/-- The start of an entry of the partition table. -/
def lowOf (buf : Nat → UInt8) (e : Fin 4) : Nat := fieldAt buf (PART_TABLE + e.val * 0x10)

/-- The size of an entry. -/
def sizeOf (buf : Nat → UInt8) (e : Fin 4) : Nat := fieldAt buf (PART_TABLE + e.val * 0x10 + 4)

theorem placed_entry (buf : Nat → UInt8) (e : Fin 4) (wn : Wini) :
    (placed buf e wn).low = alignLow (long (lowOf buf e)) ∧
      (placed buf e wn).size = long (long (sizeOf buf e) - adjust (long (lowOf buf e))) := by
  unfold placed longAt lowOf sizeOf
  dsimp only
  exact ⟨rfl, rfl⟩

theorem placed_geometry (buf : Nat → UInt8) (e : Nat) (wn : Wini) :
    (placed buf e wn).heads = wn.heads ∧ (placed buf e wn).maxsec = wn.maxsec := by
  unfold placed
  dsimp only
  exact ⟨rfl, rfl⟩

theorem fieldAt_lt (buf : Nat → UInt8) (offset : Nat) : fieldAt buf offset < 4294967296 := by
  have h0 := (buf offset).toNat_lt
  have h1 := (buf (offset + 1)).toNat_lt
  have h2 := (buf (offset + 2)).toNat_lt
  have h3 := (buf (offset + 3)).toNat_lt
  unfold fieldAt
  omega

/-- A device lies where an entry of the partition table says. -/
structure Placed (wn : Wini) (low0 size0 : Nat) : Prop where
  low : wn.low = alignLow (long low0)
  size : wn.size = long (long size0 - adjust (long low0))

/-- Each partition of a drive is one of the entries of its table, and is isolated just for the
requests whose place on the drive fits in a command. -/
theorem winchester_isolated_iff (hi : i < 2) (hd : i < nrDrives) (ht : ValidTable table i buf)
    (hg : Geometry (paramsOf vec0 vec1 i 2).toNat (paramsOf vec0 vec1 i 14).toNat) :
    ∃ σ : Equiv.Perm (Fin 4), ∀ j : Fin 4,
      Placed (initParams vec0 vec1 nrDrives table (i * 5 + 1 + j)) (lowOf buf (σ j))
          (sizeOf buf (σ j)) ∧
        ∀ (map : ProcMap) (m : DevMess), BlockRequest m (i * 5 + 1 + j) →
          (Isolated nrDrives (initParams vec0 vec1 nrDrives table) map m i
              (paramsOf vec0 vec1 i 2).toNat (paramsOf vec0 vec1 i 14).toNat
              (lowOf buf (σ j)) (sizeOf buf (σ j)) ↔
            FitsCommand (initParams vec0 vec1 nrDrives table (i * 5 + 1 + j)) map m
              (paramsOf vec0 vec1 i 2).toNat (paramsOf vec0 vec1 i 14).toNat
              (lowOf buf (σ j))) := by
  obtain ⟨σ, hσ⟩ := @initParams_partition buf table vec0 vec1 i nrDrives hi hd ht
  refine ⟨σ, fun j => ?_⟩
  obtain ⟨wn, hwn, hw⟩ := hσ j
  have hj := j.isLt
  obtain ⟨hlow, hsize⟩ := placed_entry buf (σ j) wn
  rw [← (placed_geometry buf (σ j) wn).1, ← (placed_geometry buf (σ j) wn).2] at hw
  rw [hwn]
  exact ⟨⟨hlow, hsize⟩, fun map m hm =>
    isolated_iff hm hi hd (by omega) hg hwn hw (fieldAt_lt _ _) (fieldAt_lt _ _) hlow hsize⟩

end Requests

section Example

/-- A drive with four heads and 17 sectors per track. -/
def exampleVec (n : Nat) : UInt8 :=
  if n = 1 then 5 else if n = 2 then 4 else if n = 8 then 5 else if n = 14 then 17 else 0

/-- The first partition starts at sector 17, the second one at sector 69632; both have 1000
sectors. -/
def exampleTable (n : Nat) : UInt8 :=
  if n = 454 then 17 else if n = 458 ∨ n = 474 then 0xE8 else if n = 459 ∨ n = 475 then 3
  else if n = 471 then 0x10 else if n = 472 then 1
  else if n = 510 then 0x55 else if n = 511 then 0xAA else 0

/-- The devices of the only drive. -/
def exampleWini : Nat → Wini := initParams exampleVec exampleVec 1 fun _ => some exampleTable

/-- The first block of a device is read. -/
def firstBlock (device : Nat) : DevMess := ⟨DISK_READ, device, 2, 1024, 0, 256⟩

theorem firstBlock_request (n : Nat) : BlockRequest (firstBlock n) n :=
  ⟨rfl, rfl, (by decide : (0 : Int) ≤ 0 ∧ (0 : Int) < 2147483648), rfl⟩

theorem exampleVec_geometry : Geometry (paramsOf exampleVec exampleVec 0 2).toNat
    (paramsOf exampleVec exampleVec 0 14).toNat :=
  ⟨by decide, by decide, by decide⟩

/-- The first block of the first partition is read, wherever it is among the devices. -/
theorem winchester_isolated_iff_first : ∃ j : Fin 4, ∀ map,
    Isolated 1 exampleWini map (firstBlock (0 * 5 + 1 + j)) 0 4 17 17 1000 := by
  obtain ⟨σ, hσ⟩ := @winchester_isolated_iff exampleVec exampleVec 1 0
    (fun _ => some exampleTable) exampleTable (by decide) (by decide)
    ⟨rfl, by decide, by decide⟩ exampleVec_geometry
  refine ⟨σ.symm 0, fun map => ?_⟩
  obtain ⟨-, h⟩ := hσ (σ.symm 0)
  rw [Equiv.apply_symm_apply] at h
  exact (h map _ (firstBlock_request _)).mpr fun _ _ =>
    (by decide : ((18 : Int) + 0 / 512) / (4 * 17 : Nat) < 1024 ∧
      ((18 : Int) + 0 / 512) % (4 * 17 : Nat) / (17 : Nat) < 16)

/-- The second partition starts at cylinder 1024, and the command for it names cylinder 0. -/
theorem winchester_isolated_truncated :
    ¬∀ (vec0 vec1 : Nat → UInt8) (nrDrives i : Nat) (table : Nat → Option (Nat → UInt8))
      (buf : Nat → UInt8), i < 2 → i < nrDrives → ValidTable table i buf →
      Geometry (paramsOf vec0 vec1 i 2).toNat (paramsOf vec0 vec1 i 14).toNat →
      ∃ σ : Equiv.Perm (Fin 4), ∀ j : Fin 4,
        Placed (initParams vec0 vec1 nrDrives table (i * 5 + 1 + j)) (lowOf buf (σ j))
            (sizeOf buf (σ j)) ∧
          ∀ (map : ProcMap) (m : DevMess), BlockRequest m (i * 5 + 1 + j) →
            Isolated nrDrives (initParams vec0 vec1 nrDrives table) map m i
              (paramsOf vec0 vec1 i 2).toNat (paramsOf vec0 vec1 i 14).toNat
              (lowOf buf (σ j)) (sizeOf buf (σ j)) := by
  intro hall
  obtain ⟨σ, hσ⟩ := hall exampleVec exampleVec 1 0 (fun _ => some exampleTable) exampleTable
    (by decide) (by decide) ⟨rfl, by decide, by decide⟩ exampleVec_geometry
  obtain ⟨hplaced, h⟩ := hσ (σ.symm 1)
  rw [Equiv.apply_symm_apply] at hplaced h
  obtain ⟨τ, hτ⟩ := @initParams_partition exampleTable (fun _ => some exampleTable) exampleVec
    exampleVec 0 1 (by decide) (by decide) ⟨rfl, by decide, by decide⟩
  obtain ⟨wn, hwn, hw⟩ := hτ (σ.symm 1)
  rw [← (placed_geometry exampleTable (τ (σ.symm 1)) wn).1,
    ← (placed_geometry exampleTable (τ (σ.symm 1)) wn).2] at hw
  rw [hwn] at hplaced
  have hj := (σ.symm 1).isLt
  have hm := firstBlock_request (0 * 5 + 1 + (σ.symm 1).val)
  have hf := (isolated_iff hm (by decide) (by decide) (by omega) exampleVec_geometry hwn hw
    (fieldAt_lt _ _) (fieldAt_lt _ _) hplaced.low hplaced.size).mp (h userMap _ hm)
  have hsize : (0 : Int) / 512 + 2 ≤
      long (long (sizeOf exampleTable 1) - adjust (long (lowOf exampleTable 1))) := by decide
  have hmap : umap userMap D (virBytes 256) 1024 ≠ 0 := by decide
  have hcyl := (hf (hplaced.size ▸ hsize) hmap).1
  exact absurd hcyl (by decide : ¬((69632 : Int) + 0 / 512) / (4 * 17 : Nat) < 1024)

end Example

end Minix.Kernel.Winchester
