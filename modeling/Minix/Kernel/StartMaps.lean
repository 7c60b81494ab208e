import Mathlib.Algebra.Order.BigOperators.Group.Finset
import Minix.Kernel.System

/-!
# The memory maps at the start, in words

At the start the kernel knows eight numbers, the clicks of text and of data of itself, of MM, FS and
INIT. From these its main program makes the memory maps of the tasks and of the three processes, one
from the other, and counts in words of 16 bits. While the programs fit into memory these are the
maps of `startMap`.
-/

namespace Minix.Kernel

open Function

/-- address where MINIX starts in memory -/
abbrev BASE : Nat := 1536

/-- `BASE >> CLICK_SHIFT` -/
abbrev baseClick : Nat := BASE / 16

/-- The place where MM starts, in clicks. -/
def mmBase (sizes : Nat → Nat) : Nat := (baseClick + (sizes 0 + sizes 1) % 65536) % 65536

/-- The map of an I/O task. -/
def taskMap (sizes : Nat → Nat) : ProcMap where
  t := ⟨0, baseClick, VERY_BIG⟩
  d := ⟨0, (baseClick + sizes 0) % 65536, VERY_BIG⟩
  s := ⟨(sizes 0 + sizes 1) % 65536, (baseClick + sizes 0 + sizes 1) % 65536, VERY_BIG⟩

/-- The map of MM, FS or INIT, when the stack of the one before starts at `previousBase`. -/
def serverMap (sizes : Nat → Nat) (previousBase t : Nat) : ProcMap :=
  let text := if t = 0 then mmBase sizes else previousBase
  let data := (text + sizes (2 * t + 2)) % 65536
  { t := ⟨0, text, sizes (2 * t + 2)⟩
    d := ⟨0, data, sizes (2 * t + 3)⟩
    s := ⟨sizes (2 * t + 3), (data + sizes (2 * t + 3)) % 65536, 0⟩ }

/-- The memory map of a slot, from the map of the slot before. -/
def setMap (sizes : Nat → Nat) (proc : Int → ProcMap) (t : Int) : Int → ProcMap :=
  update proc t <|
    if t < 0 then taskMap sizes else serverMap sizes (proc (t - 1)).s.memPhys t.toNat

/-- The process table before the kernel runs. -/
def noMaps : Int → ProcMap := fun _ => ⟨⟨0, 0, 0⟩, ⟨0, 0, 0⟩, ⟨0, 0, 0⟩⟩

/-- The memory maps that `main` makes, from the first task up to INIT. -/
def startMaps (sizes : Nat → Nat) : Int → ProcMap :=
  ((List.range 11).map fun n => (n : Int) - NR_TASKS).foldl (setMap sizes) noMaps

/-- The clicks of the first `n` pieces that are loaded. -/
def clicksBefore (sizes : Nat → Nat) (n : Nat) : Nat := ∑ k ∈ Finset.range n, sizes k

variable {sizes : Nat → Nat} {t n : Nat}

theorem clicksBefore_succ : clicksBefore sizes (n + 1) = clicksBefore sizes n + sizes n :=
  Finset.sum_range_succ ..

theorem startMaps_mm : startMaps sizes 0 = serverMap sizes 0 0 := rfl

theorem startMaps_fs : startMaps sizes 1 = serverMap sizes (startMaps sizes 0).s.memPhys 1 := rfl

theorem startMaps_init : startMaps sizes 2 = serverMap sizes (startMaps sizes 1).s.memPhys 2 := rfl

/-- The map of a process that is put behind the pieces before its own. -/
def placedMap (sizes : Nat → Nat) (t : Nat) : ProcMap where
  t := ⟨0, (baseClick + clicksBefore sizes (2 * t + 2)) % 65536, sizes (2 * t + 2)⟩
  d := ⟨0, (baseClick + clicksBefore sizes (2 * t + 3)) % 65536, sizes (2 * t + 3)⟩
  s := ⟨sizes (2 * t + 3), (baseClick + clicksBefore sizes (2 * t + 4)) % 65536, 0⟩

theorem serverMap_placed (base : Nat)
    (h : (if t = 0 then mmBase sizes else base) =
      (baseClick + clicksBefore sizes (2 * t + 2)) % 65536) :
    serverMap sizes base t = placedMap sizes t := by
  simp only [serverMap, placedMap, h, clicksBefore_succ, Nat.mod_add_mod, ← Nat.add_assoc]

/-- MM, FS and INIT lie one behind the other, behind the kernel. -/
theorem startMaps_placed (h : t < 3) : startMaps sizes t = placedMap sizes t := by
  have h0 : startMaps sizes 0 = placedMap sizes 0 := by
    rw [startMaps_mm]
    refine serverMap_placed 0 ?_
    simp only [if_true, mmBase, clicksBefore, Finset.sum_range_succ, Finset.sum_range_zero]
    omega
  have h1 : startMaps sizes 1 = placedMap sizes 1 := by
    rw [startMaps_fs, h0]
    exact serverMap_placed _ (if_neg one_ne_zero)
  have h2 : startMaps sizes 2 = placedMap sizes 2 := by
    rw [startMaps_init, h1]
    exact serverMap_placed _ (if_neg two_ne_zero)
  obtain rfl | rfl | rfl : t = 0 ∨ t = 1 ∨ t = 2 := by omega
  exacts [h0, h1, h2]

/-! ## While nothing wraps around -/

theorem startMaps_task {i : Int} (h₀ : -NR_TASKS ≤ i) (h₁ : i < 0) :
    startMaps sizes i = taskMap sizes := by
  obtain rfl | rfl | rfl | rfl | rfl | rfl | rfl | rfl : i = -8 ∨ i = -7 ∨ i = -6 ∨ i = -5 ∨
      i = -4 ∨ i = -3 ∨ i = -2 ∨ i = -1 := by
    change -8 ≤ i at h₀
    omega
  all_goals rfl

theorem clicksBefore_two : clicksBefore sizes 2 = sizes 0 + sizes 1 := by
  rw [clicksBefore_succ, clicksBefore_succ]
  exact congrArg (· + _) (Nat.zero_add _)

theorem textBase_eq {base : Nat} :
    textBase base sizes n = base + clicksBefore sizes (2 * n + 2) := by
  induction n with
  | zero =>
    change base + sizes 0 + sizes 1 = base + clicksBefore sizes 2
    rw [clicksBefore_two, Nat.add_assoc]
  | succ n ih =>
    have h₃ : clicksBefore sizes (2 * n + 3) =
        clicksBefore sizes (2 * n + 2) + sizes (2 * n + 2) := clicksBefore_succ
    have h₄ : clicksBefore sizes (2 * (n + 1) + 2) =
        clicksBefore sizes (2 * n + 3) + sizes (2 * n + 3) := clicksBefore_succ
    rw [textBase, ih, h₄, h₃]
    simp only [Nat.add_assoc]

theorem clicksBefore_mono {k : Nat} (h : n ≤ k) : clicksBefore sizes n ≤ clicksBefore sizes k :=
  Finset.sum_le_sum_of_subset (Finset.range_mono h)

theorem placedMap_eq (h : baseClick + clicksBefore sizes (2 * t + 4) < 65536) :
    let phys := textBase baseClick sizes t
    placedMap sizes t =
      { t := ⟨0, phys, sizes (2 * t + 2)⟩
        d := ⟨0, phys + sizes (2 * t + 2), sizes (2 * t + 3)⟩
        s := ⟨sizes (2 * t + 3), phys + sizes (2 * t + 2) + sizes (2 * t + 3), 0⟩ } := by
  intro phys
  have hphys : phys = baseClick + clicksBefore sizes (2 * t + 2) := textBase_eq
  have h₃ : clicksBefore sizes (2 * t + 3) =
      clicksBefore sizes (2 * t + 2) + sizes (2 * t + 2) := clicksBefore_succ
  have h₄ : clicksBefore sizes (2 * t + 4) =
      clicksBefore sizes (2 * t + 3) + sizes (2 * t + 3) := clicksBefore_succ
  rw [placedMap, Nat.mod_eq_of_lt (by omega), Nat.mod_eq_of_lt (by omega), Nat.mod_eq_of_lt h, h₄,
    h₃, hphys]
  simp only [Nat.add_assoc]

/-- The maps in words are those of the kernel's table while all of the system lies below 1M. -/
theorem startMaps_eq (h : baseClick + clicksBefore sizes 8 < 65536) (rp : Slot)
    (hp : procNr rp ≤ INIT_PROC_NR) :
    startMaps sizes (procNr rp) = startMap baseClick sizes rp := by
  have hlo : -NR_TASKS ≤ procNr rp := by
    unfold procNr
    omega
  rcases lt_or_ge (procNr rp) 0 with hneg | hpos
  · have h₂ : clicksBefore sizes 2 = sizes 0 + sizes 1 := by
      simp only [clicksBefore, Finset.sum_range_succ, Finset.sum_range_zero]
      omega
    have hle : clicksBefore sizes 2 ≤ clicksBefore sizes 8 := clicksBefore_mono (by decide)
    rw [startMap, if_pos hneg, startMaps_task hlo hneg, taskMap,
      Nat.mod_eq_of_lt (by omega), Nat.mod_eq_of_lt (by omega), Nat.mod_eq_of_lt (by omega)]
  · have hnr : procNr rp = ((rp.val - NR_TASKS : Nat) : Int) := by
      unfold procNr at hpos ⊢
      omega
    have ht : rp.val - NR_TASKS < 3 := by
      change procNr rp ≤ 2 at hp
      omega
    have hle : clicksBefore sizes (2 * (rp.val - NR_TASKS) + 4) ≤ clicksBefore sizes 8 :=
      clicksBefore_mono (by omega)
    rw [startMap, if_neg (not_lt.mpr hpos), if_pos hp, hnr, startMaps_placed ht,
      placedMap_eq (by omega)]

end Minix.Kernel
