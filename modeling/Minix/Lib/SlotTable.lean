import Mathlib.Data.List.Basic
import Mathlib.Logic.Function.Basic
import Minix.Lib.Literals

/-!
# Tables of slots

A table has a number of slots, which are free or have a key and a value. As long as no two slots
have the same key it is a finite map. Slots can be cleared, and filled as far as the one after the
last.
-/

namespace SlotTable

open Function

variable {κ ν : Type}

/-- The slots of a table, those from `size` on without meaning. -/
structure Table (κ ν : Type) where
  size : Nat
  slot : Nat → Option (κ × ν)

namespace Table

/-- No key is in two slots. -/
def Distinct (t : Table κ ν) : Prop :=
  ∀ i < t.size, ∀ j < t.size, ∀ a v w, t.slot i = some (a, v) → t.slot j = some (a, w) → i = j

/-- No slot is free. -/
def Full (t : Table κ ν) : Prop := ∀ k < t.size, t.slot k ≠ none

/-- The value of a key. -/
def find [DecidableEq κ] (t : Table κ ν) (a : κ) : Option ν :=
  (List.range t.size).findSome? fun k =>
    (t.slot k).bind fun e => if e.1 = a then some e.2 else none

/-- Two tables with the same slots. -/
structure Agree (t t' : Table κ ν) : Prop where
  size : t'.size = t.size
  slot : ∀ k < t.size, t'.slot k = t.slot k

/-- A slot becomes free. -/
def clear (t : Table κ ν) (k : Nat) : Table κ ν := { t with slot := update t.slot k none }

/-- A slot is filled. -/
def fill (t : Table κ ν) (k : Nat) (a : κ) (v : ν) : Table κ ν where
  size := max t.size (k + 1)
  slot := update t.slot k (some (a, v))

section Find

variable [DecidableEq κ] {t t' : Table κ ν} {a : κ} {v : ν} {k : Nat}

/-- What is found is in a slot. -/
theorem find_some (h : t.find a = some v) : ∃ k < t.size, t.slot k = some (a, v) := by
  obtain ⟨k, hk, he⟩ := List.exists_of_findSome?_eq_some h
  obtain ⟨⟨b, w⟩, hslot, hw⟩ := Option.bind_eq_some_iff.mp he
  dsimp only at hw
  split at hw
  · rename_i hb
    obtain rfl := Option.some.inj hw
    exact ⟨k, List.mem_range.mp hk, hb ▸ hslot⟩
  · exact nomatch hw

theorem find_none : t.find a = none ↔ ∀ k < t.size, ∀ v, t.slot k ≠ some (a, v) := by
  unfold find
  rw [List.findSome?_eq_none_iff]
  constructor
  · intro h k hk v he
    have hnone := h k (List.mem_range.mpr hk)
    rw [he] at hnone
    exact absurd hnone (by simp)
  · intro h k hk
    cases he : t.slot k with
    | none => rfl
    | some e =>
      refine if_neg fun hb => h k (List.mem_range.mp hk) e.2 ?_
      rw [he, ← hb]

theorem Distinct.find_iff (hd : t.Distinct) :
    t.find a = some v ↔ ∃ k < t.size, t.slot k = some (a, v) := by
  refine ⟨find_some, fun ⟨k, hk, he⟩ => ?_⟩
  cases hf : t.find a with
  | none => exact absurd he (find_none.mp hf k hk v)
  | some w =>
    obtain ⟨j, hj, he'⟩ := find_some hf
    obtain rfl := hd k hk j hj a v w he he'
    exact congrArg (fun e => e.map Prod.snd) (he'.symm.trans he)

/-- The slot that a key is in. -/
theorem Distinct.find_slot (hd : t.Distinct) (hk : k < t.size) (he : t.slot k = some (a, v)) :
    t.find a = some v := hd.find_iff.mpr ⟨k, hk, he⟩

end Find

namespace Agree

variable {t t' t'' : Table κ ν} (h : Agree t t')

include h

theorem distinct (hd : t.Distinct) : t'.Distinct := by
  intro i hi j hj a v w hv hw
  rw [h.size] at hi hj
  rw [h.slot i hi] at hv
  rw [h.slot j hj] at hw
  exact hd i hi j hj a v w hv hw

theorem find [DecidableEq κ] : t'.find = t.find := by
  funext a
  have hslots : ∀ k ∈ List.range t.size, t'.slot k = t.slot k := fun k hk =>
    h.slot k (List.mem_range.mp hk)
  unfold Table.find
  rw [h.size]
  generalize List.range t.size = l at hslots
  induction l with
  | nil => rfl
  | cons k l ih =>
    rw [List.findSome?_cons, List.findSome?_cons, hslots k List.mem_cons_self,
      ih fun j hj => hslots j (List.mem_cons_of_mem k hj)]

theorem full (hf : t.Full) : t'.Full := fun k hk => by
  rw [h.size] at hk
  rw [h.slot k hk]
  exact hf k hk

end Agree

section Clear

variable {t : Table κ ν} {k : Nat}

theorem clear_slot_self : (t.clear k).slot k = none := update_self k _ t.slot

theorem clear_slot_of_ne {i : Nat} (h : i ≠ k) : (t.clear k).slot i = t.slot i :=
  update_of_ne h ..

/-- What is in a slot then is another one's. -/
theorem clear_slot {i : Nat} {e : κ × ν} (h : (t.clear k).slot i = some e) :
    i ≠ k ∧ t.slot i = some e := by
  have hik : i ≠ k := by
    rintro rfl
    exact nomatch clear_slot_self.symm.trans h
  exact ⟨hik, (clear_slot_of_ne hik).symm.trans h⟩

variable (hd : t.Distinct)

include hd

theorem Distinct.clear : (t.clear k).Distinct := fun i hi j hj a v w hv hw =>
  hd i hi j hj a v w (clear_slot hv).2 (clear_slot hw).2

/-- A cleared slot takes one key out of the map. -/
theorem Distinct.find_clear [DecidableEq κ] {a : κ} {v : ν} (hk : k < t.size)
    (he : t.slot k = some (a, v)) : (t.clear k).find = update t.find a none := by
  funext b
  by_cases hb : b = a
  · subst hb
    rw [update_self, find_none]
    intro i hi w hw
    obtain ⟨hik, hw⟩ := clear_slot hw
    exact hik (hd i hi k hk b w v hw he)
  · rw [update_of_ne hb]
    refine Option.ext fun w => ?_
    rw [hd.clear.find_iff, hd.find_iff]
    refine exists_congr fun i => and_congr_right fun _ =>
      ⟨fun hw => (clear_slot hw).2, fun hw => ?_⟩
    have hik : i ≠ k := by
      rintro rfl
      exact hb (congrArg Prod.fst (Option.some.inj (hw.symm.trans he)))
    exact (clear_slot_of_ne hik).trans hw

end Clear

section Fill

variable [DecidableEq κ] {t : Table κ ν} {k : Nat} {a : κ} {v : ν} (hd : t.Distinct)
  (hk : k ≤ t.size) (hfree : k < t.size → t.slot k = none) (hnew : t.find a = none)

omit [DecidableEq κ] in
theorem fill_slot_self : (t.fill k a v).slot k = some (a, v) := update_self k _ t.slot

omit [DecidableEq κ] in
theorem fill_slot_of_ne {i : Nat} (h : i ≠ k) : (t.fill k a v).slot i = t.slot i :=
  update_of_ne h ..

omit [DecidableEq κ] in
theorem lt_fill : k < (t.fill k a v).size :=
  Nat.lt_of_lt_of_le (Nat.lt_succ_self k) (Nat.le_max_right ..)

omit [DecidableEq κ] in
include hk in
theorem lt_of_lt_fill {i : Nat} (hi : i < (t.fill k a v).size) (h : i ≠ k) : i < t.size := by
  have : i < max t.size (k + 1) := hi
  omega

include hd hk hnew

theorem Distinct.fill : (t.fill k a v).Distinct := by
  have hother : ∀ j < t.size, j ≠ k → ∀ w, (t.fill k a v).slot j ≠ some (a, w) := by
    intro j hj hjk w hw
    rw [fill_slot_of_ne hjk] at hw
    exact find_none.mp hnew j hj w hw
  intro i hi j hj b x y hx hy
  by_cases hik : i = k <;> by_cases hjk : j = k
  · rw [hik, hjk]
  · rw [hik, fill_slot_self] at hx
    obtain ⟨rfl, -⟩ := Prod.mk.inj (Option.some.inj hx)
    exact absurd hy (hother j (lt_of_lt_fill hk hj hjk) hjk y)
  · rw [hjk, fill_slot_self] at hy
    obtain ⟨rfl, -⟩ := Prod.mk.inj (Option.some.inj hy)
    exact absurd hx (hother i (lt_of_lt_fill hk hi hik) hik x)
  · rw [fill_slot_of_ne hik] at hx
    rw [fill_slot_of_ne hjk] at hy
    exact hd i (lt_of_lt_fill hk hi hik) j (lt_of_lt_fill hk hj hjk) b x y hx hy

include hfree in
/-- A slot that is filled enters its key in the map. -/
theorem Distinct.find_fill : (t.fill k a v).find = update t.find a (some v) := by
  funext b
  have hd' : (t.fill k a v).Distinct := hd.fill hk hnew
  by_cases hb : b = a
  · rw [hb, update_self]
    exact hd'.find_slot lt_fill fill_slot_self
  · rw [update_of_ne hb]
    refine Option.ext fun w => ?_
    rw [hd'.find_iff, hd.find_iff]
    constructor
    · rintro ⟨i, hi, hw⟩
      have hik : i ≠ k := by
        rintro rfl
        rw [fill_slot_self] at hw
        exact hb (congrArg Prod.fst (Option.some.inj hw)).symm
      exact ⟨i, lt_of_lt_fill hk hi hik, (fill_slot_of_ne hik).symm.trans hw⟩
    · rintro ⟨i, hi, hw⟩
      have hik : i ≠ k := by
        rintro rfl
        exact nomatch (hfree hi).symm.trans hw
      exact ⟨i, Nat.lt_of_lt_of_le hi (Nat.le_max_left ..), (fill_slot_of_ne hik).trans hw⟩

end Fill

theorem Agree.trans {t t' t'' : Table κ ν} (h : Agree t t') (h' : Agree t' t'') : Agree t t'' :=
  ⟨h'.size.trans h.size, fun k hk => (h'.slot k (h.size.symm ▸ hk)).trans (h.slot k hk)⟩

/-- Filling the same slot. -/
theorem Agree.fill {t t' : Table κ ν} (h : Agree t t') {k : Nat} (hk : k ≤ t.size) (a : κ) (v : ν) :
    Agree (t.fill k a v) (t'.fill k a v) := by
  refine ⟨?_, fun i hi => ?_⟩
  · simp only [Table.fill, h.size]
  · by_cases hik : i = k
    · rw [hik, fill_slot_self, fill_slot_self]
    · rw [fill_slot_of_ne hik, fill_slot_of_ne hik]
      exact h.slot i (lt_of_lt_fill hk hi hik)

end Table

end SlotTable
