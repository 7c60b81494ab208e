import Mathlib.Data.List.Basic
import Mathlib.Logic.Function.Basic
import Minix.Lib.Literals

/-!
# Ring buffers

An array of `n` cells, with the place where the next element goes (`head`), the place of the
oldest one (`tail`), and the number of elements between them. Elements come in at the head;
they leave at the tail, or at the head again.
-/

namespace Ring

open Function

variable {α : Type*} {n head tail count : Nat} {q : Nat → α}

/-- The next place, around the end. -/
def next (n i : Nat) : Nat := if i + 1 = n then 0 else i + 1

/-- The place before, around the start. -/
def prev (n i : Nat) : Nat := if i ≠ 0 then i - 1 else n - 1

/-- What is in the ring, the oldest element first. -/
def contents (n : Nat) (q : Nat → α) (tail count : Nat) : List α :=
  (List.range count).map fun i => q ((tail + i) % n)

/-- The count is the distance from the tail to the head. -/
structure Spans (n tail head count : Nat) : Prop where
  tail_lt : tail < n
  count_le : count ≤ n
  head_eq : head = (tail + count) % n

theorem next_eq (h : head < n) : next n head = (head + 1) % n := by
  unfold next
  split
  · rename_i he
    rw [he, Nat.mod_self]
  · rw [Nat.mod_eq_of_lt (by omega)]

@[simp] theorem contents_zero (n : Nat) (q : Nat → α) (tail : Nat) : contents n q tail 0 = [] := rfl

/-- The newest element is the last one. -/
theorem contents_succ (n : Nat) (q : Nat → α) (tail count : Nat) :
    contents n q tail (count + 1) = contents n q tail count ++ [q ((tail + count) % n)] := by
  unfold contents
  rw [List.range_succ, List.map_append, List.map_singleton]

/-- The oldest element is the first one. -/
theorem contents_cons (h : tail < n) (q : Nat → α) (count : Nat) :
    contents n q tail (count + 1) = q tail :: contents n q (next n tail) count := by
  unfold contents
  rw [List.range_succ_eq_map, List.map_cons, List.map_map, Nat.add_zero, Nat.mod_eq_of_lt h]
  congr 1
  refine List.map_congr_left fun i _ => ?_
  change q ((tail + (i + 1)) % n) = q ((next n tail + i) % n)
  rw [next_eq h, Nat.mod_add_mod, Nat.add_assoc, Nat.add_comm 1 i]

/-- A cell that is not in use does not matter. -/
theorem contents_update (h : Spans n tail head count) (hc : count < n) (a : α) :
    contents n (update q head a) tail count = contents n q tail count := by
  have htail := h.tail_lt
  unfold contents
  refine List.map_congr_left fun i hi => update_of_ne ?_ ..
  have hi := List.mem_range.mp hi
  rw [h.head_eq]
  intro he
  have hlt₁ := Nat.mod_lt (tail + i) (by omega : 0 < n)
  rcases Nat.lt_or_ge (tail + i) n with h₁ | h₁
  · rcases Nat.lt_or_ge (tail + count) n with h₂ | h₂
    · rw [Nat.mod_eq_of_lt h₁, Nat.mod_eq_of_lt h₂] at he
      omega
    · rw [Nat.mod_eq_of_lt h₁, Nat.mod_eq_sub_mod h₂, Nat.mod_eq_of_lt (by omega)] at he
      omega
  · rw [Nat.mod_eq_sub_mod h₁, Nat.mod_eq_of_lt (by omega : tail + i - n < n),
      Nat.mod_eq_sub_mod (by omega), Nat.mod_eq_of_lt (by omega : tail + count - n < n)] at he
    omega

/-- An element comes in at the head. -/
theorem Spans.push (h : Spans n tail head count) (hc : count < n) :
    Spans n tail (next n head) (count + 1) := by
  have htail := h.tail_lt
  have hlt : head < n := h.head_eq ▸ Nat.mod_lt _ (by omega)
  refine ⟨htail, hc, ?_⟩
  rw [next_eq hlt, h.head_eq, Nat.mod_add_mod, Nat.add_assoc]

theorem contents_push (h : Spans n tail head count) (hc : count < n) (a : α) :
    contents n (update q head a) tail (count + 1) = contents n q tail count ++ [a] := by
  rw [contents_succ, contents_update h hc, ← h.head_eq, update_self]

/-- The oldest element leaves at the tail. -/
theorem Spans.pop (h : Spans n tail head (count + 1)) : Spans n (next n tail) head count := by
  have htail := h.tail_lt
  have hcount := h.count_le
  refine ⟨?_, by omega, ?_⟩
  · rw [next_eq htail]
    exact Nat.mod_lt _ (by omega)
  · rw [next_eq htail, Nat.mod_add_mod, Nat.add_assoc, Nat.add_comm 1 count, h.head_eq]

/-- The newest element leaves at the head. -/
theorem Spans.unpush (h : Spans n tail head (count + 1)) : Spans n tail (prev n head) count := by
  have htail := h.tail_lt
  have hcount := h.count_le
  refine ⟨htail, by omega, ?_⟩
  rw [h.head_eq, ← Nat.add_assoc]
  rcases Nat.lt_trichotomy (tail + count + 1) n with hlt | he | hgt
  · rw [Nat.mod_eq_of_lt hlt, Nat.mod_eq_of_lt (by omega)]
    unfold prev
    rw [if_pos (Nat.succ_ne_zero _)]
    rfl
  · rw [he, Nat.mod_self, Nat.mod_eq_of_lt (by omega)]
    unfold prev
    rw [if_neg (not_not.mpr rfl)]
    omega
  · rw [Nat.mod_eq_sub_mod (by omega : n ≤ tail + count + 1),
      Nat.mod_eq_sub_mod (by omega : n ≤ tail + count), Nat.mod_eq_of_lt (by omega),
      Nat.mod_eq_of_lt (by omega)]
    unfold prev
    rw [if_pos (by omega)]
    omega

theorem contents_unpush (h : Spans n tail head (count + 1)) :
    contents n q tail (count + 1) = contents n q tail count ++ [q (prev n head)] := by
  rw [contents_succ, ← h.unpush.head_eq]

/-- Nothing is in the ring, wherever it starts. -/
theorem Spans.empty (h : tail < n) : Spans n tail tail 0 :=
  ⟨h, Nat.zero_le n, by rw [Nat.add_zero, Nat.mod_eq_of_lt h]⟩

end Ring
