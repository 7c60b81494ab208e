import Mathlib.Data.List.TakeWhile
import Minix.Lib.Literals

/-!
# Fields between separators

A list is split at a separator and what is empty is dropped, so that separators at the start, at
the end or in a row make no difference. A scan that takes one field after the other, skipping
separators in between, finds exactly the fields.
-/

namespace Fields

variable {α : Type*} [DecidableEq α]

/-- The parts of a list between separators that are not empty. -/
def fields (a : α) (l : List α) : List (List α) := (l.splitOn a).filter (· ≠ [])

variable {a : α} {l xs ys : List α}

@[simp] theorem fields_nil : fields a [] = [] := rfl

/-- A separator ends a field and starts another. -/
theorem fields_append_cons (a : α) (xs ys : List α) :
    fields a (xs ++ a :: ys) = fields a xs ++ fields a ys := by
  unfold fields
  rw [List.splitOn_append_cons_self, List.filter_append]

@[simp] theorem fields_cons_self (a : α) (l : List α) : fields a (a :: l) = fields a l := by
  have h := fields_append_cons a [] l
  rwa [fields_nil, List.nil_append, List.nil_append] at h

/-- Without a separator there is one field. -/
theorem fields_of_not_mem (h : a ∉ l) (hl : l ≠ []) : fields a l = [l] := by
  unfold fields
  rw [List.splitOn_eq_singleton h]
  simp [hl]

/-- Leading separators do not matter. -/
theorem fields_dropWhile (a : α) (l : List α) : fields a (l.dropWhile (· = a)) = fields a l := by
  induction l with
  | nil => rfl
  | cons x l ih =>
    by_cases hx : x = a
    · rw [List.dropWhile_cons_of_pos (by simpa using hx), ih, hx, fields_cons_self]
    · rw [List.dropWhile_cons_of_neg (by simpa using hx)]

/-- What comes before the first separator is the first field, unless it is empty. -/
theorem fields_takeWhile (h : l.takeWhile (· ≠ a) ≠ []) :
    fields a l = l.takeWhile (· ≠ a) :: fields a (l.dropWhile (· ≠ a)) := by
  have hnot : a ∉ l.takeWhile (· ≠ a) := fun hm => by
    simpa using List.mem_takeWhile_imp hm
  cases hd : l.dropWhile (· ≠ a) with
  | nil =>
    have hl : l.takeWhile (· ≠ a) = l := by
      have := List.takeWhile_append_dropWhile (p := (· ≠ a)) (l := l)
      rwa [hd, List.append_nil] at this
    rw [hl] at hnot h ⊢
    rw [fields_of_not_mem hnot h, fields_nil]
  | cons x r =>
    have hx : x = a := by
      have := List.head?_dropWhile_not (· ≠ a) l
      rw [hd] at this
      simpa using this
    have hl := List.takeWhile_append_dropWhile (p := (· ≠ a)) (l := l)
    rw [hd, hx] at hl
    calc fields a l = fields a (l.takeWhile (· ≠ a) ++ a :: r) := by rw [hl]
      _ = l.takeWhile (· ≠ a) :: fields a (x :: r) := by
        rw [fields_append_cons, fields_of_not_mem hnot h, List.singleton_append, hx,
          fields_cons_self]

/-- Trailing separators do not matter. -/
theorem fields_append_self (a : α) (l : List α) : fields a (l ++ [a]) = fields a l := by
  rw [fields_append_cons, fields_nil, List.append_nil]

/-- Each field takes at least one element. -/
theorem length_fields_le (a : α) (l : List α) : (fields a l).length ≤ l.length := by
  induction hn : l.length using Nat.strongRecOn generalizing l with
  | ind n ih =>
    subst hn
    cases l with
    | nil => exact Nat.zero_le _
    | cons x l =>
      by_cases hx : x = a
      · rw [hx, fields_cons_self, List.length_cons]
        exact (ih l.length (by simp) l rfl).trans (Nat.le_succ _)
      · have ht : (x :: l).takeWhile (· ≠ a) ≠ [] := by
          rw [List.takeWhile_cons_of_pos (by simpa using hx)]
          simp
        have hpos := List.length_pos_iff.mpr ht
        have hlen : ((x :: l).takeWhile (· ≠ a)).length + ((x :: l).dropWhile (· ≠ a)).length =
            (x :: l).length := by
          rw [← List.length_append, List.takeWhile_append_dropWhile]
        rw [fields_takeWhile ht, List.length_cons]
        have := ih _ (by omega) ((x :: l).dropWhile (· ≠ a)) rfl
        omega

end Fields
