import Mathlib.Data.List.FinRange
import Minix.Lib.Chain

/-!
# Doubly linked lists

Two link fields thread the same records, one from the front and one from the rear. The
second chain is the reverse of the first, so every fact about one end is the same fact
about the other end of the reversed list.
-/

namespace Intrusive

variable {α : Type*}

/-- The list `l` can be read forwards from `front` and backwards from `rear`. -/
structure DList (next prev : α → Option α) (front rear : Option α) (l : List α) : Prop where
  fwd : Chain next front l
  bwd : Chain prev rear l.reverse

/-- Seen from the rear, a doubly linked list is the reversed list. -/
theorem DList.reverse {next prev : α → Option α} {front rear : Option α} {l : List α}
    (h : DList next prev front rear l) : DList prev next rear front l.reverse :=
  ⟨h.bwd, by rw [List.reverse_reverse]; exact h.fwd⟩

/-- A record links back to the record before it. -/
theorem DList.prev_eq {next prev : α → Option α} {front rear : Option α} {l₁ l₂ : List α} {a : α}
    (h : DList next prev front rear (l₁ ++ a :: l₂)) : prev a = l₁.getLast? := by
  have hb := h.bwd
  rw [List.reverse_append, List.reverse_cons, List.append_assoc, List.singleton_append] at hb
  rw [hb.next_eq, List.head?_reverse]

theorem DList.next_eq {next prev : α → Option α} {front rear : Option α} {l₁ l₂ : List α} {a : α}
    (h : DList next prev front rear (l₁ ++ a :: l₂)) : next a = l₂.head? :=
  h.fwd.next_eq

/-- Store `v` in the list head when there is no record in front. -/
def rehead (h p v : Option α) : Option α :=
  match p with
  | some _ => h
  | none => v

@[simp] theorem rehead_some (h v : Option α) (p : α) : rehead h (some p) v = h := rfl

@[simp] theorem rehead_none (h v : Option α) : rehead h none v = v := rfl

section Update

variable [DecidableEq α]

/-- Store `v` in the link of `p`, when there is such a record. -/
def relink (next : α → Option α) (p v : Option α) : α → Option α :=
  match p with
  | some p => Function.update next p v
  | none => next

@[simp] theorem relink_some (next : α → Option α) (p : α) (v : Option α) :
    relink next (some p) v = Function.update next p v := rfl

@[simp] theorem relink_none (next : α → Option α) (v : Option α) : relink next none v = next := rfl

/-- Linking from the record before `a`, or from the head, past `a`. -/
theorem Seg.bypass {next : α → Option α} {h : Option α} {l₁ l₂ : List α} {a : α}
    (hc : Chain next h (l₁ ++ a :: l₂)) :
    Chain (relink next l₁.getLast? (next a)) (rehead h l₁.getLast? (next a)) (l₁ ++ l₂) := by
  rcases List.eq_nil_or_concat l₁ with rfl | ⟨l, p, rfl⟩
  · exact hc.2
  · rw [List.concat_eq_append] at hc ⊢
    rw [List.append_assoc, List.singleton_append] at hc ⊢
    rw [List.getLast?_concat]
    exact hc.unlink

/-- Linking its neighbours to each other takes a record out of the list. -/
theorem DList.unlink {next prev : α → Option α} {front rear : Option α} {l₁ l₂ : List α} {a : α}
    (h : DList next prev front rear (l₁ ++ a :: l₂)) :
    DList (relink next (prev a) (next a)) (relink prev (next a) (prev a))
      (rehead front (prev a) (next a)) (rehead rear (next a) (prev a)) (l₁ ++ l₂) := by
  refine ⟨?_, ?_⟩
  · rw [h.prev_eq]
    exact h.fwd.bypass
  · have hb := h.bwd
    rw [List.reverse_append, List.reverse_cons, List.append_assoc, List.singleton_append] at hb
    rw [List.reverse_append, h.next_eq, ← List.getLast?_reverse]
    exact hb.bypass

/-- A fresh record in front of the list. -/
theorem DList.pushFront {next prev : α → Option α} {front rear : Option α} {l : List α} {a : α}
    (h : DList next prev front rear l) (ha : a ∉ l) :
    DList (Function.update next a front) (relink (Function.update prev a none) front (some a))
      (some a) (rehead rear front (some a)) (a :: l) := by
  refine ⟨h.fwd.push ha, ?_⟩
  rw [List.reverse_cons, h.fwd.head_eq]
  cases l with
  | nil => exact ⟨rfl, Function.update_self ..⟩
  | cons f l =>
    have hne : a ≠ f := fun e => ha (e ▸ List.mem_cons_self ..)
    have hb := h.bwd
    rw [List.reverse_cons] at hb ⊢
    rw [List.head?_cons, relink_some, Function.update_comm hne, List.append_assoc]
    refine hb.append ?_
    rw [← List.reverse_cons]
    exact fun hm => ha (List.mem_reverse.mp hm)

/-- A fresh record at the rear of the list. -/
theorem DList.pushRear {next prev : α → Option α} {front rear : Option α} {l : List α} {a : α}
    (h : DList next prev front rear l) (ha : a ∉ l) :
    DList (relink (Function.update next a none) rear (some a)) (Function.update prev a rear)
      (rehead front rear (some a)) (some a) (l ++ [a]) := by
  have hr := (h.reverse.pushFront (a := a) (by simpa using ha)).reverse
  rwa [List.reverse_cons, List.reverse_reverse] at hr

end Update

/-- Records that link to the next index form a chain from any index on. -/
theorem chain_drop_finRange {n i : Nat} {next : Fin n → Option (Fin n)}
    (hnext : ∀ j : Fin n, i ≤ j → next j = if h : j.val + 1 < n then some ⟨j.val + 1, h⟩ else none) :
    Chain next (if h : i < n then some ⟨i, h⟩ else none) ((List.finRange n).drop i) := by
  induction hk : n - i generalizing i with
  | zero =>
    rw [dif_neg (by omega), List.drop_of_length_le (by rw [List.length_finRange]; omega)]
    rfl
  | succ k ih =>
    have hi : i < n := by omega
    rw [dif_pos hi, List.drop_eq_getElem_cons (by rwa [List.length_finRange]),
      List.getElem_finRange]
    refine ⟨rfl, ?_⟩
    rw [hnext _ (Nat.le_refl i)]
    exact ih (i := i + 1) (fun j hj => hnext j (by omega)) (by omega)

end Intrusive
