import Mathlib.Logic.Basic
import Minix.Lib.Literals

/-!
# Triples for programs that stop with an error

A program reads and writes a state, and either returns a result or stops with an error. A triple
says what holds of result and state in the first case, and which errors there can be in the second
one. With no errors at all it says that the program returns.
-/

namespace Transition

variable {σ α β ε : Type}

/-- From a state with `P` the program returns with `Q`, or stops with an error that `E` allows. -/
def Outcome (P : σ → Prop) (m : StateT σ (Except ε) α) (Q : α → σ → Prop) (E : ε → Prop) : Prop :=
  ∀ s, P s → match m s with
    | .ok (r, s') => Q r s'
    | .error e => E e

/-- From a state with `P` the program returns, with `Q`. -/
abbrev Returns (P : σ → Prop) (m : StateT σ (Except ε) α) (Q : α → σ → Prop) : Prop :=
  Outcome P m Q fun _ => False

/-- A part of a program that is left out unless `c` holds. -/
def provided (c : Prop) [Decidable c] (m : StateT σ (Except ε) Unit) : StateT σ (Except ε) Unit :=
  if c then m else pure ()

namespace Outcome

variable {P P' : σ → Prop} {Q Q' : α → σ → Prop} {R : β → σ → Prop} {E : ε → Prop}
  {m : StateT σ (Except ε) α}

theorem pure {a : α} (h : ∀ s, P s → Q a s) : Outcome P (Pure.pure a) Q E := h

theorem bind {f : α → StateT σ (Except ε) β} (hm : Outcome P m Q E)
    (hf : ∀ a, Outcome (Q a) (f a) R E) : Outcome P (m >>= f) R E := by
  intro s hs
  have h := hm s hs
  change match (m s >>= fun r => f r.1 r.2) with | .ok (r, s') => R r s' | .error e => E e
  cases he : m s with
  | error e =>
    rw [he] at h
    exact h
  | ok r =>
    rw [he] at h
    exact hf r.1 r.2 h

theorem conseq (h : Outcome P m Q E) (hP : ∀ s, P' s → P s) (hQ : ∀ r s, Q r s → Q' r s) :
    Outcome P' m Q' E := by
  intro s hs
  have hm := h s (hP s hs)
  cases he : m s with
  | error e =>
    rw [he] at hm
    exact hm
  | ok r =>
    rw [he] at hm
    exact hQ r.1 r.2 hm

theorem pre (h : Outcome P m Q E) (hP : ∀ s, P' s → P s) : Outcome P' m Q E :=
  h.conseq hP fun _ _ => id

theorem post (h : Outcome P m Q E) (hQ : ∀ r s, Q r s → Q' r s) : Outcome P m Q' E :=
  h.conseq (fun _ => id) hQ

theorem errors {E' : ε → Prop} (h : Outcome P m Q E) (hE : ∀ e, E e → E' e) :
    Outcome P m Q E' := by
  intro s hs
  have hm := h s hs
  cases he : m s with
  | error e =>
    rw [he] at hm
    exact hE e hm
  | ok r =>
    rw [he] at hm
    exact hm

theorem ite {c : Prop} [Decidable c] {m' : StateT σ (Except ε) α} (h : c → Outcome P m Q E)
    (h' : ¬c → Outcome P m' Q E) : Outcome P (if c then m else m') Q E := by
  split
  · exact h ‹_›
  · exact h' ‹_›

theorem provided {Q : Unit → σ → Prop} {c : Prop} [Decidable c] {m : StateT σ (Except ε) Unit}
    (h : c → Outcome P m Q E) (h' : ¬c → ∀ s, P s → Q () s) : Outcome P (provided c m) Q E :=
  ite h fun hc => pure (h' hc)

theorem get {Q : σ → σ → Prop} (h : ∀ s, P s → Q s s) : Outcome P MonadState.get Q E := h

theorem modify {f : σ → σ} {Q : PUnit → σ → Prop} (h : ∀ s, P s → Q ⟨⟩ (f s)) :
    Outcome P (modifyThe σ f) Q E := h

theorem throw {e : ε} (h : ∀ s, P s → E e) : Outcome P (throwThe ε e) Q E := h

/-- A look at the state, which is known to give `a`. -/
theorem read {a : α} {f : α → StateT σ (Except ε) β} (hm : ∀ s, P s → m s = .ok (a, s))
    (hf : Outcome P (f a) R E) : Outcome P (m >>= f) R E := by
  intro s hs
  have h := hf s hs
  change match (m s >>= fun r => f r.1 r.2) with | .ok (r, s') => R r s' | .error e => E e
  rw [hm s hs]
  exact h

/-- A fact that the state before gives. -/
theorem known {p : Prop} (hp : ∀ s, P s → p) (h : p → Outcome P m Q E) : Outcome P m Q E :=
  fun s hs => h (hp s hs) s hs

/-- The same, when the fact is part of what is known of that state. -/
theorem fact {p : Prop} (h : p → Outcome P m Q E) : Outcome (fun s => p ∧ P s) m Q E :=
  fun s hs => h hs.1 s hs.2

/-- Something that the state before names. -/
theorem given {ι : Type} {P : ι → σ → Prop} (h : ∀ i, Outcome (P i) m Q E) :
    Outcome (fun s => ∃ i, P i s) m Q E := fun s ⟨i, hi⟩ => h i s hi

/-- The state before is fixed. -/
theorem from_state (h : ∀ s, P s → Outcome (fun s' => s' = s) m Q E) : Outcome P m Q E :=
  fun s hs => h s hs s rfl

/-- Two ways to get to a program. -/
theorem or (h : Outcome P m Q E) (h' : Outcome P' m Q E) : Outcome (fun s => P s ∨ P' s) m Q E :=
  fun s hs => hs.elim (h s) (h' s)

/-- What holds before a program whatever it does. -/
theorem const {p : Prop} (hp : p) : Outcome P m (fun _ _ => p) fun _ => True := by
  intro s hs
  split
  · exact hp
  · trivial

/-- Two things that hold when a program returns. -/
theorem and (h : Outcome P m Q E) (h' : Outcome P m Q' fun _ => True) :
    Outcome P m (fun r s => Q r s ∧ Q' r s) E := by
  intro s hs
  have hm := h s hs
  have hm' := h' s hs
  cases he : m s with
  | error e =>
    rw [he] at hm
    exact hm
  | ok r =>
    rw [he] at hm hm'
    exact ⟨hm, hm'⟩

/-- A loop over the numbers below `n`: each turn goes from `P i` to `P (i + 1)`. -/
theorem forM_range {P : Nat → σ → Prop} {f : Nat → StateT σ (Except ε) PUnit} {n : Nat}
    (h : ∀ i < n, Outcome (P i) (f i) (fun _ => P (i + 1)) E) :
    Outcome (P 0) ((List.range n).forM f) (fun _ => P n) E := by
  induction n with
  | zero => exact pure fun _ hs => hs
  | succ n ih =>
    rw [List.range_succ, List.forM_eq_forM, List.forM_append]
    refine bind (ih fun i hi => h i (Nat.lt_succ_of_lt hi)) fun _ => ?_
    rw [List.forM_cons, List.forM_nil]
    exact bind (h n (Nat.lt_succ_self n)) fun _ => pure fun _ hs => hs

/-- A program that stops with no error returns. -/
theorem returns {s : σ} (h : Returns P m Q) (hs : P s) :
    ∃ r s', m s = .ok (r, s') ∧ Q r s' := by
  have hm := h s hs
  cases he : m s with
  | error e =>
    rw [he] at hm
    exact hm.elim
  | ok r =>
    rw [he] at hm
    exact ⟨r.1, r.2, rfl, hm⟩

end Outcome

end Transition
