import Mathlib.Logic.Basic
import Minix.Lib.Literals

/-!
# Triples for programs that may not return

A program reads and writes a state, and has a result when it returns. A triple says what
holds of result and state in that case, from a property of the state before.
-/

namespace Transition

variable {σ α β : Type}

/-- If `m` returns from a state with `P`, its result and the state then have `Q`. -/
def Triple (P : σ → Prop) (m : StateT σ Option α) (Q : α → σ → Prop) : Prop :=
  ∀ s, P s → ∀ r s', m s = some (r, s') → Q r s'

/-- A part of a program that is left out unless `c` holds. -/
def onlyIf (c : Prop) [Decidable c] (m : StateT σ Option Unit) : StateT σ Option Unit :=
  if c then m else pure ()

/-- A program whose first part is known to run. -/
theorem run_bind {m : StateT σ Option α} {s s₁ : σ} {a : α} (h : m s = some (a, s₁))
    (f : α → StateT σ Option β) : (m >>= f) s = f a s₁ := by
  change (m s).bind _ = _
  rw [h]
  rfl

namespace Triple

variable {P P' : σ → Prop} {Q Q' : α → σ → Prop} {R : β → σ → Prop} {m : StateT σ Option α}

theorem pure {a : α} (h : ∀ s, P s → Q a s) : Triple P (Pure.pure a) Q := by
  rintro s hs r s' he
  obtain ⟨rfl, rfl⟩ := Prod.mk.inj (Option.some.inj he)
  exact h s hs

theorem bind {f : α → StateT σ Option β} (hm : Triple P m Q) (hf : ∀ a, Triple (Q a) (f a) R) :
    Triple P (m >>= f) R := by
  rintro s hs r s' he
  obtain ⟨⟨a, s₁⟩, h₁, he⟩ := Option.bind_eq_some_iff.mp he
  exact hf a s₁ (hm s hs a s₁ h₁) r s' he

theorem conseq (h : Triple P m Q) (hP : ∀ s, P' s → P s) (hQ : ∀ r s, Q r s → Q' r s) :
    Triple P' m Q' := fun s hs r s' he => hQ r s' (h s (hP s hs) r s' he)

theorem pre (h : Triple P m Q) (hP : ∀ s, P' s → P s) : Triple P' m Q :=
  h.conseq hP fun _ _ => id

theorem post (h : Triple P m Q) (hQ : ∀ r s, Q r s → Q' r s) : Triple P m Q' :=
  h.conseq (fun _ => id) hQ

theorem ite {c : Prop} [Decidable c] {m' : StateT σ Option α} (h : c → Triple P m Q)
    (h' : ¬c → Triple P m' Q) : Triple P (if c then m else m') Q := by
  split
  · exact h ‹_›
  · exact h' ‹_›

theorem onlyIf {P : σ → Prop} {c : Prop} [Decidable c] {m : StateT σ Option Unit}
    (h : c → Triple P m fun _ => P) : Triple P (onlyIf c m) fun _ => P :=
  ite h fun _ => pure fun _ => id

/-- A step that returns the state, too. -/
theorem step {f : σ → Option (α × σ)} (h : ∀ s r s', P s → f s = some (r, s') → Q r s') :
    Triple P f Q := fun s hs r s' he => h s r s' hs he

theorem get {Q : σ → σ → Prop} (h : ∀ s, P s → Q s s) : Triple P MonadState.get Q := by
  rintro s hs r s' he
  obtain ⟨rfl, rfl⟩ := Prod.mk.inj (Option.some.inj he)
  exact h s hs

theorem modify {f : σ → σ} {Q : PUnit → σ → Prop} (h : ∀ s, P s → Q ⟨⟩ (f s)) :
    Triple P (modifyThe σ f) Q := by
  rintro s hs r s' he
  obtain ⟨rfl, rfl⟩ := Prod.mk.inj (Option.some.inj he)
  exact h s hs

/-- A computation that does not look at the state. -/
theorem lift {x : Option α} (h : ∀ s a, P s → x = some a → Q a s) :
    Triple P (StateT.lift x) Q := by
  rintro s hs r s' he
  obtain ⟨a, ha, he⟩ := Option.bind_eq_some_iff.mp he
  obtain ⟨rfl, rfl⟩ := Prod.mk.inj (Option.some.inj he)
  exact h s a hs ha

/-- A fact that is known before the program starts. -/
theorem known {p : Prop} (h : p → Triple P m Q) : Triple (fun s => P s ∧ p) m Q :=
  fun s hs => h hs.2 s hs.1

theorem fail : Triple P (fun _ => none) Q := fun _ _ _ _ he => nomatch he

end Triple

end Transition
