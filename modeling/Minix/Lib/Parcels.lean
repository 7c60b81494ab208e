import Mathlib.Logic.Function.Basic
import Minix.Lib.Extent

/-!
# Extents that have owners

Some owners hold an extent each, and a set of numbers is kept back. Nothing is
held twice, or held and kept back; what is taken altogether changes by just the
extent that is handed out or given up.
-/

namespace Extents

open Function

variable {α : Type*} {held : α → Option Extent} {kept : Nat → Prop} {p : α} {e : Extent}

/-- The number is in the extent of an owner, or kept back. -/
def Taken (held : α → Option Extent) (kept : Nat → Prop) (c : Nat) : Prop :=
  (∃ p e, held p = some e ∧ e.Has c) ∨ kept c

/-- Where something is taken and the next number is not, an extent ends, or what is kept back. -/
theorem Taken.ends {c : Nat} (h : Taken held kept c) (hn : ¬Taken held kept (c + 1)) :
    (∃ p e, held p = some e ∧ e.stop = c + 1) ∨ kept c ∧ ¬kept (c + 1) := by
  rcases h with ⟨p, e, he, hc⟩ | hc
  · refine Or.inl ⟨p, e, he, ?_⟩
    by_contra hne
    refine hn (Or.inl ⟨p, e, he, ?_⟩)
    unfold Extent.Has at *
    omega
  · exact Or.inr ⟨hc, fun hk => hn (Or.inr hk)⟩

/-- No number is held by two owners, or held and kept back. -/
structure Parcels (held : α → Option Extent) (kept : Nat → Prop) : Prop where
  apart : ∀ p q e f, held p = some e → held q = some f → p ≠ q → e.Disjoint f
  kept : ∀ p e, held p = some e → ∀ c, e.Has c → ¬kept c

namespace Parcels

theorem none (kept : Nat → Prop) : Parcels (fun _ : α => Option.none) kept :=
  ⟨fun _ _ _ _ h => (nomatch h), fun _ _ h => (nomatch h)⟩

/-- Give up a part of what is kept back. -/
theorem shrink (h : Parcels held kept) (he : ∀ c, e.Has c → kept c) :
    Parcels held (fun c => kept c ∧ ¬e.Has c) ∧
      ∀ c, Taken held kept c ∧ ¬e.Has c ↔ Taken held (fun c => kept c ∧ ¬e.Has c) c := by
  refine ⟨⟨h.apart, fun p f hf c hc hk => h.kept p f hf c hc hk.1⟩, fun c => ⟨?_, ?_⟩⟩
  · rintro ⟨hheld | hk, hne⟩
    · exact Or.inl hheld
    · exact Or.inr ⟨hk, hne⟩
  · rintro (⟨q, f, hf, hc⟩ | ⟨hk, hne⟩)
    · exact ⟨Or.inl ⟨q, f, hf, hc⟩, fun hec => h.kept q f hf c hc (he c hec)⟩
    · exact ⟨Or.inr hk, hne⟩

variable [DecidableEq α]

/-- An owner gives up its extent. -/
theorem remove (h : Parcels held kept) (hp : held p = some e) :
    Parcels (update held p Option.none) kept ∧
      ∀ c, Taken held kept c ∧ ¬e.Has c ↔ Taken (update held p Option.none) kept c := by
  have hother : ∀ q f, update held p Option.none q = some f → q ≠ p ∧ held q = some f := by
    intro q f hf
    by_cases hq : q = p
    · rw [hq, update_self] at hf
      cases hf
    · rw [update_of_ne hq] at hf
      exact ⟨hq, hf⟩
  refine ⟨⟨fun q r f g hf hg => h.apart q r f g (hother q f hf).2 (hother r g hg).2,
    fun q f hf => h.kept q f (hother q f hf).2⟩, fun c => ⟨?_, ?_⟩⟩
  · rintro ⟨⟨q, f, hf, hc⟩ | hk, hne⟩
    · have hq : q ≠ p := by
        rintro rfl
        rw [hp] at hf
        exact hne (Option.some.inj hf ▸ hc)
      exact Or.inl ⟨q, f, by rw [update_of_ne hq, hf], hc⟩
    · exact Or.inr hk
  · rintro (⟨q, f, hf, hc⟩ | hk)
    · obtain ⟨hq, hf⟩ := hother q f hf
      exact ⟨Or.inl ⟨q, f, hf, hc⟩, fun hec => h.apart q p f e hf hp hq c hc hec⟩
    · exact ⟨Or.inr hk, fun hec => h.kept p e hp c hec hk⟩

/-- An owner that holds nothing is given numbers that are not taken. -/
theorem insert (h : Parcels held kept) (hp : held p = Option.none)
    (hfree : ∀ c, e.Has c → ¬Taken held kept c) :
    Parcels (update held p (some e)) kept ∧
      ∀ c, Taken held kept c ∨ e.Has c ↔ Taken (update held p (some e)) kept c := by
  have hcases : ∀ q f, update held p (some e) q = some f →
      q = p ∧ f = e ∨ q ≠ p ∧ held q = some f := by
    intro q f hf
    by_cases hq : q = p
    · rw [hq, update_self] at hf
      exact Or.inl ⟨hq, (Option.some.inj hf).symm⟩
    · rw [update_of_ne hq] at hf
      exact Or.inr ⟨hq, hf⟩
  refine ⟨⟨fun q r f g hf hg hne => ?_, fun q f hf c hc hk => ?_⟩, fun c => ⟨?_, ?_⟩⟩
  · rcases hcases q f hf with ⟨rfl, rfl⟩ | ⟨-, hf'⟩
    · rcases hcases r g hg with ⟨rfl, -⟩ | ⟨-, hg'⟩
      · exact absurd rfl hne
      · exact fun c hc hgc => hfree c hc (Or.inl ⟨r, g, hg', hgc⟩)
    · rcases hcases r g hg with ⟨rfl, rfl⟩ | ⟨-, hg'⟩
      · exact fun c hc hgc => hfree c hgc (Or.inl ⟨q, f, hf', hc⟩)
      · exact h.apart q r f g hf' hg' hne
  · rcases hcases q f hf with ⟨rfl, rfl⟩ | ⟨-, hf⟩
    · exact hfree c hc (Or.inr hk)
    · exact h.kept q f hf c hc hk
  · rintro ((⟨q, f, hf, hc⟩ | hk) | hec)
    · have hq : q ≠ p := by
        rintro rfl
        rw [hp] at hf
        cases hf
      exact Or.inl ⟨q, f, by rw [update_of_ne hq, hf], hc⟩
    · exact Or.inr hk
    · exact Or.inl ⟨p, e, by rw [update_self], hec⟩
  · rintro (⟨q, f, hf, hc⟩ | hk)
    · rcases hcases q f hf with ⟨-, rfl⟩ | ⟨-, hf⟩
      · exact Or.inr hc
      · exact Or.inl (Or.inl ⟨q, f, hf, hc⟩)
    · exact Or.inl (Or.inr hk)

end Parcels

end Extents
