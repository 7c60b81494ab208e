import Mathlib.Data.List.Basic
import Mathlib.Data.List.Pairwise
import Mathlib.Data.List.Perm.Subperm
import Minix.Lib.Literals

/-!
# Sorted lists of free extents

An extent is a run of consecutive numbers. A list of extents in order, with a gap
between any two neighbours, is the normal form of a set that is handed out by
first fit and taken back by insertion with merging on both sides.
-/

namespace Extents

/-- The numbers from `base` to `base + len - 1`. -/
structure Extent where
  base : Nat
  len : Nat
  deriving DecidableEq, Repr

/-- The first number behind an extent. -/
def Extent.stop (e : Extent) : Nat := e.base + e.len

/-- The number `c` lies in the extent. -/
def Extent.Has (e : Extent) (c : Nat) : Prop := e.base ≤ c ∧ c < e.stop

instance (e : Extent) (c : Nat) : Decidable (e.Has c) := inferInstanceAs (Decidable (_ ∧ _))

/-- The number `c` lies in some extent of the list. -/
def Covers (l : List Extent) (c : Nat) : Prop := ∃ e ∈ l, e.Has c

@[simp] theorem not_covers_nil (c : Nat) : ¬Covers [] c := by simp [Covers]

@[simp] theorem covers_cons {e : Extent} {l : List Extent} {c : Nat} :
    Covers (e :: l) c ↔ e.Has c ∨ Covers l c := by simp [Covers]

/-- No number lies in both extents. -/
def Extent.Disjoint (e f : Extent) : Prop := ∀ c, e.Has c → ¬f.Has c

theorem Extent.Disjoint.symm {e f : Extent} (h : e.Disjoint f) : f.Disjoint e :=
  fun c hf he => h c he hf

/-- A list of extents covers what any reordering of it covers. -/
theorem covers_perm {l l' : List Extent} (h : l.Perm l') (c : Nat) :
    Covers l c ↔ Covers l' c := by
  simp only [Covers, h.mem_iff]

/-- Extents in increasing order, none empty, no two of them touching. -/
structure Apart (l : List Extent) : Prop where
  pos : ∀ e ∈ l, 0 < e.len
  sorted : l.Pairwise fun e f => e.stop < f.base

theorem Apart.nil : Apart [] := ⟨by simp, List.Pairwise.nil⟩

theorem apart_cons {e : Extent} {l : List Extent} :
    Apart (e :: l) ↔ 0 < e.len ∧ (∀ f ∈ l, e.stop < f.base) ∧ Apart l := by
  constructor
  · intro h
    have hs := List.pairwise_cons.mp h.sorted
    exact ⟨h.pos e (List.mem_cons_self ..), hs.1,
      fun f hf => h.pos f (List.mem_cons_of_mem _ hf), hs.2⟩
  · rintro ⟨he, hl, h⟩
    exact ⟨List.forall_mem_cons.mpr ⟨he, h.pos⟩, List.pairwise_cons.mpr ⟨hl, h.sorted⟩⟩

/-- A longer list of extents that lie apart has its tail apart. -/
theorem Apart.of_append {l₁ l₂ : List Extent} (h : Apart (l₁ ++ l₂)) : Apart l₂ :=
  ⟨fun e he => h.pos e (List.mem_append_right _ he), (List.pairwise_append.mp h.sorted).2.1⟩

/-- The number before an extent is not covered. -/
theorem Apart.not_covers_pred {e : Extent} {l : List Extent} (h : Apart l) (he : e ∈ l)
    (hb : 0 < e.base) : ¬Covers l (e.base - 1) := by
  induction l with
  | nil => cases he
  | cons f l ih =>
    obtain ⟨hpos, hgap, hl⟩ := apart_cons.mp h
    rw [covers_cons]
    rcases List.mem_cons.mp he with rfl | he
    · rintro (hc | ⟨g, hg, hc⟩)
      · have := hc.1
        omega
      · have hlt := hgap g hg
        have hle := hc.1
        unfold Extent.stop at hlt
        omega
    · rintro (hc | hc)
      · have hlt := hgap e he
        have hle := hc.2
        omega
      · exact ih hl he hc

/-- Extents that lie apart start in different places. -/
theorem Apart.length_le {l : List Extent} (h : Apart l) {starts : List Nat}
    (hs : ∀ e ∈ l, e.base ∈ starts) : l.length ≤ starts.length := by
  have hnodup : (l.map Extent.base).Nodup := by
    refine List.pairwise_map.mpr (h.sorted.imp fun {e f} hlt => ?_)
    unfold Extent.stop at hlt
    omega
  have hsub : (l.map Extent.base) ⊆ starts := by
    intro b hb
    obtain ⟨e, he, rfl⟩ := List.mem_map.mp hb
    exact hs e he
  have hle := (hnodup.subperm hsub).length_le
  rwa [List.length_map] at hle

/-- Nor is the number behind it. -/
theorem Apart.not_covers_stop {e : Extent} {l : List Extent} (h : Apart l) (he : e ∈ l) :
    ¬Covers l e.stop := by
  induction l with
  | nil => cases he
  | cons f l ih =>
    obtain ⟨hpos, hgap, hl⟩ := apart_cons.mp h
    rw [covers_cons]
    rcases List.mem_cons.mp he with rfl | he
    · rintro (hc | ⟨g, hg, hc⟩)
      · exact Nat.lt_irrefl _ hc.2
      · exact Nat.lt_irrefl _ (Nat.lt_of_lt_of_le (hgap g hg) hc.1)
    · rintro (hc | hc)
      · have hlt := hgap e he
        have hle := hc.2
        unfold Extent.stop at *
        omega
      · exact ih hl he hc

/-- Numbers that follow each other and are all covered lie in one of the extents. -/
theorem Apart.exists_long {e : Extent} {l : List Extent} (h : Apart l) (hpos : 0 < e.len)
    (hc : ∀ c, e.Has c → Covers l c) : ∃ f ∈ l, e.len ≤ f.len := by
  obtain ⟨f, hf, hbase, hstop⟩ := hc e.base ⟨Nat.le_refl _, by unfold Extent.stop; omega⟩
  refine ⟨f, hf, ?_⟩
  by_contra hlt
  refine h.not_covers_stop hf (hc _ ?_)
  unfold Extent.Has Extent.stop at *
  omega

/-- First fit: bite `n` off the first extent that is long enough. -/
def firstFit (n : Nat) : List Extent → Option (Nat × List Extent)
  | [] => none
  | e :: l =>
    if n ≤ e.len then some (e.base, if e.len = n then l else ⟨e.base + n, e.len - n⟩ :: l)
    else (firstFit n l).map fun r => (r.1, e :: r.2)

/-- First fit gives up exactly when every extent is too short. -/
theorem firstFit_eq_none {n : Nat} {l : List Extent} :
    firstFit n l = none ↔ ∀ e ∈ l, e.len < n := by
  induction l with
  | nil => simp [firstFit]
  | cons e l ih =>
    rw [firstFit, List.forall_mem_cons]
    split
    · simp only [reduceCtorEq, false_iff]
      omega
    · rw [Option.map_eq_none_iff, ih]
      exact ⟨fun h => ⟨by omega, h⟩, And.right⟩

/-- Behind extents that are too short, first fit takes the piece from the next one. -/
theorem firstFit_append {n : Nat} {l₁ l₂ : List Extent} {e : Extent}
    (h₁ : ∀ f ∈ l₁, f.len < n) (he : n ≤ e.len) :
    firstFit n (l₁ ++ e :: l₂) =
      some (e.base, l₁ ++ if e.len = n then l₂ else ⟨e.base + n, e.len - n⟩ :: l₂) := by
  induction l₁ with
  | nil => rw [List.nil_append, firstFit, if_pos he, List.nil_append]
  | cons f l₁ ih =>
    rw [List.forall_mem_cons] at h₁
    rw [List.cons_append, firstFit, if_neg (by omega), ih h₁.2]
    rfl

/-- What first fit leaves starts no lower than what it was given. -/
theorem firstFit_base_le {n b m : Nat} {l l' : List Extent} (he : firstFit n l = some (b, l'))
    (hm : ∀ f ∈ l, m < f.base) : ∀ f ∈ l', m < f.base := by
  induction l generalizing b l' with
  | nil => simp [firstFit] at he
  | cons e l ih =>
    rw [List.forall_mem_cons] at hm
    rw [firstFit] at he
    split at he
    · obtain ⟨rfl, rfl⟩ := Prod.mk.inj (Option.some.inj he)
      split
      · exact hm.2
      · refine List.forall_mem_cons.mpr ⟨?_, hm.2⟩
        exact Nat.lt_add_right _ hm.1
    · obtain ⟨r, hr, hb⟩ := Option.map_eq_some_iff.mp he
      obtain ⟨rfl, rfl⟩ := Prod.mk.inj hb
      exact List.forall_mem_cons.mpr ⟨hm.1, ih hr hm.2⟩

/-- First fit keeps the extents apart. -/
theorem Apart.firstFit {n b : Nat} {l l' : List Extent} (h : Apart l)
    (he : firstFit n l = some (b, l')) : Apart l' := by
  induction l generalizing b l' with
  | nil => simp [Extents.firstFit] at he
  | cons e l ih =>
    obtain ⟨hpos, hgap, hl⟩ := apart_cons.mp h
    rw [Extents.firstFit] at he
    split at he
    · obtain ⟨rfl, rfl⟩ := Prod.mk.inj (Option.some.inj he)
      split
      · exact hl
      · refine apart_cons.mpr ⟨by show 0 < e.len - n; omega, fun f hf => ?_, hl⟩
        have := hgap f hf
        simp only [Extent.stop] at this ⊢
        omega
    · obtain ⟨r, hr, hb⟩ := Option.map_eq_some_iff.mp he
      obtain ⟨rfl, rfl⟩ := Prod.mk.inj hb
      exact apart_cons.mpr ⟨hpos, firstFit_base_le hr hgap, ih hl hr⟩

/-- First fit hands out numbers that were covered, and covers the others as before. -/
theorem Apart.firstFit_covers {n b : Nat} {l l' : List Extent} (h : Apart l)
    (he : Extents.firstFit n l = some (b, l')) (c : Nat) :
    (Covers l' c ↔ Covers l c ∧ ¬(b ≤ c ∧ c < b + n)) ∧ (b ≤ c ∧ c < b + n → Covers l c) := by
  induction l generalizing b l' with
  | nil => simp [Extents.firstFit] at he
  | cons e l ih =>
    obtain ⟨hpos, hgap, hl⟩ := apart_cons.mp h
    have hout : Covers l c → e.stop < c := by
      rintro ⟨f, hf, hc⟩
      exact Nat.lt_of_lt_of_le (hgap f hf) hc.1
    rw [Extents.firstFit] at he
    split at he
    · obtain ⟨rfl, rfl⟩ := Prod.mk.inj (Option.some.inj he)
      simp only [Extent.stop] at hout
      split <;> simp only [covers_cons, Extent.Has, Extent.stop]
      · constructor
        · constructor
          · exact fun hc => ⟨Or.inr hc, by have := hout hc; omega⟩
          · rintro ⟨hc | hc, hn⟩
            · omega
            · exact hc
        · exact fun hc => Or.inl (by omega)
      · constructor
        · constructor
          · rintro (hc | hc)
            · exact ⟨Or.inl (by omega), by omega⟩
            · exact ⟨Or.inr hc, by have := hout hc; omega⟩
          · rintro ⟨hc | hc, hn⟩
            · exact Or.inl (by omega)
            · exact Or.inr hc
        · exact fun hc => Or.inl (by omega)
    · obtain ⟨r, hr, hb⟩ := Option.map_eq_some_iff.mp he
      obtain ⟨rfl, rfl⟩ := Prod.mk.inj hb
      obtain ⟨hiff, hin⟩ := ih hl hr
      simp only [covers_cons, hiff]
      constructor
      · constructor
        · rintro (hc | hc)
          · refine ⟨Or.inl hc, fun hn => ?_⟩
            have := hout (hin hn)
            simp only [Extent.Has] at hc
            omega
          · exact ⟨Or.inr hc.1, hc.2⟩
        · rintro ⟨hc | hc, hn⟩
          · exact Or.inl hc
          · exact Or.inr ⟨hc, hn⟩
      · exact fun hc => Or.inr (hin hc)

/-- Put an extent in front of a list, merging it with the first when they touch. -/
def join (e : Extent) : List Extent → List Extent
  | [] => [e]
  | f :: l => if e.stop = f.base then ⟨e.base, e.len + f.len⟩ :: l else e :: f :: l

/-- Take back the numbers from `b` to `b + n - 1`. -/
def give (b n : Nat) : List Extent → List Extent
  | [] => [⟨b, n⟩]
  | e :: l => if b ≤ e.base then join ⟨b, n⟩ (e :: l) else join e (give b n l)

/-- Joining is associative: the middle extent may be merged to either side first. -/
theorem join_join (e g : Extent) (l : List Extent) :
    join e (join g l) =
      if e.stop = g.base then join ⟨e.base, e.len + g.len⟩ l else e :: join g l := by
  cases l with
  | nil => simp only [join]
  | cons f l =>
    by_cases hgf : g.stop = f.base <;> by_cases heg : e.stop = g.base
    · have : (⟨e.base, e.len + g.len⟩ : Extent).stop = f.base := by
        simp only [Extent.stop] at hgf heg ⊢
        omega
      simp only [join, hgf, heg, this, if_true, Nat.add_assoc]
    · simp only [join, hgf, heg, if_true, if_false]
    · have : (⟨e.base, e.len + g.len⟩ : Extent).stop ≠ f.base := by
        simp only [Extent.stop] at hgf heg ⊢
        omega
      simp only [join, hgf, heg, this, if_true, if_false]
    · simp only [join, hgf, heg, if_false]

/-- Extents that lie apart are not merged. -/
theorem Apart.join_eq {e : Extent} {l : List Extent} (h : Apart (e :: l)) : join e l = e :: l := by
  cases l with
  | nil => rfl
  | cons f l =>
    have := (apart_cons.mp h).2.1 f (List.mem_cons_self ..)
    rw [join, if_neg (by omega)]

/-- An extent below the taken-back numbers that does not touch the rest stays as it is. -/
theorem join_of_lt {e g : Extent} {l : List Extent} (h : e.stop < g.base) :
    join e (join g l) = e :: join g l := by
  rw [join_join, if_neg (by omega)]

/-- Joining an extent covers its numbers and those of the list. -/
theorem covers_join {e : Extent} {l : List Extent} {c : Nat} :
    Covers (join e l) c ↔ e.Has c ∨ Covers l c := by
  cases l with
  | nil => simp [join]
  | cons f l =>
    rw [join]
    split
    · simp only [covers_cons, Extent.Has, Extent.stop] at *
      rw [← or_assoc]
      exact or_congr_left (by omega)
    · simp

/-- Joining keeps extents apart when the new one ends no later than the list begins. -/
theorem Apart.join {e : Extent} {l : List Extent} (h : Apart l) (hpos : 0 < e.len)
    (hle : ∀ f ∈ l, e.stop ≤ f.base) : Apart (join e l) := by
  cases l with
  | nil => exact apart_cons.mpr ⟨hpos, by simp, Apart.nil⟩
  | cons f l =>
    obtain ⟨hf, hgap, hl⟩ := apart_cons.mp h
    rw [Extents.join]
    split
    · refine apart_cons.mpr ⟨by show 0 < e.len + f.len; omega, fun g hg => ?_, hl⟩
      have := hgap g hg
      simp only [Extent.stop] at *
      omega
    · refine apart_cons.mpr ⟨hpos, List.forall_mem_cons.mpr ⟨?_, fun g hg => ?_⟩, h⟩
      · have := hle f (List.mem_cons_self ..)
        omega
      · have := hle f (List.mem_cons_self ..)
        have := hgap g hg
        simp only [Extent.stop] at *
        omega

/-- Taking numbers back covers exactly those in addition. -/
theorem covers_give {b n c : Nat} {l : List Extent} :
    Covers (give b n l) c ↔ (b ≤ c ∧ c < b + n) ∨ Covers l c := by
  induction l with
  | nil => simp [give, Extent.Has, Extent.stop]
  | cons e l ih =>
    rw [give]
    split
    · rw [covers_join]
      rfl
    · rw [covers_join, ih, covers_cons]
      tauto

/-- Whatever lies below the list and the numbers taken back lies below the result. -/
theorem give_base_le {b n m : Nat} {l : List Extent} (hb : m ≤ b) (hl : ∀ f ∈ l, m ≤ f.base) :
    ∀ f ∈ give b n l, m ≤ f.base := by
  have hjoin : ∀ (e : Extent) (l : List Extent), m ≤ e.base → (∀ f ∈ l, m ≤ f.base) →
      ∀ f ∈ join e l, m ≤ f.base := by
    intro e l he hl
    cases l with
    | nil => simpa [join] using he
    | cons g l =>
      rw [List.forall_mem_cons] at hl
      rw [join]
      split
      · exact List.forall_mem_cons.mpr ⟨he, hl.2⟩
      · exact List.forall_mem_cons.mpr ⟨he, List.forall_mem_cons.mpr hl⟩
  induction l with
  | nil => simpa [give] using hb
  | cons e l ih =>
    rw [give]
    split
    · exact hjoin _ _ hb hl
    · rw [List.forall_mem_cons] at hl
      exact hjoin _ _ hl.1 (ih hl.2)

/-- Taking back numbers that are not covered keeps the extents apart. -/
theorem Apart.give {b n : Nat} {l : List Extent} (h : Apart l) (hn : 0 < n)
    (hfree : ∀ c, b ≤ c → c < b + n → ¬Covers l c) : Apart (give b n l) := by
  induction l with
  | nil => exact apart_cons.mpr ⟨hn, by simp, Apart.nil⟩
  | cons e l ih =>
    obtain ⟨hpos, hgap, hl⟩ := apart_cons.mp h
    have hb : ¬e.Has b := fun hc => hfree b (Nat.le_refl _) (by omega) (covers_cons.mpr (Or.inl hc))
    rw [Extents.give]
    split
    · refine h.join hn (List.forall_mem_cons.mpr ?_)
      have he : (⟨b, n⟩ : Extent).stop ≤ e.base := by
        by_contra hlt
        refine hfree e.base ‹_› (by simp only [Extent.stop] at hlt; omega) ?_
        exact covers_cons.mpr (Or.inl ⟨(Nat.le_refl _), by simp only [Extent.stop]; omega⟩)
      refine ⟨he, fun f hf => ?_⟩
      have := hgap f hf
      simp only [Extent.stop] at *
      omega
    · refine (ih hl fun c h₁ h₂ hc => hfree c h₁ h₂ (covers_cons.mpr (Or.inr hc))).join hpos ?_
      refine give_base_le ?_ fun f hf => Nat.le_of_lt (hgap f hf)
      simp only [Extent.Has, Extent.stop] at hb ⊢
      omega

/-- Insertion passes the extents that lie below, merges with the last of them and with the
first of the others. -/
theorem Apart.give_append {b n : Nat} {l₁ l₂ : List Extent} {e : Extent}
    (h : Apart (l₁ ++ e :: l₂)) (hlt : e.base < b) (hle : ∀ f ∈ l₂, b ≤ f.base) :
    Extents.give b n (l₁ ++ e :: l₂) = l₁ ++ Extents.join e (Extents.join ⟨b, n⟩ l₂) := by
  induction l₁ with
  | nil =>
    have htail : Extents.give b n l₂ = Extents.join ⟨b, n⟩ l₂ := by
      cases l₂ with
      | nil => rfl
      | cons f l₂ => rw [Extents.give, if_pos (hle f (List.mem_cons_self ..))]
    rw [List.nil_append, Extents.give, if_neg (by omega), htail, List.nil_append]
  | cons f l₁ ih =>
    obtain ⟨hpos, hgap, hl⟩ := apart_cons.mp h
    have hfe := hgap e (by simp)
    have hfb : f.base < b := by
      simp only [Extent.stop] at hfe
      omega
    rw [List.cons_append, Extents.give, if_neg (by omega), ih hl, List.cons_append]
    -- the next extent below is not touched by the merge behind it
    cases l₁ with
    | nil => exact join_of_lt hfe
    | cons g l₁ =>
      have := hgap g (by simp)
      rw [List.cons_append, Extents.join, if_neg (by omega)]

end Extents
