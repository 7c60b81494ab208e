import Mathlib.Data.Fintype.Card
import Mathlib.Data.List.Nodup
import Mathlib.Data.Set.Function
import Mathlib.Logic.Function.Basic
import Minix.Lib.Literals

/-!
# Intrusive chains

A table of records that are threaded together by a `next` field, read through a
head pointer. A segment names the records visited between two pointers, a chain
is a segment that ends at nil. The pointer is `Option α`, so that nil is a value
of its own and no record is reserved for it.

The walk `search` is the loop that follows the field with a trailing pointer. It
carries fuel; along a chain the number of records is always enough of it.
-/

namespace Intrusive

variable {α : Type*}

/-- Following `next` from `h` visits exactly `l`, in order, and arrives at `t`. -/
def Seg (next : α → Option α) : Option α → List α → Option α → Prop
  | h, [], t => h = t
  | h, a :: l, t => h = some a ∧ Seg next (next a) l t

/-- A chain is a segment that runs into nil. -/
abbrev Chain (next : α → Option α) (h : Option α) (l : List α) : Prop := Seg next h l none

@[simp] theorem seg_nil {next : α → Option α} {h t : Option α} : Seg next h [] t ↔ h = t :=
  Iff.rfl

@[simp] theorem seg_cons {next : α → Option α} {h t : Option α} {a : α} {l : List α} :
    Seg next h (a :: l) t ↔ h = some a ∧ Seg next (next a) l t := Iff.rfl

instance decidableSeg [DecidableEq α] (next : α → Option α) :
    ∀ (h : Option α) (l : List α) (t : Option α), Decidable (Seg next h l t)
  | h, [], t => inferInstanceAs (Decidable (h = t))
  | h, a :: l, t =>
    have := decidableSeg next (next a) l t
    inferInstanceAs (Decidable (h = some a ∧ Seg next (next a) l t))

/-- A segment over a concatenation passes through the pointer between its halves. -/
theorem seg_append {next : α → Option α} {h t : Option α} {l₁ l₂ : List α} :
    Seg next h (l₁ ++ l₂) t ↔ ∃ m, Seg next h l₁ m ∧ Seg next m l₂ t := by
  induction l₁ generalizing h with
  | nil => simp
  | cons a l₁ ih => simp only [List.cons_append, seg_cons, ih, and_assoc, exists_and_left]

/-- A segment only reads the link of the records it visits. -/
theorem Seg.congr {next next' : α → Option α} {h t : Option α} {l : List α}
    (he : ∀ a ∈ l, next' a = next a) (hs : Seg next h l t) : Seg next' h l t := by
  induction l generalizing h with
  | nil => exact hs
  | cons a l ih =>
    refine ⟨hs.1, ?_⟩
    rw [he a (List.mem_cons_self ..)]
    exact ih (fun b hb => he b (List.mem_cons_of_mem _ hb)) hs.2

/-- The head pointer of a chain is the first record of its list. -/
theorem Seg.head_eq {next : α → Option α} {h : Option α} {l : List α}
    (hc : Chain next h l) : h = l.head? := by
  cases l with
  | nil => exact hc
  | cons a l => exact hc.1

/-- A record of a chain links to the record after it. -/
theorem Seg.next_eq {next : α → Option α} {h : Option α} {l₁ l₂ : List α} {a : α}
    (hc : Chain next h (l₁ ++ a :: l₂)) : next a = l₂.head? := by
  obtain ⟨_, _, _, htail⟩ := seg_append.mp hc
  exact Seg.head_eq htail

/-- The records after a given one are again a chain. -/
theorem Seg.suffix {next : α → Option α} {h : Option α} {l₁ l₂ : List α}
    (hc : Chain next h (l₁ ++ l₂)) : Chain next l₂.head? l₂ := by
  obtain ⟨m, _, htail⟩ := seg_append.mp hc
  rwa [Seg.head_eq htail] at htail

/-- The head pointer and the links determine the list of a chain. -/
theorem Seg.unique {next : α → Option α} {h : Option α} {l l' : List α}
    (hc : Chain next h l) (hc' : Chain next h l') : l = l' := by
  induction l generalizing h l' with
  | nil =>
    cases l' with
    | nil => rfl
    | cons b l' => exact absurd (hc.symm.trans hc'.1) (by simp)
  | cons a l ih =>
    cases l' with
    | nil => exact absurd (hc.1.symm.trans hc') (by simp)
    | cons b l' =>
      obtain rfl : a = b := Option.some.inj (hc.1.symm.trans hc'.1)
      rw [ih hc.2 hc'.2]

/-- A chain never visits a record twice: a repeated record would have two different
lists of successors. -/
theorem Seg.nodup {next : α → Option α} {h : Option α} {l : List α}
    (hc : Chain next h l) : l.Nodup := by
  induction l generalizing h with
  | nil => exact List.nodup_nil
  | cons a l ih =>
    refine List.nodup_cons.mpr ⟨fun ha => ?_, ih hc.2⟩
    obtain ⟨l₁, l₂, rfl⟩ := List.append_of_mem ha
    have htail : Chain next (some a) (a :: l₂) := Seg.suffix hc.2
    have hrest : Chain next (next a) l₂ := htail.2
    have hlen := congrArg List.length (hc.2.unique hrest)
    simp only [List.length_append, List.length_cons] at hlen
    omega

/-- A chain visits at most as many records as the table has. -/
theorem Seg.length_le [Fintype α] {next : α → Option α} {h : Option α} {l : List α}
    (hc : Chain next h l) : l.length ≤ Fintype.card α :=
  hc.nodup.length_le_card

section Update

variable [DecidableEq α]

/-- Relinking a record that a segment does not visit leaves the segment alone. -/
theorem Seg.update {next : α → Option α} {h t : Option α} {l : List α} {a : α}
    {v : Option α} (ha : a ∉ l) (hs : Seg next h l t) :
    Seg (Function.update next a v) h l t :=
  hs.congr fun _ hb => Function.update_of_ne (ne_of_mem_of_not_mem hb ha) _ _

/-- Linking past a record takes it out of the chain. -/
theorem Seg.unlink {next : α → Option α} {h : Option α} {l₁ l₂ : List α} {p a : α}
    (hc : Chain next h (l₁ ++ p :: a :: l₂)) :
    Chain (Function.update next p (next a)) h (l₁ ++ p :: l₂) := by
  have hnd := hc.nodup
  obtain ⟨m, h₁, hp, _, h₂⟩ := seg_append.mp hc
  simp only [List.nodup_append, List.nodup_cons, List.mem_cons] at hnd
  refine seg_append.mpr ⟨m, h₁.update fun hm => ?_, hp, ?_⟩
  · exact hnd.2.2 p hm p (Or.inl rfl) rfl
  · rw [Function.update_self]
    exact h₂.update fun hm => hnd.2.1.1 (Or.inr hm)

/-- Linking a fresh record behind `p` inserts it into the chain. -/
theorem Seg.insertAfter {next : α → Option α} {h : Option α} {l₁ l₂ : List α} {p a : α}
    (hc : Chain next h (l₁ ++ p :: l₂)) (ha : a ∉ l₁ ++ p :: l₂) :
    Chain (Function.update (Function.update next a (next p)) p (some a)) h
      (l₁ ++ p :: a :: l₂) := by
  have hnd := hc.nodup
  simp only [List.nodup_append, List.nodup_cons, List.mem_cons] at hnd
  simp only [List.mem_append, List.mem_cons, not_or] at ha
  obtain ⟨m, h₁, hp, h₂⟩ := seg_append.mp hc
  refine seg_append.mpr ⟨m, ?_, hp, ?_⟩
  · exact (h₁.update ha.1).update fun hm => hnd.2.2 p hm p (Or.inl rfl) rfl
  · rw [Function.update_self]
    refine ⟨rfl, ?_⟩
    rw [Function.update_of_ne ha.2.1, Function.update_self]
    exact (h₂.update ha.2.2).update hnd.2.1.1

/-- Linking a fresh record in front makes it the new head. -/
theorem Seg.push {next : α → Option α} {h : Option α} {l : List α} {a : α}
    (hc : Chain next h l) (ha : a ∉ l) :
    Chain (Function.update next a h) (some a) (a :: l) := by
  refine ⟨rfl, ?_⟩
  rw [Function.update_self]
  exact hc.update ha

/-- Linking a fresh record behind the last one appends it. -/
theorem Seg.append {next : α → Option α} {h : Option α} {l : List α} {t a : α}
    (hc : Chain next h (l ++ [t])) (ha : a ∉ l ++ [t]) :
    Chain (Function.update (Function.update next t (some a)) a none) h (l ++ [t, a]) := by
  have hnext : next t = none := hc.next_eq
  have hne : a ≠ t := fun e => ha (by simp [e])
  have h := hc.insertAfter ha
  rwa [hnext, Function.update_comm hne] at h

end Update

/-- The walk with a trailing pointer, `while (x != NIL && !p(x)) { prev = x; x = next(x); }`.
It gives the record in front of the place where the walk stopped and the record there;
`none` says that the fuel ran out. -/
def search (next : α → Option α) (p : α → Bool) :
    Nat → Option α → Option α → Option (Option α × Option α)
  | 0, _, _ => none
  | _ + 1, prev, none => some (prev, none)
  | n + 1, prev, some x => if p x then some (prev, some x) else search next p n (some x) (next x)

/-- A walk that finds nothing stops behind the last record. -/
theorem search_none {next : α → Option α} {p : α → Bool} {n : Nat} {h : Option α}
    (prev : Option α) {l : List α} (hc : Chain next h l) (hn : l.length < n) (hp : ∀ a ∈ l, p a = false) :
    search next p n prev h = some (l.getLast?.or prev, none) := by
  induction l generalizing n prev h with
  | nil =>
    obtain ⟨n, rfl⟩ := Nat.exists_eq_add_of_lt hn
    obtain rfl : h = none := hc
    rw [search]
    rfl
  | cons a l ih =>
    obtain ⟨n, rfl⟩ := Nat.exists_eq_add_of_lt hn
    obtain ⟨rfl, hc⟩ := hc
    have hpa := hp a (List.mem_cons_self ..)
    rw [search, hpa, if_neg Bool.false_ne_true,
      ih (some _) hc (by simp only [List.length_cons] at hn ⊢; omega)
        fun b hb => hp b (List.mem_cons_of_mem _ hb)]
    rw [List.getLast?_cons]
    cases l.getLast? <;> rfl

/-- A walk stops at the first record that satisfies the test. -/
theorem search_some {next : α → Option α} {p : α → Bool} {n : Nat} {h : Option α}
    (prev : Option α) {l₁ l₂ : List α} {a : α} (hc : Chain next h (l₁ ++ a :: l₂)) (hn : l₁.length < n)
    (hp : ∀ b ∈ l₁, p b = false) (ha : p a = true) :
    search next p n prev h = some (l₁.getLast?.or prev, some a) := by
  induction l₁ generalizing n prev h with
  | nil =>
    obtain ⟨n, rfl⟩ := Nat.exists_eq_add_of_lt hn
    obtain ⟨rfl, _⟩ := hc
    rw [search, ha]
    rfl
  | cons b l₁ ih =>
    obtain ⟨n, rfl⟩ := Nat.exists_eq_add_of_lt hn
    obtain ⟨rfl, hc⟩ := hc
    have hpb := hp b (List.mem_cons_self ..)
    rw [search, hpb, if_neg Bool.false_ne_true,
      ih (some _) hc (by simp only [List.length_cons] at hn ⊢; omega)
        fun c hc => hp c (List.mem_cons_of_mem _ hc)]
    rw [List.getLast?_cons]
    cases l₁.getLast? <;> rfl

/-- Wherever a walk stops, the record there satisfies the test. -/
theorem search_sound {next : α → Option α} {p : α → Bool} {n : Nat} {h prev q : Option α} {x : α}
    (he : search next p n prev h = some (q, some x)) : p x = true := by
  induction n generalizing prev h with
  | zero => exact nomatch he
  | succ n ih =>
    cases h with
    | none => exact nomatch he
    | some y =>
      unfold search at he
      split at he
      · rename_i hy
        obtain ⟨-, hyx⟩ := Prod.mk.inj (Option.some.inj he)
        exact Option.some.inj hyx ▸ hy
      · exact ih he

/-- A walk that stops at a record has followed the links to it. -/
theorem search_seg {next : α → Option α} {p : α → Bool} {n : Nat} {h prev q : Option α} {x : α}
    (he : search next p n prev h = some (q, some x)) : ∃ l, Seg next h (l ++ [x]) (next x) := by
  induction n generalizing prev h with
  | zero => exact nomatch he
  | succ n ih =>
    cases h with
    | none => exact nomatch he
    | some y =>
      unfold search at he
      split at he
      · obtain ⟨-, hyx⟩ := Prod.mk.inj (Option.some.inj he)
        obtain rfl : y = x := Option.some.inj hyx
        exact ⟨[], rfl, rfl⟩
      · obtain ⟨l, hl⟩ := ih he
        exact ⟨y :: l, rfl, hl⟩

/-- A walk that stops at nil has tested a whole chain. -/
theorem search_chain {next : α → Option α} {p : α → Bool} {n : Nat} {h prev q : Option α}
    (he : search next p n prev h = some (q, none)) :
    ∃ l, Chain next h l ∧ ∀ a ∈ l, p a = false := by
  induction n generalizing prev h with
  | zero => exact nomatch he
  | succ n ih =>
    cases h with
    | none => exact ⟨[], rfl, by simp⟩
    | some y =>
      unfold search at he
      split at he
      · exact nomatch he
      · rename_i hy
        obtain ⟨l, hl, hp⟩ := ih he
        exact ⟨y :: l, ⟨rfl, hl⟩, List.forall_mem_cons.mpr ⟨by simpa using hy, hp⟩⟩

/-- A chain contains every record that is reached from its head. -/
theorem Seg.subset {next : α → Option α} {h t : Option α} {l l' : List α}
    (hc : Chain next h l) (hs : Seg next h l' t) : l' ⊆ l := by
  induction l' generalizing h l with
  | nil => exact List.nil_subset l
  | cons a l' ih =>
    obtain ⟨rfl, hs⟩ := hs
    cases l with
    | nil => exact nomatch hc
    | cons b l =>
      obtain rfl : a = b := Option.some.inj hc.1
      exact List.cons_subset_cons a (ih hc.2 hs)

/-- Every list is split by a test at its first success, if there is one. -/
theorem exists_first_split (p : α → Bool) (l : List α) :
    (∀ a ∈ l, p a = false) ∨
      ∃ l₁ a l₂, l = l₁ ++ a :: l₂ ∧ (∀ b ∈ l₁, p b = false) ∧ p a = true := by
  induction l with
  | nil => exact Or.inl (by simp)
  | cons a l ih =>
    cases hpa : p a with
    | true => exact Or.inr ⟨[], a, l, rfl, by simp, hpa⟩
    | false =>
      rcases ih with h | ⟨l₁, b, l₂, rfl, h, hb⟩
      · exact Or.inl (by simpa [hpa] using h)
      · exact Or.inr ⟨a :: l₁, b, l₂, rfl, by simpa [hpa] using h, hb⟩

/-- Every list is split before its first success. -/
theorem exists_split (p : α → Bool) (l : List α) :
    ∃ l₁ l₂, l = l₁ ++ l₂ ∧ (∀ b ∈ l₁, p b = false) ∧ ∀ a ∈ l₂.head?, p a = true := by
  rcases exists_first_split p l with h | ⟨l₁, a, l₂, rfl, h, ha⟩
  · exact ⟨l, [], (List.append_nil l).symm, h, by simp⟩
  · exact ⟨l₁, a :: l₂, rfl, h, by simpa using ha⟩

/-- A walk along a chain stops between the records that fail the test and the rest. -/
theorem search_split {next : α → Option α} {p : α → Bool} {n : Nat} {h : Option α}
    (prev : Option α) {l₁ l₂ : List α} (hc : Chain next h (l₁ ++ l₂)) (hn : (l₁ ++ l₂).length < n)
    (hp : ∀ b ∈ l₁, p b = false) (ha : ∀ a ∈ l₂.head?, p a = true) :
    search next p n prev h = some (l₁.getLast?.or prev, l₂.head?) := by
  rw [List.length_append] at hn
  cases l₂ with
  | nil => exact search_none prev (by simpa using hc) (by simpa using hn) hp
  | cons a l₂ => exact search_some prev hc (by omega) hp (ha a rfl)

/-- Where a walk along a chain stops is the first record that satisfies the test. -/
theorem search_find {next : α → Option α} {p : α → Bool} {n : Nat} {h : Option α}
    (prev : Option α) {l : List α} (hc : Chain next h l) (hn : l.length < n) :
    (search next p n prev h).map Prod.snd = some (l.find? p) := by
  obtain ⟨l₁, l₂, rfl, hp, ha⟩ := exists_split p l
  rw [search_split prev hc hn hp ha, Option.map_some, List.find?_append,
    List.find?_eq_none.mpr (by simpa using hp), Option.none_or]
  cases l₂ with
  | nil => rfl
  | cons a l₂ => rw [List.find?_cons_of_pos (ha a rfl), List.head?_cons]

/-- The only record of a chain without a successor is the last one. -/
theorem Seg.find_last {next : α → Option α} {h : Option α} {l : List α}
    (hc : Chain next h l) : l.find? (fun x => next x = none) = l.getLast? := by
  induction l generalizing h with
  | nil => rfl
  | cons a l ih =>
    cases l with
    | nil =>
      have hnext : next a = none := hc.2
      simp [hnext]
    | cons b l =>
      have hnext : next a = some b := hc.2.1
      rw [List.find?_cons_of_neg (by simp [hnext]), ih hc.2, List.getLast?_cons_cons]

/-- Taking a record out of a chain of which only the head is known,
`if (h == a) h = next(a); else for (p = h; next(p) != NIL; p = next(p)) if (next(p) == a) ...`.
It gives the links and the head afterwards; reading a link of nil is no result. -/
def remove [DecidableEq α] (next : α → Option α) (n : Nat) (h : Option α) (a : α) :
    Option ((α → Option α) × Option α) :=
  match h with
  | none => none
  | some x =>
    if x = a then some (next, next a)
    else match search next (fun p => next p = some a) n none (some x) with
      | none => none
      | some (_, none) => some (next, some x)
      | some (_, some p) => some (Function.update next p (next a), some x)

/-- In a chain that does not repeat, only the record in front of `a` links to it. -/
theorem Seg.next_ne_of_mem {next : α → Option α} {h : Option α} {l l₂ : List α} {p a b : α}
    (hc : Chain next h (l ++ p :: a :: l₂)) (hb : b ∈ l) : next b ≠ some a := by
  have hnd := hc.nodup
  obtain ⟨m₁, m₂, rfl⟩ := List.append_of_mem hb
  rw [List.append_assoc, List.cons_append] at hc
  rw [hc.next_eq]
  simp only [List.nodup_append, List.nodup_cons, List.mem_append, List.mem_cons] at hnd
  cases m₂ with
  | nil =>
    intro he
    exact hnd.2.1.1 (Or.inl (Option.some.inj he))
  | cons x m₂ =>
    intro he
    obtain rfl : x = a := Option.some.inj he
    exact hnd.2.2 x (by simp) x (Or.inr (Or.inl rfl)) rfl

/-- Removal takes exactly the given record out of its chain, and no link outside of it changes. -/
theorem remove_spec [DecidableEq α] {next : α → Option α} {h : Option α} {l₁ l₂ : List α} {a : α}
    {n : Nat} (hc : Chain next h (l₁ ++ a :: l₂)) (hn : (l₁ ++ a :: l₂).length < n) :
    ∃ next' h', remove next n h a = some (next', h') ∧ Chain next' h' (l₁ ++ l₂) ∧
      ∀ b, b ∉ l₁ ++ a :: l₂ → next' b = next b := by
  rcases List.eq_nil_or_concat l₁ with rfl | ⟨l, p, rfl⟩
  · obtain ⟨rfl, hc⟩ := hc
    exact ⟨next, next a, by rw [remove, if_pos rfl], hc, fun _ _ => rfl⟩
  · rw [List.concat_eq_append] at hc hn ⊢
    simp only [List.append_assoc, List.singleton_append] at hc hn ⊢
    have hnd := hc.nodup
    have hnext : next p = some a := by
      obtain ⟨_, _, _, hp⟩ := seg_append.mp hc
      exact hp.1
    have hlen : l.length < n := by
      rw [List.length_append] at hn
      omega
    have hsearch := search_some (p := fun p => next p = some a) none hc hlen
      (fun b hb => decide_eq_false (hc.next_ne_of_mem hb)) (decide_eq_true hnext)
    obtain ⟨x, hx⟩ : ∃ x, h = some x ∧ x ≠ a := by
      rw [hc.head_eq]
      simp only [List.nodup_append, List.nodup_cons, List.mem_cons] at hnd
      cases l with
      | nil => exact ⟨p, rfl, fun e => hnd.2.1.1 (Or.inl e)⟩
      | cons x l => exact ⟨x, rfl, fun e => hnd.2.2 x (by simp) a (Or.inr (Or.inl rfl)) e⟩
    obtain ⟨rfl, hne⟩ := hx
    refine ⟨_, _, by rw [remove, if_neg hne, hsearch], hc.unlink, fun b hb => ?_⟩
    exact Function.update_of_ne (fun e => hb (by simp [e])) _ _

end Intrusive
