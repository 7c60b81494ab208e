import Mathlib.Data.Fintype.Defs
import Mathlib.Logic.Function.Basic
import Mathlib.Data.Finset.Insert
import Mathlib.Data.Nat.Notation
import Minix.Lib.Literals

/-!
# Trees of index blocks

A root has room for `k` names, and names a single and a double index block. The entries of the
single block are names, those of the double block name more index blocks. The name zero stands for
none, so that blocks can be linked when they are needed.

The blocks are a function from their names to their entries. A tree is separate if none of its index
blocks is linked twice: then a store into one of them changes one slot.
-/

namespace IndexTree

open Function

variable {ν : Type} [Zero ν] [DecidableEq ν] {k n : Nat}

/-- The names in a root. -/
structure Root (ν : Type) (k : Nat) where
  direct : Fin k → ν
  single : ν
  double : ν

/-- The places for names. -/
inductive Slot (k n : Nat) where
  | direct (i : Fin k)
  | single (j : Fin n)
  | double (i j : Fin n)
  deriving DecidableEq

/-- The slots in order. -/
def slotOf (k n z : Nat) : Option (Slot k n) :=
  if h : z < k then some (.direct ⟨z, h⟩)
  else if h : z - k < n then some (.single ⟨z - k, h⟩)
  else if h : (z - k - n) / n < n then
    some (.double ⟨(z - k - n) / n, h⟩
      ⟨(z - k - n) % n, Nat.mod_lt _ (Nat.zero_lt_of_lt h)⟩)
  else none

/-- An entry of a block, which is none if there is no such block. -/
def entry (blk : ν → Fin n → ν) (b : ν) (j : Fin n) : ν := if b = 0 then 0 else blk b j

/-- The name in a slot. -/
def lookup (blk : ν → Fin n → ν) (r : Root ν k) : Slot k n → ν
  | .direct i => r.direct i
  | .single j => entry blk r.single j
  | .double i j => entry blk (entry blk r.double i) j

/-- The index blocks of a tree. -/
inductive IsIndex (blk : ν → Fin n → ν) (r : Root ν k) : ν → Prop
  | single : r.single ≠ 0 → IsIndex blk r r.single
  | double : r.double ≠ 0 → IsIndex blk r r.double
  | entry (i : Fin n) : entry blk r.double i ≠ 0 → IsIndex blk r (entry blk r.double i)

/-- No index block is linked twice. -/
structure Separate (blk : ν → Fin n → ν) (r : Root ν k) : Prop where
  roots : r.single ≠ 0 → r.single ≠ r.double
  single : r.single ≠ 0 → ∀ i, entry blk r.double i ≠ r.single
  double : r.double ≠ 0 → ∀ i, entry blk r.double i ≠ r.double
  entries : ∀ i i', entry blk r.double i ≠ 0 → entry blk r.double i = entry blk r.double i' → i = i'

/-- The number of a slot. -/
theorem slotOf_cases {z : Nat} {s : Slot k n} (h : slotOf k n z = some s) :
    (∃ i : Fin k, z = i.val ∧ s = .direct i) ∨ (∃ j : Fin n, z = k + j.val ∧ s = .single j) ∨
      ∃ i j : Fin n, z = k + n + n * i.val + j.val ∧ s = .double i j := by
  unfold slotOf at h
  split at h
  · exact Or.inl ⟨_, rfl, (Option.some.inj h).symm⟩
  · split at h
    · refine Or.inr (Or.inl ⟨_, ?_, (Option.some.inj h).symm⟩)
      dsimp only
      omega
    · split at h
      · refine Or.inr (Or.inr ⟨_, _, ?_, (Option.some.inj h).symm⟩)
        have hz := Nat.div_add_mod (z - k - n) n
        dsimp only
        omega
      · exact nomatch h

/-- Different numbers are different slots. -/
theorem slotOf_inj {z z' : Nat} {s : Slot k n} (h : slotOf k n z = some s)
    (h' : slotOf k n z' = some s) : z = z' := by
  rcases slotOf_cases h with ⟨i, rfl, rfl⟩ | ⟨j, rfl, rfl⟩ | ⟨i, j, rfl, rfl⟩
  all_goals
    rcases slotOf_cases h' with ⟨i', rfl, he⟩ | ⟨j', rfl, he⟩ | ⟨i', j', rfl, he⟩
  · rw [Slot.direct.inj he]
  · exact nomatch he
  · exact nomatch he
  · exact nomatch he
  · rw [Slot.single.inj he]
  · exact nomatch he
  · exact nomatch he
  · exact nomatch he
  · rw [(Slot.double.inj he).1, (Slot.double.inj he).2]

/-- The numbers that have slots. -/
theorem slotOf_isSome {z : Nat} (h : z < k + n + n * n) : ∃ s, slotOf k n z = some s := by
  unfold slotOf
  split
  · exact ⟨_, rfl⟩
  · split
    · exact ⟨_, rfl⟩
    · rw [dif_pos (Nat.div_lt_of_lt_mul (by omega))]
      exact ⟨_, rfl⟩

section Entry

variable {blk : ν → Fin n → ν} {b z : ν} {i j : Fin n} {e : Fin n → ν}

@[simp] theorem entry_zero : entry blk 0 j = 0 := if_pos rfl

theorem entry_of_ne (h : b ≠ 0) : entry blk b j = blk b j := if_neg h

theorem entry_update_ne (h : z ≠ b) : entry (update blk b e) z j = entry blk z j := by
  unfold entry
  rw [update_of_ne h]

theorem entry_update_self (h : b ≠ 0) : entry (update blk b e) b j = e j := by
  rw [entry_of_ne h, update_self]

end Entry

variable {blk : ν → Fin n → ν} {r : Root ν k} {b v : ν} {i j : Fin n}

/-- A store into the root. -/
theorem lookup_setDirect (i : Fin k) (s : Slot k n) :
    lookup blk { r with direct := update r.direct i v } s =
      if s = .direct i then v else lookup blk r s := by
  cases s with
  | direct i' =>
    show update r.direct i v i' = _
    by_cases h : i' = i
    · rw [h, update_self, if_pos rfl]
    · rw [update_of_ne h, if_neg fun he => h (Slot.direct.inj he)]
      rfl
  | single j => rw [if_neg nofun]; rfl
  | double i j => rw [if_neg nofun]; rfl

/-- The block that has the name of a slot among its entries. -/
inductive Leaf (blk : ν → Fin n → ν) (r : Root ν k) : Slot k n → ν → Fin n → Prop
  | single (j : Fin n) : Leaf blk r (.single j) r.single j
  | double (i j : Fin n) : Leaf blk r (.double i j) (entry blk r.double i) j

theorem Leaf.lookup {s : Slot k n} (h : Leaf blk r s b j) : lookup blk r s = entry blk b j := by
  cases h with
  | single j => rfl
  | double i j => rfl

theorem Leaf.isIndex {s : Slot k n} (h : Leaf blk r s b j) (hb : b ≠ 0) : IsIndex blk r b := by
  cases h with
  | single j => exact .single hb
  | double i j => exact .entry i hb

/-- A store into a leaf. -/
theorem lookup_setLeaf {s₀ : Slot k n} (h : Separate blk r) (hl : Leaf blk r s₀ b j) (hb : b ≠ 0)
    (s : Slot k n) :
    lookup (update blk b (update (blk b) j v)) r s = if s = s₀ then v else lookup blk r s := by
  cases hl with
  | single =>
    cases s with
    | direct i => rw [if_neg nofun]; rfl
    | single j' =>
      simp only [lookup]
      rw [entry_update_self hb]
      by_cases hj : j' = j
      · rw [hj, update_self, if_pos rfl]
      · rw [update_of_ne hj, if_neg fun he => hj (Slot.single.inj he), entry_of_ne hb]
    | double i j' =>
      rw [if_neg nofun]
      simp only [lookup]
      rw [entry_update_ne (h.roots hb).symm, entry_update_ne (h.single hb i)]
  | double i =>
    have hd : r.double ≠ 0 := fun h0 => hb (if_pos h0)
    cases s with
    | direct i => rw [if_neg nofun]; rfl
    | single j' =>
      rw [if_neg nofun]
      simp only [lookup]
      by_cases hs : r.single = 0
      · rw [hs, entry_zero, entry_zero]
      · rw [entry_update_ne (h.single hs i).symm]
    | double i' j' =>
      simp only [lookup]
      rw [entry_update_ne (h.double hd i).symm]
      by_cases hi : i' = i
      · rw [hi, entry_update_self hb]
        by_cases hj : j' = j
        · rw [hj, update_self, if_pos rfl]
        · rw [update_of_ne hj, if_neg fun he => hj (Slot.double.inj he).2, entry_of_ne hb]
      · rw [if_neg fun he => hi (Slot.double.inj he).1]
        exact entry_update_ne fun he => hi (h.entries i i' hb he.symm).symm

section Congr

variable {blk' : ν → Fin n → ν} (h : ∀ i, entry blk' r.double i = entry blk r.double i)

include h

/-- Which blocks are index blocks depends on the root and the double block. -/
theorem isIndex_congr : IsIndex blk' r = IsIndex blk r := by
  refine funext fun z => propext ⟨fun hz => ?_, fun hz => ?_⟩
  · cases hz with
    | single hz => exact .single hz
    | double hz => exact .double hz
    | entry i hz =>
      rw [h] at hz ⊢
      exact .entry i hz
  · cases hz with
    | single hz => exact .single hz
    | double hz => exact .double hz
    | entry i hz =>
      rw [← h] at hz ⊢
      exact .entry i hz

theorem Separate.congr (hs : Separate blk r) : Separate blk' r := by
  refine ⟨hs.roots, fun h0 i => ?_, fun h0 i => ?_, fun i i' => ?_⟩
  · rw [h]
    exact hs.single h0 i
  · rw [h]
    exact hs.double h0 i
  · rw [h, h]
    exact hs.entries i i'

end Congr

/-- A store into a leaf leaves the double block alone. -/
theorem Leaf.double_entry {s : Slot k n} {e : Fin n → ν} (h : Separate blk r)
    (hl : Leaf blk r s b j) (hb : b ≠ 0) (i : Fin n) :
    entry (update blk b e) r.double i = entry blk r.double i := by
  by_cases hd : r.double = 0
  · rw [hd, entry_zero, entry_zero]
  · cases hl with
    | single => exact entry_update_ne (h.roots hb).symm
    | double i' => exact entry_update_ne (h.double hd i').symm

/-- A store into a block that is not an index block of the tree. -/
theorem entry_outside {e : Fin n → ν} (hb : ¬IsIndex blk r b) {z : ν}
    (hz : z ≠ 0 → IsIndex blk r z) (j : Fin n) : entry (update blk b e) z j = entry blk z j := by
  by_cases h0 : z = 0
  · rw [h0, entry_zero, entry_zero]
  · exact entry_update_ne fun he => hb (he ▸ hz h0)

theorem lookup_outside {e : Fin n → ν} (hb : ¬IsIndex blk r b) (s : Slot k n) :
    lookup (update blk b e) r s = lookup blk r s := by
  cases s with
  | direct i => rfl
  | single j => exact entry_outside hb .single j
  | double i j =>
    simp only [lookup]
    rw [entry_outside hb .double]
    exact entry_outside hb (.entry i) j

theorem Leaf.outside {z : ν} {e : Fin n → ν} {s : Slot k n} (hl : Leaf blk r s z j)
    (hb : ¬IsIndex blk r b) : Leaf (update blk b e) r s z j := by
  cases hl with
  | single => exact .single j
  | double i =>
    rw [← entry_outside hb .double i]
    exact .double i j

/-- What linking an empty block does: all the names stay, and the block is the only new one. -/
structure Linked (blk : ν → Fin n → ν) (r : Root ν k) (blk' : ν → Fin n → ν) (r' : Root ν k)
    (b : ν) : Prop where
  names : ∀ s, lookup blk' r' s = lookup blk r s
  index : ∀ z, IsIndex blk' r' z → z = b ∨ IsIndex blk r z
  separate : Separate blk' r'

section Link

variable (hb : b ≠ 0) (hout : ¬IsIndex blk r b)

include hb hout

/-- An empty single index block. -/
theorem link_single (h : Separate blk r) (h0 : r.single = 0) :
    Linked blk r (update blk b fun _ => 0) { r with single := b } b := by
  have hd (i : Fin n) : entry (update blk b fun _ => 0) r.double i = entry blk r.double i :=
    entry_outside hout .double i
  have hentry (i : Fin n) : entry blk r.double i ≠ b := fun he => by
    by_cases hz : entry blk r.double i = 0
    · exact hb (he.symm.trans hz)
    · exact hout (he ▸ .entry i hz)
  refine ⟨fun s => ?_, fun z hz => ?_, ?_⟩
  · cases s with
    | direct i => rfl
    | single j =>
      simp only [lookup]
      rw [h0, entry_zero]
      exact entry_update_self hb
    | double i j => exact lookup_outside hout (.double i j)
  · cases hz with
    | single _ => exact Or.inl rfl
    | double hz => exact Or.inr (.double hz)
    | entry i hz =>
      dsimp only at hz ⊢
      rw [hd] at hz ⊢
      exact Or.inr (.entry i hz)
  · refine ⟨fun _ he => ?_, fun _ i => ?_, (h.congr hd).double, (h.congr hd).entries⟩
    · have hdb : b = r.double := he
      exact hout (hdb ▸ .double (hdb ▸ hb))
    · exact (hd i).trans_ne (hentry i)

/-- An empty double index block. -/
theorem link_double (h0 : r.double = 0) :
    Linked blk r (update blk b fun _ => 0) { r with double := b } b := by
  have hd (i : Fin n) : entry (update blk b fun _ => 0) b i = 0 := entry_update_self hb
  refine ⟨fun s => ?_, fun z hz => ?_, ?_⟩
  · cases s with
    | direct i => rfl
    | single j => exact lookup_outside hout (.single j)
    | double i j =>
      simp only [lookup]
      rw [hd, h0, entry_zero, entry_zero, entry_zero]
  · cases hz with
    | single hz => exact Or.inr (.single hz)
    | double _ => exact Or.inl rfl
    | entry i hz => exact absurd (hd i) hz
  · refine ⟨fun hs he => ?_, fun hs i => ?_, fun _ i => ?_, fun i i' hz => ?_⟩
    · have hsb : r.single = b := he
      exact hout (hsb ▸ .single hs)
    · exact (hd i).trans_ne hs.symm
    · exact (hd i).trans_ne hb.symm
    · exact absurd (hd i) hz

/-- An empty index block in the double one. -/
theorem link_entry (h : Separate blk r) (hz : r.double ≠ 0) (h0 : entry blk r.double i = 0) :
    Linked blk r (update (update blk r.double (update (blk r.double) i b)) b fun _ => 0) r b := by
  have hdb : r.double ≠ b := fun he => hout (he ▸ .double hz)
  have hd (i' : Fin n) : entry (update (update blk r.double (update (blk r.double) i b)) b
      fun _ => 0) r.double i' = if i' = i then b else entry blk r.double i' := by
    rw [entry_update_ne hdb, entry_update_self hz]
    by_cases hi : i' = i
    · rw [hi, update_self, if_pos rfl]
    · rw [update_of_ne hi, if_neg hi, entry_of_ne hz]
  have hother {z : ν} (hne : z ≠ b) (hne' : z ≠ r.double) (j : Fin n) :
      entry (update (update blk r.double (update (blk r.double) i b)) b fun _ => 0) z j =
        entry blk z j := by
    rw [entry_update_ne hne, entry_update_ne hne']
  have hentry (i' : Fin n) : entry blk r.double i' ≠ b := fun he => by
    by_cases hz' : entry blk r.double i' = 0
    · exact hb (he.symm.trans hz')
    · exact hout (he ▸ .entry i' hz')
  refine ⟨fun s => ?_, fun z hzi => ?_, ?_⟩
  · cases s with
    | direct i => rfl
    | single j =>
      simp only [lookup]
      by_cases hs : r.single = 0
      · rw [hs, entry_zero, entry_zero]
      · exact hother (fun he => hout (he ▸ .single hs)) (h.roots hs) j
    | double i' j =>
      simp only [lookup]
      rw [hd]
      split
      · rename_i hi
        rw [hi, h0, entry_update_self hb, entry_zero]
      · exact hother (hentry i') (h.double hz i') j
  · cases hzi with
    | single hs => exact Or.inr (.single hs)
    | double hs => exact Or.inr (.double hs)
    | entry i' hs =>
      rw [hd] at hs ⊢
      split
      · exact Or.inl rfl
      · rename_i hi
        rw [if_neg hi] at hs
        exact Or.inr (.entry i' hs)
  · refine ⟨h.roots, fun hs i' => ?_, fun _ i' => ?_, fun i₁ i₂ => ?_⟩
    · rw [hd]
      split
      · exact fun he => hout (he ▸ .single hs)
      · exact h.single hs i'
    · rw [hd]
      split
      · exact hdb.symm
      · exact h.double hz i'
    · rw [hd, hd]
      intro hne he
      split at he
      · rename_i h₁
        split at he
        · rename_i h₂
          exact h₁.trans h₂.symm
        · exact absurd he.symm (hentry i₂)
      · rename_i h₁
        rw [if_neg h₁] at hne
        split at he
        · exact absurd he (hentry i₁)
        · exact h.entries i₁ i₂ hne he

end Link

/-- The names that occur in a tree. -/
def Uses (blk : ν → Fin n → ν) (r : Root ν k) (z : ν) : Prop :=
  IsIndex blk r z ∨ z ≠ 0 ∧ ∃ s, lookup blk r s = z

/-- Nothing is linked twice. -/
structure Proper (blk : ν → Fin n → ν) (r : Root ν k) : Prop where
  separate : Separate blk r
  apart : ∀ s, lookup blk r s ≠ 0 → ¬IsIndex blk r (lookup blk r s)
  inj : ∀ s s', lookup blk r s ≠ 0 → lookup blk r s = lookup blk r s' → s = s'

/-- What a store into a slot does: it changes that name alone. -/
structure Stored (blk : ν → Fin n → ν) (r : Root ν k) (blk' : ν → Fin n → ν) (r' : Root ν k)
    (s₀ : Slot k n) (v : ν) : Prop where
  names : ∀ s, lookup blk' r' s = if s = s₀ then v else lookup blk r s
  index : ∀ z, IsIndex blk' r' z ↔ IsIndex blk r z
  separate : Separate blk' r'

section Uses

variable {blk' : ν → Fin n → ν} {r' : Root ν k} {s₀ : Slot k n}

theorem IsIndex.ne_zero {z : ν} (h : IsIndex blk r z) : z ≠ 0 := by
  cases h <;> assumption

theorem Uses.ne_zero {z : ν} (h : Uses blk r z) : z ≠ 0 := h.elim IsIndex.ne_zero And.left

theorem uses_lookup {s : Slot k n} (h : lookup blk r s ≠ 0) : Uses blk r (lookup blk r s) :=
  Or.inr ⟨h, s, rfl⟩

/-- The root is all that a tree without index blocks has. -/
theorem lookup_of_roots (hs : r.single = 0) (hd : r.double = 0) {s : Slot k n}
    (h : lookup blk r s ≠ 0) : ∃ i, s = .direct i ∧ lookup blk r s = r.direct i := by
  cases s with
  | direct i => exact ⟨i, rfl, rfl⟩
  | single j =>
    refine absurd ?_ h
    simp only [lookup]
    rw [hs, entry_zero]
  | double i j =>
    refine absurd ?_ h
    simp only [lookup]
    rw [hd, entry_zero, entry_zero]

theorem not_isIndex_of_roots (hs : r.single = 0) (hd : r.double = 0) (z : ν) :
    ¬IsIndex blk r z := by
  intro h
  cases h with
  | single h => exact h hs
  | double h => exact h hd
  | entry i h => exact h (by rw [hd, entry_zero])

theorem proper_of_roots (hs : r.single = 0) (hd : r.double = 0)
    (hinj : ∀ i i', r.direct i ≠ 0 → r.direct i = r.direct i' → i = i') : Proper blk r where
  separate := ⟨fun h => absurd hs h, fun h => absurd hs h, fun h => absurd hd h,
    fun i _ h => absurd (by rw [hd, entry_zero]) h⟩
  apart _ _ := not_isIndex_of_roots hs hd _
  inj s s' h he := by
    obtain ⟨i, rfl, hi⟩ := lookup_of_roots hs hd h
    obtain ⟨i', rfl, hi'⟩ := lookup_of_roots hs hd (he ▸ h)
    rw [hi] at h
    exact congrArg _ (hinj i i' h (hi.symm.trans (he.trans hi')))

namespace Linked

theorem uses (h : Linked blk r blk' r' b) {z : ν} (hz : Uses blk' r' z) : z = b ∨ Uses blk r z := by
  rcases hz with hz | ⟨hz, s, hs⟩
  · exact (h.index z hz).imp_right Or.inl
  · exact Or.inr (Or.inr ⟨hz, s, (h.names s).symm.trans hs⟩)

theorem proper (h : Linked blk r blk' r' b) (hp : Proper blk r) (hb : ¬Uses blk r b) :
    Proper blk' r' where
  separate := h.separate
  apart s hs hi := by
    rw [h.names] at hs hi
    rcases h.index _ hi with he | hi
    · exact hb (he ▸ uses_lookup hs)
    · exact hp.apart s hs hi
  inj s s' hs he := by
    rw [h.names] at hs he
    rw [h.names] at he
    exact hp.inj s s' hs he

end Linked

/-- A store into a leaf. -/
theorem stored_leaf (h : Separate blk r) (hl : Leaf blk r s₀ b j) (hb : b ≠ 0) :
    Stored blk r (update blk b (update (blk b) j v)) r s₀ v where
  names := lookup_setLeaf h hl hb
  index z := iff_of_eq (congrFun (isIndex_congr (hl.double_entry h hb)) z)
  separate := h.congr (hl.double_entry h hb)

/-- A store into the root. -/
theorem stored_direct (h : Separate blk r) (i : Fin k) :
    Stored blk r blk { r with direct := update r.direct i v } (.direct i) v where
  names := lookup_setDirect i
  index z := by
    constructor
    · intro hz
      cases hz with
      | single hz => exact .single hz
      | double hz => exact .double hz
      | entry i hz => exact .entry i hz
    · intro hz
      cases hz with
      | single hz => exact .single (r := { r with direct := _ }) hz
      | double hz => exact .double (r := { r with direct := _ }) hz
      | entry i hz => exact .entry (r := { r with direct := _ }) i hz
  separate := ⟨h.roots, h.single, h.double, h.entries⟩

namespace Stored

theorem uses (h : Stored blk r blk' r' s₀ v) {z : ν} (hz : Uses blk' r' z) :
    z = v ∨ Uses blk r z := by
  rcases hz with hz | ⟨hz, s, hs⟩
  · exact Or.inr (Or.inl ((h.index z).mp hz))
  · rw [h.names] at hs
    split at hs
    · exact Or.inl hs.symm
    · exact Or.inr (Or.inr ⟨hz, s, hs⟩)

theorem proper (h : Stored blk r blk' r' s₀ v) (hp : Proper blk r) (hv : ¬Uses blk r v) :
    Proper blk' r' where
  separate := h.separate
  apart s hs hi := by
    rw [h.index] at hi
    rw [h.names] at hs hi
    split at hs
    · rename_i he
      rw [if_pos he] at hi
      exact hv (Or.inl hi)
    · rename_i he
      rw [if_neg he] at hi
      exact hp.apart s hs hi
  inj s s' hs he := by
    rw [h.names] at hs he
    rw [h.names] at he
    split at hs
    · rename_i hs₀
      rw [if_pos hs₀] at he
      split at he
      · rename_i hs₁
        exact hs₀.trans hs₁.symm
      · exact absurd (Or.inr ⟨hs, s', he.symm⟩) hv
    · rename_i hs₀
      rw [if_neg hs₀] at he
      split at he
      · exact absurd (Or.inr ⟨he ▸ hs, s, he⟩) hv
      · exact hp.inj s s' hs he

end Stored

/-- A store into a block that is not an index block of the tree. -/
theorem Proper.outside (hp : Proper blk r) {e : Fin n → ν} (hb : ¬IsIndex blk r b) :
    Proper (update blk b e) r where
  separate := hp.separate.congr (entry_outside hb .double)
  apart s := by
    rw [lookup_outside hb, isIndex_congr (entry_outside hb .double)]
    exact hp.apart s
  inj s s' := by
    rw [lookup_outside hb, lookup_outside hb]
    exact hp.inj s s'

theorem uses_outside {e : Fin n → ν} (hb : ¬IsIndex blk r b) :
    Uses (update blk b e) r = Uses blk r := by
  unfold Uses
  simp only [lookup_outside hb, isIndex_congr (entry_outside hb .double)]

/-- What is in a tree depends on its index blocks. -/
theorem lookup_congr (h : ∀ z, IsIndex blk r z → blk' z = blk z) (s : Slot k n) :
    lookup blk' r s = lookup blk r s := by
  have hentry {z : ν} (hz : z ≠ 0 → IsIndex blk r z) (j : Fin n) :
      entry blk' z j = entry blk z j := by
    by_cases h0 : z = 0
    · rw [h0, entry_zero, entry_zero]
    · rw [entry_of_ne h0, entry_of_ne h0, h z (hz h0)]
  cases s with
  | direct i => rfl
  | single j => exact hentry .single j
  | double i j =>
    simp only [lookup]
    rw [hentry .double i]
    exact hentry (.entry i) j

end Uses

end IndexTree
