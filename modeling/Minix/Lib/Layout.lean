import Mathlib.Data.List.Basic
import Mathlib.Logic.Function.Basic
import Minix.Lib.Literals

/-!
# Bytes in a buffer

A buffer has a number of bytes, and a store outside of them is an error. Lists of bytes are laid
out in it one after the other, words with the low-order byte first.
-/

namespace Layout

open Function

variable {N : Nat}

/-- The byte at an offset, if it is in the buffer. -/
def byteAt (b : Fin N → UInt8) (i : Nat) : Option UInt8 :=
  if h : i < N then some (b ⟨i, h⟩) else none

/-- Store a byte. -/
def put (b : Fin N → UInt8) (i : Nat) (x : UInt8) : Option (Fin N → UInt8) :=
  if h : i < N then some (update b ⟨i, h⟩ x) else none

/-- A list of bytes lies at an offset. -/
def Holds (b : Fin N → UInt8) (i : Nat) (l : List UInt8) : Prop :=
  ∀ j < l.length, byteAt b (i + j) = l[j]?

/-- Two buffers are the same but for the bytes from `i` to `k`. -/
def SameOutside (i k : Nat) (b b' : Fin N → UInt8) : Prop :=
  ∀ j, j < i ∨ k ≤ j → byteAt b' j = byteAt b j

/-- The bytes of a word. -/
def wordBytes (w : Nat) : List UInt8 := [.ofNat (w % 256), .ofNat (w / 256 % 256)]

/-- Store a word. -/
def putWord (b : Fin N → UInt8) (i w : Nat) : Option (Fin N → UInt8) :=
  (put b i (.ofNat (w % 256))).bind fun b => put b (i + 1) (.ofNat (w / 256 % 256))

/-- The word at an offset. -/
def wordAt (b : Fin N → UInt8) (i : Nat) : Option Nat :=
  match byteAt b i, byteAt b (i + 1) with
  | some lo, some hi => some (lo.toNat + 256 * hi.toNat)
  | _, _ => none

variable {b b' b'' : Fin N → UInt8} {i j k w : Nat} {x : UInt8} {l l' : List UInt8}

theorem byteAt_isSome : (byteAt b i).isSome ↔ i < N := by
  unfold byteAt
  split
  · exact iff_of_true rfl ‹_›
  · exact iff_of_false (fun h => by cases h) ‹_›

theorem put_isSome : (put b i x).isSome ↔ i < N := by
  unfold put
  split
  · exact iff_of_true rfl ‹_›
  · exact iff_of_false (fun h => by cases h) ‹_›

theorem byteAt_put (h : put b i x = some b') (j : Nat) :
    byteAt b' j = if j = i then some x else byteAt b j := by
  unfold put at h
  split at h
  · rename_i hi
    obtain rfl := Option.some.inj h
    unfold byteAt
    by_cases hj : j = i
    · subst hj
      rw [dif_pos hi, if_pos rfl, update_self]
    · rw [if_neg hj]
      split
      · rw [update_of_ne fun he => hj (Fin.ext_iff.mp he)]
      · rfl
  · cases h

/-! ## Lists of bytes -/

@[simp] theorem Holds.nil : Holds b i [] := fun _ h => absurd h (Nat.not_lt_zero _)

theorem Holds.append : Holds b i (l ++ l') ↔ Holds b i l ∧ Holds b (i + l.length) l' := by
  constructor
  · intro h
    refine ⟨fun j hj => ?_, fun j hj => ?_⟩
    · rw [h j (by rw [List.length_append]; omega), List.getElem?_append_left hj]
    · rw [Nat.add_assoc, h (l.length + j) (by rw [List.length_append]; omega),
        List.getElem?_append_right (Nat.le_add_right _ _), Nat.add_sub_cancel_left]
  · rintro ⟨h, h'⟩ j hj
    by_cases hlt : j < l.length
    · rw [h j hlt, List.getElem?_append_left hlt]
    · have hj' : j - l.length < l'.length := by
        rw [List.length_append] at hj
        omega
      rw [List.getElem?_append_right (Nat.not_lt.mp hlt), ← h' _ hj']
      congr 1
      omega

theorem Holds.cons : Holds b i (x :: l) ↔ byteAt b i = some x ∧ Holds b (i + 1) l := by
  have h : Holds b i [x] ↔ byteAt b i = some x := by
    constructor
    · exact fun h => h 0 Nat.zero_lt_one
    · intro h j hj
      obtain rfl := Nat.lt_one_iff.mp hj
      exact h
  rw [← List.singleton_append, Holds.append, h]
  rfl

/-- A list that lies in a buffer fits in it. -/
theorem Holds.fits (h : Holds b i l) (hl : l ≠ []) : i + l.length ≤ N := by
  have hpos := List.length_pos_iff.mpr hl
  have hlast := h (l.length - 1) (by omega)
  rw [List.getElem?_eq_getElem (by omega)] at hlast
  have hin := byteAt_isSome.mp (Option.isSome_of_eq_some hlast)
  omega

theorem Holds.congr (h : Holds b i l)
    (hs : ∀ j, i ≤ j → j < i + l.length → byteAt b' j = byteAt b j) : Holds b' i l := by
  intro j hj
  rw [hs _ (Nat.le_add_right _ _) (by omega), h j hj]

theorem Holds.outside (h : Holds b i l) (hs : SameOutside j k b b')
    (hd : i + l.length ≤ j ∨ k ≤ i) : Holds b' i l :=
  h.congr fun _ hlo hhi => hs _ (by omega)

/-! ## What stores leave alone -/

theorem SameOutside.refl (b : Fin N → UInt8) : SameOutside i k b b := fun _ _ => rfl

theorem SameOutside.trans (h : SameOutside i k b b') (h' : SameOutside i k b' b'') :
    SameOutside i k b b'' := fun j hj => (h' j hj).trans (h j hj)

theorem SameOutside.mono {i' k' : Nat} (h : SameOutside i k b b') (hi : i' ≤ i) (hk : k ≤ k') :
    SameOutside i' k' b b' := fun j hj => h j (by omega)

theorem put_same (h : put b i x = some b') : SameOutside i (i + 1) b b' := fun j hj => by
  rw [byteAt_put h, if_neg (by omega)]

/-! ## Words -/

theorem putWord_isSome : (putWord b i w).isSome ↔ i + 1 < N := by
  unfold putWord
  constructor
  · intro h
    obtain ⟨b', h'⟩ := Option.isSome_iff_exists.mp h
    obtain ⟨b₁, -, h₁⟩ := Option.bind_eq_some_iff.mp h'
    exact put_isSome.mp (Option.isSome_of_eq_some h₁)
  · intro h
    obtain ⟨b₁, h₁⟩ := Option.isSome_iff_exists.mp
      ((put_isSome (b := b) (x := .ofNat (w % 256))).mpr (Nat.lt_of_succ_lt h))
    rw [h₁]
    exact put_isSome.mpr h

theorem putWord_holds (h : putWord b i w = some b') :
    Holds b' i (wordBytes w) ∧ SameOutside i (i + 2) b b' := by
  obtain ⟨b₁, h₀, h₁⟩ := Option.bind_eq_some_iff.mp h
  refine ⟨Holds.cons.mpr ⟨?_, Holds.cons.mpr ⟨?_, Holds.nil⟩⟩, ?_⟩
  · rw [byteAt_put h₁, if_neg (by omega), byteAt_put h₀, if_pos rfl]
  · rw [byteAt_put h₁, if_pos rfl]
  · exact ((put_same h₀).mono (Nat.le_refl i) (by omega)).trans
      ((put_same h₁).mono (by omega) (by omega))

theorem wordAt_holds (h : Holds b i (wordBytes w)) (hw : w < 65536) : wordAt b i = some w := by
  obtain ⟨hlo, hrest⟩ := Holds.cons.mp h
  obtain ⟨hhi, -⟩ := Holds.cons.mp hrest
  unfold wordAt
  rw [hlo, hhi]
  simp only [UInt8.toNat_ofNat']
  congr 1
  omega

theorem exists_wordAt (h : i + 1 < N) : ∃ w, wordAt b i = some w := by
  obtain ⟨lo, hlo⟩ := Option.isSome_iff_exists.mp
    ((byteAt_isSome (b := b)).mpr (Nat.lt_of_succ_lt h))
  obtain ⟨hi, hhi⟩ := Option.isSome_iff_exists.mp ((byteAt_isSome (b := b)).mpr h)
  unfold wordAt
  rw [hlo, hhi]
  exact ⟨_, rfl⟩

end Layout
