import Mathlib.Data.Nat.Digits.Lemmas
import Minix.Lib.Literals

/-!
# Numbers in `_doprintf`

The number conversions of `_doprintf` fetch a long, and `_bintoascii` turns it into a string. The
digits are found in a buffer, lowest first, and turned into characters there.

A long has 32 bits, an int 16, and a char 8; all of them are signed.
-/

namespace Minix.Libc

/-- The size of the digit buffer. -/
abbrev MAXDIGITS : Nat := 12

/-- The characters that `_bintoascii` stores. -/
abbrev BLANK : BitVec 8 := 32
/-- The minus sign. -/
abbrev MINUS : BitVec 8 := 45
/-- The digit 0. -/
abbrev ZERO : BitVec 8 := 48
/-- The letter A. -/
abbrev LETTER_A : BitVec 8 := 65

/-- The conversions of numbers. -/
inductive Conv
  | d
  | u
  | o
  | x
  | D
  | O
  | X
  deriving DecidableEq

/-- `r`, for each of them. -/
def Conv.radix : Conv → Nat
  | .d | .u | .D => 10
  | .o | .O => 8
  | .x | .X => 16

/-- `(long) GET_ARG(vl, int)`. -/
def intArg (arg : BitVec 32) : BitVec 32 := (arg.setWidth 16).signExtend 32

/-- `l`, for each of them, with the bytes that the argument list has next. -/
def Conv.fetch : Conv → BitVec 32 → BitVec 32
  | .d, arg => intArg arg
  | .u, arg => intArg arg &&& 0xFFFF
  | .o, arg | .x, arg => if (intArg arg).slt 0 then intArg arg &&& 0xFFFF else intArg arg
  | .D, arg | .O, arg | .X, arg => arg

/-- A digit, and the number that is left. -/
def digitStep (radix : Nat) (num : BitVec 32) : BitVec 8 × BitVec 32 :=
  if radix = 10 then
    let b := (num.srem 10).setWidth 8
    (b, (num - b.signExtend 32).sdiv 10)
  else if radix = 8 then ((num &&& 0x7).setWidth 8, num.sshiftRight 3 &&& 0x1FFFFFFF)
  else if radix = 16 then ((num &&& 0xF).setWidth 8, num.sshiftRight 4 &&& 0x0FFFFFFF)
  else (0, num)

/-- The digits from `b[n]` on. The fuel runs out unless the loop ends. -/
def digitLoop (radix : Nat) : Nat → BitVec 32 → Option (List (BitVec 8))
  | 0, _ => none
  | fuel + 1, num =>
    let (b, num) := digitStep radix num
    if num ≠ 0 then (digitLoop radix fuel num).map (b :: ·) else some [b]

/-- Convert to ASCII, highest digit first. -/
def convertLoop : Nat → List (BitVec 8) → List (BitVec 8)
  | _, [] => []
  | hit, b :: bs =>
    if b = 0 ∧ hit = 0 then BLANK :: convertLoop hit bs
    else (if b.slt 10 then b + ZERO else b + (LETTER_A - 10)) :: convertLoop (hit + 1) bs

/-- The string that is stored for a number, without the NUL. -/
def bintoascii (fuel : Nat) (num : BitVec 32) (radix : Nat) : Option (List (BitVec 8)) :=
  if num = 0 then some [ZERO]
  else
    let negative := radix = 10 ∧ num.slt 0
    let num := if negative then -num else num
    (digitLoop radix fuel num).map fun b =>
      (if negative then [MINUS] else []) ++ convertLoop 0 b.reverse

/-! ## What is to be printed -/

/-- The character for a digit. -/
def digitCode (d : Nat) : BitVec 8 := if d < 10 then BitVec.ofNat 8 d + ZERO
  else BitVec.ofNat 8 d + (LETTER_A - 10)

/-- A number in a radix. -/
def numeral (radix n : Nat) : List (BitVec 8) :=
  if n = 0 then [ZERO] else (Nat.digits radix n).reverse.map digitCode

/-- A long in a radix: signed for decimal, unsigned otherwise. -/
def signed (radix : Nat) (num : BitVec 32) : List (BitVec 8) :=
  if radix = 10 then (if num.toInt < 0 then [MINUS] else []) ++ numeral 10 num.toInt.natAbs
  else numeral radix num.toNat

/-- The string fits with its NUL, and is the number but for blanks. -/
def Formats (num : BitVec 32) (radix : Nat) : Prop :=
  ∃ N s, (∀ fuel, N ≤ fuel → bintoascii fuel num radix = some s) ∧ s.length + 1 ≤ MAXDIGITS ∧
    s.filter (· ≠ BLANK) = signed radix num

/-- The radices there are. -/
def IsRadix (radix : Nat) : Prop := radix = 10 ∨ radix = 8 ∨ radix = 16

/-- The conversions use the radices 8, 10 and 16. -/
theorem Conv.isRadix (c : Conv) : IsRadix c.radix := by
  cases c
  case d | u | D => exact Or.inl rfl
  case o | O => exact Or.inr (Or.inl rfl)
  case x | X => exact Or.inr (Or.inr rfl)

variable {num : BitVec 32} {radix : Nat}

/-! ## Digits -/

/-- A long below 2^31 is not negative. -/
theorem lt_of_msb (h : num.toNat < 2147483648) : num.msb = false :=
  BitVec.msb_eq_false_iff_two_mul_lt.mpr (by omega)

/-- One step of the loop in decimal. -/
theorem digitStep_ten (h : num.toNat < 2147483648) :
    (digitStep 10 num).1 = BitVec.ofNat 8 (num.toNat % 10) ∧
      (digitStep 10 num).2.toNat = num.toNat / 10 := by
  have hrem : num.srem 10 = BitVec.ofNat 32 (num.toNat % 10) := by
    rw [BitVec.srem_eq, lt_of_msb h]
    apply BitVec.eq_of_toNat_eq
    rw [BitVec.toNat_ofNat]
    exact (Nat.mod_eq_of_lt (by omega)).symm
  have hdigit : (num.srem 10).setWidth 8 = BitVec.ofNat 8 (num.toNat % 10) := by
    rw [hrem]
    apply BitVec.eq_of_toNat_eq
    rw [BitVec.toNat_setWidth, BitVec.toNat_ofNat, BitVec.toNat_ofNat]
    omega
  have hwide : ((BitVec.ofNat 8 (num.toNat % 10)).signExtend 32).toNat = num.toNat % 10 := by
    have hmsb : (BitVec.ofNat 8 (num.toNat % 10)).msb = false :=
      BitVec.msb_eq_false_iff_two_mul_lt.mpr (by rw [BitVec.toNat_ofNat]; omega)
    rw [BitVec.signExtend_eq_setWidth_of_msb_false hmsb, BitVec.toNat_setWidth, BitVec.toNat_ofNat]
    omega
  have hsub : (num - (BitVec.ofNat 8 (num.toNat % 10)).signExtend 32).toNat =
      num.toNat - num.toNat % 10 := by
    rw [BitVec.toNat_sub, hwide]
    omega
  refine ⟨hdigit, ?_⟩
  change ((num - ((num.srem 10).setWidth 8).signExtend 32).sdiv 10).toNat = _
  rw [hdigit, BitVec.sdiv_eq, lt_of_msb (by omega)]
  change (_ / (10 : BitVec 32)).toNat = _
  rw [BitVec.toNat_udiv, hsub]
  change (num.toNat - num.toNat % 10) / 10 = _
  omega

/-- The mask makes a shift to the right one that is filled with zeros. -/
theorem sshiftRight_mask {k mask : Nat} (hmask : mask = 2 ^ (32 - k) - 1) :
    (num.sshiftRight k &&& BitVec.ofNat 32 mask).toNat = num.toNat / 2 ^ k := by
  have hshift : num.sshiftRight k &&& BitVec.ofNat 32 mask = num >>> k := by
    apply BitVec.eq_of_getLsbD_eq
    intro i hi
    rw [hmask, BitVec.getLsbD_and, BitVec.getLsbD_sshiftRight, BitVec.getLsbD_ofNat,
      Nat.testBit_two_pow_sub_one, BitVec.getLsbD_ushiftRight]
    by_cases hki : k + i < 32
    · have hik : i < 32 - k := by omega
      simp [hi, hki, hik]
    · have hik : ¬i < 32 - k := by omega
      simp [hik, BitVec.getLsbD_of_ge num (k + i) (by omega)]
  rw [hshift, BitVec.toNat_ushiftRight, Nat.shiftRight_eq_div_pow]

/-- The low bits of a long. -/
theorem and_mask {k mask : Nat} (hk : k ≤ 8) (hmask : mask = 2 ^ k - 1) :
    (num &&& BitVec.ofNat 32 mask).setWidth 8 = BitVec.ofNat 8 (num.toNat % 2 ^ k) := by
  have hle : 2 ^ k ≤ 2 ^ 8 := Nat.pow_le_pow_right (by decide) hk
  have hlt : mask < 2 ^ 32 := by omega
  apply BitVec.eq_of_toNat_eq
  rw [BitVec.toNat_setWidth, BitVec.toNat_and, BitVec.toNat_ofNat, BitVec.toNat_ofNat,
    Nat.mod_eq_of_lt hlt, hmask, Nat.and_two_pow_sub_one_eq_mod]

/-- One step in octal. -/
theorem digitStep_eight : (digitStep 8 num).1 = BitVec.ofNat 8 (num.toNat % 8) ∧
    (digitStep 8 num).2.toNat = num.toNat / 8 := by
  have hdigit : (num &&& 7).setWidth 8 = BitVec.ofNat 8 (num.toNat % 2 ^ 3) :=
    and_mask (by decide) rfl
  have hrest : (num.sshiftRight 3 &&& 0x1FFFFFFF).toNat = num.toNat / 2 ^ 3 :=
    sshiftRight_mask rfl
  exact ⟨hdigit, hrest⟩

/-- One step in hexadecimal. -/
theorem digitStep_sixteen : (digitStep 16 num).1 = BitVec.ofNat 8 (num.toNat % 16) ∧
    (digitStep 16 num).2.toNat = num.toNat / 16 := by
  have hdigit : (num &&& 0xF).setWidth 8 = BitVec.ofNat 8 (num.toNat % 2 ^ 4) :=
    and_mask (by decide) rfl
  have hrest : (num.sshiftRight 4 &&& 0x0FFFFFFF).toNat = num.toNat / 2 ^ 4 :=
    sshiftRight_mask rfl
  exact ⟨hdigit, hrest⟩

/-- One digit, of a number that is not negative when it is printed in decimal. -/
theorem digitStep_spec (hr : IsRadix radix) (h : radix = 10 → num.toNat < 2147483648) :
    (digitStep radix num).1 = BitVec.ofNat 8 (num.toNat % radix) ∧
      (digitStep radix num).2.toNat = num.toNat / radix := by
  rcases hr with rfl | rfl | rfl
  · exact digitStep_ten (h rfl)
  · exact digitStep_eight
  · exact digitStep_sixteen

/-- The radices lie between 2 and 16. -/
theorem IsRadix.bounds (hr : IsRadix radix) : 2 ≤ radix ∧ radix ≤ 16 := by
  rcases hr with rfl | rfl | rfl <;> decide

/-- One round of the loop, and the rest of it. -/
theorem digitLoop_succ (fuel : Nat) : digitLoop radix (fuel + 1) num =
    if (digitStep radix num).2 ≠ 0 then
      (digitLoop radix fuel (digitStep radix num).2).map ((digitStep radix num).1 :: ·)
    else some [(digitStep radix num).1] := rfl

/-- The loop finds the digits, and ends with them. -/
theorem digitLoop_spec (hr : IsRadix radix) (k : Nat) (hne : num ≠ 0)
    (h : radix = 10 → num.toNat < 2147483648) (hlt : num.toNat < radix ^ (k + 1)) (m : Nat) :
    digitLoop radix (m + (k + 1)) num =
      some ((Nat.digits radix num.toNat).map (BitVec.ofNat 8)) := by
  obtain ⟨hlo, hhi⟩ := hr.bounds
  induction k generalizing num with
  | zero =>
    have hpos : 0 < num.toNat := Nat.pos_of_ne_zero fun hz => hne (BitVec.eq_of_toNat_eq hz)
    obtain ⟨hd, hrest⟩ := digitStep_spec hr h
    rw [zero_add, pow_one] at hlt
    rw [Nat.div_eq_of_lt hlt] at hrest
    rw [Nat.mod_eq_of_lt hlt] at hd
    rw [zero_add, digitLoop_succ, if_neg (not_not.mpr (BitVec.eq_of_toNat_eq hrest)),
      Nat.digits_of_lt radix _ hpos.ne' hlt, hd]
    rfl
  | succ k ih =>
    have hpos : 0 < num.toNat := Nat.pos_of_ne_zero fun hz => hne (BitVec.eq_of_toNat_eq hz)
    obtain ⟨hd, hrest⟩ := digitStep_spec hr h
    rw [← Nat.add_assoc, digitLoop_succ, Nat.digits_def' hlo hpos, List.map_cons, ← hd, ← hrest]
    by_cases hz : (digitStep radix num).2 = 0
    · have hend : (0 : BitVec 32).toNat = 0 := rfl
      rw [if_neg (not_not.mpr hz), hz, hend, Nat.digits_zero, List.map_nil]
    · have hle : num.toNat / radix ≤ num.toNat := Nat.div_le_self _ _
      have hlt' : (digitStep radix num).2.toNat < radix ^ (k + 1) := by
        rw [hrest]
        exact Nat.div_lt_of_lt_mul (by rwa [← pow_succ'])
      rw [if_pos hz, ih hz (fun he => hrest ▸ hle.trans_lt (h he)) hlt']
      rfl

/-! ## Characters -/

/-- Digits are turned into their characters. -/
theorem convertLoop_hit {ds : List Nat} (hds : ∀ d ∈ ds, d < 16) (hit : Nat) :
    convertLoop (hit + 1) (ds.map (BitVec.ofNat 8)) = ds.map digitCode := by
  induction ds generalizing hit with
  | nil => rfl
  | cons d ds ih =>
    have hd : d < 16 := hds d List.mem_cons_self
    have hcode : (if (BitVec.ofNat 8 d).slt 10 then BitVec.ofNat 8 d + ZERO
        else BitVec.ofNat 8 d + (LETTER_A - 10)) = digitCode d := by
      unfold digitCode
      interval_cases d <;> rfl
    rw [List.map_cons, convertLoop, if_neg (fun h => Nat.succ_ne_zero _ h.2), hcode,
      ih fun d hd => hds d (List.mem_cons_of_mem _ hd)]
    rfl

/-- There is no zero in front of a number. -/
theorem convertLoop_digits (hr : IsRadix radix) {n : Nat} (hn : n ≠ 0) :
    convertLoop 0 ((Nat.digits radix n).map (BitVec.ofNat 8)).reverse = numeral radix n := by
  obtain ⟨hlo, hhi⟩ := hr.bounds
  have hlt : ∀ d ∈ (Nat.digits radix n).reverse, d < 16 := fun d hd =>
    (Nat.digits_lt_base hlo (List.mem_reverse.mp hd)).trans_le hhi
  have hnil : (Nat.digits radix n).reverse ≠ [] :=
    fun h => Nat.digits_ne_nil_iff_ne_zero.mpr hn (List.reverse_eq_nil_iff.mp h)
  have hhead : (Nat.digits radix n).reverse.head hnil ≠ 0 := by
    rw [List.head_reverse]
    exact Nat.getLast_digit_ne_zero radix hn
  unfold numeral
  rw [if_neg hn, ← List.map_reverse]
  generalize (Nat.digits radix n).reverse = ds at hlt hnil hhead
  cases ds with
  | nil => exact absurd rfl hnil
  | cons d ds =>
    have hd : d < 16 := hlt d List.mem_cons_self
    have hne : BitVec.ofNat 8 d ≠ 0 := fun h => hhead (by
      have := congrArg BitVec.toNat h
      rw [BitVec.toNat_ofNat, Nat.mod_eq_of_lt (by omega)] at this
      exact this)
    have hstep (hit : Nat) : convertLoop hit ((d :: ds).map (BitVec.ofNat 8)) =
        (if (BitVec.ofNat 8 d).slt 10 then BitVec.ofNat 8 d + ZERO
          else BitVec.ofNat 8 d + (LETTER_A - 10)) ::
          convertLoop (hit + 1) (ds.map (BitVec.ofNat 8)) := if_neg fun h => hne h.1
    have hrest : ∀ d ∈ ds, d < 16 := fun d hd => hlt d (List.mem_cons_of_mem _ hd)
    -- the highest digit counts as hit
    rw [← convertLoop_hit hlt 0, hstep, hstep, convertLoop_hit hrest, convertLoop_hit hrest]

/-- No character of a number is a blank. -/
theorem digitCode_ne_blank {d : Nat} (h : d < 16) : digitCode d ≠ BLANK := by
  unfold digitCode
  interval_cases d <;> decide

/-- A numeral contains no blank. -/
theorem numeral_filter (hr : IsRadix radix) (n : Nat) :
    (numeral radix n).filter (· ≠ BLANK) = numeral radix n := by
  refine List.filter_eq_self.mpr fun c hc => ?_
  unfold numeral at hc
  split at hc
  · rw [List.mem_singleton.mp hc]
    rfl
  · obtain ⟨d, hd, rfl⟩ := List.mem_map.mp hc
    have hlt := (Nat.digits_lt_base hr.bounds.1 (List.mem_reverse.mp hd)).trans_le hr.bounds.2
    exact decide_eq_true (digitCode_ne_blank hlt)

/-- The length of a numeral is bounded by its number. -/
theorem numeral_length (hr : IsRadix radix) {n k : Nat} (hk : 0 < k) (h : n < radix ^ k) :
    (numeral radix n).length ≤ k := by
  unfold numeral
  split
  · exact hk
  · rw [List.length_map, List.length_reverse]
    exact (Nat.digits_length_le_iff hr.bounds.1 n).mpr h

/-! ## Strings -/

/-- `_bintoascii` of a number that is not 0. -/
theorem bintoascii_eq {n : BitVec 32} {k : Nat} (hr : IsRadix radix) (hne : num ≠ 0)
    (hn : (if radix = 10 ∧ num.slt 0 then -num else num) = n) (hnz : n ≠ 0)
    (h : radix = 10 → n.toNat < 2147483648) (hlt : n.toNat < radix ^ (k + 1)) (m : Nat) :
    bintoascii (m + (k + 1)) num radix =
      some ((if radix = 10 ∧ num.slt 0 then [MINUS] else []) ++ numeral radix n.toNat) := by
  have hz : n.toNat ≠ 0 := fun he => hnz (BitVec.eq_of_toNat_eq he)
  unfold bintoascii
  rw [if_neg hne]
  dsimp only
  rw [hn, digitLoop_spec hr k hnz h hlt m, Option.map_some, convertLoop_digits hr hz]

/-- What the code does with a negative number: it negates it. -/
theorem toNat_neg_of_slt (h : num.slt 0) (hmin : num ≠ BitVec.intMin 32) :
    (-num).toNat < 2147483648 ∧ (-num).toNat = num.toInt.natAbs ∧ -num ≠ 0 ∧ num.toInt < 0 := by
  have hneg : num.toInt < 0 := by
    rw [BitVec.slt_iff_toInt_lt] at h
    exact h
  have hge : 2147483648 ≤ num.toNat := by
    rw [BitVec.toInt_neg_iff] at hneg
    omega
  have hne : num.toNat ≠ 2147483648 := fun he => hmin (BitVec.eq_of_toNat_eq he)
  have hlt := num.isLt
  have hto : (-num).toNat = 4294967296 - num.toNat := by
    rw [BitVec.toNat_neg]
    omega
  have habs : num.toInt = num.toNat - 4294967296 := by
    rw [BitVec.toInt_eq_toNat_cond]
    split <;> omega
  refine ⟨by omega, by omega, fun hz => ?_, hneg⟩
  rw [hz] at hto
  have hzero : (0 : BitVec 32).toNat = 0 := rfl
  omega

/-- A number that is not negative stands for itself. -/
theorem toInt_of_not_slt (h : ¬num.slt 0) :
    num.toNat < 2147483648 ∧ num.toInt.natAbs = num.toNat ∧ ¬num.toInt < 0 := by
  have hneg : ¬num.toInt < 0 := fun hlt => h (BitVec.slt_iff_toInt_lt.mpr hlt)
  have hlt := num.isLt
  rw [BitVec.toInt_eq_toNat_cond] at hneg ⊢
  split <;> omega

/-- The string for a number that is not zero, which `n` is the absolute value of. -/
theorem Formats.of_digits {n : BitVec 32} {k : Nat} (hr : IsRadix radix) (hne : num ≠ 0)
    (hn : (if radix = 10 ∧ num.slt 0 then -num else num) = n) (hnz : n ≠ 0)
    (h : radix = 10 → n.toNat < 2147483648) (hlt : n.toNat < radix ^ (k + 1)) (hk : k ≤ 9 ∨
      ¬(radix = 10 ∧ num.slt 0) ∧ k ≤ 10)
    (hs : signed radix num =
      (if radix = 10 ∧ num.slt 0 then [MINUS] else []) ++ numeral radix n.toNat) :
    Formats num radix := by
  refine ⟨k + 1, signed radix num, fun fuel hf => ?_, ?_, ?_⟩
  · obtain ⟨m, rfl⟩ := Nat.exists_eq_add_of_le' hf
    rw [hs]
    exact bintoascii_eq hr hne hn hnz h hlt m
  · have hlen := numeral_length hr (Nat.succ_pos k) hlt
    rw [hs, List.length_append]
    split
    · have hneg : radix = 10 ∧ num.slt 0 := ‹_›
      have hk' : k ≤ 9 := hk.resolve_right fun hc => hc.1 hneg
      simp only [List.length_singleton, MAXDIGITS]
      omega
    · simp only [List.length_nil, MAXDIGITS]
      omega
  · rw [hs, List.filter_append, numeral_filter hr]
    split <;> rfl

/-- All longs but the lowest are printed in decimal, and all of them in the other radices. -/
theorem formats_of_ne (hr : IsRadix radix) (h : ¬(radix = 10 ∧ num = BitVec.intMin 32)) :
    Formats num radix := by
  by_cases hz : num = 0
  · refine ⟨0, [ZERO], fun fuel _ => if_pos hz, by decide, ?_⟩
    subst hz
    rcases hr with rfl | rfl | rfl <;> rfl
  · have hlt := num.isLt
    by_cases h10 : radix = 10
    · subst h10
      by_cases hneg : num.slt 0
      · obtain ⟨hsmall, habs, hnz, hint⟩ := toNat_neg_of_slt hneg fun hmin => h ⟨rfl, hmin⟩
        refine .of_digits (k := 9) hr hz (if_pos ⟨rfl, hneg⟩) hnz (fun _ => hsmall) (by omega)
          (Or.inl le_rfl) ?_
        unfold signed
        rw [if_pos rfl, if_pos hint, if_pos ⟨rfl, hneg⟩, habs]
      · obtain ⟨hsmall, habs, hint⟩ := toInt_of_not_slt hneg
        refine .of_digits (k := 9) hr hz (if_neg fun hc => hneg hc.2) hz (fun _ => hsmall)
          (by omega) (Or.inl le_rfl) ?_
        unfold signed
        rw [if_pos rfl, if_neg hint, if_neg fun hc => hneg hc.2, habs]
    · have hs : signed radix num =
          (if radix = 10 ∧ num.slt 0 then [MINUS] else []) ++ numeral radix num.toNat := by
        unfold signed
        rw [if_neg h10, if_neg fun hc => h10 hc.1]
        rfl
      have hpow : num.toNat < radix ^ (10 + 1) := by
        have hlo : 8 ≤ radix := by rcases hr with rfl | rfl | rfl <;> decide
        exact (hlt.trans_le (by decide : 2 ^ 32 ≤ 8 ^ 11)).trans_le (Nat.pow_le_pow_left hlo 11)
      exact .of_digits hr hz (if_neg fun hc => h10 hc.1) hz (fun he => absurd he h10) hpow
        (Or.inr ⟨fun hc => h10 hc.1, le_rfl⟩) hs

/-- What is stored for the lowest long: its digits are negative, and the characters are those below
the digits. -/
theorem bintoascii_intMin (m : Nat) : bintoascii (m + 10) (BitVec.intMin 32) 10 =
    some [45, 46, 47, 44, 41, 44, 40, 45, 42, 44, 40] := rfl

/-- The smallest long is the one it cannot write in decimal. -/
theorem not_formats_intMin : ¬Formats (BitVec.intMin 32) 10 := by
  rintro ⟨N, s, hs, -, hf⟩
  have he := (hs (N + 10) (Nat.le_add_right _ _)).symm.trans (bintoascii_intMin N)
  rw [Option.some.inj he] at hf
  exact absurd hf (by decide)

/-- A long is printed as it should be, unless it is the lowest one in decimal. -/
theorem formats_iff (c : Conv) (num : BitVec 32) :
    Formats num c.radix ↔ ¬(c.radix = 10 ∧ num = BitVec.intMin 32) := by
  refine ⟨?_, formats_of_ne c.isRadix⟩
  rintro hf ⟨hr, rfl⟩
  rw [hr] at hf
  exact not_formats_intMin hf

/-- The lowest long is not printed. -/
theorem formats_iff_lowest : ¬∀ (c : Conv) num, Formats num c.radix :=
  fun h => not_formats_intMin (h .D _)

/-- An int argument is never that one. -/
theorem intArg_ne_intMin (arg : BitVec 32) : intArg arg ≠ BitVec.intMin 32 := by
  intro h
  have hint := congrArg BitVec.toInt h
  have hmin : (BitVec.intMin 32).toInt = -2147483648 := rfl
  unfold intArg at hint
  rw [BitVec.toInt_signExtend_of_le (by decide), hmin] at hint
  have hlo := (arg.setWidth 16).le_toInt
  omega

/-- Nor is an unsigned int. -/
theorem and_ne_intMin (num : BitVec 32) : num &&& 0xFFFF ≠ BitVec.intMin 32 := by
  intro h
  have hnat := congrArg BitVec.toNat h
  have hmin : (BitVec.intMin 32).toNat = 2147483648 := rfl
  have hle : (num &&& 0xFFFF).toNat ≤ 65535 := by
    rw [BitVec.toNat_and]
    exact Nat.and_le_right
  omega

/-- Of the conversions, only `%D` can get at it. -/
theorem fetch_formats_iff (c : Conv) (arg : BitVec 32) :
    Formats (c.fetch arg) c.radix ↔ ¬(c = .D ∧ arg = BitVec.intMin 32) := by
  refine ⟨?_, fun h => formats_of_ne c.isRadix ?_⟩
  · rintro hf ⟨rfl, rfl⟩
    exact not_formats_intMin hf
  · rintro ⟨hr, he⟩
    cases c with
    | d => exact intArg_ne_intMin arg he
    | u => exact and_ne_intMin _ he
    | D => exact h ⟨rfl, he⟩
    | o | O | x | X => exact absurd hr (by decide)

end Minix.Libc
