import Minix.FS.Inodes
import Mathlib.Data.BitVec

/-!
# The bit maps

The zone map and the inode map of a device are arrays of pinned buffers, each a block full of
16-bit integers. A number is free when its bit is clear.
-/

namespace Minix.FS

open Function Inodes

/-- # integers/blk -/
abbrev INTS_PER_BLOCK : Nat := 512

/-- # bits in an integer -/
abbrev INT_BITS : Nat := 16

/-- (log2 of BLOCK_SIZE) + 3 -/
abbrev BIT_MAP_SHIFT : Nat := 13

/-- # bits in a block -/
abbrev BLOCK_BITS : Nat := 8192

/-- returned by alloc_bit() to signal failure -/
abbrev NO_BIT : Nat := 0

/-- no space left on the device -/
abbrev ENOSPC : Int := -28

/-! ## Words of a block -/

/-- A number in a block full of integers, or in an indirect block. -/
abbrev Word : Type := BitVec 16

/-- Where the low byte of a word is. -/
def lowByte (w : Fin INTS_PER_BLOCK) : Fin BLOCK_SIZE :=
  ⟨2 * w, Nat.mul_lt_mul_of_pos_left w.isLt (by decide)⟩

/-- Where the high byte of a word is. -/
def highByte (w : Fin INTS_PER_BLOCK) : Fin BLOCK_SIZE :=
  ⟨2 * w + 1, by have := w.isLt; simp only [INTS_PER_BLOCK, BLOCK_SIZE] at *; omega⟩

/-- `b_int[w]`. -/
def wordAt (b : Block) (w : Fin INTS_PER_BLOCK) : Word :=
  (b (highByte w)).toBitVec ++ (b (lowByte w)).toBitVec

/-- A store into `b_int[w]`. -/
def setWord (b : Block) (w : Fin INTS_PER_BLOCK) (v : Word) : Block :=
  update (update b (lowByte w) ⟨v.extractLsb' 0 8⟩) (highByte w) ⟨v.extractLsb' 8 8⟩

/-- The bytes of words are apart. -/
theorem lowByte_ne_highByte (v w : Fin INTS_PER_BLOCK) : lowByte v ≠ highByte w := fun h => by
  have := congrArg Fin.val h
  simp only [lowByte, highByte] at this
  omega

/-- Different words have different low bytes. -/
theorem lowByte_inj {v w : Fin INTS_PER_BLOCK} (h : v ≠ w) : lowByte v ≠ lowByte w := fun he => by
  have := congrArg Fin.val he
  simp only [lowByte] at this
  exact h (Fin.ext (by omega))

/-- And different high bytes. -/
theorem highByte_inj {v w : Fin INTS_PER_BLOCK} (h : v ≠ w) : highByte v ≠ highByte w :=
  fun he => by
    have := congrArg Fin.val he
    simp only [highByte] at this
    exact h (Fin.ext (by omega))

/-- The word just stored is read back. -/
@[simp] theorem wordAt_setWord_self (b : Block) (w : Fin INTS_PER_BLOCK) (v : Word) :
    wordAt (setWord b w v) w = v := by
  rw [wordAt, setWord, update_self, update_of_ne (lowByte_ne_highByte w w), update_self]
  exact BitVec.extractLsb'_append_extractLsb'

/-- The other words are as before. -/
theorem wordAt_setWord_of_ne (b : Block) {w w' : Fin INTS_PER_BLOCK} (h : w' ≠ w) (v : Word) :
    wordAt (setWord b w v) w' = wordAt b w' := by
  rw [wordAt, setWord, update_of_ne (highByte_inj h), update_of_ne (lowByte_ne_highByte w w').symm,
    update_of_ne (lowByte_ne_highByte w' w), update_of_ne (lowByte_inj h), wordAt]

/-- A store of the word that is there changes nothing. -/
@[simp] theorem setWord_wordAt (b : Block) (w : Fin INTS_PER_BLOCK) :
    setWord b w (wordAt b w) = b := by
  have hlow : (wordAt b w).extractLsb' 0 8 = (b (lowByte w)).toBitVec :=
    BitVec.extractLsb'_append_eq_right
  have hhigh : (wordAt b w).extractLsb' 8 8 = (b (highByte w)).toBitVec :=
    BitVec.extractLsb'_append_eq_left
  rw [setWord, hlow, hhigh, update_eq_self, update_eq_self]

/-- The last of two stores counts. -/
@[simp] theorem setWord_setWord (b : Block) (w : Fin INTS_PER_BLOCK) (u v : Word) :
    setWord (setWord b w u) w v = setWord b w v := by
  unfold setWord
  rw [update_comm (lowByte_ne_highByte w w).symm, update_idem, update_idem]

/-! ## Allocation and release of bits -/

variable {σ : Type}

/-- A number that is kept in an unsigned short. -/
def unshort (n : Int) : Nat := (n % 65536).toNat

/-- The word of its block that a bit is in. -/
def wordOf (bit : Nat) : Fin INTS_PER_BLOCK :=
  ⟨bit % BLOCK_BITS / INT_BITS, by simp only [BLOCK_BITS, INT_BITS, INTS_PER_BLOCK]; omega⟩

/-- Whether a bit of a map is set. -/
def bitSet (c : Cache σ) (mapPtr : Nat → Link BufPtr) (bit : Nat) : Bool :=
  match mapPtr (bit / BLOCK_BITS) with
  | .of bp => (wordAt (c.bData bp) (wordOf bit)).getLsbD (bit % INT_BITS)
  | _ => false

/-- The first bit of a word that is clear. -/
def clearBit (k : Word) : Option (Fin INT_BITS) :=
  (List.finRange INT_BITS).find? fun i => ((k >>> i.val) &&& 1) = 0

/-- Loop on the words of one of the bit map blocks, whose first bit is number `base`. -/
def scanWords (blk : Block) (base mapBits : Nat) :
    List (Fin INTS_PER_BLOCK) → Option (Fin INTS_PER_BLOCK × Fin INT_BITS × Nat)
  | [] => none
  | w :: ws =>
    if wordAt blk w ≠ ~~~(0 : Word) then
      match clearBit (wordAt blk w) with
      | none => scanWords blk base mapBits ws
      | some i =>
        let a := unshort (i.val + w.val * INT_BITS + base : Nat)
        if a ≥ mapBits then none -- if 'a' beyond map check other blks
        else some (w, i, a)
    else scanWords blk base mapBits ws

/-- Loop on the blocks of the map, from word `w` of block `b` on. -/
def scanBlocks (c : Cache σ) (mapPtr : Nat → Link BufPtr) (mapBits bitBlocks : Nat) :
    (blockCount b w : Nat) → Option (Option (BufPtr × Fin INTS_PER_BLOCK × Fin INT_BITS × Nat))
  | 0, _, _ => some none
  | blockCount + 1, b, w =>
    match mapPtr b with
    | .of bp =>
      match scanWords (c.bData bp) (unshort (b <<< BIT_MAP_SHIFT)) mapBits
          ((List.finRange INTS_PER_BLOCK).drop w) with
      | some found => some (some (bp, found))
      | none =>
        scanBlocks c mapPtr mapBits bitBlocks blockCount (if b + 1 = bitBlocks then 0 else b + 1) 0
    | _ => none

/-- Allocate a bit from a bit map and return its bit number. -/
def allocBit (c : Cache σ) (mapPtr : Nat → Link BufPtr) (mapBits bitBlocks origin : Nat) :
    Option (Nat × Cache σ) := do
  let origin := if origin ≥ mapBits then 0 else origin -- for robustness
  let b := origin >>> BIT_MAP_SHIFT
  let o := origin - b <<< BIT_MAP_SHIFT
  let w := o / INT_BITS
  let blockCount := if w = 0 then bitBlocks else bitBlocks + 1
  match ← scanBlocks c mapPtr mapBits bitBlocks blockCount b w with
  | none => return (NO_BIT, c) -- no bit could be allocated
  | some (bp, w, i, a) =>
    let k := wordAt (c.bData bp) w
    return (a, storeBuf c bp (setWord (c.bData bp) w (k ||| (1 : Word) <<< i.val)))

/-- Return a zone or inode by turning on its bitmap bit. -/
def freeBit (c : Cache σ) (mapPtr : Nat → Link BufPtr) (bitReturned : Nat) : Option (Cache σ) :=
  let b := bitReturned >>> BIT_MAP_SHIFT
  let bit := bitReturned % INT_BITS
  match mapPtr b with
  | .nil => some c
  | .wild => none
  | .of bp =>
    let k := wordAt (c.bData bp) (wordOf bitReturned)
    if (k >>> bit) &&& 1 = 0 then none -- panic: "freeing unused block or inode--check file sys"
    else
      some (storeBuf c bp
        (setWord (c.bData bp) (wordOf bitReturned) (k &&& ~~~((1 : Word) <<< bit))))

/-- The test of a bit as the code writes it. -/
theorem bit_clear_iff (k : Word) (i : Nat) : (k >>> i) &&& 1 = 0 ↔ k.getLsbD i = false := by
  constructor
  · intro h
    have := congrArg (·.getLsbD 0) h
    simpa using this
  · intro h
    ext j hj
    cases j with
    | zero => simpa using h
    | succ j => simp

/-- Bit `i` alone, in a word. -/
theorem one_shift_getLsbD (i j : Nat) (hi : i < INT_BITS) :
    ((1 : Word) <<< i).getLsbD j = decide (i = j) := by
  change (1#16 <<< i).getLsbD j = _
  rw [← BitVec.twoPow_eq, BitVec.getLsbD_twoPow, decide_eq_true hi, Bool.true_and]

/-- Setting a bit. -/
theorem bit_set (k : Word) (i : Fin INT_BITS) (j : Nat) :
    (k ||| (1 : Word) <<< i.val).getLsbD j = (k.getLsbD j || decide (i.val = j)) := by
  rw [BitVec.getLsbD_or, one_shift_getLsbD _ _ i.isLt]

/-- Clearing a bit. -/
theorem bit_drop (k : Word) {i j : Nat} (hi : i < INT_BITS) (hj : j < INT_BITS) :
    (k &&& ~~~((1 : Word) <<< i)).getLsbD j = (k.getLsbD j && !decide (i = j)) := by
  rw [BitVec.getLsbD_and, BitVec.getLsbD_not, one_shift_getLsbD _ _ hi, decide_eq_true hj,
    Bool.true_and]

/-- Clearing a bit that has just been set. -/
theorem bit_reset {k : Word} {i : Nat} (hi : i < INT_BITS) (h : k.getLsbD i = false) :
    (k ||| (1 : Word) <<< i) &&& ~~~((1 : Word) <<< i) = k := by
  ext j hj
  rw [← BitVec.getLsbD_eq_getElem, ← BitVec.getLsbD_eq_getElem, BitVec.getLsbD_and,
    BitVec.getLsbD_not, BitVec.getLsbD_or, one_shift_getLsbD _ _ hi, decide_eq_true hj]
  by_cases he : i = j
  · rw [← he, h]
    simp
  · simp [he]

/-- The bit that is found is the first one that is clear. -/
theorem clearBit_some {k : Word} {i : Fin INT_BITS} (h : clearBit k = some i) :
    k.getLsbD i = false ∧ ∀ j < i, k.getLsbD j = true := by
  obtain ⟨hi, as, bs, hsplit, hbefore⟩ := List.find?_eq_some_iff_append.mp h
  refine ⟨(bit_clear_iff ..).mp (of_decide_eq_true hi), fun j hj => ?_⟩
  have hmem : j ∈ as ++ i :: bs := hsplit ▸ List.mem_finRange j
  have hsorted : (as ++ i :: bs).Pairwise (· < ·) := hsplit ▸ List.pairwise_lt_finRange INT_BITS
  rcases List.mem_append.mp hmem with hj' | hj'
  · have := hbefore j hj'
    rw [Bool.not_eq_true', decide_eq_false_iff_not, bit_clear_iff] at this
    exact Bool.eq_true_of_not_eq_false this
  · -- what comes after `i` is greater
    have hafter := (List.pairwise_append.mp hsorted).2.1
    rcases List.mem_cons.mp hj' with rfl | hj'
    · exact absurd hj (lt_irrefl j)
    · exact absurd hj (not_lt_of_gt (List.rel_of_pairwise_cons hafter hj'))

/-- When none is found, all bits are set. -/
theorem clearBit_none {k : Word} (h : clearBit k = none) (j : Fin INT_BITS) :
    k.getLsbD j = true := by
  have := List.find?_eq_none.mp h j (List.mem_finRange j)
  rw [decide_eq_true_eq, bit_clear_iff] at this
  exact Bool.eq_true_of_not_eq_false this

/-- All bits of the word of ones are set. -/
theorem allOnes_getLsbD {k : Word} (h : k = ~~~(0 : Word)) (j : Fin INT_BITS) :
    k.getLsbD j = true := by
  rw [h, BitVec.getLsbD_not, decide_eq_true j.isLt]
  simp

/-- What is at hand when blocks are looked up for an inode. -/
structure Work (σ : Type) where
  cache : Cache σ
  /-- the inode -/
  rip : Inode
  /-- temporary storage for error number -/
  errCode : Int

/-- `s_zmap[b]`. -/
def zmapPtr (sp : Super) (b : Nat) : Link BufPtr :=
  if h : b < ZMAP_SLOTS then sp.sZmap ⟨b, h⟩ else .wild

/-- The number of bits in a zone map: one for each data zone, and bit 0. -/
def zoneBits (sp : Super) : Nat := unshort ((sp.sNzones : Int) - sp.sFirstdatazone + 1)

/-- The bit of a zone, which is bit 1 for the first data zone. -/
def zoneBit (sp : Super) (z : Nat) : Nat := unshort ((z : Int) - ((sp.sFirstdatazone : Int) - 1))

/-- Allocate a new zone on the indicated device, near `z`, and return its number. -/
def allocZone (sup : SuperPtr → Super) (dev z : Nat) (s : Work σ) : Option (Nat × Work σ) := do
  let sp ← (getSuper sup dev).map sup
  let (b, c) ← allocBit s.cache (zmapPtr sp) (zoneBits sp) sp.sZmapBlocks (zoneBit sp z)
  if b = NO_BIT then return (NO_ZONE, { s with cache := c, errCode := ENOSPC })
  return (unshort ((sp.sFirstdatazone : Int) - 1 + b), { s with cache := c })

/-- Return a zone. -/
def freeZone (sup : SuperPtr → Super) (dev numb : Nat) (c : Cache σ) : Option (Cache σ) :=
  if numb = NO_ZONE then some c -- checking here easier than in caller
  else do
    let sp ← (getSuper sup dev).map sup
    freeBit c (zmapPtr sp) (zoneBit sp numb)

/-! ## What the search finds -/

variable {blk : Block} {base mapBits bitBlocks : Nat} {c : Cache σ} {mapPtr : Nat → Link BufPtr}

/-- A number below 2^16 is an unsigned short. -/
theorem unshort_of_lt {n : Nat} (h : n < 65536) : unshort n = n := by
  unfold unshort
  omega

/-- The bit that the scan of a block finds. -/
theorem scanWords_some {ws : List (Fin INTS_PER_BLOCK)} {w : Fin INTS_PER_BLOCK}
    {i : Fin INT_BITS} {a : Nat} (h : scanWords blk base mapBits ws = some (w, i, a)) :
    w ∈ ws ∧ a = unshort (i.val + w.val * INT_BITS + base : Nat) ∧ a < mapBits ∧
      (wordAt blk w).getLsbD i = false := by
  induction ws with
  | nil => exact nomatch h
  | cons v ws ih =>
    have hlater (hv : scanWords blk base mapBits ws = some (w, i, a)) :
        w ∈ v :: ws ∧ a = unshort (i.val + w.val * INT_BITS + base : Nat) ∧ a < mapBits ∧
          (wordAt blk w).getLsbD i = false :=
      ⟨List.mem_cons_of_mem v (ih hv).1, (ih hv).2⟩
    unfold scanWords at h
    split at h
    · cases hk : clearBit (wordAt blk v) with
      | none =>
        rw [hk] at h
        exact hlater h
      | some j =>
        rw [hk] at h
        dsimp only at h
        split at h
        · exact nomatch h
        · obtain ⟨rfl, rfl, rfl⟩ :
              v = w ∧ j = i ∧ unshort (j.val + v.val * INT_BITS + base : Nat) = a := by
            simpa using h
          exact ⟨List.mem_cons_self, rfl, not_le.mp ‹_›, (clearBit_some hk).1⟩
    · exact hlater h

/-- Nothing is found in a block only if all its bits below the end of the map are set. The words
after one with a clear bit beyond the end need not be looked at: they are beyond it, too. -/
theorem scanWords_none {ws : List (Fin INTS_PER_BLOCK)} (hs : ws.Pairwise (· < ·))
    (hbase : base + BLOCK_BITS ≤ 65536) (h : scanWords blk base mapBits ws = none)
    {w : Fin INTS_PER_BLOCK} (hw : w ∈ ws) (i : Fin INT_BITS)
    (hlt : i.val + w.val * INT_BITS + base < mapBits) : (wordAt blk w).getLsbD i = true := by
  induction ws with
  | nil => exact absurd hw List.not_mem_nil
  | cons v ws ih =>
    have hlater := ih (List.pairwise_cons.mp hs).2
    unfold scanWords at h
    split at h
    · cases hk : clearBit (wordAt blk v) with
      | none =>
        rw [hk] at h
        rcases List.mem_cons.mp hw with rfl | hw
        · exact clearBit_none hk i
        · exact hlater h hw
      | some j =>
        rw [hk] at h
        dsimp only at h
        have hfit : j.val + v.val * INT_BITS + base < 65536 := by
          have := j.isLt
          have := v.isLt
          simp only [INT_BITS, INTS_PER_BLOCK, BLOCK_BITS] at *
          omega
        rw [unshort_of_lt hfit] at h
        split at h
        · rename_i hbeyond
          rcases List.mem_cons.mp hw with rfl | hw
          · refine (clearBit_some hk).2 i (Fin.lt_def.mpr ?_)
            omega
          · have hvw := Fin.lt_def.mp (List.rel_of_pairwise_cons hs hw)
            have := j.isLt
            simp only [INT_BITS] at *
            omega
        · exact nomatch h
    · rename_i hones
      rcases List.mem_cons.mp hw with rfl | hw
      · exact allOnes_getLsbD (not_not.mp hones) i
      · exact hlater h hw

/-- A map is loaded: each of its blocks is in a buffer of its own. More than 8 blocks have no bit
numbers of 16 bits, and `load_bit_maps` refuses more than 6. -/
structure MapPtrs (mapPtr : Nat → Link BufPtr) (bitBlocks : Nat) : Prop where
  few : bitBlocks ≤ 8
  buf : ∀ b < bitBlocks, ∃ bp, mapPtr b = .of bp
  distinct : ∀ b < bitBlocks, ∀ b' < bitBlocks, mapPtr b = mapPtr b' → b = b'

/-- The bits of a map by block, word and place. -/
theorem bitSet_at {b : Nat} {bp : BufPtr} (hb : mapPtr b = .of bp) (w : Fin INTS_PER_BLOCK)
    (i : Fin INT_BITS) : bitSet c mapPtr (i.val + w.val * INT_BITS + b * BLOCK_BITS) =
      (wordAt (c.bData bp) w).getLsbD i := by
  have hw := w.isLt
  have hi := i.isLt
  simp only [INTS_PER_BLOCK, INT_BITS] at hw hi
  have hdiv : (i.val + w.val * 16 + b * 8192) / 8192 = b := by omega
  have hword : (i.val + w.val * 16 + b * 8192) % 8192 / 16 = w := by omega
  have hmod : (i.val + w.val * 16 + b * 8192) % 16 = i := by omega
  have hof : wordOf (i.val + w.val * 16 + b * 8192) = w := Fin.ext hword
  simp only [bitSet, INT_BITS, BLOCK_BITS, hdiv, hb, hof, hmod]

/-- The number of a bit by block, word and place. -/
theorem bit_split (n : Nat) :
    n = (n % INT_BITS) + (wordOf n).val * INT_BITS + n / BLOCK_BITS * BLOCK_BITS := by
  simp only [wordOf, INT_BITS, BLOCK_BITS]
  omega

/-- The number of the first bit of a block. -/
theorem unshort_shift {b : Nat} (hb : b < 8) :
    unshort (b <<< BIT_MAP_SHIFT : Nat) = b * BLOCK_BITS := by
  rw [Nat.shiftLeft_eq]
  exact unshort_of_lt (by simp only [BIT_MAP_SHIFT]; omega)

section Search

variable (hm : MapPtrs mapPtr bitBlocks)

include hm

/-- The scan of the blocks ends. -/
theorem scanBlocks_total (blockCount : Nat) {b : Nat} (hb : b < bitBlocks) (w : Nat) :
    ∃ r, scanBlocks c mapPtr mapBits bitBlocks blockCount b w = some r := by
  induction blockCount generalizing b w with
  | zero => exact ⟨none, rfl⟩
  | succ blockCount ih =>
    obtain ⟨bp, hbp⟩ := hm.buf b hb
    unfold scanBlocks
    rw [hbp]
    dsimp only
    split
    · exact ⟨_, rfl⟩
    · refine ih ?_ 0
      split
      · exact Nat.zero_lt_of_lt hb
      · omega

/-- What is found is a clear bit of the map. -/
theorem scanBlocks_some {blockCount b w : Nat} (hb : b < bitBlocks) {bp : BufPtr}
    {v : Fin INTS_PER_BLOCK} {i : Fin INT_BITS} {a : Nat}
    (h : scanBlocks c mapPtr mapBits bitBlocks blockCount b w = some (some (bp, v, i, a))) :
    ∃ b' < bitBlocks, mapPtr b' = .of bp ∧ a = i.val + v.val * INT_BITS + b' * BLOCK_BITS ∧
      a < mapBits ∧ (wordAt (c.bData bp) v).getLsbD i = false := by
  induction blockCount generalizing b w with
  | zero => exact nomatch h
  | succ blockCount ih =>
    obtain ⟨bp', hbp⟩ := hm.buf b hb
    unfold scanBlocks at h
    rw [hbp, unshort_shift (hb.trans_le hm.few)] at h
    dsimp only at h
    split at h
    · rename_i found hscan
      obtain ⟨rfl, rfl⟩ : bp' = bp ∧ found = (v, i, a) := by simpa using h
      obtain ⟨-, ha, hlt, hclear⟩ := scanWords_some hscan
      refine ⟨b, hb, hbp, ?_, hlt, hclear⟩
      have hv := v.isLt
      have hi := i.isLt
      have hfew := hm.few
      simp only [INTS_PER_BLOCK, INT_BITS, BLOCK_BITS] at *
      rwa [unshort_of_lt (by omega)] at ha
    · refine ih ?_ h
      split
      · exact Nat.zero_lt_of_lt hb
      · omega

/-- When nothing is found, the bits are set in all the blocks that were looked at: from word `w` on
in the first one, and in the whole of those after it. -/
theorem scanBlocks_none {blockCount b w : Nat} (hb : b < bitBlocks)
    (h : scanBlocks c mapPtr mapBits bitBlocks blockCount b w = some none) {k n : Nat}
    (hk : k < blockCount) (hn : n / BLOCK_BITS = (b + k) % bitBlocks)
    (hw : k = 0 → w ≤ (wordOf n).val) (hlt : n < mapBits) : bitSet c mapPtr n = true := by
  induction blockCount generalizing b w k with
  | zero => exact absurd hk (Nat.not_lt_zero k)
  | succ blockCount ih =>
    obtain ⟨bp, hbp⟩ := hm.buf b hb
    have hfew := hm.few
    unfold scanBlocks at h
    rw [hbp, unshort_shift (hb.trans_le hm.few)] at h
    dsimp only at h
    split at h
    · exact nomatch h
    · rename_i hscan
      cases k with
      | zero =>
        have hblock : n / BLOCK_BITS = b := by rw [hn, Nat.add_zero, Nat.mod_eq_of_lt hb]
        have hsplit := bit_split n
        rw [hblock] at hsplit
        have hmem : wordOf n ∈ (List.finRange INTS_PER_BLOCK).drop w := by
          rw [List.mem_drop_iff_getElem]
          exact ⟨(wordOf n).val - w, by simp; have := hw rfl; omega,
            by simp [Nat.add_sub_cancel' (hw rfl)]⟩
        have hbit := scanWords_none ((List.pairwise_lt_finRange INTS_PER_BLOCK).drop)
          (by simp only [BLOCK_BITS]; omega) hscan hmem
          ⟨n % INT_BITS, Nat.mod_lt n (by decide)⟩ (hsplit ▸ hlt)
        rw [hsplit]
        exact (bitSet_at hbp (wordOf n) ⟨n % INT_BITS, _⟩).trans hbit
      | succ k =>
        have hnext : (if b + 1 = bitBlocks then 0 else b + 1) = (b + 1) % bitBlocks := by
          split
          · rename_i he
            rw [he, Nat.mod_self]
          · exact (Nat.mod_eq_of_lt (by omega)).symm
        rw [hnext] at h
        refine ih (Nat.mod_lt _ (Nat.zero_lt_of_lt hb)) h (Nat.lt_of_succ_lt_succ hk) ?_
          (fun _ => Nat.zero_le _)
        rw [hn, Nat.mod_add_mod, Nat.add_assoc, Nat.add_comm 1 k]

end Search

/-- The search comes past every block: `k` steps after block `b` it is at block `m`. -/
theorem exists_step {b m n : Nat} (hb : b < n) (hm : m < n) : ∃ k < n, m = (b + k) % n := by
  rcases Nat.lt_or_ge m b with h | h
  · refine ⟨m + n - b, by omega, ?_⟩
    rw [Nat.add_sub_of_le (by omega), Nat.add_mod_right, Nat.mod_eq_of_lt hm]
  · refine ⟨m - b, by omega, ?_⟩
    rw [Nat.add_sub_of_le h, Nat.mod_eq_of_lt hm]

/-- The cache after one bit is set, which was clear. -/
structure BitTaken (c c' : Cache σ) (mapPtr : Nat → Link BufPtr) (bitBlocks bit : Nat)
    (bp : BufPtr) : Prop where
  block : mapPtr (bit / BLOCK_BITS) = .of bp
  clear : bitSet c mapPtr bit = false
  bits : ∀ n < bitBlocks * BLOCK_BITS, bitSet c' mapPtr n = (bitSet c mapPtr n || decide (n = bit))
  frame : c' = { c with
    bData := update c.bData bp (c'.bData bp), bDirt := update c.bDirt bp DIRTY }
  undo : freeBit c' mapPtr bit = some { c with bDirt := update c.bDirt bp DIRTY }

/-- Setting a clear bit, by block, word and place. -/
theorem bitTaken (hm : MapPtrs mapPtr bitBlocks) {b : Nat} (hb : b < bitBlocks) {bp : BufPtr}
    (hbp : mapPtr b = .of bp) (w : Fin INTS_PER_BLOCK) (i : Fin INT_BITS)
    (hclear : (wordAt (c.bData bp) w).getLsbD i = false) :
    BitTaken c (storeBuf c bp
        (setWord (c.bData bp) w (wordAt (c.bData bp) w ||| (1 : Word) <<< i.val))) mapPtr bitBlocks
      (i.val + w.val * INT_BITS + b * BLOCK_BITS) bp := by
  have hw := w.isLt
  have hi := i.isLt
  simp only [INTS_PER_BLOCK, INT_BITS] at hw hi
  have hdiv : (i.val + w.val * INT_BITS + b * BLOCK_BITS) / BLOCK_BITS = b := by
    simp only [INT_BITS, BLOCK_BITS]
    omega
  have hof : wordOf (i.val + w.val * INT_BITS + b * BLOCK_BITS) = w :=
    Fin.ext (by simp only [wordOf, INT_BITS, BLOCK_BITS]; omega)
  have hmod : (i.val + w.val * INT_BITS + b * BLOCK_BITS) % INT_BITS = i.val := by
    simp only [INT_BITS, BLOCK_BITS]
    omega
  refine ⟨by rw [hdiv, hbp], (bitSet_at hbp w i).trans hclear, fun n hn => ?_, ?_, ?_⟩
  · have hsplit := bit_split n
    have hnb : n / BLOCK_BITS < bitBlocks := Nat.div_lt_of_lt_mul (Nat.mul_comm .. ▸ hn)
    obtain ⟨bp', hbp'⟩ := hm.buf _ hnb
    have hlast : n % INT_BITS < INT_BITS := Nat.mod_lt n (by decide)
    have hc := bitSet_at (c := c) hbp' (wordOf n) ⟨n % INT_BITS, hlast⟩
    have hc' := bitSet_at (c := storeBuf c bp
      (setWord (c.bData bp) w (wordAt (c.bData bp) w ||| (1 : Word) <<< i.val))) hbp' (wordOf n)
      ⟨n % INT_BITS, hlast⟩
    rw [← hsplit] at hc hc'
    rw [hc, hc']
    dsimp only [storeBuf]
    by_cases hsame : n / BLOCK_BITS = b
    · obtain rfl : bp' = bp := by
        rw [hsame, hbp] at hbp'
        exact (Link.of.inj hbp').symm
      rw [update_self]
      by_cases hword : wordOf n = w
      · rw [hword, wordAt_setWord_self, bit_set]
        congr 1
        refine decide_eq_decide.mpr ⟨fun he => ?_, fun he => ?_⟩
        · rw [hsplit, hsame, hword, he]
        · rw [he, hmod]
      · rw [wordAt_setWord_of_ne _ hword, decide_eq_false, Bool.or_false]
        rintro rfl
        exact hword hof
    · have hne : bp' ≠ bp := by
        rintro rfl
        exact hsame (hm.distinct _ hnb b hb (hbp'.trans hbp.symm))
      rw [update_of_ne hne, decide_eq_false, Bool.or_false]
      rintro rfl
      exact hsame hdiv
  · simp only [storeBuf, update_self]
  · have hshift : (i.val + w.val * INT_BITS + b * BLOCK_BITS) >>> BIT_MAP_SHIFT = b := by
      rw [Nat.shiftRight_eq_div_pow]
      exact hdiv
    have hset : ¬(wordAt (c.bData bp) w ||| (1 : Word) <<< i.val) >>> i.val &&& 1 = 0 := by
      rw [bit_clear_iff, bit_set, decide_eq_true rfl, Bool.or_true]
      decide
    simp only [freeBit, hshift, hbp, hof, hmod, storeBuf, update_self, wordAt_setWord_self,
      setWord_setWord, if_neg hset, bit_reset i.isLt hclear, setWord_wordAt, update_idem,
      update_eq_self]

/-- `alloc_bit` finds a clear bit if there is one, wherever the search starts. -/
theorem allocBit_spec (hm : MapPtrs mapPtr bitBlocks) (hbits : mapBits ≤ bitBlocks * BLOCK_BITS)
    (origin : Nat) : ∃ bit c', allocBit c mapPtr mapBits bitBlocks origin = some (bit, c') ∧
      (bit = NO_BIT ∧ c' = c ∧ (∀ n < mapBits, bitSet c mapPtr n = true) ∨
        bit < mapBits ∧ ∃ bp, BitTaken c c' mapPtr bitBlocks bit bp) := by
  obtain ⟨start, hstart, hle⟩ : ∃ start, (if origin ≥ mapBits then 0 else origin) = start ∧
      (start = 0 ∨ start < mapBits) := by
    refine ⟨_, rfl, ?_⟩
    split
    · exact Or.inl rfl
    · exact Or.inr (not_le.mp ‹_›)
  have hshift : start >>> BIT_MAP_SHIFT = start / BLOCK_BITS := Nat.shiftRight_eq_div_pow ..
  have hrest :
      (start - (start / BLOCK_BITS) <<< BIT_MAP_SHIFT) / INT_BITS = (wordOf start).val := by
    rw [Nat.shiftLeft_eq]
    simp only [wordOf, BLOCK_BITS, INT_BITS, BIT_MAP_SHIFT]
    omega
  unfold allocBit
  simp only [hstart, hshift, hrest]
  rcases Nat.eq_zero_or_pos bitBlocks with rfl | hpos
  · -- a map without blocks has no bits
    have hzero : start = 0 := by omega
    subst hzero
    exact ⟨NO_BIT, c, rfl, Or.inl ⟨rfl, rfl, fun n hn => by omega⟩⟩
  · have hb : start / BLOCK_BITS < bitBlocks := by
      refine Nat.div_lt_of_lt_mul ?_
      rw [Nat.mul_comm]
      have : 0 < bitBlocks * BLOCK_BITS := Nat.mul_pos hpos (by decide)
      omega
    obtain ⟨r, hr⟩ : ∃ r, scanBlocks c mapPtr mapBits bitBlocks
        (if (wordOf start).val = 0 then bitBlocks else bitBlocks + 1) (start / BLOCK_BITS)
        (wordOf start).val = some r := scanBlocks_total hm _ hb _
    cases r with
    | none =>
      refine ⟨NO_BIT, c, by rw [hr]; rfl, Or.inl ⟨rfl, rfl, fun n hn => ?_⟩⟩
      obtain ⟨k, hk, hnk⟩ := exists_step hb
        (Nat.div_lt_of_lt_mul (Nat.mul_comm .. ▸ hn.trans_le hbits) : n / BLOCK_BITS < bitBlocks)
      by_cases hpast : k = 0 ∧ (wordOf n).val < (wordOf start).val
      · -- a word before the first one is seen when its block is visited again
        rw [hpast.1, Nat.add_zero, Nat.mod_eq_of_lt hb] at hnk
        refine scanBlocks_none hm hb hr (k := bitBlocks) ?_ ?_ (fun h => by omega) hn
        · rw [if_neg (by omega)]
          exact Nat.lt_succ_self _
        · rw [hnk, Nat.add_mod_right, Nat.mod_eq_of_lt hb]
      · refine scanBlocks_none hm hb hr (k := k) ?_ hnk (fun h => by omega) hn
        split
        · exact hk
        · exact Nat.lt_succ_of_lt hk
    | some found =>
      obtain ⟨bp, w, i, a⟩ := found
      obtain ⟨b', hb', hbp, rfl, hlt, hclear⟩ := scanBlocks_some hm hb hr
      exact ⟨_, _, by rw [hr]; rfl, Or.inr ⟨hlt, bp, bitTaken hm hb' hbp w i hclear⟩⟩

/-- The layout of a device: the zone map is loaded and has a bit for every data zone, and bit 0 is
busy. -/
structure ZoneMap (c : Cache σ) (sp : Super) : Prop where
  ptrs : MapPtrs (zmapPtr sp) sp.sZmapBlocks
  first : 1 ≤ sp.sFirstdatazone
  data : sp.sFirstdatazone ≤ sp.sNzones
  nzones : sp.sNzones < 65536
  bits : sp.sNzones - sp.sFirstdatazone + 1 ≤ sp.sZmapBlocks * BLOCK_BITS
  busy : bitSet c (zmapPtr sp) 0 = true

/-- The zone map has this zone, and its bit is set. -/
def zoneBusy (c : Cache σ) (sp : Super) (z : Nat) : Prop :=
  bitSet c (zmapPtr sp) (zoneBit sp z) = true

namespace ZoneMap

variable {sp : Super} {z : Nat} (h : ZoneMap c sp)

include h

/-- How many bits the zone map has. -/
theorem zoneBits_eq : zoneBits sp = sp.sNzones - sp.sFirstdatazone + 1 := by
  have := h.first
  have := h.data
  have := h.nzones
  unfold zoneBits unshort
  omega

/-- The bit of a zone. -/
theorem zoneBit_eq (hz : sp.sFirstdatazone ≤ z) (hlt : z < sp.sNzones) :
    zoneBit sp z = z - sp.sFirstdatazone + 1 := by
  have := h.first
  have := h.nzones
  unfold zoneBit unshort
  omega

/-- The bits of the map other than 0 are those of the data zones. -/
theorem full_iff : (∀ n < zoneBits sp, bitSet c (zmapPtr sp) n = true) ↔
    ∀ z, sp.sFirstdatazone ≤ z → z < sp.sNzones → zoneBusy c sp z := by
  rw [h.zoneBits_eq]
  constructor
  · intro hall z hz hlt
    rw [zoneBusy, h.zoneBit_eq hz hlt]
    exact hall _ (by omega)
  · intro hall n hn
    cases n with
    | zero => exact h.busy
    | succ n =>
      have hz := hall (sp.sFirstdatazone + n) (Nat.le_add_right _ _) (by omega)
      rw [zoneBusy, h.zoneBit_eq (Nat.le_add_right _ _) (by omega)] at hz
      rwa [Nat.add_sub_cancel_left] at hz

/-- `alloc_zone` finds a free data zone if there is one. -/
theorem allocZone_spec {sup : SuperPtr → Super} {dev : Nat}
    (hsp : (getSuper sup dev).map sup = some sp) (near : Nat) (rip : Inode) (err : Int) :
    ∃ z s', allocZone sup dev near ⟨c, rip, err⟩ = some (z, s') ∧ s'.rip = rip ∧
      (z = NO_ZONE ∧ s' = ⟨c, rip, ENOSPC⟩ ∧
        (∀ z, sp.sFirstdatazone ≤ z → z < sp.sNzones → zoneBusy c sp z) ∨
      sp.sFirstdatazone ≤ z ∧ z < sp.sNzones ∧ s'.errCode = err ∧
        ∃ bp, BitTaken c s'.cache (zmapPtr sp) sp.sZmapBlocks (zoneBit sp z) bp) := by
  have hbits : zoneBits sp ≤ sp.sZmapBlocks * BLOCK_BITS := h.zoneBits_eq.le.trans h.bits
  obtain ⟨b, c', hb, hcase⟩ := allocBit_spec (c := c) h.ptrs hbits (zoneBit sp near)
  unfold allocZone
  rw [hsp, Option.bind_eq_bind, Option.bind_some, hb, Option.bind_eq_bind, Option.bind_some]
  rcases hcase with ⟨rfl, rfl, hfull⟩ | ⟨hlt, bp, htaken⟩
  · exact ⟨NO_ZONE, _, rfl, rfl, Or.inl ⟨rfl, rfl, h.full_iff.mp hfull⟩⟩
  · have hne : b ≠ NO_BIT := by
      rintro rfl
      exact absurd (htaken.clear.symm.trans h.busy) (by decide)
    have hfirst := h.first
    have hdata := h.data
    have hnz := h.nzones
    rw [h.zoneBits_eq] at hlt
    have hz : unshort ((sp.sFirstdatazone : Int) - 1 + b) = sp.sFirstdatazone + b - 1 := by
      unfold unshort
      omega
    dsimp only
    rw [if_neg hne, hz]
    have hpos : 0 < b := Nat.pos_of_ne_zero hne
    refine ⟨_, _, rfl, rfl, Or.inr ⟨by omega, by omega, rfl, bp, ?_⟩⟩
    rw [h.zoneBit_eq (by omega) (by omega)]
    rwa [show sp.sFirstdatazone + b - 1 - sp.sFirstdatazone + 1 = b by omega]

end ZoneMap

/-- `alloc_bit` says that there is no free bit only when all of them are set. Otherwise it takes one
that was clear, and nothing else changes; freeing that bit restores the map. So `alloc_zone` fails
only when all the zones are busy, and returns a free data zone otherwise. -/
theorem bit_allocation (c : Cache σ) (mapPtr : Nat → Link BufPtr) (mapBits bitBlocks origin : Nat)
    (hm : MapPtrs mapPtr bitBlocks) (h0 : bitSet c mapPtr 0 = true)
    (hbits : mapBits ≤ bitBlocks * BLOCK_BITS) :
    (∃ bit c', allocBit c mapPtr mapBits bitBlocks origin = some (bit, c') ∧
      (bit = NO_BIT ↔ ∀ n < mapBits, bitSet c mapPtr n = true) ∧ (bit = NO_BIT → c' = c) ∧
      (bit ≠ NO_BIT → bit < mapBits ∧ ∃ bp, BitTaken c c' mapPtr bitBlocks bit bp)) ∧
    ∀ (sup : SuperPtr → Super) (dev near : Nat) (rip : Inode) (err : Int) (sp : Super),
      (getSuper sup dev).map sup = some sp → ZoneMap c sp →
      ∃ z s', allocZone sup dev near ⟨c, rip, err⟩ = some (z, s') ∧
        (z = NO_ZONE ↔ ∀ z, sp.sFirstdatazone ≤ z → z < sp.sNzones → zoneBusy c sp z) ∧
        (z ≠ NO_ZONE → sp.sFirstdatazone ≤ z ∧ z < sp.sNzones ∧ ¬zoneBusy c sp z) := by
  constructor
  · obtain ⟨bit, c', he, hcase⟩ := allocBit_spec (c := c) hm hbits origin
    refine ⟨bit, c', he, ?_⟩
    rcases hcase with ⟨rfl, rfl, hfull⟩ | ⟨hlt, bp, htaken⟩
    · exact ⟨⟨fun _ => hfull, fun _ => rfl⟩, fun _ => rfl, fun hne => absurd rfl hne⟩
    · have hne : bit ≠ NO_BIT := by
        rintro rfl
        exact absurd (htaken.clear.symm.trans h0) (by decide)
      exact ⟨⟨fun h => absurd h hne, fun hfull =>
        absurd (htaken.clear.symm.trans (hfull bit hlt)) (by decide)⟩, fun h => absurd h hne,
        fun _ => ⟨hlt, bp, htaken⟩⟩
  · intro sup dev near rip err sp hsp hz
    obtain ⟨z, s', he, -, hcase⟩ := hz.allocZone_spec hsp near rip err
    refine ⟨z, s', he, ?_⟩
    rcases hcase with ⟨rfl, rfl, hfull⟩ | ⟨hle, hlt, -, bp, htaken⟩
    · exact ⟨⟨fun _ => hfull, fun _ => rfl⟩, fun hne => absurd rfl hne⟩
    · have hne : z ≠ NO_ZONE := fun h => by
        rw [h] at hle
        exact absurd (hz.first.trans hle) (by decide)
      have hfree : ¬zoneBusy c sp z := fun hb =>
        absurd (htaken.clear.symm.trans hb) (by decide)
      exact ⟨⟨fun h => absurd h hne, fun hfull => absurd (hfull z hle hlt) hfree⟩,
        fun _ => ⟨hle, hlt, hfree⟩⟩

/-- A device of 20 zones, 16 of them for data, whose zone map is in buffer 0. -/
def mappedSuper : Super where
  sNinodes := 32
  sNzones := 20
  sImapBlocks := 1
  sZmapBlocks := 1
  sFirstdatazone := 4
  sLogZoneSize := 0
  sMaxSize := 16384
  sMagic := 0x137F
  sImap _ := .nil
  sZmap _ := .of 0
  sDev := 256
  sIsup := .nil
  sImount := .nil
  sRdOnly := false

/-- An inode of that device. -/
def mappedInode : Inode where
  iMode := 0o100644
  iUid := 0
  iSize := 0
  iModtime := 0
  iGid := 0
  iNlinks := 1
  iZone _ := 0
  iDev := 256
  iNum := 2
  iCount := 1
  iDirt := false
  iPipe := false
  iMount := false

/-- The example's super block has a zone map. -/
theorem zoneMap_mappedSuper : ZoneMap (unpooled (fun _ _ => 1) ()) mappedSuper where
  ptrs := by
    have hone : mappedSuper.sZmapBlocks = 1 := rfl
    exact ⟨by decide, fun _ hb => ⟨0, dif_pos (Nat.lt_of_lt_of_le hb (by decide))⟩,
      fun b hb b' hb' _ => by omega⟩
  first := by decide
  data := by decide
  nzones := by decide
  bits := by decide
  busy := by decide

/-- In a map of one block whose bits 0, 8, 16 and so on are busy, a search from bit 8 on finds
another one, and a zone of the device of this map is found, too. -/
theorem bit_allocation_example :
    (∃ bit c', allocBit (unpooled (fun _ _ => 1) ()) (fun _ => .of 0) 20 1 8 = some (bit, c') ∧
      bit ≠ NO_BIT ∧ bit < 20) ∧
    ∃ z s', allocZone (fun _ => mappedSuper) 256 11 ⟨unpooled (fun _ _ => 1) (), mappedInode, 0⟩ =
      some (z, s') ∧ z ≠ NO_ZONE ∧ 4 ≤ z ∧ z < 20 ∧
        ¬zoneBusy (unpooled (fun _ _ => 1) ()) mappedSuper z := by
  have hm : MapPtrs (fun _ => .of 0) 1 :=
    ⟨by decide, fun _ _ => ⟨0, rfl⟩, fun b hb b' hb' _ => by omega⟩
  obtain ⟨⟨bit, c', he, hfull, -, hbit⟩, hzones⟩ := bit_allocation (unpooled (fun _ _ => 1) ())
    (fun _ => .of 0) 20 1 8 hm (by decide) (by decide)
  have hne : bit ≠ NO_BIT := fun h => absurd (hfull.mp h 1 (by decide)) (by decide)
  obtain ⟨z, s', hz, hall, hdata⟩ := hzones (fun _ => mappedSuper) 256 11 mappedInode 0 mappedSuper
    rfl zoneMap_mappedSuper
  -- the bit of zone 4 is bit 1
  have hfree : bitSet (unpooled (fun _ _ => 1) ()) (zmapPtr mappedSuper)
      (zoneBit mappedSuper 4) = false := by decide
  have hsome : z ≠ NO_ZONE := fun h =>
    absurd ((hall.mp h 4 (by decide) (by decide)).symm.trans hfree) (by decide)
  exact ⟨⟨bit, c', he, hne, (hbit hne).1⟩, z, s', hz, hsome, hdata hsome⟩

end Minix.FS
