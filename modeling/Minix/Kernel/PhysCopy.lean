import Minix.Lib.I8088
import Mathlib.Tactic.IntervalCases

/-!
# `phys_copy`

The routine of `klib88.asm` that copies a block of physical memory, at most 32K at a time. Its
parameters are 32-bit numbers on the stack, and it counts in them.
-/

namespace Minix.Kernel.PhysCopy

open Function I8088 I8088.Reg

/-- The labels of the routine, and the places after a jump. -/
inductive Label where
  | start
  | L0
  | L1
  | L1end
  | L2
  | L2end
  | L2next
  | L3
  | L4
  | L4next
  | L5
  | L6
  | L6next
  | L6end
  | L7
  deriving DecidableEq

/-- `_phys_copy` -/
def physCopy : Label → Block Empty Label
  | .start => {
    body := [.pushf, .cli, .push bp, .push ax, .push bx, .push cx, .push dx, .push si, .push di,
      .push ds, .push es, .mov bp sp] -- set bp to point to saved es
    next := .jmp .L0 }
  | .L0 => {
    body := [.mov ax (.frame 28), .mov di (.frame 26), .mov cx 4]
    next := .jmp .L1 }
  | .L1 => {
    -- click number is destination address / 16
    body := [.rcr ax, .rcr di]
    next := .loop .L1 .L1end }
  | .L1end => {
    body := [.mov es di, .mov ax (.frame 24), .mov si (.frame 22), .mov cx 4]
    next := .jmp .L2 }
  | .L2 => {
    -- click number is source address / 16
    body := [.rcr ax, .rcr si]
    next := .loop .L2 .L2end }
  | .L2end => {
    body := [.mov ds si, .mov di (.frame 26), .and di 0x000F, .mov si (.frame 22), .and si 0x000F,
      .mov dx (.frame 32), .mov cx (.frame 30), .test cx 0x8000]
    next := .jcc .nz .L3 .L2next }
  | .L2next => {
    body := [.test dx 0xFFFF]
    next := .jcc .nz .L3 .L4 }
  | .L3 => {
    body := [.mov cx 0x8000] -- if bytes >= 32768, only do 32768 per iteration
    next := .jmp .L4 }
  | .L4 => {
    body := [.mov ax cx, .test cx 0x0001] -- save actual count used in ax
    next := .jcc .z .L5 .L4next }
  | .L4next => {
    body := [.movsb] -- copy 1 byte at a time
    next := .jmp .L6 }
  | .L5 => {
    body := [.shr cx, .movsw] -- copy 1 word at a time
    next := .jmp .L6 }
  | .L6 => {
    -- dx || cx is 32-bit byte count; bx || ax is 32-bit actual count used
    body := [.mov dx (.frame 32), .mov cx (.frame 30), .xor bx bx, .sub cx ax, .sbb dx bx,
      .or cx cx]
    next := .jcc .nz .L7 .L6next }
  | .L6next => {
    body := [.or dx dx]
    next := .jcc .nz .L7 .L6end }
  | .L6end => {
    body := [.pop es, .pop ds, .pop di, .pop si, .pop dx, .pop cx, .pop bx, .pop ax, .pop bp, .popf]
    next := .ret }
  | .L7 => {
    body := [.mov (.frame 32) dx, .mov (.frame 30) cx, .add (.frame 26) ax, .adc (.frame 28) bx,
      .add (.frame 22) ax, .adc (.frame 24) bx]
    next := .jmp .L0 }

/-- A 32-bit number on the stack. -/
def long (s : Machine Empty) (off : Word) : Nat :=
  (s.stack off).toNat + 65536 * (s.stack (off + 2)).toNat

/-- What `phys_copy` is called with. -/
def source (s : Machine Empty) : Nat := long s (s.reg sp + 2)

/-- The physical address to copy to. -/
def destination (s : Machine Empty) : Nat := long s (s.reg sp + 6)

/-- How many bytes to copy. -/
def bytecount (s : Machine Empty) : Nat := long s (s.reg sp + 10)

/-! ## Clicks -/

/-- A word is rotated with the carry. -/
def rotated (c : Bool) (a : Word) : Word := BitVec.ofBool c ++ a.extractLsb' 1 15

/-- A word rotated through carry, as a number. -/
theorem rotated_toNat (c : Bool) (a : Word) :
    (rotated c a).toNat = a.toNat / 2 + 32768 * c.toNat := by
  have ha := a.isLt
  have hrest : (a.extractLsb' 1 15).toNat = a.toNat / 2 := by
    rw [BitVec.extractLsb'_toNat, Nat.shiftRight_eq_div_pow, Nat.pow_one,
      Nat.mod_eq_of_lt (by omega)]
  unfold rotated
  rw [BitVec.toNat_append, BitVec.toNat_ofBool, hrest,
    ← Nat.shiftLeft_add_eq_or_of_lt (by omega : a.toNat / 2 < 2 ^ 15), Nat.shiftLeft_eq]
  omega

/-- Its lowest bit. -/
theorem bit_toNat (a : Word) : (a.getLsbD 0).toNat = a.toNat % 2 := by
  rw [BitVec.getLsbD, Nat.testBit_zero]
  rcases Nat.mod_two_eq_zero_or_one a.toNat with h | h <;> rw [h] <;> rfl

/-- What most instructions leave alone. -/
structure Steady (s s' : Machine Empty) : Prop where
  bp : s'.reg bp = s.reg bp
  sp : s'.reg sp = s.reg sp
  stack : s'.stack = s.stack
  mem : s'.mem = s.mem
  direction : s'.flags.direction = s.flags.direction

/-- Two stretches that each leave the frame alone. -/
theorem Steady.trans {s s' s'' : Machine Empty} (h : Steady s s') (h' : Steady s' s'') : Steady s s'' :=
  ⟨h'.bp.trans h.bp, h'.sp.trans h.sp, h'.stack.trans h.stack, h'.mem.trans h.mem,
    h'.direction.trans h.direction⟩

/-- The word at `[bp+d]`. -/
def param (s : Machine Empty) (d : Nat) : Word := s.stack (s.frameAt d)

/-- The parameters are as before. -/
theorem Steady.param {s s' : Machine Empty} (h : Steady s s') (d : Nat) :
    param s' d = param s d := by
  unfold PhysCopy.param Machine.frameAt
  rw [h.stack, h.bp]

/-- A turn of the loops that extract a click number. -/
def turn (lo : Reg) (s : Machine Empty) : Machine Empty :=
  ([.rcr ax, .rcr lo].foldl Instr.exec s).setReg cx (s.reg cx - 1)

/-- What a turn leaves. -/
structure Turned (lo : Reg) (s s' : Machine Empty) : Prop extends Steady s s' where
  high : s'.reg ax = rotated s.flags.carry (s.reg ax)
  low : s'.reg lo = rotated ((s.reg ax).getLsbD 0) (s.reg lo)
  carry : s'.flags.carry = (s.reg lo).getLsbD 0
  count : s'.reg cx = s.reg cx - 1
  others : ∀ r, r ≠ ax → r ≠ lo → r ≠ cx → s'.reg r = s.reg r

/-- One rotation of a long. -/
theorem turned_turn {lo : Reg} (h : lo = di ∨ lo = si) (s : Machine Empty) :
    Turned lo s (turn lo s) := by
  have hothers (r : Reg) (ha : r ≠ ax) (hl : r ≠ lo) (hc : r ≠ cx) :
      (turn lo s).reg r = s.reg r := by
    change update (update (update s.reg _ _) _ _) _ _ r = _
    rw [update_of_ne hc, update_of_ne hl, update_of_ne ha]
  rcases h with rfl | rfl <;> exact ⟨⟨rfl, rfl, rfl, rfl, rfl⟩, rfl, rfl, rfl, rfl, hothers⟩

/-- The low word of an address that is shifted by 4. -/
structure Clicked (lo : Reg) (s s' : Machine Empty) : Prop extends Steady s s' where
  click : (s'.reg lo).toNat = (s.reg lo).toNat / 16 + 4096 * ((s.reg ax).toNat % 16)
  others : ∀ r, r ≠ ax → r ≠ lo → r ≠ cx → s'.reg r = s.reg r

/-- And what it does as numbers. -/
theorem Turned.toNat {lo : Reg} {s s' : Machine Empty} (h : Turned lo s s') :
    (s'.reg ax).toNat = (s.reg ax).toNat / 2 + 32768 * s.flags.carry.toNat ∧
      (s'.reg lo).toNat = (s.reg lo).toNat / 2 + 32768 * ((s.reg ax).toNat % 2) ∧
      s'.flags.carry.toNat = (s.reg lo).toNat % 2 := by
  rw [h.high, h.low, h.carry, rotated_toNat, rotated_toNat, bit_toNat, bit_toNat]
  exact ⟨rfl, rfl, rfl⟩

/-- Two turns. -/
theorem Turned.twice {lo : Reg} {s s' s'' : Machine Empty} (h : Turned lo s s')
    (h' : Turned lo s' s'') :
    (s''.reg lo).toNat = (s.reg lo).toNat / 4 + 16384 * ((s.reg ax).toNat % 4) ∧
      (s''.reg ax).toNat % 4 = (s.reg ax).toNat / 4 % 4 := by
  obtain ⟨ha, hd, -⟩ := h.toNat
  obtain ⟨ha', hd', -⟩ := h'.toNat
  have heven : (s'.reg ax).toNat % 2 = (s.reg ax).toNat / 2 % 2 := by omega
  rw [heven] at hd'
  exact ⟨by omega, by omega⟩

/-- Four turns of a loop. -/
theorem clicked {l next : Label} {lo : Reg} (hlo : lo = di ∨ lo = si)
    (hl : physCopy l = { body := [.rcr ax, .rcr lo], next := .loop l next }) {s : Machine Empty}
    (hcx : s.reg cx = 4) :
    ∃ s', Leads physCopy (some l, s) (some next, s') ∧ Clicked lo s s' := by
  have hstep (s : Machine Empty) :
      (physCopy l).exec s = (some (if s.reg cx - 1 ≠ 0 then l else next), turn lo s) := by
    rw [hl]
    rcases hlo with rfl | rfl <;> rfl
  have h₁ := turned_turn hlo s
  have h₂ := turned_turn hlo (turn lo s)
  have h₃ := turned_turn hlo (turn lo (turn lo s))
  have h₄ := turned_turn hlo (turn lo (turn lo (turn lo s)))
  have hc₂ : (turn lo s).reg cx = 3 := by rw [h₁.count, hcx]; rfl
  have hc₃ : (turn lo (turn lo s)).reg cx = 2 := by rw [h₂.count, hc₂]; rfl
  have hc₄ : (turn lo (turn lo (turn lo s))).reg cx = 1 := by rw [h₃.count, hc₃]; rfl
  refine ⟨turn lo (turn lo (turn lo (turn lo s))), ?_, ?_⟩
  · have e₁ := Leads.block (hstep s)
    have e₂ := Leads.block (hstep (turn lo s))
    have e₃ := Leads.block (hstep (turn lo (turn lo s)))
    have e₄ := Leads.block (hstep (turn lo (turn lo (turn lo s))))
    rw [hcx] at e₁
    rw [hc₂] at e₂
    rw [hc₃] at e₃
    rw [hc₄] at e₄
    exact ((e₁.append e₂).append e₃).append e₄
  · refine ⟨((h₁.toSteady.trans h₂.toSteady).trans h₃.toSteady).trans h₄.toSteady, ?_, ?_⟩
    · obtain ⟨hlow, hhigh⟩ := h₁.twice h₂
      obtain ⟨hlow', -⟩ := h₃.twice h₄
      rw [hhigh] at hlow'
      omega
    · intro r ha hr hc
      rw [h₄.others r ha hr hc, h₃.others r ha hr hc, h₂.others r ha hr hc, h₁.others r ha hr hc]

/-! ## A chunk -/

/-- A segment and an offset for the address at `[bp+d]`. -/
structure Aimed (s s' : Machine Empty) (d : Nat) (seg off : Reg) : Prop where
  seg : (s'.reg seg).toNat =
    (param s d).toNat / 16 + 4096 * ((param s (d + 2)).toNat % 16)
  off : (s'.reg off).toNat = (param s d).toNat % 16

/-- Before a chunk is copied. -/
structure Loaded (s s' : Machine Empty) : Prop extends Steady s s' where
  src : Aimed s s' 22 ds si
  dst : Aimed s s' 26 es di

/-- How many bytes are copied at once. -/
def chunk (n : Nat) : Nat := min n 32768

/-- The lowest four bits, as a number. -/
theorem low_nibble (w : Word) : (w &&& 0x000F).toNat = w.toNat % 16 := by
  rw [BitVec.toNat_and]
  exact Nat.and_two_pow_sub_one_eq_mod w.toNat 4

/-- The segments and offsets are computed. -/
theorem loads_addresses (s : Machine Empty) : ∃ s', Leads physCopy (some .L0, s)
      (some (if s'.flags.holds .nz then .L3 else .L2next), s') ∧ Loaded s s' ∧
      s'.reg dx = param s 32 ∧ s'.reg cx = param s 30 ∧
      s'.flags.zero = decide (param s 30 &&& 0x8000 = 0) := by
  let s₁ := ((physCopy .L0).exec s).2
  have h₁ : Steady s s₁ := ⟨rfl, rfl, rfl, rfl, rfl⟩
  obtain ⟨s₂, e₂, h₂⟩ := clicked (l := .L1) (Or.inl rfl) rfl (s := s₁) rfl
  let s₃ := ((physCopy .L1end).exec s₂).2
  have h₃ : Steady s₂ s₃ := ⟨rfl, rfl, rfl, rfl, rfl⟩
  obtain ⟨s₄, e₄, h₄⟩ := clicked (l := .L2) (Or.inr rfl) rfl (s := s₃) rfl
  let s₅ := ((physCopy .L2end).exec s₄).2
  have h₅ : Steady s₄ s₅ := ⟨rfl, rfl, rfl, rfl, rfl⟩
  have h₁₂ := h₁.trans h₂.toSteady
  have h₁₄ := (h₁₂.trans h₃).trans h₄.toSteady
  refine ⟨s₅, ?_, ⟨h₁₄.trans h₅, ⟨?_, ?_⟩, ⟨?_, ?_⟩⟩, ?_, ?_, ?_⟩
  · have e₁ : Leads physCopy (some .L0, s) (some .L1, s₁) := .block rfl
    have e₃ : Leads physCopy (some .L1end, s₂) (some .L2, s₃) := .block rfl
    have e₅ : Leads physCopy (some .L2end, s₄) _ := .block rfl
    exact (((e₁.append e₂).append e₃).append e₄).append e₅
  · have hseg : s₅.reg ds = s₄.reg si := rfl
    have hlow : s₃.reg si = param s₂ 22 := rfl
    have hhigh : s₃.reg ax = param s₂ 24 := rfl
    rw [hseg, h₄.click, hlow, hhigh, h₁₂.param, h₁₂.param]
  · have hoff : s₅.reg si = param s₄ 22 &&& 0x000F := rfl
    rw [hoff, h₁₄.param, low_nibble]
  · have hseg : s₅.reg es = s₄.reg es := rfl
    have hes : s₃.reg es = s₂.reg di := rfl
    have hlow : s₁.reg di = param s 26 := rfl
    have hhigh : s₁.reg ax = param s 28 := rfl
    rw [hseg, h₄.others es (by decide) (by decide) (by decide), hes, h₂.click, hlow, hhigh]
  · have hoff : s₅.reg di = param s₄ 26 &&& 0x000F := rfl
    rw [hoff, h₁₄.param, low_nibble]
  · exact h₁₄.param 32
  · exact h₁₄.param 30
  · have hzero : s₅.flags.zero = decide (param s₄ 30 &&& 0x8000 = 0) := rfl
    rw [hzero, h₁₄.param]

/-- Whether the highest bit is clear. -/
theorem high_bit (w : Word) : w &&& 0x8000 = 0 ↔ w.toNat < 32768 := by
  have hw := w.isLt
  have hand : w &&& 0x8000 = if w.getLsbD 15 then 0x8000 else 0 := BitVec.and_twoPow w 15
  rw [hand, BitVec.getLsbD, Nat.testBit_eq_decide_div_mod_eq]
  by_cases h : w.toNat / 2 ^ 15 % 2 = 1
  · rw [decide_eq_true h]
    exact iff_of_false (by decide) (by omega)
  · rw [decide_eq_false h]
    exact iff_of_true rfl (by omega)

/-- The 32-bit number at `[bp+d]`. -/
def paramLong (s : Machine Empty) (d : Nat) : Nat :=
  (param s d).toNat + 65536 * (param s (d + 2)).toNat

/-- At most 32K are copied at once. -/
theorem loads_count (s : Machine Empty) : ∃ s', Leads physCopy (some .L0, s) (some .L4, s') ∧
    Loaded s s' ∧ (s'.reg cx).toNat = chunk (paramLong s 30) := by
  obtain ⟨s', he, hloaded, hdx, hcx, hzero⟩ := loads_addresses s
  have hmany {s' : Machine Empty} (hle : 32768 ≤ paramLong s 30)
      (he : Leads physCopy (some .L0, s) (some .L3, s')) (hloaded : Loaded s s') :
      ∃ s', Leads physCopy (some .L0, s) (some .L4, s') ∧ Loaded s s' ∧
        (s'.reg cx).toNat = chunk (paramLong s 30) := by
    refine ⟨((physCopy .L3).exec s').2, he.then_block rfl, ⟨hloaded.toSteady.trans
      ⟨rfl, rfl, rfl, rfl, rfl⟩, ⟨hloaded.src.seg, hloaded.src.off⟩,
      ⟨hloaded.dst.seg, hloaded.dst.off⟩⟩, ?_⟩
    exact (Nat.min_eq_right hle).symm
  by_cases hlow : (param s 30).toNat < 32768
  · have hz : s'.flags.zero = true := hzero.trans (decide_eq_true ((high_bit _).mpr hlow))
    have hnext : (if s'.flags.holds .nz then Label.L3 else .L2next) = .L2next := by
      rw [Flags.holds, hz]
      rfl
    rw [hnext] at he
    let s'' := ((physCopy .L2next).exec s').2
    have hstep : Steady s' s'' := ⟨rfl, rfl, rfl, rfl, rfl⟩
    have hloaded' : Loaded s s'' := ⟨hloaded.toSteady.trans hstep,
      ⟨hloaded.src.seg, hloaded.src.off⟩, ⟨hloaded.dst.seg, hloaded.dst.off⟩⟩
    have hzero' : s''.flags.zero = decide (s'.reg dx &&& 0xFFFF = 0) := rfl
    have he' : Leads physCopy (some .L0, s)
      (some (if s''.flags.holds .nz then .L3 else .L4), s'') := he.then_block rfl
    have hones : s'.reg dx &&& 0xFFFF = s'.reg dx := BitVec.and_allOnes
    rw [hones, hdx] at hzero'
    by_cases hhigh : param s 32 = 0
    · rw [Flags.holds, hzero', decide_eq_true hhigh] at he'
      refine ⟨s'', he', hloaded', ?_⟩
      have hlong : paramLong s 30 = (param s 30).toNat := by
        rw [paramLong, hhigh]
        rfl
      have hcx' : s''.reg cx = s'.reg cx := rfl
      rw [hcx', hcx, chunk, hlong, Nat.min_eq_left hlow.le]
    · rw [Flags.holds, hzero', decide_eq_false hhigh] at he'
      have hpos : (param s 32).toNat ≠ 0 := fun h => hhigh (BitVec.eq_of_toNat_eq h)
      have hle : 32768 ≤ (param s 30).toNat + 65536 * (param s 32).toNat := by omega
      exact hmany hle he' hloaded'
  · have hz : s'.flags.zero = false :=
      hzero.trans (decide_eq_false fun h => hlow ((high_bit _).mp h))
    rw [Flags.holds, hz] at he
    have hle : 32768 ≤ (param s 30).toNat + 65536 * (param s 32).toNat := by omega
    exact hmany hle he hloaded

/-- Both ranges of a chunk. -/
structure Fits (s : Machine Empty) (n : Nat) : Prop where
  up : s.flags.direction = false
  src : paramLong s 22 + n ≤ 2 ^ 20
  dst : paramLong s 26 + n ≤ 2 ^ 20
  apart : Apart (paramLong s 22) (paramLong s 26) n

/-- An address below 2^20 is found again. -/
theorem Aimed.phys_eq {s s' : Machine Empty} {d : Nat} {seg off : Reg} (h : Aimed s s' d seg off)
    (hlt : paramLong s d < 2 ^ 20) : phys (s'.reg seg) (s'.reg off) = paramLong s d := by
  have hlow := (param s d).isLt
  unfold phys
  rw [h.seg, h.off]
  unfold paramLong at *
  omega

/-- A segment and an offset that are aimed at an address reach the next bytes without a wrap. -/
theorem Aimed.spans {s s' : Machine Empty} {d n : Nat} {seg off : Reg} (h : Aimed s s' d seg off)
    (hn : n ≤ 32768) (hle : paramLong s d + n ≤ 2 ^ 20) : Spans (s'.reg seg) (s'.reg off) n := by
  have hseg := (s'.reg seg).isLt
  have hlow := (param s d).isLt
  constructor
  · rw [h.off]
    omega
  · rw [h.seg, h.off]
    unfold paramLong at *
    omega

/-- The machine is loaded for a move of one chunk. -/
theorem Loaded.moves {s s' : Machine Empty} {n : Nat} (h : Loaded s s') (hn : n ≤ 32768)
    (hfits : Fits s n) : Moves s' n where
  up := h.direction.trans hfits.up
  src := h.src.spans hn hfits.src
  dst := h.dst.spans hn hfits.dst
  apart := by
    rcases Nat.eq_zero_or_pos n with rfl | hpos
    · exact Nat.le_total _ _
    · rw [h.src.phys_eq (by have := hfits.src; omega), h.dst.phys_eq (by have := hfits.dst; omega)]
      exact hfits.apart

/-- What a move does to the memory. -/
theorem Loaded.move_mem {s s' : Machine Empty} {n : Nat} (h : Loaded s s') (hfits : Fits s n) :
    (s'.move n).mem = copied s.mem (paramLong s 22) (paramLong s 26) n := by
  change copied s'.mem (phys (s'.reg ds) (s'.reg si)) (phys (s'.reg es) (s'.reg di)) n = _
  rcases Nat.eq_zero_or_pos n with rfl | hpos
  · rw [copied_zero, copied_zero, h.mem]
  · rw [h.src.phys_eq (by have := hfits.src; omega), h.dst.phys_eq (by have := hfits.dst; omega),
      h.mem]

/-- What a chunk leaves. -/
structure Chunked (s s' : Machine Empty) (n : Nat) : Prop where
  bp : s'.reg bp = s.reg bp
  sp : s'.reg sp = s.reg sp
  stack : s'.stack = s.stack
  mem : s'.mem = copied s.mem (paramLong s 22) (paramLong s 26) n
  direction : s'.flags.direction = s.flags.direction
  count : (s'.reg ax).toNat = n

/-- And after the move the chunk is copied. -/
theorem Loaded.chunked {s s' : Machine Empty} {n : Nat} (h : Loaded s s') (hfits : Fits s n)
    (hcount : (s'.reg ax).toNat = n) : Chunked s ((s'.move n).setReg cx 0) n :=
  ⟨h.bp, h.sp, h.stack, h.move_mem hfits, h.direction, hcount⟩

/-- Whether a number is even. -/
theorem low_bit (w : Word) : w &&& 0x0001 = 0 ↔ w.toNat % 2 = 0 := by
  have hand : (w &&& 0x0001).toNat = w.toNat % 2 := by
    rw [BitVec.toNat_and]
    exact Nat.and_two_pow_sub_one_eq_mod w.toNat 1
  rw [← BitVec.toNat_inj, hand]
  exact Iff.rfl

/-- A chunk is copied, by words when its size is even. -/
theorem copies_chunk {s : Machine Empty} (hfits : Fits s (chunk (paramLong s 30))) :
    ∃ s', Leads physCopy (some .L0, s) (some .L6, s') ∧ Chunked s s' (chunk (paramLong s 30)) := by
  obtain ⟨s₁, e₁, h₁, hcx⟩ := loads_count s
  have hmany : chunk (paramLong s 30) ≤ 32768 := Nat.min_le_right ..
  revert hfits hcx hmany
  generalize chunk (paramLong s 30) = n
  intro hfits hcx hmany
  let s₂ := ((physCopy .L4).exec s₁).2
  have h₂ : Loaded s s₂ := ⟨h₁.toSteady.trans ⟨rfl, rfl, rfl, rfl, rfl⟩,
    ⟨h₁.src.seg, h₁.src.off⟩, ⟨h₁.dst.seg, h₁.dst.off⟩⟩
  have hcx₂ : (s₂.reg cx).toNat = n := hcx
  have hax₂ : (s₂.reg ax).toNat = n := hcx
  have hzero : s₂.flags.zero = decide (s₁.reg cx &&& 0x0001 = 0) := rfl
  have e₂ : Leads physCopy (some .L0, s) (some (if s₂.flags.holds .z then .L5 else .L4next), s₂) :=
    e₁.then_block rfl
  by_cases heven : n % 2 = 0
  · rw [Flags.holds, hzero, decide_eq_true ((low_bit _).mpr (hcx ▸ heven))] at e₂
    let s₃ := Instr.exec s₂ (.shr cx)
    have h₃ : Loaded s s₃ := ⟨h₂.toSteady.trans ⟨rfl, rfl, rfl, rfl, rfl⟩,
      ⟨h₂.src.seg, h₂.src.off⟩, ⟨h₂.dst.seg, h₂.dst.off⟩⟩
    have hwords : (s₃.reg cx).toNat * 2 = n := by
      have hshift : s₃.reg cx = s₂.reg cx >>> 1 := rfl
      rw [hshift, BitVec.toNat_ushiftRight, Nat.shiftRight_eq_div_pow, hcx₂]
      omega
    have hmoves := h₃.moves hmany hfits
    rw [← hwords] at hmoves
    have hcopy := hmoves.movsw
    rw [hwords] at hcopy
    have hblock : (physCopy .L5).exec s₂ = (some .L6, Instr.exec s₃ .movsw) := rfl
    rw [hcopy] at hblock
    exact ⟨_, e₂.then_block hblock, h₃.chunked hfits hax₂⟩
  · rw [Flags.holds, hzero,
      decide_eq_false fun h => heven (hcx ▸ (low_bit _).mp h)] at e₂
    have hmoves := h₂.moves hmany hfits
    rw [← hcx₂] at hmoves
    have hcopy := hmoves.movsb
    rw [hcx₂] at hcopy
    have hblock : (physCopy .L4next).exec s₂ = (some .L6, Instr.exec s₂ .movsb) := rfl
    rw [hcopy] at hblock
    exact ⟨_, e₂.then_block hblock, h₂.chunked hfits hax₂⟩

/-! ## The count -/

/-- `sub` and `sbb` on the low and the high word of a number. -/
theorem diff_long {lo hi n : Word} (h : n.toNat ≤ lo.toNat + 65536 * hi.toNat) :
    (Machine.diff lo n false).toNat + 65536 * (Machine.diff hi 0 (Machine.borrow lo n false)).toNat =
      lo.toNat + 65536 * hi.toNat - n.toNat := by
  have hlow := Machine.diff_toNat lo n false
  have hhigh := Machine.diff_toNat hi 0 (Machine.borrow lo n false)
  have hlt := (Machine.diff lo n false).isLt
  have hlt' := (Machine.diff hi 0 (Machine.borrow lo n false)).isLt
  have hzero : (0 : Word).toNat = 0 := rfl
  have hb := (Machine.borrow hi 0 (Machine.borrow lo n false)).toNat_le
  rw [Bool.toNat_false] at hlow
  rw [hzero] at hhigh
  omega

/-- `add` and `adc`. -/
theorem sum_long {lo hi n : Word} (h : lo.toNat + 65536 * hi.toNat + n.toNat < 2 ^ 32) :
    (Machine.sum lo n false).toNat + 65536 * (Machine.sum hi 0 (Machine.carryOut lo n false)).toNat =
      lo.toNat + 65536 * hi.toNat + n.toNat := by
  have hlow := Machine.sum_toNat lo n false
  have hhigh := Machine.sum_toNat hi 0 (Machine.carryOut lo n false)
  have hlt := (Machine.sum lo n false).isLt
  have hlt' := (Machine.sum hi 0 (Machine.carryOut lo n false)).isLt
  have hzero : (0 : Word).toNat = 0 := rfl
  rw [Bool.toNat_false] at hlow
  rw [hzero] at hhigh
  omega

/-- What is left to be copied, in `dx || cx`. -/
structure Counted (s s' : Machine Empty) (n : Nat) : Prop extends Steady s s' where
  left : (s'.reg cx).toNat + 65536 * (s'.reg dx).toNat = paramLong s 30 - n
  bytes : (s'.reg ax).toNat = n
  zero : s'.reg bx = 0

/-- The count goes down by the bytes that were copied. -/
theorem counts_down {s : Machine Empty} {n : Nat} (hax : (s.reg ax).toNat = n)
    (hle : n ≤ paramLong s 30) :
    ∃ s', Leads physCopy (some .L6, s)
      (some (if paramLong s 30 - n = 0 then .L6end else .L7), s') ∧ Counted s s' n := by
  let s₁ := ((physCopy .L6).exec s).2
  have hbx : s₁.reg bx = 0 := BitVec.xor_self
  have hcx : s₁.reg cx =
      Machine.diff (param s 30) (s.reg ax) false ||| Machine.diff (param s 30) (s.reg ax) false := rfl
  have hdx : s₁.reg dx = Machine.diff (param s 32) (s.reg bx ^^^ s.reg bx)
      (Machine.borrow (param s 30) (s.reg ax) false) := rfl
  have hzero : s₁.flags.zero = decide (s₁.reg cx = 0) := rfl
  rw [BitVec.or_self] at hcx
  rw [BitVec.xor_self] at hdx
  have h₁ : Counted s s₁ n := by
    refine ⟨⟨rfl, rfl, rfl, rfl, rfl⟩, ?_, hax, hbx⟩
    rw [hcx, hdx, ← hax]
    exact diff_long (hax ▸ hle)
  have e₁ : Leads physCopy (some .L6, s)
      (some (if s₁.flags.holds .nz then .L7 else .L6next), s₁) := .block rfl
  have hleft := h₁.left
  clear_value s₁
  by_cases hlow : s₁.reg cx = 0
  · have hnext : (if s₁.flags.holds .nz then Label.L7 else .L6next) = .L6next := by
      rw [Flags.holds, hzero, decide_eq_true hlow]
      rfl
    rw [hnext] at e₁
    let s₂ := ((physCopy .L6next).exec s₁).2
    have hdx₂ : s₂.reg dx = s₁.reg dx := BitVec.or_self
    have h₂ : Counted s s₂ n := by
      refine ⟨h₁.toSteady.trans ⟨rfl, rfl, rfl, rfl, rfl⟩, ?_, h₁.bytes, h₁.zero⟩
      rw [hdx₂]
      exact h₁.left
    have hzero₂ : s₂.flags.zero = decide (s₂.reg dx = 0) := rfl
    have e₂ : Leads physCopy (some .L6, s)
      (some (if s₂.flags.holds .nz then .L7 else .L6end), s₂) := e₁.then_block rfl
    refine ⟨s₂, ?_, h₂⟩
    rw [hlow] at hleft
    by_cases hhigh : s₂.reg dx = 0
    · rw [Flags.holds, hzero₂, decide_eq_true hhigh] at e₂
      rw [hdx₂] at hhigh
      rw [hhigh] at hleft
      have hdone : paramLong s 30 - n = 0 := hleft.symm
      rw [if_pos hdone]
      exact e₂
    · rw [Flags.holds, hzero₂, decide_eq_false hhigh] at e₂
      have hpos : (s₁.reg dx).toNat ≠ 0 := fun h => hhigh (hdx₂.trans (BitVec.eq_of_toNat_eq h))
      rw [if_neg (by omega)]
      exact e₂
  · rw [Flags.holds, hzero, decide_eq_false hlow] at e₁
    have hpos : (s₁.reg cx).toNat ≠ 0 := fun h => hlow (BitVec.eq_of_toNat_eq h)
    refine ⟨s₁, ?_, h₁⟩
    rw [if_neg (by omega)]
    exact e₁

/-! ## The stack -/

/-- Words of the frame do not overlap. -/
theorem frameAt_inj (s : Machine Empty) {d d' : Nat} (hd : d < 65536) (hd' : d' < 65536)
    (h : s.frameAt d = s.frameAt d') : d = d' := by
  have h' : (BitVec.ofNat 16 d).toNat = (BitVec.ofNat 16 d').toNat :=
    congrArg BitVec.toNat ((BitVec.add_right_inj _).mp h)
  rwa [BitVec.toNat_ofNat, BitVec.toNat_ofNat, Nat.mod_eq_of_lt hd, Nat.mod_eq_of_lt hd'] at h'

/-- A 32-bit number of the frame is replaced. -/
structure Replaced (s s' : Machine Empty) (d n : Nat) : Prop where
  reg : s'.reg = s.reg
  mem : s'.mem = s.mem
  direction : s'.flags.direction = s.flags.direction
  value : paramLong s' d = n
  others : ∀ a, a ≠ s.frameAt d → a ≠ s.frameAt (d + 2) → s'.stack a = s.stack a

namespace Replaced

variable {s s' : Machine Empty} {d n : Nat}

/-- A store in the frame does not move it. -/
theorem frameAt (h : Replaced s s' d n) (k : Nat) : s'.frameAt k = s.frameAt k := by
  unfold Machine.frameAt
  rw [h.reg]

/-- Other parameters are as before. -/
theorem paramLong (h : Replaced s s' d n) (d' : Nat) (hd : d + 2 < 65536) (hd' : d' + 2 < 65536)
    (hne : d + 2 < d' ∨ d' + 2 < d) : paramLong s' d' = paramLong s d' := by
  have hparam (k : Nat) (hk : k = d' ∨ k = d' + 2) : param s' k = param s k := by
    unfold param
    rw [h.frameAt]
    exact h.others _ (fun he => by have := frameAt_inj s (by omega) (by omega) he; omega)
      fun he => by have := frameAt_inj s (by omega) (by omega) he; omega
  unfold PhysCopy.paramLong
  rw [hparam d' (Or.inl rfl), hparam (d' + 2) (Or.inr rfl)]

end Replaced

/-- The parameter that was stored. -/
theorem param_store_self (s : Machine Empty) (d : Nat) (r : Word) (carry overflow : Bool) :
    param (s.store (.frame d) r carry overflow) d = r := update_self ..

/-- The other parameters are as before. -/
theorem param_store_of_ne (s : Machine Empty) {d d' : Nat} (h : s.frameAt d' ≠ s.frameAt d) (r : Word)
    (carry overflow : Bool) : param (s.store (.frame d) r carry overflow) d' = param s d' :=
  update_of_ne h ..

/-- `add` and `adc` on a parameter. -/
theorem adds_long {s : Machine Empty} {d n : Nat} (hd : d + 2 < 65536) (hbx : s.reg bx = 0)
    (hax : (s.reg ax).toNat = n) (hlt : paramLong s d + n < 2 ^ 32) :
    Replaced s ([.add (.frame d) ax, .adc (.frame (d + 2)) bx].foldl Instr.exec s) d
      (paramLong s d + n) := by
  have hne : s.frameAt (d + 2) ≠ s.frameAt d := fun h => by
    have := frameAt_inj s hd (by omega) h
    omega
  let s₁ := s.addc (.frame d) ax false
  have hlow : param s₁ d = Machine.sum (param s d) (s.reg ax) false := param_store_self ..
  have hhigh : s₁.get (.frame (d + 2)) = param s (d + 2) := param_store_of_ne s hne ..
  have hcarry : s₁.flags.carry = Machine.carryOut (param s d) (s.reg ax) false := rfl
  have hbx₁ : s₁.get bx = 0 := hbx
  let s₂ := s₁.addc (.frame (d + 2)) bx s₁.flags.carry
  have hlow₂ : param s₂ d = param s₁ d := param_store_of_ne s₁ hne.symm ..
  have hhigh₂ : param s₂ (d + 2) =
      Machine.sum (s₁.get (.frame (d + 2))) (s₁.get bx) s₁.flags.carry := param_store_self ..
  have hvalue : paramLong s₂ d = paramLong s d + n := by
    rw [paramLong, hlow₂, hhigh₂, hlow, hhigh, hbx₁, hcarry, sum_long (by rw [hax]; exact hlt), hax,
      paramLong]
  exact ⟨rfl, rfl, rfl, hvalue, fun a ha ha' => (update_of_ne ha' ..).trans (update_of_ne ha ..)⟩

/-- The count is stored. -/
theorem stores_count (s : Machine Empty) :
    Replaced s ([.mov (.frame 32) dx, .mov (.frame 30) cx].foldl Instr.exec s) 30
      ((s.reg cx).toNat + 65536 * (s.reg dx).toNat) := by
  have hne : s.frameAt 32 ≠ s.frameAt 30 := fun h =>
    absurd (frameAt_inj s (by decide) (by decide) h) (by decide)
  let s₁ := [Instr.mov (.frame 32) dx, .mov (.frame 30) cx].foldl Instr.exec s
  have hlow : param s₁ 30 = s.reg cx := update_self ..
  have hhigh : param s₁ 32 = s.reg dx := (update_of_ne hne ..).trans (update_self ..)
  refine ⟨rfl, rfl, rfl, ?_, fun a ha ha' => ?_⟩
  · change (param s₁ 30).toNat + 65536 * (param s₁ 32).toNat = _
    rw [hlow, hhigh]
  · exact (update_of_ne ha ..).trans (update_of_ne ha' ..)

/-- The parameters after a chunk. -/
structure Advanced (s s' : Machine Empty) (n : Nat) : Prop where
  reg : s'.reg = s.reg
  mem : s'.mem = s.mem
  direction : s'.flags.direction = s.flags.direction
  src : paramLong s' 22 = paramLong s 22 + n
  dst : paramLong s' 26 = paramLong s 26 + n
  left : paramLong s' 30 = (s.reg cx).toNat + 65536 * (s.reg dx).toNat
  others : ∀ a, (∀ d, 22 ≤ d → d < 34 → a ≠ s.frameAt d) → s'.stack a = s.stack a

/-- The next chunk is described by the parameters. -/
theorem advances {s : Machine Empty} {n : Nat} (hbx : s.reg bx = 0) (hax : (s.reg ax).toNat = n)
    (hsrc : paramLong s 22 + n < 2 ^ 32) (hdst : paramLong s 26 + n < 2 ^ 32) :
    ∃ s', Leads physCopy (some .L7, s) (some .L0, s') ∧ Advanced s s' n := by
  let s₁ := [Instr.mov (.frame 32) dx, .mov (.frame 30) cx].foldl Instr.exec s
  let s₂ := [Instr.add (.frame 26) ax, .adc (.frame 28) bx].foldl Instr.exec s₁
  let s₃ := [Instr.add (.frame 22) ax, .adc (.frame 24) bx].foldl Instr.exec s₂
  have hblock : (physCopy .L7).exec s = (some .L0, s₃) := by
    have hexec : (physCopy .L7).exec s = (some .L0, (physCopy .L7).body.foldl Instr.exec s) := rfl
    have hbody : (physCopy .L7).body = [.mov (.frame 32) dx, .mov (.frame 30) cx] ++
      ([.add (.frame 26) ax, .adc (.frame 28) bx] ++
        [.add (.frame 22) ax, .adc (.frame 24) bx]) := rfl
    rw [hexec, hbody, List.foldl_append, List.foldl_append]
  have h₁ : Replaced s s₁ 30 _ := stores_count s
  clear_value s₁
  have hdst₁ := h₁.paramLong 26 (by decide) (by decide) (by decide)
  have hsrc₁ := h₁.paramLong 22 (by decide) (by decide) (by decide)
  have h₂ : Replaced s₁ s₂ 26 _ := adds_long (by decide) (by rw [h₁.reg, hbx])
    (by rw [h₁.reg, hax]) (by rw [hdst₁]; exact hdst)
  clear_value s₂
  have hreg₂ := h₂.reg.trans h₁.reg
  have hsrc₂ := h₂.paramLong 22 (by decide) (by decide) (by decide)
  have hleft₂ := h₂.paramLong 30 (by decide) (by decide) (by decide)
  have h₃ : Replaced s₂ s₃ 22 _ := adds_long (by decide) (by rw [hreg₂, hbx])
    (by rw [hreg₂, hax]) (by rw [hsrc₂, hsrc₁]; exact hsrc)
  clear_value s₃
  have hdst₃ := h₃.paramLong 26 (by decide) (by decide) (by decide)
  have hleft₃ := h₃.paramLong 30 (by decide) (by decide) (by decide)
  refine ⟨s₃, .block hblock, h₃.reg.trans hreg₂, h₃.mem.trans (h₂.mem.trans h₁.mem),
    h₃.direction.trans (h₂.direction.trans h₁.direction), ?_, ?_, ?_, fun a ha => ?_⟩
  · rw [h₃.value, hsrc₂, hsrc₁]
  · rw [hdst₃, h₂.value, hdst₁]
  · rw [hleft₃, hleft₂, h₁.value]
  · have hne₁ (d : Nat) (h : 22 ≤ d) (h' : d < 34) : a ≠ s₁.frameAt d := by
      rw [h₁.frameAt]
      exact ha d h h'
    have hne₂ (d : Nat) (h : 22 ≤ d) (h' : d < 34) : a ≠ s₂.frameAt d := by
      rw [h₂.frameAt]
      exact hne₁ d h h'
    rw [h₃.others a (hne₂ 22 (by decide) (by decide)) (hne₂ 24 (by decide) (by decide)),
      h₂.others a (hne₁ 26 (by decide) (by decide)) (hne₁ 28 (by decide) (by decide)),
      h₁.others a (ha 30 (by decide) (by decide)) (ha 32 (by decide) (by decide))]

/-! ## Runs -/

/-- The registers that are saved, from the top of the stack. -/
def saved : List Reg := [es, ds, di, si, dx, cx, bx, ax, bp]

/-- An offset in the stack that is neither a parameter nor used for a register. -/
def Outside (s : Machine Empty) (a : Word) : Prop :=
  ∀ d, d < 20 ∨ 22 ≤ d ∧ d < 34 → a ≠ s.reg sp - 20 + BitVec.ofNat 16 d

/-- The registers and the flags are on the stack. -/
structure Framed (s₀ s : Machine Empty) : Prop where
  bp : s.reg bp = s₀.reg sp - 20
  sp : s.reg sp = s₀.reg sp - 20
  regs : ∀ i (h : i < saved.length), param s (2 * i) = s₀.reg (saved.get ⟨i, h⟩)
  flags : param s 18 = s₀.flags.toWord
  direction : s.flags.direction = s₀.flags.direction
  others : ∀ a, Outside s₀ a → s.stack a = s₀.stack a

/-- The call after `k` bytes. -/
structure Running (s₀ s : Machine Empty) (k : Nat) : Prop extends Framed s₀ s where
  src : paramLong s 22 = source s₀ + k
  dst : paramLong s 26 = destination s₀ + k
  left : paramLong s 30 = bytecount s₀ - k
  le : k ≤ bytecount s₀
  mem : s.mem = copied s₀.mem (source s₀) (destination s₀) k

namespace Framed

variable {s₀ s s' : Machine Empty}

/-- A place of the frame, seen from inside the routine. -/
theorem frameAt (h : Framed s₀ s) (d : Nat) :
    s.frameAt d = s₀.reg Reg.sp - 20 + BitVec.ofNat 16 d := by
  unfold Machine.frameAt
  rw [h.bp]
  rfl

/-- Only parameters are stored. -/
theorem congr (h : Framed s₀ s) (hbp : s'.reg Reg.bp = s.reg Reg.bp)
    (hsp : s'.reg Reg.sp = s.reg Reg.sp)
    (hdirection : s'.flags.direction = s.flags.direction)
    (hothers : ∀ a, (∀ d, 22 ≤ d → d < 34 → a ≠ s.frameAt d) → s'.stack a = s.stack a) :
    Framed s₀ s' := by
  have hparam (d : Nat) (hd : d < 20) : param s' d = param s d := by
    have hat : s'.frameAt d = s.frameAt d := by
      unfold Machine.frameAt
      rw [hbp]
    rw [param, hat, hothers _ fun d' hd' hlt he => ?_]
    · rfl
    · have := frameAt_inj s (by omega) (by omega) he
      omega
  refine ⟨hbp.trans h.bp, hsp.trans h.sp, fun i hi => ?_, ?_, hdirection.trans h.direction,
    fun a ha => ?_⟩
  · have hi' : i < 9 := hi
    rw [hparam _ (by omega), h.regs i hi]
  · rw [hparam _ (by decide), h.flags]
  · rw [hothers a fun d hd hlt => ?_, h.others a ha]
    rw [h.frameAt]
    exact ha d (Or.inr ⟨hd, hlt⟩)

end Framed

/-- The registers are saved. -/
theorem enters (s₀ : Machine Empty) : ∃ s, Leads physCopy (some .start, s₀) (some .L0, s) ∧
    Running s₀ s 0 := by
  let s := ((physCopy .start).exec s₀).2
  let ws := [s₀.flags.toWord, s₀.reg bp, s₀.reg ax, s₀.reg bx, s₀.reg cx, s₀.reg dx, s₀.reg si,
    s₀.reg di, s₀.reg ds, s₀.reg es]
  have hblock : (physCopy .start).exec s₀ = (some .L0, s) := rfl
  have hstack : s.stack = pushed s₀.stack (s₀.reg sp) ws := rfl
  have hbp : s.reg bp = s₀.reg sp - 20 := by
    change s₀.reg sp - 2 - 2 - 2 - 2 - 2 - 2 - 2 - 2 - 2 - 2 = _
    bv_omega
  have hsp : s.reg sp = s₀.reg sp - 20 := hbp
  have hdirection : s.flags.direction = s₀.flags.direction := rfl
  have hmem : s.mem = s₀.mem := rfl
  clear_value s
  have hframe (d : Nat) : s.frameAt d = s₀.reg sp - 20 + BitVec.ofNat 16 d := by
    unfold Machine.frameAt
    rw [hbp]
    rfl
  have hsaved (i : Nat) (hi : i < 10) : param s (2 * i) = ws.get ⟨9 - i, by simp [ws]; omega⟩ := by
    have hat : s.frameAt (2 * i) = s₀.reg sp - BitVec.ofNat 16 (2 * (9 - i + 1)) := by
      rw [hframe]
      bv_omega
    rw [param, hstack, hat]
    exact pushed_get (by simp [ws]) _
  have hkept (a : Word) (ha : ∀ d < 20, a ≠ s₀.reg sp - 20 + BitVec.ofNat 16 d) :
      s.stack a = s₀.stack a := by
    rw [hstack]
    refine pushed_of_ne fun i hi => ?_
    have hi : i < 10 := hi
    have hat : s₀.reg sp - BitVec.ofNat 16 (2 * (i + 1)) =
        s₀.reg sp - 20 + BitVec.ofNat 16 (18 - 2 * i) := by
      bv_omega
    rw [hat]
    exact ha (18 - 2 * i) (by omega)
  have hparam (d : Nat) (hd : 22 ≤ d) (hd' : d < 34) :
      param s d = s₀.stack (s₀.reg sp + BitVec.ofNat 16 (d - 20)) := by
    have hat : s.frameAt d = s₀.reg sp + BitVec.ofNat 16 (d - 20) := by
      rw [hframe]
      bv_omega
    rw [param, hkept _ fun d' h' => ?_, hat]
    rw [hframe]
    bv_omega
  have hlong (d : Nat) (hd : 22 ≤ d) (hd' : d + 2 < 34) :
      paramLong s d = long s₀ (s₀.reg sp + BitVec.ofNat 16 (d - 20)) := by
    have hat : s₀.reg sp + BitVec.ofNat 16 (d + 2 - 20) =
        s₀.reg sp + BitVec.ofNat 16 (d - 20) + 2 := by
      bv_omega
    rw [paramLong, hparam d hd (by omega), hparam (d + 2) (by omega) hd', long, hat]
  refine ⟨s, .block hblock, ⟨hbp, hsp, ?_, hsaved 9 (by decide), hdirection, ?_⟩,
    hlong 22 (by decide) (by decide), hlong 26 (by decide) (by decide),
    hlong 30 (by decide) (by decide), Nat.zero_le _, ?_⟩
  · intro i hi
    have hi' : i < 9 := hi
    rw [hsaved i (by omega)]
    interval_cases i <;> rfl
  · exact fun a ha => hkept a fun d hd => ha d (Or.inl hd)
  · rw [hmem, copied_zero]

/-- What `phys_copy` is called with: neither range passes 2^20, and they do not overlap. The
direction flag is clear: no code sets it. -/
structure Copyable (s : Machine Empty) : Prop where
  up : s.flags.direction = false
  src : source s + bytecount s ≤ 2 ^ 20
  dst : destination s + bytecount s ≤ 2 ^ 20
  apart : Apart (source s) (destination s) (bytecount s)

/-- The state when `phys_copy` returns. -/
structure Returned (s₀ s : Machine Empty) : Prop where
  bytes : ∀ i < bytecount s₀, s.mem (destination s₀ + i) = s₀.mem (source s₀ + i)
  rest : ∀ a, a < destination s₀ ∨ destination s₀ + bytecount s₀ ≤ a → s.mem a = s₀.mem a
  regs : ∀ r, r ≠ sp → s.reg r = s₀.reg r
  sp : s.reg sp = s₀.reg sp + 2
  flags : s.flags = s₀.flags
  others : ∀ a, Outside s₀ a → s.stack a = s₀.stack a

/-- While the loop runs, the next chunk fits. -/
theorem Running.fits {s₀ s : Machine Empty} {k n : Nat} (hc : Copyable s₀) (h : Running s₀ s k)
    (hn : k + n ≤ bytecount s₀) : Fits s n where
  up := h.direction.trans hc.up
  src := by have := hc.src; rw [h.src]; omega
  dst := by have := hc.dst; rw [h.dst]; omega
  apart := by
    have := hc.apart
    rw [h.src, h.dst]
    unfold Apart at *
    omega

/-- The registers are restored. -/
theorem returns {s₀ s : Machine Empty} (h : Framed s₀ s)
    (hmem : s.mem = copied s₀.mem (source s₀) (destination s₀) (bytecount s₀)) :
    ∃ s', Leads physCopy (some .L6end, s) (none, s') ∧ Returned s₀ s' := by
  let s' := ((physCopy .L6end).exec s).2
  have hblock : (physCopy .L6end).exec s = (none, s') := rfl
  have hframe (d : Nat) : s.frameAt d = s.reg sp + BitVec.ofNat 16 d := by
    unfold Machine.frameAt
    rw [h.bp, h.sp]
    rfl
  -- the `i`-th word from the top
  have hpop (i : Nat) (hi : i < saved.length) (a : Word)
      (ha : a = s.reg sp + BitVec.ofNat 16 (2 * i)) : s.stack a = s₀.reg (saved.get ⟨i, hi⟩) := by
    rw [← h.regs i hi, param, hframe, ha]
  have hmem' : s'.mem = copied s₀.mem (source s₀) (destination s₀) (bytecount s₀) := hmem
  refine ⟨s', .block hblock, fun i hi => ?_, fun a ha => ?_, ?_, ?_, ?_, h.others⟩
  · rw [hmem', copied_at _ _ _ hi]
  · rw [hmem', copied_of_outside _ _ ha]
  · intro r hr
    cases r with
    | ax => exact hpop 7 (by decide) (s.reg sp + 2 + 2 + 2 + 2 + 2 + 2 + 2) (by bv_omega)
    | bx => exact hpop 6 (by decide) (s.reg sp + 2 + 2 + 2 + 2 + 2 + 2) (by bv_omega)
    | cx => exact hpop 5 (by decide) (s.reg sp + 2 + 2 + 2 + 2 + 2) (by bv_omega)
    | dx => exact hpop 4 (by decide) (s.reg sp + 2 + 2 + 2 + 2) (by bv_omega)
    | si => exact hpop 3 (by decide) (s.reg sp + 2 + 2 + 2) (by bv_omega)
    | di => exact hpop 2 (by decide) (s.reg sp + 2 + 2) (by bv_omega)
    | bp => exact hpop 8 (by decide) (s.reg sp + 2 + 2 + 2 + 2 + 2 + 2 + 2 + 2) (by bv_omega)
    | sp => exact absurd rfl hr
    | ds => exact hpop 1 (by decide) (s.reg sp + 2) (by bv_omega)
    | es => exact hpop 0 (by decide) (s.reg sp) (by bv_omega)
  · change s.reg sp + 2 + 2 + 2 + 2 + 2 + 2 + 2 + 2 + 2 + 2 + 2 = _
    rw [h.sp]
    bv_omega
  · change Flags.ofWord (s.stack (s.reg sp + 2 + 2 + 2 + 2 + 2 + 2 + 2 + 2 + 2)) = _
    have hat : s.reg sp + 2 + 2 + 2 + 2 + 2 + 2 + 2 + 2 + 2 = s.frameAt 18 := by
      rw [hframe]
      bv_omega
    have hflags : s.stack (s.frameAt 18) = s₀.flags.toWord := h.flags
    rw [hat, hflags, Flags.ofWord_toWord]

/-- One chunk more. -/
theorem Running.step {s₀ s : Machine Empty} {k : Nat} (hc : Copyable s₀) (h : Running s₀ s k) :
    (∃ s', Leads physCopy (some .L0, s) (none, s') ∧ Returned s₀ s') ∨
      ∃ s' n, Leads physCopy (some .L0, s) (some .L0, s') ∧ 0 < n ∧ Running s₀ s' (k + n) := by
  have hle := h.le
  have hleft := h.left
  have hsum : k + chunk (paramLong s 30) ≤ bytecount s₀ := by
    unfold chunk
    omega
  have hpos : paramLong s 30 ≠ chunk (paramLong s 30) → 0 < chunk (paramLong s 30) := by
    unfold chunk
    omega
  have hmany : chunk (paramLong s 30) ≤ paramLong s 30 := Nat.min_le_left ..
  obtain ⟨s₁, e₁, h₁⟩ := copies_chunk (h.fits hc hsum)
  revert h₁ hsum hpos hmany
  generalize chunk (paramLong s 30) = n
  intro hsum hpos hmany h₁
  have hlong₁ (d : Nat) : paramLong s₁ d = paramLong s d := by
    unfold paramLong param Machine.frameAt
    rw [h₁.bp, h₁.stack]
  obtain ⟨s₂, e₂, h₂⟩ := counts_down h₁.count (by rw [hlong₁]; exact hmany)
  have hlong₂ (d : Nat) : paramLong s₂ d = paramLong s d := by
    unfold paramLong
    rw [h₂.param, h₂.param]
    exact hlong₁ d
  have hmem₂ : s₂.mem = copied s₀.mem (source s₀) (destination s₀) (k + n) := by
    rw [h₂.mem, h₁.mem, h.mem, h.src, h.dst]
    refine copied_copied ?_
    have := hc.apart
    unfold Apart at *
    omega
  have hframed₂ : Framed s₀ s₂ := h.toFramed.congr (h₂.bp.trans h₁.bp) (h₂.sp.trans h₁.sp)
    (h₂.direction.trans h₁.direction) fun a _ => by rw [h₂.stack, h₁.stack]
  rw [hlong₁] at e₂
  by_cases hdone : paramLong s 30 - n = 0
  · rw [if_pos hdone] at e₂
    have hall : k + n = bytecount s₀ := by omega
    obtain ⟨s', e', hs'⟩ := returns hframed₂ (hall ▸ hmem₂)
    exact Or.inl ⟨s', ((e₁.append e₂).append e'), hs'⟩
  · rw [if_neg hdone] at e₂
    have hsrc := hc.src
    have hdst := hc.dst
    obtain ⟨s₃, e₃, h₃⟩ := advances h₂.zero h₂.bytes (by rw [hlong₂, h.src]; omega)
      (by rw [hlong₂, h.dst]; omega)
    refine Or.inr ⟨s₃, n, (e₁.append e₂).append e₃, hpos (by omega),
      hframed₂.congr (by rw [h₃.reg]) (by rw [h₃.reg]) h₃.direction h₃.others, ?_, ?_, ?_, hsum,
      h₃.mem.trans hmem₂⟩
    · rw [h₃.src, hlong₂, h.src, Nat.add_assoc]
    · rw [h₃.dst, hlong₂, h.dst, Nat.add_assoc]
    · rw [h₃.left, h₂.left, hlong₁]
      omega

/-- The rest of a call. -/
theorem Running.finishes {s₀ s : Machine Empty} {k : Nat} (hc : Copyable s₀) (h : Running s₀ s k) :
    ∃ s', Leads physCopy (some .L0, s) (none, s') ∧ Returned s₀ s' := by
  rcases h.step hc with hdone | ⟨s₁, n, he, hn, h₁⟩
  · exact hdone
  · obtain ⟨s', he', hs'⟩ := h₁.finishes hc
    exact ⟨s', he.append he', hs'⟩
termination_by bytecount s₀ - k
decreasing_by
  have := h₁.le
  omega

/-- `phys_copy` terminates. It copies as many bytes as it is told to, changes no other byte, and
leaves the registers and the flags as they were. -/
theorem phys_copy_copies {s₀ : Machine Empty} (hc : Copyable s₀) :
    ∃ s, Leads physCopy (some .start, s₀) (none, s) ∧ Returned s₀ s := by
  obtain ⟨s₁, he, h⟩ := enters s₀
  obtain ⟨s, he', hs⟩ := h.finishes hc
  exact ⟨s, he.append he', hs⟩

/-- A call that copies 98304 bytes, more than a chunk, from 16 to 262144. -/
def longCall : Machine Empty where
  reg r := if r = sp then 100 else 7
  flags := ⟨true, false, false, true, true, false⟩
  stack a := if a = 102 then 16 else if a = 108 then 4 else if a = 110 then 0x8000 else
    if a = 112 then 1 else 0
  var := nofun
  mem a := UInt8.ofNat a
  input _ := 0

/-- The second chunk of the call is copied, too, and the byte behind it is not. -/
theorem phys_copy_chunks :
    ∃ s, Leads physCopy (some .start, longCall) (none, s) ∧ Returned longCall s ∧
      s.mem (262144 + 98303) = UInt8.ofNat (16 + 98303) ∧
      s.mem (262144 + 98304) = UInt8.ofNat (262144 + 98304) := by
  have hc : Copyable longCall := ⟨rfl, by decide, by decide, Or.inl (by decide)⟩
  obtain ⟨s, he, hs⟩ := phys_copy_copies hc
  have hsrc : source longCall = 16 := by decide
  have hdst : destination longCall = 262144 := by decide
  have hcount : bytecount longCall = 98304 := by decide
  have hlast := hs.bytes 98303 (by omega)
  have hbehind := hs.rest (262144 + 98304) (Or.inr (by omega))
  rw [hsrc, hdst] at hlast
  exact ⟨s, he, hs, hlast, hbehind⟩

end Minix.Kernel.PhysCopy
