import Mathlib.Data.BitVec
import Mathlib.Logic.Function.Iterate
import Mathlib.Logic.Relation
import Minix.Lib.Literals

/-!
# Programs of the 8088

Instructions on words, string instructions and jumps. The stack segment and the static variables of
a program are apart from the memory that string instructions reach. Of the flags there are those
that an instruction here reads. What comes in from ports is a stream.
-/

namespace I8088

open Function

/-- A machine word. -/
abbrev Word : Type := BitVec 16

/-- The registers that a block can name. -/
inductive Reg where
  | ax
  | bx
  | cx
  | dx
  | si
  | di
  | bp
  | sp
  | ds
  | es
  deriving DecidableEq

/-- The flags that are kept. -/
structure Flags where
  carry : Bool
  zero : Bool
  sign : Bool
  overflow : Bool
  /-- interrupts are enabled -/
  interrupt : Bool
  /-- string instructions go downwards -/
  direction : Bool
  deriving DecidableEq

/-- The state of a program with static variables `ν`. -/
structure Machine (ν : Type) where
  reg : Reg → Word
  flags : Flags
  /-- the words of the stack segment, by their offset -/
  stack : Word → Word
  var : ν → Word
  /-- the bytes by their physical address -/
  mem : Nat → UInt8
  input : Nat → UInt8

/-- An operand is a register, a number, the word at `[bp+d]` or a variable. -/
inductive Operand (ν : Type) where
  | reg (r : Reg)
  | imm (w : Word)
  | frame (d : Nat)
  | var (v : ν)

/-- An instruction; its target comes first. Shifts and rotations are by 1, and the string
instructions have the prefix `rep`. -/
inductive Instr (ν : Type) where
  | mov (dst src : Operand ν)
  | push (src : Operand ν)
  | pop (dst : Operand ν)
  | pushf
  | popf
  | cli
  | rcr (dst : Operand ν)
  | shr (dst : Operand ν)
  | sar (dst : Operand ν)
  | and (dst src : Operand ν)
  | or (dst src : Operand ν)
  | xor (dst src : Operand ν)
  | test (dst src : Operand ν)
  | add (dst src : Operand ν)
  | adc (dst src : Operand ν)
  | sub (dst src : Operand ν)
  | sbb (dst src : Operand ν)
  | cmp (dst src : Operand ν)
  | movsb
  | movsw
  | stosw
  /-- a byte is read from a port into the low byte of `ax` -/
  | inb

/-- The condition of a jump. -/
inductive Cond where
  | z
  | nz
  | le

/-- How a block ends: where it goes on when the condition holds, and when it does not. -/
inductive Jump (L : Type) where
  | jmp (l : L)
  | jcc (c : Cond) (l next : L)
  /-- counts `cx` down to zero -/
  | loop (l next : L)
  | ret

/-- Instructions without a label among them. -/
structure Block (ν L : Type) where
  body : List (Instr ν)
  next : Jump L

variable {ν L : Type}

instance : Coe Reg (Operand ν) := ⟨.reg⟩

instance (n : Nat) : OfNat (Operand ν) n := ⟨.imm n⟩

/-! ## Operands -/

/-- The physical address of an offset in a segment. -/
def phys (seg off : Word) : Nat := (seg.toNat * 16 + off.toNat) % 2 ^ 20

namespace Machine

variable (s : Machine ν)

/-- A register is set. -/
def setReg (r : Reg) (w : Word) : Machine ν := { s with reg := update s.reg r w }

/-- A word of the stack segment is set. -/
def setStack (a w : Word) : Machine ν := { s with stack := update s.stack a w }

/-- `[bp+d]`. -/
def frameAt (d : Nat) : Word := s.reg .bp + d

/-- The value of an operand. -/
def get : Operand ν → Word
  | .reg r => s.reg r
  | .imm w => w
  | .frame d => s.stack (s.frameAt d)
  | .var v => s.var v

/-- A value is stored in an operand. -/
def put [DecidableEq ν] (w : Word) : Operand ν → Machine ν
  | .reg r => s.setReg r w
  | .imm _ => s
  | .frame d => s.setStack (s.frameAt d) w
  | .var v => { s with var := update s.var v w }

/-- A word is pushed. -/
def push (w : Word) : Machine ν :=
  (s.setReg .sp (s.reg .sp - 2)).setStack (s.reg .sp - 2) w

/-- The word on top of the stack, and the state without it. -/
def pop : Word × Machine ν := (s.stack (s.reg .sp), s.setReg .sp (s.reg .sp + 2))

end Machine

/-! ## Flags -/

namespace Flags

/-- The flags as they are pushed. -/
def toWord (f : Flags) : Word :=
  (if f.carry then 0x0001 else 0) ||| (if f.zero then 0x0040 else 0) |||
    (if f.sign then 0x0080 else 0) ||| (if f.interrupt then 0x0200 else 0) |||
    (if f.direction then 0x0400 else 0) ||| if f.overflow then 0x0800 else 0

/-- The flags of a word from the stack. -/
def ofWord (w : Word) : Flags where
  carry := w.getLsbD 0
  zero := w.getLsbD 6
  sign := w.getLsbD 7
  interrupt := w.getLsbD 9
  direction := w.getLsbD 10
  overflow := w.getLsbD 11

/-- Flags that were pushed are popped again. -/
@[simp] theorem ofWord_toWord (f : Flags) : ofWord f.toWord = f := by
  obtain ⟨carry, zero, sign, overflow, interrupt, direction⟩ := f
  cases carry <;> cases zero <;> cases sign <;> cases overflow <;> cases interrupt <;>
    cases direction <;> rfl

/-- After a result, with the flags that depend on the operation. -/
def result (f : Flags) (r : Word) (carry overflow : Bool) : Flags :=
  { f with carry := carry, zero := r = 0, sign := r.msb, overflow := overflow }

/-- Whether a jump is taken. -/
def holds (f : Flags) : Cond → Bool
  | .z => f.zero
  | .nz => !f.zero
  | .le => f.zero || f.sign != f.overflow

end Flags

/-! ## Instructions -/

/-- The step of a string instruction on items of this size. -/
def stride (f : Flags) (size : Word) : Word := if f.direction then -size else size

namespace Machine

variable [DecidableEq ν] (s : Machine ν)

/-- A result is stored, and the flags are set. -/
def store (dst : Operand ν) (r : Word) (carry overflow : Bool) : Machine ν :=
  { s.put r dst with flags := s.flags.result r carry overflow }

/-- The sum of two words and a carry. -/
def sum (a b : Word) (c : Bool) : Word := a + b + (BitVec.ofBool c).setWidth 16

/-- The carry of an addition. -/
def carryOut (a b : Word) (c : Bool) : Bool := a.toNat + b.toNat + c.toNat ≥ 2 ^ 16

/-- The overflow of an addition. -/
def sumOverflow (a b : Word) (c : Bool) : Bool :=
  (sum a b c).toInt ≠ a.toInt + b.toInt + c.toInt

/-- An addition with a carry, which sets the flags. -/
def addc (dst src : Operand ν) (c : Bool) : Machine ν :=
  let a := s.get dst
  let b := s.get src
  s.store dst (sum a b c) (carryOut a b c) (sumOverflow a b c)

/-- The difference of two words, less a borrow. -/
def diff (a b : Word) (c : Bool) : Word := a - b - (BitVec.ofBool c).setWidth 16

/-- The borrow of a subtraction. -/
def borrow (a b : Word) (c : Bool) : Bool := a.toNat < b.toNat + c.toNat

/-- The overflow of a subtraction. -/
def diffOverflow (a b : Word) (c : Bool) : Bool :=
  (diff a b c).toInt ≠ a.toInt - b.toInt - c.toInt

/-- A subtraction with a borrow, which sets the flags. -/
def subb (dst src : Operand ν) (c : Bool) : Machine ν :=
  let a := s.get dst
  let b := s.get src
  s.store dst (diff a b c) (borrow a b c) (diffOverflow a b c)

/-- A byte is moved. -/
def moveByte : Machine ν :=
  { s with
    mem := update s.mem (phys (s.reg .es) (s.reg .di)) (s.mem (phys (s.reg .ds) (s.reg .si)))
    reg := update (update s.reg .si (s.reg .si + stride s.flags 1)) .di
      (s.reg .di + stride s.flags 1) }

/-- The bytes of a word are stored. -/
def storeWord (mem : Nat → UInt8) (seg off : Word) (low high : UInt8) : Nat → UInt8 :=
  update (update mem (phys seg off) low) (phys seg (off + 1)) high

/-- A word is moved. -/
def moveWord : Machine ν :=
  { s with
    mem := storeWord s.mem (s.reg .es) (s.reg .di) (s.mem (phys (s.reg .ds) (s.reg .si)))
      (s.mem (phys (s.reg .ds) (s.reg .si + 1)))
    reg := update (update s.reg .si (s.reg .si + stride s.flags 2)) .di
      (s.reg .di + stride s.flags 2) }

/-- The low and the high byte of a word. -/
def lowByte (w : Word) : UInt8 := ⟨w.extractLsb' 0 8⟩

/-- The upper byte of a word. -/
def highByte (w : Word) : UInt8 := ⟨w.extractLsb' 8 8⟩

/-- The word in `ax` is stored. -/
def fillWord : Machine ν :=
  { s with
    mem := storeWord s.mem (s.reg .es) (s.reg .di) (lowByte (s.reg .ax)) (highByte (s.reg .ax))
    reg := update s.reg .di (s.reg .di + stride s.flags 2) }

/-- The prefix `rep`. -/
def rep (f : Machine ν → Machine ν) : Machine ν := (f^[(s.reg .cx).toNat] s).setReg .cx 0

end Machine

/-- What an instruction does. -/
def Instr.exec [DecidableEq ν] (s : Machine ν) : Instr ν → Machine ν
  | .mov dst src => s.put (s.get src) dst
  | .push src => s.push (s.get src)
  | .pop dst => s.pop.2.put s.pop.1 dst
  | .pushf => s.push s.flags.toWord
  | .popf => { s.pop.2 with flags := .ofWord s.pop.1 }
  | .cli => { s with flags := { s.flags with interrupt := false } }
  | .rcr dst =>
    let a := s.get dst
    let r := (BitVec.ofBool s.flags.carry ++ a.extractLsb' 1 15 : Word)
    { s.put r dst with
      flags := { s.flags with carry := a.getLsbD 0, overflow := r.msb != r.getLsbD 14 } }
  | .shr dst =>
    let a := s.get dst
    s.store dst (a >>> 1) (a.getLsbD 0) a.msb
  | .sar dst =>
    let a := s.get dst
    s.store dst (a.sshiftRight 1) (a.getLsbD 0) false
  | .and dst src => s.store dst (s.get dst &&& s.get src) false false
  | .or dst src => s.store dst (s.get dst ||| s.get src) false false
  | .xor dst src => s.store dst (s.get dst ^^^ s.get src) false false
  | .test dst src => { s with flags := s.flags.result (s.get dst &&& s.get src) false false }
  | .add dst src => s.addc dst src false
  | .adc dst src => s.addc dst src s.flags.carry
  | .sub dst src => s.subb dst src false
  | .sbb dst src => s.subb dst src s.flags.carry
  | .cmp dst src => { s with flags := (s.subb dst src false).flags }
  | .movsb => s.rep .moveByte
  | .movsw => s.rep .moveWord
  | .stosw => s.rep .fillWord
  | .inb =>
    { s with
      reg := update s.reg .ax ((s.reg .ax &&& 0xFF00) ||| (s.input 0).toBitVec.setWidth 16)
      input := fun n => s.input (n + 1) }

/-- Where a block goes on. -/
def Jump.exec (s : Machine ν) : Jump L → Option L × Machine ν
  | .jmp l => (some l, s)
  | .jcc c l next => (some (if s.flags.holds c then l else next), s)
  | .loop l next =>
    let s := s.setReg .cx (s.reg .cx - 1)
    (some (if s.reg .cx ≠ 0 then l else next), s)
  | .ret => (none, s.setReg .sp (s.reg .sp + 2))

/-- A block is executed. -/
def Block.exec [DecidableEq ν] (s : Machine ν) (b : Block ν L) : Option L × Machine ν :=
  b.next.exec (b.body.foldl Instr.exec s)

/-- A program gets from one label and state to another; it has returned when there is no label. -/
def Leads [DecidableEq ν] (prog : L → Block ν L) : Option L × Machine ν → Option L × Machine ν → Prop :=
  Relation.ReflTransGen fun x y => ∃ l, x.1 = some l ∧ (prog l).exec x.2 = y

namespace Leads

variable [DecidableEq ν] {prog : L → Block ν L} {l : L} {s : Machine ν} {y z : Option L × Machine ν}

/-- One block. -/
theorem block (h : (prog l).exec s = y) : Leads prog (some l, s) y := .single ⟨l, rfl, h⟩

/-- A run with one more block at its end. -/
theorem then_block (h : Leads prog z (some l, s)) (hy : (prog l).exec s = y) : Leads prog z y :=
  h.tail ⟨l, rfl, hy⟩

/-- Two runs one after the other. -/
theorem append (h : Leads prog z (some l, s)) (hy : Leads prog (some l, s) y) : Leads prog z y :=
  h.trans hy

end Leads

/-! ## Arithmetic -/

/-- A carry as a number. -/
theorem carry_toNat (c : Bool) : ((BitVec.ofBool c).setWidth 16).toNat = c.toNat := by
  cases c <;> rfl

/-- A sum without a carry. -/
@[simp] theorem Machine.sum_false (a b : Word) : sum a b false = a + b := BitVec.add_zero _

/-- A sum with its carry is exact. -/
theorem Machine.sum_toNat (a b : Word) (c : Bool) :
    (sum a b c).toNat + 65536 * (carryOut a b c).toNat = a.toNat + b.toNat + c.toNat := by
  have ha := a.isLt
  have hb := b.isLt
  have hc := c.toNat_le
  rw [sum, BitVec.toNat_add, BitVec.toNat_add, carry_toNat]
  unfold carryOut
  by_cases h : a.toNat + b.toNat + c.toNat ≥ 2 ^ 16
  · rw [decide_eq_true h, Bool.toNat_true]
    omega
  · rw [decide_eq_false h, Bool.toNat_false]
    omega

/-- A difference with its borrow is exact. -/
theorem Machine.diff_toNat (a b : Word) (c : Bool) :
    (diff a b c).toNat + b.toNat + c.toNat = a.toNat + 65536 * (borrow a b c).toNat := by
  have ha := a.isLt
  have hb := b.isLt
  have hc := c.toNat_le
  rw [diff, BitVec.toNat_sub, BitVec.toNat_sub, carry_toNat]
  unfold borrow
  by_cases h : a.toNat < b.toNat + c.toNat
  · rw [decide_eq_true h, Bool.toNat_true]
    omega
  · rw [decide_eq_false h, Bool.toNat_false]
    omega

/-- Nothing is taken away. -/
@[simp] theorem Machine.diff_zero (a : Word) : diff a 0 false = a :=
  (BitVec.sub_zero _).trans (BitVec.sub_zero a)

/-- The value of a word with its sign. -/
theorem toInt_cases (w : Word) : w.toNat < 32768 ∧ w.toInt = w.toNat ∨
    32768 ≤ w.toNat ∧ w.toInt = w.toNat - 65536 := by
  rw [BitVec.toInt_eq_toNat_cond]
  split
  · exact Or.inl ⟨by omega, rfl⟩
  · exact Or.inr ⟨by omega, rfl⟩

/-- After a comparison `jle` is taken when the first number is not greater than the second one. -/
theorem Flags.holds_le (f : Flags) (a b : Word) (c : Bool) :
    (f.result (Machine.diff a b false) c (Machine.diffOverflow a b false)).holds .le =
      decide (a.toInt ≤ b.toInt) := by
  have hdiff := Machine.diff_toNat a b false
  have hborrow := (Machine.borrow a b false).toNat_le
  have hzero : Machine.diff a b false = 0 ↔ (Machine.diff a b false).toNat = 0 := by
    rw [← BitVec.toNat_inj]
    rfl
  have hsign : (Machine.diff a b false).msb = decide ((Machine.diff a b false).toInt < 0) :=
    BitVec.msb_eq_toInt ..
  have ha := toInt_cases a
  have hb := toInt_cases b
  have hd := toInt_cases (Machine.diff a b false)
  have ha' := a.isLt
  have hb' := b.isLt
  have hd' := (Machine.diff a b false).isLt
  rw [Bool.toNat_false] at hdiff
  unfold Flags.holds Flags.result Machine.diffOverflow
  dsimp only
  rw [hsign, Bool.eq_iff_iff, Bool.or_eq_true, bne_iff_ne, ne_eq, decide_eq_decide,
    decide_eq_true_iff, decide_eq_true_iff, hzero, Bool.toInt_false]
  omega

/-! ## Pushes -/

/-- The stack after words are pushed, the first one at the offset before `top`. -/
def pushed (stack : Word → Word) (top : Word) : List Word → Word → Word
  | [] => stack
  | w :: ws => pushed (update stack (top - 2) w) (top - 2) ws

/-- Where the `i`-th word is pushed. -/
theorem top_sub (top : Word) (i : Nat) :
    top - 2 - BitVec.ofNat 16 (2 * (i + 1)) = top - BitVec.ofNat 16 (2 * (i + 1 + 1)) := by
  have h : BitVec.ofNat 16 (2 * (i + 1 + 1)) = 2 + BitVec.ofNat 16 (2 * (i + 1)) := by
    rw [show 2 * (i + 1 + 1) = 2 + 2 * (i + 1) by omega, BitVec.ofNat_add]
    rfl
  rw [h]
  bv_omega

/-- Pushes change the words below the top only. -/
theorem pushed_of_ne {stack : Word → Word} {top a : Word} {ws : List Word}
    (h : ∀ i < ws.length, a ≠ top - BitVec.ofNat 16 (2 * (i + 1))) :
    pushed stack top ws a = stack a := by
  induction ws generalizing stack top with
  | nil => rfl
  | cons w ws ih =>
    rw [pushed, ih fun i hi => by rw [top_sub]; exact h (i + 1) (Nat.succ_lt_succ hi)]
    exact update_of_ne (h 0 (Nat.succ_pos _)) ..

/-- A word that was pushed is found again. -/
theorem pushed_get {stack : Word → Word} {top : Word} {ws : List Word} (hlen : ws.length < 32768)
    {i : Nat} (hi : i < ws.length) :
    pushed stack top ws (top - BitVec.ofNat 16 (2 * (i + 1))) = ws.get ⟨i, hi⟩ := by
  induction ws generalizing stack top i with
  | nil => exact absurd hi (Nat.not_lt_zero i)
  | cons w ws ih =>
    rw [List.length_cons] at hlen hi
    cases i with
    | zero =>
      rw [pushed, pushed_of_ne]
      · exact update_self ..
      · intro j hj h
        rw [top_sub] at h
        have h := congrArg BitVec.toNat ((BitVec.sub_right_inj _).mp h)
        rw [BitVec.toNat_ofNat, BitVec.toNat_ofNat] at h
        omega
    | succ i =>
      rw [pushed, ← top_sub]
      exact ih (by omega) (by omega)

/-! ## Ranges of a segment -/

/-- So many bytes from an offset on are in the segment and in the memory. -/
structure Spans (seg off : Word) (n : Nat) : Prop where
  segment : off.toNat + n ≤ 2 ^ 16
  memory : seg.toNat * 16 + off.toNat + n ≤ 2 ^ 20

/-- The physical address of an offset in a range that does not wrap. -/
theorem Spans.phys_eq {seg off : Word} {n : Nat} (h : Spans seg off n) (hn : 0 < n) :
    phys seg off = seg.toNat * 16 + off.toNat :=
  Nat.mod_eq_of_lt (by have := h.memory; omega)

/-- The offsets of a stretch do not wrap around. -/
theorem Spans.toNat_add {seg off : Word} {n : Nat} (h : Spans seg off n) {k : Nat} (hk : k < n) :
    (off + BitVec.ofNat 16 k).toNat = off.toNat + k := by
  have := h.segment
  rw [BitVec.toNat_add, BitVec.toNat_ofNat, Nat.add_mod_mod, Nat.mod_eq_of_lt (by omega)]

/-- What is left of a range. -/
theorem Spans.drop {seg off : Word} {n k : Nat} (h : Spans seg off (k + n)) (hn : 0 < n) :
    Spans seg (off + BitVec.ofNat 16 k) n := by
  have hoff : (off + BitVec.ofNat 16 k).toNat = off.toNat + k := h.toNat_add (by omega)
  have := h.segment
  have := h.memory
  exact ⟨by rw [hoff]; omega, by rw [hoff]; omega⟩

/-- The rest of a stretch follows in memory. -/
theorem Spans.phys_drop {seg off : Word} {n k : Nat} (h : Spans seg off (k + n)) (hn : 0 < n) :
    phys seg (off + BitVec.ofNat 16 k) = phys seg off + k := by
  rw [(h.drop hn).phys_eq hn, h.phys_eq (by omega), h.toNat_add (by omega), Nat.add_assoc]

/-- The start of a stretch is one. -/
theorem Spans.take {seg off : Word} {m n : Nat} (h : Spans seg off n) (hm : m ≤ n) :
    Spans seg off m := by
  have := h.segment
  have := h.memory
  exact ⟨by omega, by omega⟩

/-! ## Copies -/

/-- The memory after `n` bytes are copied. -/
def copied (mem : Nat → UInt8) (src dst n : Nat) : Nat → UInt8 := fun a =>
  if dst ≤ a ∧ a < dst + n then mem (src + (a - dst)) else mem a

/-- Two ranges have no byte in common. -/
def Apart (src dst n : Nat) : Prop := src + n ≤ dst ∨ dst + n ≤ src

/-- Nothing is copied. -/
@[simp] theorem copied_zero (mem : Nat → UInt8) (src dst : Nat) : copied mem src dst 0 = mem := by
  funext a
  exact if_neg (by omega)

/-- A copy in two parts. -/
theorem copied_copied {mem : Nat → UInt8} {src dst m n : Nat} (h : Apart src dst (m + n)) :
    copied (copied mem src dst m) (src + m) (dst + m) n = copied mem src dst (m + n) := by
  funext a
  unfold copied
  unfold Apart at h
  by_cases hlow : dst ≤ a ∧ a < dst + m
  · rw [if_neg (by omega), if_pos hlow, if_pos (by omega)]
  · by_cases hhigh : dst + m ≤ a ∧ a < dst + m + n
    · rw [if_pos hhigh, if_neg (by omega), if_pos (by omega)]
      congr 1
      omega
    · rw [if_neg hhigh, if_neg hlow, if_neg (by omega)]

/-- What is copied is found at the destination. -/
theorem copied_at (mem : Nat → UInt8) (src dst : Nat) {n i : Nat} (hi : i < n) :
    copied mem src dst n (dst + i) = mem (src + i) := by
  rw [copied, if_pos (by omega), Nat.add_sub_cancel_left]

/-- The rest of memory stays. -/
theorem copied_of_outside (mem : Nat → UInt8) (src : Nat) {dst n a : Nat}
    (ha : a < dst ∨ dst + n ≤ a) : copied mem src dst n a = mem a := if_neg (by omega)

/-- One byte is copied. -/
theorem copied_one (mem : Nat → UInt8) (src dst : Nat) :
    copied mem src dst 1 = update mem dst (mem src) := by
  funext a
  unfold copied
  by_cases ha : a = dst
  · rw [if_pos (by omega), ha, update_self, Nat.sub_self, Nat.add_zero]
  · rw [if_neg (by omega), update_of_ne ha]

/-- The state after `n` bytes are copied. -/
def Machine.move (s : Machine ν) (n : Nat) : Machine ν :=
  { s with
    mem := copied s.mem (phys (s.reg .ds) (s.reg .si)) (phys (s.reg .es) (s.reg .di)) n
    reg := update (update s.reg .si (s.reg .si + BitVec.ofNat 16 n)) .di
      (s.reg .di + BitVec.ofNat 16 n) }

/-- The source and the destination of a string instruction that goes upwards. -/
structure Moves (s : Machine ν) (n : Nat) : Prop where
  up : s.flags.direction = false
  src : Spans (s.reg .ds) (s.reg .si) n
  dst : Spans (s.reg .es) (s.reg .di) n
  apart : Apart (phys (s.reg .ds) (s.reg .si)) (phys (s.reg .es) (s.reg .di)) n

/-- The source moves on. -/
@[simp] theorem Machine.move_si (s : Machine ν) (n : Nat) :
    (s.move n).reg .si = s.reg .si + BitVec.ofNat 16 n := rfl

/-- So does the destination. -/
@[simp] theorem Machine.move_di (s : Machine ν) (n : Nat) :
    (s.move n).reg .di = s.reg .di + BitVec.ofNat 16 n := rfl

/-- Bytes are copied in two parts. -/
theorem Moves.move_move {s : Machine ν} {m n : Nat} (h : Moves s (m + n)) :
    (s.move m).move n = s.move (m + n) := by
  have hreg : ((s.move m).move n).reg = (s.move (m + n)).reg := by
    funext r
    cases r <;> simp [Machine.move, BitVec.ofNat_add, BitVec.add_assoc]
  have hmem : ((s.move m).move n).mem = (s.move (m + n)).mem := by
    rcases Nat.eq_zero_or_pos n with rfl | hn
    · exact copied_zero ..
    · change copied (s.move m).mem (phys (s.reg .ds) (s.reg .si + BitVec.ofNat 16 m))
        (phys (s.reg .es) (s.reg .di + BitVec.ofNat 16 m)) n = _
      rw [h.src.phys_drop hn, h.dst.phys_drop hn]
      exact copied_copied h.apart
  exact congrArg₂ (fun reg mem => { s with reg := reg, mem := mem }) hreg hmem

/-- What remains to be moved. -/
theorem Moves.drop {s : Machine ν} {m n : Nat} (h : Moves s (m + n)) (hn : 0 < n) :
    Moves (s.move m) n where
  up := h.up
  src := h.src.drop hn
  dst := h.dst.drop hn
  apart := by
    change Apart (phys (s.reg .ds) (s.reg .si + BitVec.ofNat 16 m))
      (phys (s.reg .es) (s.reg .di + BitVec.ofNat 16 m)) n
    rw [h.src.phys_drop hn, h.dst.phys_drop hn]
    have := h.apart
    unfold Apart at *
    omega

/-- Fewer bytes can be moved as well. -/
theorem Moves.take {s : Machine ν} {m n : Nat} (h : Moves s n) (hm : m ≤ n) : Moves s m where
  up := h.up
  src := h.src.take hm
  dst := h.dst.take hm
  apart := by
    have := h.apart
    unfold Apart at *
    omega

/-- No bytes are moved. -/
theorem Machine.move_zero (s : Machine ν) : s.move 0 = s := by
  have hreg : (s.move 0).reg = s.reg := by
    funext r
    cases r <;> simp [Machine.move]
  exact congrArg₂ (fun reg mem => { s with reg := reg, mem := mem }) hreg (copied_zero ..)

/-- Items of one size are moved, one after the other. -/
theorem Moves.iterate {f : Machine ν → Machine ν} {size : Nat} (hsize : 0 < size)
    (hf : ∀ s, Moves s size → f s = s.move size) {s : Machine ν} {n : Nat} (h : Moves s (n * size)) :
    f^[n] s = s.move (n * size) := by
  induction n generalizing s with
  | zero => rw [Nat.zero_mul, Machine.move_zero, iterate_zero_apply]
  | succ n ih =>
    have hsum : (n + 1) * size = size + n * size := by rw [Nat.succ_mul, Nat.add_comm]
    rw [hsum] at h ⊢
    rw [iterate_succ_apply, hf s (h.take (Nat.le_add_right ..))]
    rcases Nat.eq_zero_or_pos n with rfl | hn
    · rw [iterate_zero_apply, Nat.zero_mul, Nat.add_zero]
    · rw [ih (h.drop (Nat.mul_pos hn hsize)), h.move_move]

/-- `movsb` moves one byte. -/
theorem Moves.moveByte {s : Machine ν} (h : Moves s 1) : s.moveByte = s.move 1 := by
  unfold Machine.moveByte Machine.move stride
  rw [h.up, copied_one]
  rfl

/-- The bytes of a word in a range. -/
theorem Spans.storeWord {seg off : Word} (h : Spans seg off 2) (mem : Nat → UInt8)
    (low high : UInt8) : Machine.storeWord mem seg off low high =
      update (update mem (phys seg off) low) (phys seg off + 1) high := by
  rw [Machine.storeWord, ← h.phys_drop (k := 1) (n := 1) Nat.one_pos]
  rfl

/-- `movsw` moves two. -/
theorem Moves.moveWord {s : Machine ν} (h : Moves s 2) : s.moveWord = s.move 2 := by
  have hsrc : phys (s.reg .ds) (s.reg .si + 1) = phys (s.reg .ds) (s.reg .si) + 1 :=
    h.src.phys_drop (k := 1) (n := 1) Nat.one_pos
  have hreg : s.moveWord.reg = (s.move 2).reg := by
    unfold Machine.moveWord Machine.move stride
    rw [h.up]
    rfl
  have hmem : s.moveWord.mem = (s.move 2).mem := by
    change Machine.storeWord s.mem (s.reg .es) (s.reg .di) _ _ = copied s.mem _ _ 2
    rw [h.dst.storeWord, hsrc, ← copied_copied (m := 1) (n := 1) h.apart, copied_one, copied_one]
    congr 1
    have := h.apart
    rw [update_of_ne (by unfold Apart at this; omega)]
  exact congrArg₂ (fun reg mem => { s with reg := reg, mem := mem }) hreg hmem

/-- `rep movsb` -/
theorem Moves.movsb [DecidableEq ν] {s : Machine ν} (h : Moves s (s.reg .cx).toNat) :
    Instr.exec s .movsb = (s.move (s.reg .cx).toNat).setReg .cx 0 := by
  have hmul : (s.reg .cx).toNat * 1 = (s.reg .cx).toNat := Nat.mul_one _
  rw [← hmul] at h ⊢
  exact congrArg (Machine.setReg · .cx 0)
    (h.iterate Nat.one_pos fun _ => Moves.moveByte)

/-- `rep movsw` -/
theorem Moves.movsw [DecidableEq ν] {s : Machine ν} (h : Moves s ((s.reg .cx).toNat * 2)) :
    Instr.exec s .movsw = (s.move ((s.reg .cx).toNat * 2)).setReg .cx 0 :=
  congrArg (Machine.setReg · .cx 0) (h.iterate Nat.two_pos fun _ => Moves.moveWord)

/-! ## Words in the memory -/

/-- The memory after `n` words are stored in order, each as its low and its high byte. -/
def stores (mem : Nat → UInt8) (addr : Nat → Nat) (w : Nat → UInt8 × UInt8) : Nat → Nat → UInt8
  | 0 => mem
  | n + 1 => update (update (stores mem addr w n) (addr n) (w n).1) (addr n + 1) (w n).2

/-- Stores of the same words at the same addresses. -/
theorem stores_congr {mem : Nat → UInt8} {addr addr' : Nat → Nat} {w w' : Nat → UInt8 × UInt8}
    {n : Nat} (haddr : ∀ i < n, addr i = addr' i) (hw : ∀ i < n, w i = w' i) :
    stores mem addr w n = stores mem addr' w' n := by
  induction n with
  | zero => rfl
  | succ n ih =>
    rw [stores, stores, ih (fun i hi => haddr i (Nat.lt_succ_of_lt hi))
      (fun i hi => hw i (Nat.lt_succ_of_lt hi)), haddr n (Nat.lt_succ_self n),
      hw n (Nat.lt_succ_self n)]

/-- Words are stored in two parts. -/
theorem stores_add (mem : Nat → UInt8) (addr : Nat → Nat) (w : Nat → UInt8 × UInt8) (m n : Nat) :
    stores (stores mem addr w m) (fun i => addr (m + i)) (fun i => w (m + i)) n =
      stores mem addr w (m + n) := by
  induction n with
  | zero => rfl
  | succ n ih => rw [stores, ih, ← Nat.add_assoc, stores]

/-- Nothing else is stored. -/
theorem stores_of_ne {mem : Nat → UInt8} {addr : Nat → Nat} {w : Nat → UInt8 × UInt8} {n a : Nat}
    (h : ∀ i < n, a ≠ addr i ∧ a ≠ addr i + 1) : stores mem addr w n a = mem a := by
  induction n with
  | zero => rfl
  | succ n ih =>
    obtain ⟨hlow, hhigh⟩ := h n (Nat.lt_succ_self n)
    rw [stores, update_of_ne hhigh, update_of_ne hlow, ih fun i hi => h i (Nat.lt_succ_of_lt hi)]

/-- A copy, word by word. -/
theorem copied_eq_stores {mem : Nat → UInt8} {src dst n : Nat} (h : Apart src dst (n * 2)) :
    copied mem src dst (n * 2) =
      stores mem (fun i => dst + 2 * i)
        (fun i => (mem (src + 2 * i), mem (src + 2 * i + 1))) n := by
  induction n with
  | zero => exact copied_zero ..
  | succ n ih =>
    unfold Apart at h
    have hold : Apart src dst (n * 2) := by unfold Apart; omega
    have hpair : Apart src dst (n * 2 + (1 + 1)) := by unfold Apart; omega
    have hone : Apart (src + n * 2) (dst + n * 2) (1 + 1) := by unfold Apart; omega
    have hlow : copied mem src dst (n * 2) (src + n * 2) = mem (src + n * 2) :=
      copied_of_outside _ _ (by omega)
    have hhigh : copied mem src dst (n * 2) (src + n * 2 + 1) = mem (src + n * 2 + 1) :=
      copied_of_outside _ _ (by omega)
    rw [stores, ← ih hold, show (n + 1) * 2 = n * 2 + (1 + 1) by omega, ← copied_copied hpair,
      ← copied_copied hone, copied_one, copied_one, update_of_ne (by omega), hlow, hhigh,
      Nat.mul_comm 2 n]

/-- The state after the word in `ax` is stored `n` times. -/
def Machine.fill (s : Machine ν) (n : Nat) : Machine ν :=
  { s with
    mem := stores s.mem (fun i => phys (s.reg .es) (s.reg .di) + 2 * i)
      (fun _ => (Machine.lowByte (s.reg .ax), Machine.highByte (s.reg .ax))) n
    reg := update s.reg .di (s.reg .di + BitVec.ofNat 16 (n * 2)) }

/-- `rep stosw` -/
theorem Spans.stosw [DecidableEq ν] {s : Machine ν} (hup : s.flags.direction = false)
    (h : Spans (s.reg .es) (s.reg .di) ((s.reg .cx).toNat * 2)) :
    Instr.exec s .stosw = (s.fill (s.reg .cx).toNat).setReg .cx 0 := by
  refine congrArg (Machine.setReg · .cx 0) ?_
  revert h
  generalize (s.reg .cx).toNat = n
  intro h
  induction n with
  | zero =>
    have hdi : s.reg .di + BitVec.ofNat 16 (0 * 2) = s.reg .di := by
      rw [Nat.zero_mul]
      exact BitVec.add_zero _
    rw [iterate_zero_apply, Machine.fill, hdi, update_eq_self]
    rfl
  | succ n ih =>
    rw [Nat.succ_mul] at h
    have hat := h.phys_drop Nat.two_pos
    have hword : Machine.storeWord (s.fill n).mem (s.reg .es) (s.reg .di + BitVec.ofNat 16 (n * 2))
        (Machine.lowByte (s.reg .ax)) (Machine.highByte (s.reg .ax)) = (s.fill (n + 1)).mem := by
      rw [(h.drop Nat.two_pos).storeWord, hat, Nat.mul_comm n 2]
      rfl
    have hreg : (s.fill n).fillWord.reg = (s.fill (n + 1)).reg := by
      unfold Machine.fillWord stride Machine.fill
      rw [hup]
      change update (update s.reg .di _) .di (update s.reg .di _ .di + 2) = _
      rw [update_idem, update_self, Nat.succ_mul, BitVec.ofNat_add, ← BitVec.add_assoc]
      rfl
    rw [iterate_succ_apply', ih (h.take (by omega))]
    exact congrArg₂ (fun reg mem => { s with reg := reg, mem := mem }) hreg hword

end I8088
