import Minix.Lib.I8088
import Mathlib.Tactic.IntervalCases

/-!
# `vid_copy`

The routine of `klib88.asm` that copies words to the video RAM, or blanks part of it. What would run
off the end of the video RAM is copied to its base, in another turn with other parameters.
-/

namespace Minix.Kernel.VidCopy

open Function I8088 I8088.Reg

/-- The labels of the routine, and the places after a jump. -/
inductive Label where
  | start
  | vid0
  | vid0next
  | vid1
  | vid3
  | vid4
  | vid4next
  | vid5
  | vid5next
  | vid5last
  | vid6
  | vid7
  deriving DecidableEq

/-- The variables of the kernel that the routine reads and writes. -/
inductive Var where
  /-- 1 if console is color, 0 if it is mono -/
  | color
  /-- 037777 for color (16K) or 07777 for mono -/
  | vidMask
  /-- count of bytes already copied -/
  | tmp
  deriving DecidableEq

/-- the fill character -/
abbrev BLANK : Word := 0x0700

/-- Mask for the 16K of the color display. -/
abbrev C_VID_MASK : Word := 0x3FFF
/-- Mask for the 4K of the monochrome display. -/
abbrev M_VID_MASK : Word := 0x0FFF

/-- `_vid_copy` -/
def vidCopy : Label → Block Var Label
  | .start => {
    body := [.push bp, .mov bp sp, .push si, .push di, .push bx, .push cx, .push dx, .push es]
    next := .jmp .vid0 }
  | .vid0 => {
    -- bx = # characters beyond end of video ram
    body := [.mov si (.frame 4), .mov di (.frame 8), .and di (.var .vidMask), .mov cx (.frame 10),
      .mov dx 0x03DA, .mov bx di, .add bx cx, .add bx cx, .sub bx (.var .vidMask), .sub bx 1]
    next := .jcc .le .vid1 .vid0next }
  | .vid0next => {
    -- bx = # words that don't fit in video ram
    body := [.sar bx, .sub cx bx, .mov (.var .tmp) cx]
    next := .jmp .vid1 }
  | .vid1 => {
    body := [.test (.var .color) 1]
    next := .jcc .z .vid4 .vid3 }
  | .vid3 => {
    -- wait until it comes on (start of retrace)
    body := [.inb, .test ax 0x0008]
    next := .jcc .z .vid3 .vid4 }
  | .vid4 => {
    body := [.pushf, .cli, .mov es (.frame 6), .cmp si 0]
    next := .jcc .z .vid7 .vid4next }
  | .vid4next => {
    body := [.movsw]
    next := .jmp .vid5 }
  | .vid5 => {
    body := [.popf, .cmp bx 0]
    next := .jcc .le .vid6 .vid5next }
  | .vid5next => {
    -- set up residual count; start copying at base of video ram
    body := [.mov (.frame 10) bx, .mov (.frame 8) 0, .cmp (.frame 4) 0]
    next := .jcc .z .vid0 .vid5last }
  | .vid5last => {
    body := [.mov si (.var .tmp), .add si si, .add (.frame 4) si] -- increment buffer pointer
    next := .jmp .vid0 }
  | .vid6 => {
    body := [.pop es, .pop dx, .pop cx, .pop bx, .pop di, .pop si, .pop bp]
    next := .ret }
  | .vid7 => {
    body := [.mov ax (.imm BLANK), .stosw]
    next := .jmp .vid5 }

variable {s s' s'' : Machine Var}

/-! ## The parameters -/

/-- pointer to data to be copied, or a null pointer -/
def buffer (s : Machine Var) : Word := s.stack (s.reg sp + 2)

/-- The second parameter, as it stands on the stack. -/
def videobase (s : Machine Var) : Word := s.stack (s.reg sp + 4)

/-- The third parameter. -/
def offset (s : Machine Var) : Word := s.stack (s.reg sp + 6)

/-- The fourth parameter. -/
def words (s : Machine Var) : Word := s.stack (s.reg sp + 8)

/-- The size of the video RAM. -/
def ramSize (s : Machine Var) : Nat := (s.var .vidMask).toNat + 1

/-- Word `i` of the data, its low byte first. -/
def wordOf (s : Machine Var) (i : Nat) : UInt8 × UInt8 :=
  if buffer s = 0 then (Machine.lowByte BLANK, Machine.highByte BLANK)
  else
    let a := (s.reg ds).toNat * 16 + (buffer s).toNat + 2 * i
    (s.mem a, s.mem (a + 1))

/-- Where word `i` goes. -/
def place (s : Machine Var) (i : Nat) : Nat :=
  (videobase s).toNat * 16 + ((offset s).toNat + 2 * i) % ramSize s

/-- The vertical retrace of a color display comes again and again. -/
def Retraces (input : Nat → UInt8) : Prop := ∀ n, ∃ m, (input (n + m)).toBitVec.getLsbD 3 = true

/-- What `vid_copy` is called with. -/
structure Copyable (s : Machine Var) : Prop where
  up : s.flags.direction = false
  mask : s.var .vidMask = C_VID_MASK ∨ s.var .vidMask = M_VID_MASK
  even : (offset s).toNat % 2 = 0
  fits : (words s).toNat ≤ ramSize s
  ram : (videobase s).toNat * 16 + ramSize s ≤ 2 ^ 20
  span : buffer s ≠ 0 → Spans (s.reg ds) (buffer s) ((words s).toNat * 2)
  apart : buffer s ≠ 0 →
    (s.reg ds).toNat * 16 + (buffer s).toNat + (words s).toNat * 2 ≤ (videobase s).toNat * 16 ∨
      (videobase s).toNat * 16 + ramSize s ≤ (s.reg ds).toNat * 16 + (buffer s).toNat
  retrace : (s.var .color).getLsbD 0 = true → Retraces s.input

/-! ## The split -/

/-- How many words fit before the end of the video RAM, from a byte offset on. -/
def chunk (size off n : Nat) : Nat := min n ((size - off) / 2)

/-- What most instructions leave alone. -/
structure Steady (s s' : Machine Var) : Prop where
  bp : s'.reg bp = s.reg bp
  sp : s'.reg sp = s.reg sp
  ds : s'.reg ds = s.reg ds
  stack : s'.stack = s.stack
  mem : s'.mem = s.mem
  direction : s'.flags.direction = s.flags.direction
  interrupt : s'.flags.interrupt = s.flags.interrupt
  color : s'.var .color = s.var .color
  mask : s'.var .vidMask = s.var .vidMask
  input : ∃ j, s'.input = fun n => s.input (n + j)

/-- Two stretches that each leave the frame alone. -/
theorem Steady.trans (h : Steady s s') (h' : Steady s' s'') : Steady s s'' where
  bp := h'.bp.trans h.bp
  sp := h'.sp.trans h.sp
  ds := h'.ds.trans h.ds
  stack := h'.stack.trans h.stack
  mem := h'.mem.trans h.mem
  direction := h'.direction.trans h.direction
  interrupt := h'.interrupt.trans h.interrupt
  color := h'.color.trans h.color
  mask := h'.mask.trans h.mask
  input := by
    obtain ⟨j, hj⟩ := h.input
    obtain ⟨j', hj'⟩ := h'.input
    refine ⟨j' + j, ?_⟩
    rw [hj', hj]
    exact funext fun n => by rw [← Nat.add_assoc]

/-- The word at `[bp+d]`. -/
def param (s : Machine Var) (d : Nat) : Word := s.stack (s.frameAt d)

/-- The parameters are as before. -/
theorem Steady.param (h : Steady s s') (d : Nat) : param s' d = param s d := by
  unfold VidCopy.param Machine.frameAt
  rw [h.stack, h.bp]

/-- How far the copy runs off the end of the video RAM, in bytes. -/
def overrun (di cx mask : Word) : Word :=
  Machine.diff (Machine.diff (Machine.sum (Machine.sum di cx false) cx false) mask false) 1 false

/-- How far the copy would run over the end of the video ram, as a number. -/
theorem overrun_toInt {di cx mask : Word} (hmask : mask.toNat < 16384)
    (hdi : di.toNat < mask.toNat) (hcx : cx.toNat ≤ mask.toNat + 1) :
    (Machine.diff (Machine.sum (Machine.sum di cx false) cx false) mask false).toInt =
        di.toNat + 2 * cx.toNat - mask.toNat ∧
      (overrun di cx mask).toInt = di.toNat + 2 * cx.toNat - (mask.toNat + 1) := by
  have h₁ := Machine.sum_toNat di cx false
  have h₂ := Machine.sum_toNat (Machine.sum di cx false) cx false
  have h₃ := Machine.diff_toNat (Machine.sum (Machine.sum di cx false) cx false) mask false
  have h₄ := Machine.diff_toNat (Machine.diff (Machine.sum (Machine.sum di cx false) cx false) mask false) 1 false
  have hlt₃ := (Machine.diff (Machine.sum (Machine.sum di cx false) cx false) mask false).isLt
  have hlt₄ := (overrun di cx mask).isLt
  have hint₃ := toInt_cases (Machine.diff (Machine.sum (Machine.sum di cx false) cx false) mask false)
  have hint₄ := toInt_cases (overrun di cx mask)
  have hone : (1 : Word).toNat = 1 := rfl
  rw [Bool.toNat_false] at h₁ h₂ h₃ h₄
  rw [hone] at h₄
  unfold overrun at *
  omega

/-- What is in the registers before a chunk is copied. -/
structure Planned (s s' : Machine Var) : Prop extends Steady s s' where
  si : s'.reg si = param s 4
  di : s'.reg di = param s 8 &&& s.var .vidMask
  count : (s'.reg cx).toNat = chunk (ramSize s) (s'.reg I8088.Reg.di).toNat (param s 10).toNat
  left : (param s 10).toNat = (s'.reg cx).toNat ∧ (s'.reg bx).toInt ≤ 0 ∨
    (s'.reg cx).toNat < (param s 10).toNat ∧ 0 < (s'.reg bx).toInt ∧
      (s'.reg bx).toNat = (param s 10).toNat - (s'.reg cx).toNat ∧ s'.var .tmp = s'.reg cx

/-- The display. -/
structure Display (s : Machine Var) : Prop where
  mask : s.var .vidMask = C_VID_MASK ∨ s.var .vidMask = M_VID_MASK
  even : (param s 8).toNat % 2 = 0
  fits : (param s 10).toNat ≤ ramSize s

/-- The offset, reduced by the mask, is the offset modulo the size of the video ram. -/
theorem Display.start_eq (h : Display s) :
    (param s 8 &&& s.var .vidMask).toNat = (param s 8).toNat % ramSize s := by
  unfold ramSize
  rw [BitVec.toNat_and]
  rcases h.mask with hm | hm <;> rw [hm]
  · exact Nat.and_two_pow_sub_one_eq_mod _ 14
  · exact Nat.and_two_pow_sub_one_eq_mod _ 12

/-- The register after an addition with carry. -/
theorem addc_self (s : Machine Var) (r : Reg) (src : Operand Var) (c : Bool) :
    (s.addc r src c).reg r = Machine.sum (s.reg r) (s.get src) c := update_self ..

/-- The register after a subtraction with borrow. -/
theorem subb_self (s : Machine Var) (r : Reg) (src : Operand Var) (c : Bool) :
    (s.subb r src c).reg r = Machine.diff (s.reg r) (s.get src) c := update_self ..

/-- The overrun is computed. -/
theorem measures (s : Machine Var) : ∃ s₁, Leads vidCopy (some .vid0, s)
      (some (if s₁.flags.holds .le then .vid1 else .vid0next), s₁) ∧ Steady s s₁ ∧
      s₁.reg si = param s 4 ∧ s₁.reg di = param s 8 &&& s.var .vidMask ∧ s₁.reg cx = param s 10 ∧
      s₁.reg bx = overrun (s₁.reg di) (s₁.reg cx) (s.var .vidMask) ∧
      s₁.flags.holds .le = decide ((Machine.diff (Machine.sum (Machine.sum (s₁.reg di) (s₁.reg cx) false)
        (s₁.reg cx) false) (s.var .vidMask) false).toInt ≤ (1 : Word).toInt) := by
  let s₀ := [Instr.mov si (.frame 4), .mov di (.frame 8), .and di (.var .vidMask),
    .mov cx (.frame 10), .mov dx 0x03DA, .mov bx di].foldl Instr.exec s
  have h₀ : Steady s s₀ := ⟨rfl, rfl, rfl, rfl, rfl, rfl, rfl, rfl, rfl, 0, rfl⟩
  have hsi₀ : s₀.reg si = param s 4 := rfl
  have hdi₀ : s₀.reg di = param s 8 &&& s.var .vidMask := rfl
  have hcx₀ : s₀.reg cx = param s 10 := rfl
  have hbx₀ : s₀.reg bx = s₀.reg di := rfl
  let s₁ := s₀.addc bx cx false
  let s₂ := s₁.addc bx cx false
  let s₃ := s₂.subb bx (.var .vidMask) false
  let s₄ := s₃.subb bx 1 false
  have hblock : (vidCopy .vid0).exec s =
      (some (if s₄.flags.holds .le then .vid1 else .vid0next), s₄) := rfl
  clear_value s₀
  have h₁ : s₁.reg bx = Machine.sum (s₀.reg bx) (s₀.reg cx) false := addc_self ..
  have h₂ : s₂.reg bx = Machine.sum (s₁.reg bx) (s₀.reg cx) false := addc_self ..
  have h₃ : s₃.reg bx = Machine.diff (s₂.reg bx) (s₀.var .vidMask) false := subb_self ..
  have h₄ : s₄.reg bx = Machine.diff (s₃.reg bx) 1 false := subb_self ..
  have hle : s₄.flags.holds .le = decide ((s₃.reg bx).toInt ≤ (1 : Word).toInt) :=
    Flags.holds_le ..
  have hsame : Steady s₀ s₄ := ⟨rfl, rfl, rfl, rfl, rfl, rfl, rfl, rfl, rfl, 0, rfl⟩
  have hsi : s₄.reg si = s₀.reg si := rfl
  have hdi : s₄.reg di = s₀.reg di := rfl
  have hcx : s₄.reg cx = s₀.reg cx := rfl
  clear_value s₄
  refine ⟨s₄, .block hblock, h₀.trans hsame, hsi.trans hsi₀, hdi.trans hdi₀, hcx.trans hcx₀, ?_, ?_⟩
  · rw [h₄, h₃, h₂, h₁, hbx₀, hdi, hcx, h₀.mask]
    rfl
  · rw [hle, h₃, h₂, h₁, hbx₀, hdi, hcx, h₀.mask]

/-- How much is copied in this turn. -/
theorem plans (h : Display s) :
    ∃ s', Leads vidCopy (some .vid0, s) (some .vid1, s') ∧ Planned s s' := by
  obtain ⟨s₁, e₁, h₁, hsi, hdi, hcx, hbx, hflags⟩ := measures s
  have hoffset := h.start_eq
  have heven := h.even
  have hfits := h.fits
  have hmask : (s.var .vidMask).toNat = 16383 ∨ (s.var .vidMask).toNat = 4095 := by
    rcases h.mask with hm | hm <;> rw [hm]
    · exact Or.inl rfl
    · exact Or.inr rfl
  rw [← hdi] at hoffset
  unfold ramSize at hoffset hfits
  have hD : (s₁.reg di).toNat < (s.var .vidMask).toNat ∧ (s₁.reg di).toNat % 2 = 0 := by
    rcases hmask with hm | hm <;> rw [hm] at hoffset ⊢ <;> omega
  have hC : (s₁.reg cx).toNat ≤ (s.var .vidMask).toNat + 1 := by
    rw [hcx]
    exact hfits
  obtain ⟨hint, hover⟩ := overrun_toInt (by omega) hD.1 hC
  rw [← hbx] at hover
  have hone : (1 : Word).toInt = 1 := rfl
  rw [hint, hone] at hflags
  have hsize : ramSize s = (s.var .vidMask).toNat + 1 := rfl
  by_cases hall : (s₁.reg di).toNat + 2 * (s₁.reg cx).toNat ≤ ramSize s
  · -- jump if no overrun
    rw [hflags, decide_eq_true (by omega)] at e₁
    refine ⟨s₁, e₁, h₁, hsi, hdi, ?_, Or.inl ⟨by rw [hcx], by omega⟩⟩
    unfold chunk
    rw [← hcx]
    omega
  · have hnext : (if s₁.flags.holds .le then Label.vid1 else .vid0next) = .vid0next := by
      rw [hflags, decide_eq_false (by omega)]
      rfl
    rw [hnext] at e₁
    let s₂ := ((vidCopy .vid0next).exec s₁).2
    have h₂ : Steady s₁ s₂ := ⟨rfl, rfl, rfl, rfl, rfl, rfl, rfl, rfl, rfl, 0, rfl⟩
    have hsi₂ : s₂.reg si = s₁.reg si := rfl
    have hdi₂ : s₂.reg di = s₁.reg di := rfl
    have hbx₂ : s₂.reg bx = (s₁.reg bx).sshiftRight 1 := rfl
    have hcx₂ : s₂.reg cx = Machine.diff (s₁.reg cx) (s₂.reg bx) false := rfl
    have htmp : s₂.var .tmp = s₂.reg cx := rfl
    have e₂ : Leads vidCopy (some .vid0, s) (some .vid1, s₂) := e₁.then_block rfl
    clear_value s₂
    have hhalf : (s₂.reg bx).toInt = (s₁.reg bx).toInt / 2 := by
      rw [hbx₂, BitVec.toInt_sshiftRight, Int.shiftRight_eq_div_pow]
      rfl
    have hb := toInt_cases (s₂.reg bx)
    have hdiff := Machine.diff_toNat (s₁.reg cx) (s₂.reg bx) false
    have hborrow := (Machine.borrow (s₁.reg cx) (s₂.reg bx) false).toNat_le
    have hlt := (s₂.reg cx).isLt
    rw [← hcx₂, Bool.toNat_false] at hdiff
    refine ⟨s₂, e₂, h₁.trans h₂, hsi₂.trans hsi, hdi₂.trans hdi, ?_, Or.inr ⟨?_, ?_, ?_, htmp⟩⟩
    · unfold chunk
      rw [hdi₂, ← hcx]
      omega
    · rw [← hcx]
      omega
    · omega
    · rw [← hcx]
      omega

/-! ## The retrace -/

/-- What waiting leaves. -/
structure Waited (s s' : Machine Var) : Prop extends Steady s s' where
  regs : ∀ r, r ≠ ax → s'.reg r = s.reg r
  tmp : s'.var .tmp = s.var .tmp

/-- A bit of the byte that was read. -/
theorem read_bit (a : Word) (b : UInt8) :
    (a &&& 0xFF00 ||| b.toBitVec.setWidth 16) &&& 0x0008 = 0 ↔ b.toBitVec.getLsbD 3 = false := by
  have hand (w : Word) : w &&& 0x0008 = if w.getLsbD 3 then 0x0008 else 0 := BitVec.and_twoPow w 3
  have hmask : (0xFF00 : Word).getLsbD 3 = false := rfl
  have hbit : (a &&& 0xFF00 ||| b.toBitVec.setWidth 16).getLsbD 3 = b.toBitVec.getLsbD 3 := by
    rw [BitVec.getLsbD_or, BitVec.getLsbD_and, hmask, Bool.and_false, Bool.false_or,
      BitVec.getLsbD_setWidth]
    rfl
  rw [hand, hbit]
  cases b.toBitVec.getLsbD 3
  · exact iff_of_true rfl rfl
  · exact iff_of_false (by decide) (by decide)

/-- Two waits, one after the other. -/
theorem Waited.trans (h : Waited s s') (h' : Waited s' s'') : Waited s s'' :=
  ⟨h.toSteady.trans h'.toSteady, fun r hr => (h'.regs r hr).trans (h.regs r hr),
    h'.tmp.trans h.tmp⟩

/-- The port is read once. -/
theorem polls (s : Machine Var) : ∃ s', Leads vidCopy (some .vid3, s)
      (some (if (s.input 0).toBitVec.getLsbD 3 then .vid4 else .vid3), s') ∧ Waited s s' ∧
      ∀ n, s'.input n = s.input (n + 1) := by
  let s₁ := ((vidCopy .vid3).exec s).2
  have h₁ : Waited s s₁ :=
    ⟨⟨rfl, rfl, rfl, rfl, rfl, rfl, rfl, rfl, rfl, 1, rfl⟩, fun r hr => update_of_ne hr .., rfl⟩
  have hinput (n : Nat) : s₁.input n = s.input (n + 1) := rfl
  have hzero : s₁.flags.zero =
    decide ((s.reg ax &&& 0xFF00 ||| (s.input 0).toBitVec.setWidth 16) &&& 0x0008 = 0) := rfl
  have e₁ : Leads vidCopy (some .vid3, s) (some (if s₁.flags.holds .z then .vid3 else .vid4), s₁) :=
    .block rfl
  clear_value s₁
  refine ⟨s₁, ?_, h₁, hinput⟩
  cases hbit : (s.input 0).toBitVec.getLsbD 3 with
  | true =>
    rw [Flags.holds, hzero, decide_eq_false (by rw [read_bit, hbit]; decide)] at e₁
    exact e₁
  | false =>
    rw [Flags.holds, hzero, decide_eq_true (by rw [read_bit, hbit])] at e₁
    exact e₁

/-- The retrace is waited for. -/
theorem retraced {m : Nat} (hm : (s.input m).toBitVec.getLsbD 3 = true) :
    ∃ s', Leads vidCopy (some .vid3, s) (some .vid4, s') ∧ Waited s s' := by
  induction m generalizing s with
  | zero =>
    obtain ⟨s₁, e₁, h₁, -⟩ := polls s
    rw [hm] at e₁
    exact ⟨s₁, e₁, h₁⟩
  | succ m ih =>
    obtain ⟨s₁, e₁, h₁, hinput⟩ := polls s
    cases hbit : (s.input 0).toBitVec.getLsbD 3 with
    | true =>
      rw [hbit] at e₁
      exact ⟨s₁, e₁, h₁⟩
    | false =>
      rw [hbit] at e₁
      obtain ⟨s₂, e₂, h₂⟩ := ih (s := s₁) (by rw [hinput]; exact hm)
      exact ⟨s₂, e₁.append e₂, h₁.trans h₂⟩

/-- The routine waits for a retrace where there is a color display, and goes on. -/
theorem waits (h : (s.var .color).getLsbD 0 = true → Retraces s.input) :
    ∃ s', Leads vidCopy (some .vid1, s) (some .vid4, s') ∧ Waited s s' := by
  let s₁ := ((vidCopy .vid1).exec s).2
  have h₁ : Waited s s₁ :=
    ⟨⟨rfl, rfl, rfl, rfl, rfl, rfl, rfl, rfl, rfl, 0, rfl⟩, fun _ _ => rfl, rfl⟩
  have hinput : s₁.input = s.input := rfl
  have hzero : s₁.flags.zero = decide (s.var .color &&& 1 = 0) := rfl
  have e₁ : Leads vidCopy (some .vid1, s) (some (if s₁.flags.holds .z then .vid4 else .vid3), s₁) :=
    .block rfl
  clear_value s₁
  have hand : s.var .color &&& 1 = if (s.var .color).getLsbD 0 then 1 else 0 :=
    BitVec.and_twoPow _ 0
  cases hcolor : (s.var .color).getLsbD 0 with
  | false =>
    rw [hcolor] at hand
    have hmono : s.var .color &&& 1 = 0 := hand
    rw [Flags.holds, hzero, decide_eq_true hmono] at e₁
    exact ⟨s₁, e₁, h₁⟩
  | true =>
    rw [hcolor] at hand
    have hne : ¬s.var .color &&& 1 = 0 := fun h0 => absurd (hand.symm.trans h0) (by decide)
    rw [Flags.holds, hzero, decide_eq_false hne] at e₁
    obtain ⟨m, hm⟩ := h hcolor 0
    obtain ⟨s₂, e₂, h₂⟩ := retraced (s := s₁) (m := 0 + m) (by rw [hinput]; exact hm)
    exact ⟨s₂, e₁.append e₂, h₁.trans h₂⟩

/-! ## The copy -/

/-- The address of an offset in a segment. -/
def linear (seg off : Word) : Nat := seg.toNat * 16 + off.toNat

/-- The words that a chunk consists of. -/
def chunkWord (s : Machine Var) (i : Nat) : UInt8 × UInt8 :=
  if s.reg si = 0 then (Machine.lowByte BLANK, Machine.highByte BLANK)
  else (s.mem (linear (s.reg ds) (s.reg si) + 2 * i),
    s.mem (linear (s.reg ds) (s.reg si) + 2 * i + 1))

/-- A chunk can be copied. -/
structure Ready (s : Machine Var) : Prop where
  up : s.flags.direction = false
  frame : s.frameAt 6 ≠ s.reg sp - 2
  dst : Spans (param s 6) (s.reg di) ((s.reg cx).toNat * 2)
  src : s.reg si ≠ 0 → Spans (s.reg ds) (s.reg si) ((s.reg cx).toNat * 2)
  apart : s.reg si ≠ 0 → Apart (linear (s.reg ds) (s.reg si)) (linear (param s 6) (s.reg di))
    ((s.reg cx).toNat * 2)

/-- What a chunk leaves, with the flags on the stack. -/
structure Shown (s s' : Machine Var) : Prop where
  mem : s'.mem = stores s.mem (fun i => linear (param s 6) (s.reg di) + 2 * i) (chunkWord s)
    (s.reg cx).toNat
  stack : s'.stack = update s.stack (s.reg sp - 2) s.flags.toWord
  sp : s'.reg Reg.sp = s.reg Reg.sp - 2
  bp : s'.reg bp = s.reg bp
  ds : s'.reg ds = s.reg ds
  bx : s'.reg bx = s.reg bx
  direction : s'.flags.direction = s.flags.direction
  var : s'.var = s.var
  input : s'.input = s.input

/-- The first byte of a range that does not wrap. -/
theorem linear_phys {seg off : Word} {n : Nat} (h : Spans seg off (n * 2)) (hn : 0 < n) :
    phys seg off = linear seg off := h.phys_eq (by omega)

/-- Blanks are stored. -/
theorem blanks {s₁ : Machine Var} (hup : s₁.flags.direction = false)
    (hdst : Spans (s₁.reg es) (s₁.reg di) ((s₁.reg cx).toNat * 2)) :
    ∃ s', Leads vidCopy (some .vid7, s₁) (some .vid5, s') ∧
      s'.mem = stores s₁.mem (fun i => linear (s₁.reg es) (s₁.reg di) + 2 * i)
        (fun _ => (Machine.lowByte BLANK, Machine.highByte BLANK)) (s₁.reg cx).toNat ∧
      (∀ r, r = sp ∨ r = bp ∨ r = ds ∨ r = bx → s'.reg r = s₁.reg r) ∧ s'.stack = s₁.stack ∧
      s'.flags = s₁.flags ∧ s'.var = s₁.var ∧ s'.input = s₁.input := by
  let s₂ := Instr.exec s₁ (.mov ax (.imm BLANK))
  have hfill : Instr.exec s₂ .stosw = (s₂.fill (s₂.reg cx).toNat).setReg cx 0 :=
    Spans.stosw hup hdst
  have hblock : (vidCopy .vid7).exec s₁ = (some .vid5, Instr.exec s₂ .stosw) := rfl
  refine ⟨_, .block hblock, ?_, ?_, ?_⟩
  · rw [hfill]
    have hpos (i : Nat) (hi : i < (s₂.reg cx).toNat) : 0 < (s₁.reg cx).toNat :=
      Nat.zero_lt_of_lt hi
    exact stores_congr (fun i hi => congrArg (· + 2 * i) (linear_phys hdst (hpos i hi)))
      fun _ _ => rfl
  · rw [hfill]
    rintro r (rfl | rfl | rfl | rfl) <;> rfl
  · rw [hfill]
    exact ⟨rfl, rfl, rfl, rfl⟩

/-- Words are copied. -/
theorem moves {s₁ : Machine Var} (hup : s₁.flags.direction = false)
    (hdst : Spans (s₁.reg es) (s₁.reg di) ((s₁.reg cx).toNat * 2))
    (hsrc : Spans (s₁.reg ds) (s₁.reg si) ((s₁.reg cx).toNat * 2))
    (hapart : Apart (linear (s₁.reg ds) (s₁.reg si)) (linear (s₁.reg es) (s₁.reg di))
      ((s₁.reg cx).toNat * 2)) :
    ∃ s', Leads vidCopy (some .vid4next, s₁) (some .vid5, s') ∧
      s'.mem = stores s₁.mem (fun i => linear (s₁.reg es) (s₁.reg di) + 2 * i)
        (fun i => (s₁.mem (linear (s₁.reg ds) (s₁.reg si) + 2 * i),
          s₁.mem (linear (s₁.reg ds) (s₁.reg si) + 2 * i + 1))) (s₁.reg cx).toNat ∧
      (∀ r, r = sp ∨ r = bp ∨ r = ds ∨ r = bx → s'.reg r = s₁.reg r) ∧ s'.stack = s₁.stack ∧
      s'.flags = s₁.flags ∧ s'.var = s₁.var ∧ s'.input = s₁.input := by
  have hblock : (vidCopy .vid4next).exec s₁ = (some .vid5, Instr.exec s₁ .movsw) := rfl
  have hmoves : Moves s₁ ((s₁.reg cx).toNat * 2) := by
    refine ⟨hup, hsrc, hdst, ?_⟩
    rcases Nat.eq_zero_or_pos (s₁.reg cx).toNat with h0 | hpos
    · rw [h0]
      exact Nat.le_total _ _
    · rw [linear_phys hsrc hpos, linear_phys hdst hpos]
      exact hapart
  refine ⟨_, .block hblock, ?_, ?_, ?_⟩
  · rw [hmoves.movsw]
    change copied s₁.mem (phys (s₁.reg ds) (s₁.reg si)) (phys (s₁.reg es) (s₁.reg di)) _ = _
    rw [copied_eq_stores hmoves.apart]
    exact stores_congr (fun i hi => congrArg (· + 2 * i) (linear_phys hdst (by omega)))
      fun i hi => by rw [linear_phys hsrc (by omega)]
  · rw [hmoves.movsw]
    rintro r (rfl | rfl | rfl | rfl) <;> rfl
  · rw [hmoves.movsw]
    exact ⟨rfl, rfl, rfl, rfl⟩

/-- A chunk is copied, or a part of the screen is blanked. -/
theorem shows (h : Ready s) :
    ∃ s', Leads vidCopy (some .vid4, s) (some .vid5, s') ∧ Shown s s' := by
  let s₁ := ((vidCopy .vid4).exec s).2
  have hes : s₁.reg es = param s 6 := update_of_ne h.frame ..
  have hregs (r : Reg) (hr : r = si ∨ r = di ∨ r = cx ∨ r = ds ∨ r = bp ∨ r = bx) :
      s₁.reg r = s.reg r := by
    rcases hr with rfl | rfl | rfl | rfl | rfl | rfl <;> rfl
  have hsp : s₁.reg sp = s.reg sp - 2 := rfl
  have hstack : s₁.stack = update s.stack (s.reg sp - 2) s.flags.toWord := rfl
  have hup : s₁.flags.direction = s.flags.direction := rfl
  have hsame : s₁.mem = s.mem ∧ s₁.var = s.var ∧ s₁.input = s.input := ⟨rfl, rfl, rfl⟩
  have hzero : s₁.flags.zero = decide (Machine.diff (s.reg si) 0 false = 0) := rfl
  have e₁ : Leads vidCopy (some .vid4, s)
    (some (if s₁.flags.holds .z then .vid7 else .vid4next), s₁) := .block rfl
  clear_value s₁
  obtain ⟨hmem, hvar, hinput⟩ := hsame
  have hdst := h.dst
  have hsrc := h.src
  have hapart := h.apart
  rw [Machine.diff_zero] at hzero
  rw [← hes, ← hregs di (by decide), ← hregs cx (by decide)] at hdst hapart
  rw [← hregs si (by decide), ← hregs ds (by decide)] at hsrc hapart
  rw [← hregs cx (by decide)] at hsrc
  -- the two ways to copy leave the same things alone
  have hshown {l : Label} (he : Leads vidCopy (some .vid4, s) (some l, s₁))
      (hcopy : ∃ s', Leads vidCopy (some l, s₁) (some .vid5, s') ∧
        s'.mem = stores s₁.mem (fun i => linear (s₁.reg es) (s₁.reg di) + 2 * i) (chunkWord s)
          (s₁.reg cx).toNat ∧
        (∀ r, r = sp ∨ r = bp ∨ r = ds ∨ r = bx → s'.reg r = s₁.reg r) ∧ s'.stack = s₁.stack ∧
        s'.flags = s₁.flags ∧ s'.var = s₁.var ∧ s'.input = s₁.input) :
      ∃ s', Leads vidCopy (some .vid4, s) (some .vid5, s') ∧ Shown s s' := by
    obtain ⟨s', e', hmem', hregs', hstack', hflags', hvar', hinput'⟩ := hcopy
    refine ⟨s', he.append e', ?_, hstack'.trans hstack, (hregs' sp (by decide)).trans hsp,
      ?_, ?_, ?_, ?_, hvar'.trans hvar, hinput'.trans hinput⟩
    · rw [hmem', hes, hmem, hregs di (by decide), hregs cx (by decide)]
    · exact (hregs' bp (by decide)).trans (hregs bp (by decide))
    · exact (hregs' ds (by decide)).trans (hregs ds (by decide))
    · exact (hregs' bx (by decide)).trans (hregs bx (by decide))
    · rw [hflags', hup]
  by_cases hnull : s.reg si = 0
  · rw [Flags.holds, hzero, decide_eq_true hnull] at e₁
    have hword : chunkWord s = fun _ => (Machine.lowByte BLANK, Machine.highByte BLANK) :=
      funext fun i => if_pos hnull
    refine hshown e₁ ?_
    rw [hword]
    exact blanks (hup.trans h.up) hdst
  · rw [Flags.holds, hzero, decide_eq_false hnull] at e₁
    have hsi : s₁.reg si ≠ 0 := fun h0 => hnull ((hregs si (by decide)).symm.trans h0)
    have hword : chunkWord s = fun i => (s₁.mem (linear (s₁.reg ds) (s₁.reg si) + 2 * i),
        s₁.mem (linear (s₁.reg ds) (s₁.reg si) + 2 * i + 1)) := by
      rw [hmem, hregs si (by decide), hregs ds (by decide)]
      exact funext fun i => if_neg hnull
    refine hshown e₁ ?_
    rw [hword]
    exact moves (hup.trans h.up) hdst (hsrc hsi) (hapart hsi)

/-! ## The stack -/

variable {s₀ : Machine Var} {k : Nat}

/-- An offset in the stack, from the saved flags on. -/
def slot (s₀ : Machine Var) (d : Nat) : Word := s₀.reg sp - 16 + BitVec.ofNat 16 d

/-- Two places of the frame are apart. -/
theorem slot_inj {d d' : Nat} (hd : d < 65536) (hd' : d' < 65536) (h : slot s₀ d = slot s₀ d') :
    d = d' := by
  have h' := congrArg BitVec.toNat ((BitVec.add_right_inj _).mp h)
  rwa [BitVec.toNat_ofNat, BitVec.toNat_ofNat, Nat.mod_eq_of_lt hd, Nat.mod_eq_of_lt hd'] at h'

/-- Two places of the frame are apart. -/
theorem slot_ne {d d' : Nat} (hd : d < 65536) (hd' : d' < 65536) (h : d ≠ d') :
    slot s₀ d ≠ slot s₀ d' := fun he => h (slot_inj hd hd' he)

/-- The registers that are saved, from the top of the stack. -/
def saved : List Reg := [es, dx, cx, bx, di, si, bp]

/-- An offset in the stack that is neither a parameter nor used to save something. -/
def Outside (s₀ : Machine Var) (a : Word) : Prop := ∀ d, d < 16 ∨ 18 ≤ d ∧ d < 26 → a ≠ slot s₀ d

/-- The registers are on the stack. -/
structure Framed (s₀ s : Machine Var) : Prop where
  bp : s.reg bp = s₀.reg sp - 2
  sp : s.reg sp = s₀.reg sp - 14
  ds : s.reg ds = s₀.reg ds
  regs : ∀ i (h : i < saved.length), s.stack (slot s₀ (2 + 2 * i)) = s₀.reg (saved.get ⟨i, h⟩)
  base : s.stack (slot s₀ 20) = videobase s₀
  direction : s.flags.direction = s₀.flags.direction
  interrupt : s.flags.interrupt = s₀.flags.interrupt
  color : s.var .color = s₀.var .color
  mask : s.var .vidMask = s₀.var .vidMask
  input : ∃ j, s.input = fun n => s₀.input (n + j)
  others : ∀ a, Outside s₀ a → s.stack a = s₀.stack a

/-- The call after `k` words. -/
structure Running (s₀ s : Machine Var) (k : Nat) : Prop extends Framed s₀ s where
  buf : s.stack (slot s₀ 18) = if buffer s₀ = 0 then 0 else buffer s₀ + BitVec.ofNat 16 (2 * k)
  off : (s.stack (slot s₀ 22)).toNat % ramSize s₀ = ((offset s₀).toNat + 2 * k) % ramSize s₀
  even : (s.stack (slot s₀ 22)).toNat % 2 = 0
  left : (s.stack (slot s₀ 24)).toNat = (words s₀).toNat - k
  le : k ≤ (words s₀).toNat
  mem : s.mem = stores s₀.mem (place s₀) (wordOf s₀) k

/-- A place of the frame, seen from inside the routine. -/
theorem Framed.frameAt (h : Framed s₀ s) (d : Nat) : s.frameAt d = slot s₀ (14 + d) := by
  unfold Machine.frameAt slot
  rw [h.bp, BitVec.ofNat_add]
  change s₀.reg Reg.sp - 2 + BitVec.ofNat 16 d = s₀.reg Reg.sp - 16 + (14 + BitVec.ofNat 16 d)
  bv_omega

/-- A parameter, as the caller pushed it. -/
theorem Framed.param (h : Framed s₀ s) (d : Nat) : param s d = s.stack (slot s₀ (14 + d)) := by
  rw [VidCopy.param, h.frameAt]

/-- Where the next word would be pushed. -/
theorem Framed.top (h : Framed s₀ s) : s.reg Reg.sp - 2 = slot s₀ 0 := by
  rw [h.sp, slot]
  bv_omega

/-- The registers are saved. -/
theorem enters (heven : (offset s₀).toNat % 2 = 0) :
    ∃ s, Leads vidCopy (some .start, s₀) (some .vid0, s) ∧ Running s₀ s 0 := by
  let s := ((vidCopy .start).exec s₀).2
  let ws := [s₀.reg bp, s₀.reg si, s₀.reg di, s₀.reg bx, s₀.reg cx, s₀.reg dx, s₀.reg es]
  have hblock : (vidCopy .start).exec s₀ = (some .vid0, s) := rfl
  have hstack : s.stack = pushed s₀.stack (s₀.reg sp) ws := rfl
  have hbp : s.reg bp = s₀.reg sp - 2 := rfl
  have hsp : s.reg sp = s₀.reg sp - 14 := by
    change s₀.reg sp - 2 - 2 - 2 - 2 - 2 - 2 - 2 = _
    bv_omega
  have hds : s.reg ds = s₀.reg ds := rfl
  have hmem : s.mem = s₀.mem := rfl
  have hflags : s.flags = s₀.flags := rfl
  have hvar : s.var = s₀.var := rfl
  have hinput : s.input = s₀.input := rfl
  clear_value s
  have hsaved (i : Nat) (hi : i < 7) : s.stack (slot s₀ (2 + 2 * i)) =
      ws.get ⟨6 - i, by simp [ws]; omega⟩ := by
    have hat : slot s₀ (2 + 2 * i) = s₀.reg sp - BitVec.ofNat 16 (2 * (6 - i + 1)) := by
      unfold slot
      bv_omega
    rw [hstack, hat]
    exact pushed_get (by simp [ws]) _
  have hkept (a : Word) (ha : ∀ d < 16, a ≠ slot s₀ d) : s.stack a = s₀.stack a := by
    rw [hstack]
    refine pushed_of_ne fun i hi => ?_
    have hi : i < 7 := hi
    have hat : s₀.reg sp - BitVec.ofNat 16 (2 * (i + 1)) = slot s₀ (14 - 2 * i) := by
      unfold slot
      bv_omega
    rw [hat]
    exact ha (14 - 2 * i) (by omega)
  have hparam (d : Nat) (hd : 16 ≤ d) (hd' : d < 26) :
      s.stack (slot s₀ d) = s₀.stack (s₀.reg sp + BitVec.ofNat 16 (d - 16)) := by
    have hat : slot s₀ d = s₀.reg sp + BitVec.ofNat 16 (d - 16) := by
      unfold slot
      bv_omega
    rw [hkept _ fun d' h' => slot_ne (by omega) (by omega) (by omega), hat]
  have hbuf : s.stack (slot s₀ 18) = buffer s₀ := hparam 18 (by decide) (by decide)
  have hoff : s.stack (slot s₀ 22) = offset s₀ := hparam 22 (by decide) (by decide)
  have hleft : s.stack (slot s₀ 24) = words s₀ := hparam 24 (by decide) (by decide)
  refine ⟨s, .block hblock, ⟨hbp, hsp, hds, ?_, hparam 20 (by decide) (by decide), by rw [hflags],
    by rw [hflags], by rw [hvar], by rw [hvar], ⟨0, hinput⟩,
    fun a ha => hkept a fun d hd => ha d (Or.inl hd)⟩, ?_, ?_, ?_, ?_, Nat.zero_le _, hmem⟩
  · intro i hi
    have hi' : i < 7 := hi
    rw [hsaved i hi']
    interval_cases i <;> rfl
  · rw [hbuf]
    split
    · assumption
    · exact (BitVec.add_zero _).symm
  · rw [hoff]
    rfl
  · rw [hoff]
    exact heven
  · rw [hleft]
    rfl

/-- The state when `vid_copy` returns. -/
structure Returned (s₀ s : Machine Var) : Prop where
  mem : s.mem = stores s₀.mem (place s₀) (wordOf s₀) (words s₀).toNat
  regs : ∀ r, r ≠ ax → r ≠ sp → s.reg r = s₀.reg r
  sp : s.reg sp = s₀.reg sp + 2
  direction : s.flags.direction = s₀.flags.direction
  interrupt : s.flags.interrupt = s₀.flags.interrupt
  color : s.var .color = s₀.var .color
  mask : s.var .vidMask = s₀.var .vidMask
  others : ∀ a, Outside s₀ a → s.stack a = s₀.stack a

/-- The registers are restored. -/
theorem returns (h : Framed s₀ s)
    (hmem : s.mem = stores s₀.mem (place s₀) (wordOf s₀) (words s₀).toNat) :
    ∃ s', Leads vidCopy (some .vid6, s) (none, s') ∧ Returned s₀ s' := by
  let s' := ((vidCopy .vid6).exec s).2
  have hblock : (vidCopy .vid6).exec s = (none, s') := rfl
  -- the `i`-th word from the top
  have hpop (i : Nat) (hi : i < saved.length) (a : Word)
      (ha : a = s.reg sp + BitVec.ofNat 16 (2 * i)) : s.stack a = s₀.reg (saved.get ⟨i, hi⟩) := by
    have hat : a = slot s₀ (2 + 2 * i) := by
      have hi' : i < 7 := hi
      rw [ha, h.sp, slot]
      bv_omega
    rw [hat, h.regs i hi]
  refine ⟨s', .block hblock, hmem, ?_, ?_, h.direction, h.interrupt, h.color, h.mask, h.others⟩
  · intro r hax hsp
    cases r with
    | ax => exact absurd rfl hax
    | bx => exact hpop 3 (by decide) (s.reg sp + 2 + 2 + 2) (by bv_omega)
    | cx => exact hpop 2 (by decide) (s.reg sp + 2 + 2) (by bv_omega)
    | dx => exact hpop 1 (by decide) (s.reg sp + 2) (by bv_omega)
    | si => exact hpop 5 (by decide) (s.reg sp + 2 + 2 + 2 + 2 + 2) (by bv_omega)
    | di => exact hpop 4 (by decide) (s.reg sp + 2 + 2 + 2 + 2) (by bv_omega)
    | bp => exact hpop 6 (by decide) (s.reg sp + 2 + 2 + 2 + 2 + 2 + 2) (by bv_omega)
    | sp => exact absurd rfl hsp
    | ds => exact h.ds
    | es => exact hpop 0 (by decide) (s.reg sp) (by bv_omega)
  · change s.reg sp + 2 + 2 + 2 + 2 + 2 + 2 + 2 + 2 = _
    rw [h.sp]
    bv_omega

/-! ## Turns -/

/-- Only parameters are stored, and what is below the stack. -/
theorem Framed.congr (h : Framed s₀ s) (hbp : s'.reg Reg.bp = s.reg Reg.bp)
    (hsp : s'.reg Reg.sp = s.reg Reg.sp) (hds : s'.reg Reg.ds = s.reg Reg.ds)
    (hdirection : s'.flags.direction = s.flags.direction)
    (hinterrupt : s'.flags.interrupt = s.flags.interrupt)
    (hcolor : s'.var .color = s.var .color) (hmask : s'.var .vidMask = s.var .vidMask)
    (hinput : ∃ j, s'.input = fun n => s.input (n + j))
    (hstack : ∀ a, a ≠ slot s₀ 0 → a ≠ slot s₀ 18 → a ≠ slot s₀ 22 → a ≠ slot s₀ 24 →
      s'.stack a = s.stack a) : Framed s₀ s' where
  bp := hbp.trans h.bp
  sp := hsp.trans h.sp
  ds := hds.trans h.ds
  regs i hi := by
    have hi' : i < 7 := hi
    rw [hstack _ (slot_ne (by omega) (by omega) (by omega))
      (slot_ne (by omega) (by omega) (by omega)) (slot_ne (by omega) (by omega) (by omega))
      (slot_ne (by omega) (by omega) (by omega)), h.regs i hi]
  base := by
    rw [hstack _ (slot_ne (by decide) (by decide) (by decide))
      (slot_ne (by decide) (by decide) (by decide)) (slot_ne (by decide) (by decide) (by decide))
      (slot_ne (by decide) (by decide) (by decide)), h.base]
  direction := hdirection.trans h.direction
  interrupt := hinterrupt.trans h.interrupt
  color := hcolor.trans h.color
  mask := hmask.trans h.mask
  input := by
    obtain ⟨j, hj⟩ := h.input
    obtain ⟨j', hj'⟩ := hinput
    refine ⟨j' + j, ?_⟩
    rw [hj', hj]
    exact funext fun n => by rw [← Nat.add_assoc]
  others a ha := by
    rw [hstack a (ha 0 (by decide)) (ha 18 (by decide)) (ha 22 (by decide)) (ha 24 (by decide)),
      h.others a ha]

/-- The flags are restored, and the overrun decides whether there is another turn. -/
theorem checks {f : Flags} (hflags : s.stack (s.reg sp) = f.toWord) :
    ∃ s', Leads vidCopy (some .vid5, s)
      (some (if (s.reg bx).toInt ≤ 0 then .vid6 else .vid5next), s') ∧
      (∀ r, r ≠ sp → s'.reg r = s.reg r) ∧ s'.reg sp = s.reg sp + 2 ∧ s'.stack = s.stack ∧
      s'.mem = s.mem ∧ s'.var = s.var ∧ s'.input = s.input ∧ s'.flags.direction = f.direction ∧
      s'.flags.interrupt = f.interrupt := by
  let s' := ((vidCopy .vid5).exec s).2
  have hle : s'.flags.holds .le = decide ((s.reg bx).toInt ≤ (0 : Word).toInt) := Flags.holds_le ..
  have hrestored : (Flags.ofWord (s.stack (s.reg sp))) = f := by
    rw [hflags, Flags.ofWord_toWord]
  have hdirection : s'.flags.direction = (Flags.ofWord (s.stack (s.reg sp))).direction := rfl
  have hinterrupt : s'.flags.interrupt = (Flags.ofWord (s.stack (s.reg sp))).interrupt := rfl
  have e : Leads vidCopy (some .vid5, s)
    (some (if s'.flags.holds .le then .vid6 else .vid5next), s') := .block rfl
  refine ⟨s', ?_, fun r hr => update_of_ne hr .., rfl, rfl, rfl, rfl, rfl, ?_, ?_⟩
  · have hzero : (0 : Word).toInt = 0 := rfl
    rw [hle, hzero] at e
    simpa only [decide_eq_true_iff] using e
  · rw [hdirection, hrestored]
  · rw [hinterrupt, hrestored]

/-- The parameters of the next turn. -/
structure Restarted (s₀ s s' : Machine Var) : Prop extends Framed s₀ s' where
  mem : s'.mem = s.mem
  buf : s'.stack (slot s₀ 18) = if s.stack (slot s₀ 18) = 0 then 0 else
    Machine.sum (s.stack (slot s₀ 18)) (Machine.sum (s.var .tmp) (s.var .tmp) false) false
  off : s'.stack (slot s₀ 22) = 0
  left : s'.stack (slot s₀ 24) = s.reg bx

/-- The rest is copied to the base of the video RAM. -/
theorem restarts (h : Framed s₀ s) :
    ∃ s', Leads vidCopy (some .vid5next, s) (some .vid0, s') ∧ Restarted s₀ s s' := by
  let s₁ := ((vidCopy .vid5next).exec s).2
  have hf₄ := h.frameAt 4
  have hf₈ := h.frameAt 8
  have hf₁₀ := h.frameAt 10
  have hstack : s₁.stack = update (update s.stack (s.frameAt 10) (s.reg bx)) (s.frameAt 8) 0 := rfl
  have hzero : s₁.flags.zero = decide (Machine.diff (s₁.stack (s.frameAt 4)) 0 false = 0) := rfl
  have hregs : s₁.reg = s.reg := rfl
  have hsame : s₁.mem = s.mem ∧ s₁.var = s.var ∧ s₁.input = s.input := ⟨rfl, rfl, rfl⟩
  have hdirection : s₁.flags.direction = s.flags.direction := rfl
  have hinterrupt : s₁.flags.interrupt = s.flags.interrupt := rfl
  have e₁ : Leads vidCopy (some .vid5next, s)
    (some (if s₁.flags.holds .z then .vid0 else .vid5last), s₁) := .block rfl
  clear_value s₁
  obtain ⟨hmem, hvar, hinput⟩ := hsame
  rw [hf₈, hf₁₀] at hstack
  rw [hf₄, Machine.diff_zero] at hzero
  have hbuf : s₁.stack (slot s₀ 18) = s.stack (slot s₀ 18) := by
    rw [hstack, update_of_ne (slot_ne (by decide) (by decide) (by decide)),
      update_of_ne (slot_ne (by decide) (by decide) (by decide))]
  have hoff : s₁.stack (slot s₀ 22) = 0 := by
    rw [hstack]
    exact update_self ..
  have hleft : s₁.stack (slot s₀ 24) = s.reg bx := by
    rw [hstack, update_of_ne (slot_ne (by decide) (by decide) (by decide))]
    exact update_self ..
  have h₁ : Framed s₀ s₁ := by
    refine h.congr (by rw [hregs]) (by rw [hregs]) (by rw [hregs]) hdirection hinterrupt
      (by rw [hvar]) (by rw [hvar]) ⟨0, hinput⟩ fun a _ _ h₂₂ h₂₄ => ?_
    rw [hstack, update_of_ne h₂₂, update_of_ne h₂₄]
  have hzero' : s₁.flags.zero = decide (s.stack (slot s₀ 18) = 0) := by rw [hzero, ← hbuf]
  by_cases hnull : s.stack (slot s₀ 18) = 0
  · rw [Flags.holds, hzero', decide_eq_true hnull] at e₁
    exact ⟨s₁, e₁, h₁, hmem, by rw [hbuf, if_pos hnull, hnull], hoff, hleft⟩
  · rw [Flags.holds, hzero', decide_eq_false hnull] at e₁
    let s₂ := s₁.setReg si (s₁.var .tmp)
    let s₃ := s₂.addc si si false
    let s₄ := s₃.addc (.frame 4) si false
    have hblock : (vidCopy .vid5last).exec s₁ = (some .vid0, s₄) := rfl
    have hset : s₂.reg si = s₁.var .tmp := rfl
    have hget : s₂.get si = s₁.var .tmp := hset
    have hsi : s₃.get si = Machine.sum (s₂.reg si) (s₂.get si) false := addc_self ..
    have hframe : s₃.frameAt 4 = s₁.frameAt 4 := rfl
    have hold : s₃.get (.frame 4) = s₁.stack (s₁.frameAt 4) := rfl
    have hstack₄ : s₄.stack =
      update s₁.stack (s₃.frameAt 4) (Machine.sum (s₃.get (.frame 4)) (s₃.get si) false) := rfl
    have hregs₄ (r : Reg) (hr : r = bp ∨ r = sp ∨ r = ds) : s₄.reg r = s₁.reg r := by
      rcases hr with rfl | rfl | rfl <;> rfl
    have hsame₄ : s₄.mem = s₁.mem ∧ s₄.var = s₁.var ∧ s₄.input = s₁.input := ⟨rfl, rfl, rfl⟩
    have hdirection₄ : s₄.flags.direction = s₁.flags.direction := rfl
    have hinterrupt₄ : s₄.flags.interrupt = s₁.flags.interrupt := rfl
    clear_value s₄ s₃ s₂
    obtain ⟨hmem₄, hvar₄, hinput₄⟩ := hsame₄
    rw [hold, hframe, h₁.frameAt, hsi, hset, hget, hvar, hbuf] at hstack₄
    refine ⟨s₄, e₁.then_block hblock, ?_, hmem₄.trans hmem, ?_, ?_, ?_⟩
    · refine h₁.congr (hregs₄ bp (by decide)) (hregs₄ sp (by decide)) (hregs₄ ds (by decide))
        hdirection₄ hinterrupt₄ (by rw [hvar₄]) (by rw [hvar₄]) ⟨0, hinput₄⟩
        fun a _ h₁₈ _ _ => ?_
      rw [hstack₄]
      exact update_of_ne h₁₈ ..
    · rw [hstack₄, if_neg hnull]
      exact update_self ..
    · rw [hstack₄, update_of_ne (slot_ne (by decide) (by decide) (by decide)), hoff]
    · rw [hstack₄, update_of_ne (slot_ne (by decide) (by decide) (by decide)), hleft]

/-! ## Runs -/

/-- While the loop runs, the display is the one of the call. -/
theorem Running.display (hc : Copyable s₀) (h : Running s₀ s k) : Display s := by
  have hsize : ramSize s = ramSize s₀ := by rw [ramSize, h.mask, ramSize]
  refine ⟨h.mask ▸ hc.mask, ?_, ?_⟩
  · rw [h.param]
    exact h.even
  · have := hc.fits
    rw [h.param, hsize, h.left]
    omega

/-- The offset in the video RAM at the start of a turn. -/
theorem Running.start_eq (hc : Copyable s₀) (h : Running s₀ s k) :
    (param s 8 &&& s.var .vidMask).toNat = ((offset s₀).toNat + 2 * k) % ramSize s₀ := by
  have hsize : ramSize s = ramSize s₀ := by rw [ramSize, h.mask, ramSize]
  rw [(h.display hc).start_eq, hsize, h.param]
  exact h.off

/-- Where a turn starts in the buffer. -/
theorem Running.buffer_eq (hc : Copyable s₀) (h : Running s₀ s k) (hne : param s 4 ≠ 0) :
    buffer s₀ ≠ 0 ∧ (param s 4).toNat = (buffer s₀).toNat + 2 * k := by
  have hbuf := (h.param 4).trans h.buf
  by_cases hnull : buffer s₀ = 0
  · rw [if_pos hnull] at hbuf
    exact absurd hbuf hne
  · rw [if_neg hnull] at hbuf
    have hspan := (hc.span hnull).segment
    have hle := h.le
    have hpos : (param s 4).toNat ≠ 0 := fun h0 => hne (BitVec.eq_of_toNat_eq h0)
    refine ⟨hnull, ?_⟩
    rw [hbuf, BitVec.toNat_add, BitVec.toNat_ofNat] at hpos ⊢
    omega

/-- A buffer is not used up before all words are copied. -/
theorem Running.buffer_ne (hc : Copyable s₀) (h : Running s₀ s k) (hne : buffer s₀ ≠ 0)
    (hlt : k < (words s₀).toNat) : param s 4 ≠ 0 := by
  intro h0
  have hbuf := (h.param 4).trans h.buf
  have hpos : (buffer s₀).toNat ≠ 0 := fun h => hne (BitVec.eq_of_toNat_eq h)
  have hvalue := (hc.span hne).toNat_add (show 2 * k < _ by omega)
  have hzero : (0 : Word).toNat = 0 := rfl
  rw [if_neg hne, h0] at hbuf
  rw [← hbuf, hzero] at hvalue
  omega

/-- A stretch that leaves the frame alone leaves it as it was. -/
theorem Framed.steady (h : Framed s₀ s) (hs : Steady s s') : Framed s₀ s' :=
  h.congr hs.bp hs.sp hs.ds hs.direction hs.interrupt hs.color hs.mask hs.input
    fun a _ _ _ _ => by rw [hs.stack]

/-- A number that is even stays so in the video RAM. -/
theorem Copyable.size (hc : Copyable s₀) : ramSize s₀ = 16384 ∨ ramSize s₀ = 4096 := by
  unfold ramSize
  rcases hc.mask with hm | hm <;> rw [hm]
  · exact Or.inl rfl
  · exact Or.inr rfl

/-- What a chunk stores. -/
theorem Running.stores_chunk (hc : Copyable s₀) (h : Running s₀ s k) {s₂ : Machine Var} {n : Nat}
    (hmem : s₂.mem = s.mem) (hds : s₂.reg ds = s.reg ds) (hsi : s₂.reg si = param s 4)
    (hdi : (s₂.reg di).toNat = ((offset s₀).toNat + 2 * k) % ramSize s₀)
    (hn : k + n ≤ (words s₀).toNat)
    (hroom : ((offset s₀).toNat + 2 * k) % ramSize s₀ + 2 * n ≤ ramSize s₀) :
    stores s₂.mem (fun i => linear (videobase s₀) (s₂.reg di) + 2 * i) (chunkWord s₂) n =
      stores s₀.mem (place s₀) (wordOf s₀) (k + n) := by
  have hsize : 0 < ramSize s₀ := Nat.succ_pos _
  rw [← stores_add, ← h.mem, ← hmem]
  refine stores_congr (fun i hi => ?_) fun i hi => ?_
  · have hwrap : ((offset s₀).toNat + 2 * (k + i)) % ramSize s₀ =
        ((offset s₀).toNat + 2 * k) % ramSize s₀ + 2 * i := by
      rw [Nat.mul_add, ← Nat.add_assoc, Nat.add_mod, Nat.mod_eq_of_lt (a := 2 * i) (by omega),
        Nat.mod_eq_of_lt (by omega)]
    rw [place, hwrap, linear, hdi, Nat.add_assoc]
  · have hlt : k < (words s₀).toNat := by omega
    unfold chunkWord wordOf
    rw [hsi]
    by_cases hnull : buffer s₀ = 0
    · have hbuf := (h.param 4).trans h.buf
      rw [if_pos hnull] at hbuf
      rw [if_pos hbuf, if_pos hnull]
    · have hne := h.buffer_ne hc hnull hlt
      obtain ⟨-, hvalue⟩ := h.buffer_eq hc hne
      rw [if_neg hne, if_neg hnull]
      -- the buffer is not in the video RAM
      have hbefore (a : Nat) (ha : linear (s₀.reg ds) (buffer s₀) ≤ a)
          (ha' : a < linear (s₀.reg ds) (buffer s₀) + (words s₀).toNat * 2) :
          s₂.mem a = s₀.mem a := by
        rw [hmem, h.mem]
        refine stores_of_ne fun i _ => ?_
        have happ := hc.apart hnull
        have hoff := Nat.mod_lt ((offset s₀).toNat + 2 * i) hsize
        have heven : ((offset s₀).toNat + 2 * i) % ramSize s₀ % 2 = 0 := by
          have := hc.even
          rcases hc.size with hm | hm <;> rw [hm] <;> omega
        have hsize' := hc.size
        unfold linear at ha ha'
        unfold place
        omega
      have hat : linear (s₂.reg ds) (param s 4) + 2 * i =
          linear (s₀.reg ds) (buffer s₀) + 2 * (k + i) := by
        rw [hds, h.ds, linear, hvalue, linear]
        omega
      rw [hat, hbefore _ (by omega) (by omega), hbefore _ (by omega) (by omega)]
      rfl

/-- A chunk that fits can be copied. -/
theorem Running.ready (hc : Copyable s₀) (h : Running s₀ s k) {s₂ : Machine Var} {n : Nat}
    (h₂ : Framed s₀ s₂) (hsi : s₂.reg si = param s 4)
    (hdi : (s₂.reg di).toNat = ((offset s₀).toNat + 2 * k) % ramSize s₀)
    (hcx : (s₂.reg cx).toNat = n) (hn : k + n ≤ (words s₀).toNat)
    (hroom : ((offset s₀).toNat + 2 * k) % ramSize s₀ + 2 * n ≤ ramSize s₀) : Ready s₂ := by
  have hbase : param s₂ 6 = videobase s₀ := (h₂.param 6).trans h₂.base
  have hram := hc.ram
  have hsize := hc.size
  refine ⟨h₂.direction.trans hc.up, ?_, ?_, fun hne => ?_, fun hne => ?_⟩
  · rw [h₂.frameAt, h₂.top]
    exact slot_ne (by decide) (by decide) (by decide)
  · rw [hbase, hcx]
    exact ⟨by rw [hdi]; omega, by rw [hdi]; omega⟩
  · rw [hsi] at hne ⊢
    obtain ⟨hnull, hvalue⟩ := h.buffer_eq hc hne
    have hseg := (hc.span hnull).segment
    have hmem := (hc.span hnull).memory
    rw [h₂.ds, hcx]
    exact ⟨by rw [hvalue]; omega, by rw [hvalue]; omega⟩
  · rw [hsi] at hne ⊢
    obtain ⟨hnull, hvalue⟩ := h.buffer_eq hc hne
    have happ := hc.apart hnull
    unfold Apart linear
    rw [hbase, hdi, h₂.ds, hvalue, hcx]
    omega

/-- Another turn, or the end. -/
theorem Running.step (hc : Copyable s₀) (h : Running s₀ s k) :
    (∃ s', Leads vidCopy (some .vid0, s) (none, s') ∧ Returned s₀ s') ∨
      ∃ s' n, Leads vidCopy (some .vid0, s) (some .vid0, s') ∧ 0 < n ∧ Running s₀ s' (k + n) := by
  obtain ⟨s₁, e₁, h₁⟩ := plans (h.display hc)
  have hf₁ := h.toFramed.steady h₁.toSteady
  have hretrace : (s₁.var .color).getLsbD 0 = true → Retraces s₁.input := by
    rw [hf₁.color]
    intro hcolor n
    obtain ⟨j, hj⟩ := hf₁.input
    obtain ⟨m, hm⟩ := hc.retrace hcolor (n + j)
    refine ⟨m, ?_⟩
    rw [hj]
    dsimp only
    rw [show n + m + j = n + j + m by omega]
    exact hm
  obtain ⟨s₂, e₂, h₂⟩ := waits hretrace
  have hf₂ := hf₁.steady h₂.toSteady
  have hsi : s₂.reg si = param s 4 := (h₂.regs si (by decide)).trans h₁.si
  have hdi₁ : (s₁.reg di).toNat = ((offset s₀).toNat + 2 * k) % ramSize s₀ := by
    rw [h₁.di, h.start_eq hc]
  have hdi : (s₂.reg di).toNat = ((offset s₀).toNat + 2 * k) % ramSize s₀ := by
    rw [h₂.regs di (by decide), hdi₁]
  have hleft : (param s 10).toNat = (words s₀).toNat - k := (congrArg _ (h.param 10)).trans h.left
  have hramSize : ramSize s = ramSize s₀ := by rw [ramSize, h.mask, ramSize]
  have hcount := h₁.count
  rw [hdi₁, hleft, hramSize] at hcount
  have hcase := h₁.left
  rw [hleft] at hcase
  have hle := h.le
  have hsize := hc.size
  have hpos : 0 < ramSize s₀ := Nat.succ_pos _
  have hD := Nat.mod_lt ((offset s₀).toNat + 2 * k) hpos
  generalize hn : (s₁.reg cx).toNat = n at hcount hcase
  have hcx : (s₂.reg cx).toNat = n := by rw [h₂.regs cx (by decide), hn]
  have hsum : k + n ≤ (words s₀).toNat := by
    unfold chunk at hcount
    omega
  have hroom : ((offset s₀).toNat + 2 * k) % ramSize s₀ + 2 * n ≤ ramSize s₀ := by
    unfold chunk at hcount
    omega
  obtain ⟨s₃, e₃, h₃⟩ := shows (h.ready hc hf₂ hsi hdi hcx hsum hroom)
  have hflags : s₃.stack (s₃.reg sp) = s₂.flags.toWord := by
    rw [h₃.stack, h₃.sp]
    exact update_self ..
  obtain ⟨s₄, e₄, hregs₄, hsp₄, hstack₄, hmem₄, hvar₄, hinput₄, hdirection₄, hinterrupt₄⟩ :=
    checks hflags
  have hf₄ : Framed s₀ s₄ := by
    refine hf₂.congr ((hregs₄ bp (by decide)).trans h₃.bp) ?_ ((hregs₄ ds (by decide)).trans h₃.ds)
      hdirection₄ hinterrupt₄ (by rw [hvar₄, h₃.var]) (by rw [hvar₄, h₃.var])
      ⟨0, hinput₄.trans h₃.input⟩ fun a h₀ _ _ _ => ?_
    · rw [hsp₄, h₃.sp]
      bv_omega
    · rw [hstack₄, h₃.stack, hf₂.top]
      exact update_of_ne h₀ ..
  have hbase : param s₂ 6 = videobase s₀ := (hf₂.param 6).trans hf₂.base
  have hmem : s₄.mem = stores s₀.mem (place s₀) (wordOf s₀) (k + n) := by
    rw [hmem₄, h₃.mem, hcx, hbase]
    exact h.stores_chunk hc (h₂.mem.trans h₁.mem) (h₂.ds.trans h₁.ds) hsi hdi hsum hroom
  have hbx : s₃.reg bx = s₁.reg bx := h₃.bx.trans (h₂.regs bx (by decide))
  rw [hbx] at e₄
  have e : Leads vidCopy (some .vid0, s)
      (some (if (s₁.reg bx).toInt ≤ 0 then .vid6 else .vid5next), s₄) :=
    ((e₁.append e₂).append e₃).append e₄
  rcases hcase with ⟨hall, hdone⟩ | ⟨hmore, hgo, hrest, htmp⟩
  · rw [if_pos hdone] at e
    have hend : k + n = (words s₀).toNat := by omega
    obtain ⟨s', e', hs'⟩ := returns hf₄ (hend ▸ hmem)
    exact Or.inl ⟨s', e.append e', hs'⟩
  · rw [if_neg (by omega)] at e
    obtain ⟨s₅, e₅, h₅⟩ := restarts hf₄
    -- the chunk ends where the video RAM does
    have heven : ((offset s₀).toNat + 2 * k) % ramSize s₀ % 2 = 0 := by
      have := hc.even
      rcases hsize with hm | hm <;> rw [hm] <;> omega
    have hend : ((offset s₀).toNat + 2 * k) % ramSize s₀ + 2 * n = ramSize s₀ := by
      unfold chunk at hcount
      omega
    have hwrap : ((offset s₀).toNat + 2 * (k + n)) % ramSize s₀ = 0 := by
      rw [Nat.mul_add, ← Nat.add_assoc, ← Nat.mod_add_mod, hend, Nat.mod_self]
    have hold : s₄.stack (slot s₀ 18) = s.stack (slot s₀ 18) := by
      rw [hstack₄, h₃.stack, hf₂.top, update_of_ne (slot_ne (by decide) (by decide) (by decide)),
        h₂.stack, h₁.stack]
    have htmp₄ : s₄.var .tmp = BitVec.ofNat 16 n := by
      rw [hvar₄, h₃.var, h₂.tmp, htmp, ← hn, BitVec.ofNat_toNat, BitVec.setWidth_eq]
    refine Or.inr ⟨s₅, n, e.append e₅, by omega, h₅.toFramed, ?_, ?_, ?_, ?_, hsum,
      h₅.mem.trans hmem⟩
    · rw [h₅.buf, hold, htmp₄, Machine.sum_false, Machine.sum_false]
      by_cases hnull : buffer s₀ = 0
      · have hbuf := h.buf
        rw [if_pos hnull] at hbuf
        rw [if_pos hbuf, if_pos hnull]
      · have hbuf := h.buf
        have hne := h.buffer_ne hc hnull (by omega)
        rw [h.param] at hne
        rw [if_neg hnull] at hbuf
        rw [if_neg hne, if_neg hnull, hbuf, BitVec.add_assoc, ← BitVec.ofNat_add,
          ← BitVec.ofNat_add]
        congr 2
        omega
    · rw [h₅.off, hwrap]
      exact Nat.zero_mod _
    · rw [h₅.off]
      rfl
    · rw [h₅.left, hregs₄ bx (by decide), hbx, hrest]
      omega

/-- The rest of a call. -/
theorem Running.finishes {s₀ s : Machine Var} {k : Nat} (hc : Copyable s₀) (h : Running s₀ s k) :
    ∃ s', Leads vidCopy (some .vid0, s) (none, s') ∧ Returned s₀ s' := by
  rcases h.step hc with hdone | ⟨s₁, n, he, hn, h₁⟩
  · exact hdone
  · obtain ⟨s', he', hs'⟩ := h₁.finishes hc
    exact ⟨s', he.append he', hs'⟩
termination_by (words s₀).toNat - k
decreasing_by
  have := h₁.le
  omega

/-- `vid_copy` terminates. What it does is to write the words, or blanks, each at its place in the
video RAM, which wraps around. -/
theorem vid_copy_wraps (hc : Copyable s₀) :
    ∃ s, Leads vidCopy (some .start, s₀) (none, s) ∧ Returned s₀ s := by
  obtain ⟨s₁, he, h⟩ := enters hc.even
  obtain ⟨s, he', hs⟩ := h.finishes hc
  exact ⟨s, he.append he', hs⟩

/-- A call on a monochrome display that blanks 3 words, of which one fits before the end. -/
def exampleCall : Machine Var where
  reg r := if r = sp then 100 else 7
  flags := ⟨true, false, false, true, true, false⟩
  stack a := if a = 104 then 0xB000 else if a = 106 then 4094 else if a = 108 then 3 else 0
  var v := if v = .vidMask then M_VID_MASK else 0
  mem _ := 65
  input _ := 0

/-- A call that copies three words. -/
theorem vid_copy_three :
    ∃ s, Leads vidCopy (some .start, exampleCall) (none, s) ∧ Returned exampleCall s :=
  vid_copy_wraps ⟨rfl, Or.inr rfl, rfl, by decide, by decide, fun h => absurd rfl h,
    fun h => absurd rfl h, fun h => absurd h (by decide)⟩

end Minix.Kernel.VidCopy
