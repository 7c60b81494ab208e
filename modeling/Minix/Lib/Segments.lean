import Minix.Lib.I8088

/-!
# Routines of the 8088 that change segments

Here the stack, the tables and the variables of a routine all lie in the one memory, which every
segment is a window on, and a routine may load any segment register. The flags are a word; of its
bits the instructions set those for carry, zero, sign and overflow.
-/

namespace I8088.Segments

open Function

/-- The registers of a processor, with the place where it goes on and the flags. -/
structure Regs where
  ax : Word
  bx : Word
  cx : Word
  dx : Word
  si : Word
  di : Word
  bp : Word
  sp : Word
  ds : Word
  es : Word
  ss : Word
  cs : Word
  ip : Word
  psw : Word
  deriving DecidableEq

/-- The registers that an instruction can name. -/
inductive Name where
  | ax
  | bx
  | cx
  | dx
  | si
  | di
  | bp
  | sp
  | ds
  | es
  | ss
  | cs

namespace Regs

/-- The register of a given name. -/
def get (r : Regs) : Name → Word
  | .ax => r.ax
  | .bx => r.bx
  | .cx => r.cx
  | .dx => r.dx
  | .si => r.si
  | .di => r.di
  | .bp => r.bp
  | .sp => r.sp
  | .ds => r.ds
  | .es => r.es
  | .ss => r.ss
  | .cs => r.cs

/-- The registers after `w` has been put in one of them. -/
def set (r : Regs) (w : Word) : Name → Regs
  | .ax => { r with ax := w }
  | .bx => { r with bx := w }
  | .cx => { r with cx := w }
  | .dx => { r with dx := w }
  | .si => { r with si := w }
  | .di => { r with di := w }
  | .bp => { r with bp := w }
  | .sp => { r with sp := w }
  | .ds => { r with ds := w }
  | .es => { r with es := w }
  | .ss => { r with ss := w }
  | .cs => { r with cs := w }

end Regs

/-! ## Words of the memory -/

/-- Memory, a byte at each physical address. -/
abbrev Ram : Type := Nat → UInt8

/-- The word at an offset in a segment. -/
def wordAt (mem : Ram) (seg off : Word) : Word :=
  (mem (phys seg (off + 1))).toBitVec ++ (mem (phys seg off)).toBitVec

/-- A word stored at `seg:off`, low byte first. -/
def setWord (mem : Ram) (seg off w : Word) : Ram :=
  update (update mem (phys seg off) ⟨w.extractLsb' 0 8⟩) (phys seg (off + 1)) ⟨w.extractLsb' 8 8⟩

/-- Different offsets are different bytes. -/
theorem phys_inj {seg a b : Word} (h : phys seg a = phys seg b) : a = b := by
  have ha := a.isLt
  have hb := b.isLt
  have hs := seg.isLt
  unfold phys at h
  exact BitVec.eq_of_toNat_eq (by omega)

/-- The two bytes of a word lie at different addresses. -/
theorem phys_succ_ne (seg off : Word) : phys seg off ≠ phys seg (off + 1) := by
  intro h
  have := phys_inj h
  bv_omega

/-- Two words of one segment have no byte in common. -/
def Apart (a b : Word) : Prop := a ≠ b ∧ a ≠ b + 1 ∧ a + 1 ≠ b

instance (a b : Word) : Decidable (Apart a b) := inferInstanceAs (Decidable (_ ∧ _ ∧ _))

/-! Offsets that are counted up and down from one place. -/

/-- Stack offsets, collected. -/
theorem add_then_sub (p a b : Word) : p + a - b = p + (a - b) := by bv_omega

/-- Stack offsets, collected. -/
theorem sub_then_sub (p a b : Word) : p - a - b = p - (a + b) := by bv_omega

/-- Stack offsets, collected. -/
theorem sub_then_add (p a b : Word) : p - a + b = p - (a - b) := by bv_omega

/-- Two distances below a pointer add up. -/
theorem below_below (p : Word) (k j : Nat) :
    p - BitVec.ofNat 16 k - BitVec.ofNat 16 j = p - BitVec.ofNat 16 (j + k) := by
  rw [sub_then_sub, BitVec.ofNat_add, BitVec.add_comm]

/-- Whether two words below one pointer overlap depends on their distances from it. -/
theorem apart_sub (p a b : Word) : Apart (p - a) (p - b) ↔ Apart a b := by
  unfold Apart
  constructor <;> rintro ⟨h₁, h₂, h₃⟩ <;> refine ⟨?_, ?_, ?_⟩ <;> bv_omega

/-- Words that do not overlap, and do not wrap. -/
theorem apart_of_toNat {a b : Word} (ha : a.toNat < 65535) (hb : b.toNat < 65535)
    (h : a.toNat + 2 ≤ b.toNat ∨ b.toNat + 2 ≤ a.toNat) : Apart a b := by
  refine ⟨?_, ?_, ?_⟩ <;> bv_omega

/-- The byte behind one that is counted down from a place. -/
theorem below_succ (p : Word) {k : Nat} (hk : 2 ≤ k) :
    p - BitVec.ofNat 16 k + 1 = p - BitVec.ofNat 16 (k - 1) := by
  have : BitVec.ofNat 16 k = BitVec.ofNat 16 (k - 1) + 1 := by
    rw [show (1 : Word) = BitVec.ofNat 16 1 from rfl, ← BitVec.ofNat_add,
      Nat.sub_add_cancel (by omega)]
  rw [this]
  bv_omega

/-- The word just stored is read back. -/
@[simp] theorem wordAt_setWord (mem : Ram) (seg off w : Word) :
    wordAt (setWord mem seg off w) seg off = w := by
  unfold wordAt setWord
  rw [update_self, update_of_ne (phys_succ_ne seg off), update_self]
  ext i hi
  rw [BitVec.getElem_append]
  split
  · rw [BitVec.getElem_extractLsb', Nat.zero_add, BitVec.getLsbD_eq_getElem hi]
  · rw [BitVec.getElem_extractLsb', show 8 + (i - 8) = i by omega, BitVec.getLsbD_eq_getElem hi]

/-- A store changes its two bytes only. -/
theorem setWord_of_ne {mem : Ram} {seg off w : Word} {a : Nat} (h : a ≠ phys seg off)
    (h' : a ≠ phys seg (off + 1)) : setWord mem seg off w a = mem a := by
  unfold setWord
  rw [update_of_ne h', update_of_ne h]

/-- A word is stored in a place that is apart from the one that is read. -/
theorem wordAt_setWord_of_apart {mem : Ram} {seg off off' w : Word} (h : Apart off' off) :
    wordAt (setWord mem seg off w) seg off' = wordAt mem seg off' := by
  obtain ⟨h₁, h₂, h₃⟩ := h
  unfold wordAt
  rw [setWord_of_ne (fun e => h₃ (phys_inj e))
      (fun e => h₁ ((BitVec.add_left_inj _).mp (phys_inj e))),
    setWord_of_ne (fun e => h₁ (phys_inj e)) fun e => h₂ (phys_inj e)]

/-- A word lies in a part of the memory. -/
def Within (P : Nat → Prop) (seg off : Word) : Prop := P (phys seg off) ∧ P (phys seg (off + 1))

/-- A word is stored away from the part of the memory that is read. -/
theorem wordAt_setWord_of_within {P : Nat → Prop} {mem : Ram} {seg off w seg' off' : Word}
    (h : Within (fun a => ¬P a) seg off) (h' : Within P seg' off') :
    wordAt (setWord mem seg off w) seg' off' = wordAt mem seg' off' := by
  have hne : ∀ {a b}, P a → ¬P b → a ≠ b := fun ha hb e => hb (e ▸ ha)
  unfold wordAt
  rw [setWord_of_ne (hne h'.2 h.1) (hne h'.2 h.2), setWord_of_ne (hne h'.1 h.1) (hne h'.1 h.2)]

/-- Two memories have the same word where they have the same bytes. -/
theorem wordAt_congr {P : Nat → Prop} {mem mem' : Ram} {seg off : Word}
    (h : ∀ a, P a → mem a = mem' a) (hw : Within P seg off) :
    wordAt mem seg off = wordAt mem' seg off := by
  unfold wordAt
  rw [h _ hw.1, h _ hw.2]

/-! ## Instructions -/

/-- The state of a processor with its memory. -/
structure Machine where
  regs : Regs
  mem : Ram

/-- An operand is a register, a number, or a word in the memory: the segment register, the base
register if there is one, and the displacement. -/
inductive Operand where
  | reg (r : Name)
  | imm (w : Word)
  | word (seg : Name) (base : Option Name) (disp : Word)

instance : Coe Name Operand := ⟨.reg⟩

instance (n : Nat) : OfNat Operand n := ⟨.imm (BitVec.ofNat 16 n)⟩

/-- An instruction; its target comes first. -/
inductive Instr where
  | mov (dst src : Operand)
  | push (src : Operand)
  | pop (dst : Operand)
  | add (dst src : Operand)
  | inc (dst : Operand)
  | dec (dst : Operand)
  | or (dst src : Operand)
  | xor (dst src : Operand)
  | cmp (dst src : Operand)
  | cli
  | sti
  /-- a far pointer is loaded: the offset into `dst`, the segment into `ds` -/
  | lds (dst : Name) (src : Word)

/-- The flags after a result. -/
def arith (psw r : Word) (carry overflow : Bool) : Word :=
  (psw &&& 0xF73E) ||| (if carry then 0x0001 else 0) ||| (if r = 0 then 0x0040 else 0) |||
    (if r.msb then 0x0080 else 0) ||| if overflow then 0x0800 else 0

/-- The bits for traps and interrupts are cleared. -/
def masked (psw : Word) : Word := psw &&& 0xFCFF

/-- Whether interrupts are let in. -/
def enabled (psw : Word) : Bool := psw.getLsbD 9

/-- After `cli` interrupts are off. -/
@[simp] theorem enabled_masked (psw : Word) : enabled (masked psw) = false := by
  unfold enabled masked
  rw [BitVec.getLsbD_and]
  exact Bool.and_false _

/-- A result does not matter to interrupts. -/
@[simp] theorem enabled_arith (psw r : Word) (carry overflow : Bool) :
    enabled (arith psw r carry overflow) = enabled psw := by
  have hbit : ∀ c : Bool, ∀ w : Word, w.getLsbD 9 = false →
      (if c then w else 0 : Word).getLsbD 9 = false := fun c w hw => by
    cases c with
    | false => exact BitVec.getLsbD_zero
    | true => exact hw
  have hzero : (if r = 0 then 0x0040 else 0 : Word).getLsbD 9 = false := by split <;> rfl
  unfold enabled arith
  rw [BitVec.getLsbD_or, BitVec.getLsbD_or, BitVec.getLsbD_or, BitVec.getLsbD_or,
    BitVec.getLsbD_and, hbit carry _ rfl, hzero, hbit r.msb _ rfl, hbit overflow _ rfl]
  simp

/-- Whether the last result was zero. -/
def zero (psw : Word) : Bool := psw.getLsbD 6

/-- The zero flag after an operation says whether its result is 0. -/
@[simp] theorem zero_arith (psw r : Word) (carry overflow : Bool) :
    zero (arith psw r carry overflow) = decide (r = 0) := by
  have hbit : ∀ c : Bool, ∀ w : Word, w.getLsbD 6 = false →
      (if c then w else 0 : Word).getLsbD 6 = false := fun c w hw => by
    cases c with
    | false => exact BitVec.getLsbD_zero
    | true => exact hw
  have hzero : (if r = 0 then 0x0040 else 0 : Word).getLsbD 6 = decide (r = 0) := by
    by_cases hr : r = 0
    · rw [if_pos hr, decide_eq_true hr]
      rfl
    · rw [if_neg hr, decide_eq_false hr]
      rfl
  unfold zero arith
  rw [BitVec.getLsbD_or, BitVec.getLsbD_or, BitVec.getLsbD_or, BitVec.getLsbD_or,
    BitVec.getLsbD_and, hbit carry _ rfl, hzero, hbit r.msb _ rfl, hbit overflow _ rfl]
  simp

namespace Machine

variable (s : Machine)

/-- Where an operand in the memory is, as an offset. -/
def offset (base : Option Name) (disp : Word) : Word :=
  match base with
  | none => disp
  | some r => s.regs.get r + disp

/-- The register of a given name. -/
def get : Operand → Word
  | .reg r => s.regs.get r
  | .imm w => w
  | .word seg base disp => wordAt s.mem (s.regs.get seg) (s.offset base disp)

/-- The machine after `w` has been put in an operand; an immediate is no destination. -/
def put (w : Word) : Operand → Machine
  | .reg r => { s with regs := s.regs.set w r }
  | .imm _ => s
  | .word seg base disp => { s with mem := setWord s.mem (s.regs.get seg) (s.offset base disp) w }

/-- `push w`. -/
def push (w : Word) : Machine where
  regs := { s.regs with sp := s.regs.sp - 2 }
  mem := setWord s.mem s.regs.ss (s.regs.sp - 2) w

/-- The word on top of the stack. -/
def top : Word := wordAt s.mem s.regs.ss s.regs.sp

/-- The word on top of the stack, thrown away. -/
def drop : Machine := { s with regs := { s.regs with sp := s.regs.sp + 2 } }

/-- A result is stored, and the flags are set. -/
def store (dst : Operand) (r : Word) (carry overflow : Bool) : Machine :=
  let s := s.put r dst
  { s with regs := { s.regs with psw := arith s.regs.psw r carry overflow } }

/-- An interrupt: the flags and the place to go on are pushed, and no other interrupt follows. -/
def interrupt (cs ip : Word) : Machine :=
  let t := ((s.push s.regs.psw).push s.regs.cs).push s.regs.ip
  { t with regs := { t.regs with cs := cs, ip := ip, psw := masked s.regs.psw } }

/-- A routine of the segment is called; it starts at `ip` and returns to `ret`. -/
def call (ip ret : Word) : Machine :=
  let t := s.push ret
  { t with regs := { t.regs with ip := ip } }

/-- A jump to `ip`. -/
def jump (ip : Word) : Machine := { s with regs := { s.regs with ip := ip } }

/-- A near return. -/
def ret : Machine := s.drop.jump s.top

/-- The return from an interrupt. -/
def iret : Machine :=
  let t := s.drop
  let u := t.drop
  { u.drop with regs := { u.drop.regs with ip := s.top, cs := t.top, psw := u.top } }

end Machine

/-! ## The stack -/

variable {s : Machine}

/-- A byte is not one of those below a stack pointer. -/
def Above (r : Regs) (n : Nat) (a : Nat) : Prop :=
  ∀ j, 1 ≤ j → j ≤ n → a ≠ phys r.ss (r.sp - BitVec.ofNat 16 j)

/-- A push leaves what lies above the stack pointer as it is. -/
theorem push_frame {n : Nat} {a : Nat} (h : Above s.regs n a) (hn : 2 ≤ n) (w : Word) :
    (s.push w).mem a = s.mem a := by
  have hodd : s.regs.sp - 2 + 1 = s.regs.sp - BitVec.ofNat 16 1 :=
    below_succ s.regs.sp (k := 2) (by decide)
  exact setWord_of_ne (h 2 (by decide) hn) (hodd ▸ h 1 (by decide) (by omega))

/-- What lies above the stack pointer still does so after a push, by two bytes less. -/
theorem Above.push {n : Nat} {a : Nat} (h : Above s.regs (n + 2) a) (w : Word) :
    Above (s.push w).regs n a := by
  intro j h₁ hn
  have hout := h (j + 2) (by omega) (by omega)
  rw [← below_below] at hout
  exact hout

/-- Words are pushed one after the other. -/
def Machine.pushes (s : Machine) (ws : List Word) : Machine := ws.foldl Machine.push s

/-- A number of pushes moves the stack pointer down by two bytes each. -/
theorem pushes_regs (s : Machine) (ws : List Word) :
    (s.pushes ws).regs = { s.regs with sp := s.regs.sp - BitVec.ofNat 16 (2 * ws.length) } := by
  induction ws generalizing s with
  | nil => exact congrArg (fun w => { s.regs with sp := w }) (BitVec.sub_zero _).symm
  | cons w ws ih =>
    refine (ih (s.push w)).trans (congrArg (fun w => { s.regs with sp := w }) ?_)
    exact below_below s.regs.sp 2 (2 * ws.length)

/-- Only bytes below the stack pointer are pushed to. -/
theorem pushes_frame {ws : List Word} {a : Nat} (h : Above s.regs (2 * ws.length) a) :
    (s.pushes ws).mem a = s.mem a := by
  induction ws generalizing s with
  | nil => rfl
  | cons w ws ih =>
    rw [List.length_cons, Nat.mul_add] at h
    exact (ih (h.push w)).trans (push_frame h (by omega) w)

/-- The words on top of the stack. -/
def topWords (s : Machine) (n : Nat) : List Word :=
  (List.range n).map fun i => wordAt s.mem s.regs.ss (s.regs.sp + BitVec.ofNat 16 (2 * i))

/-- A word is pushed on top of the others. -/
theorem topWords_push (s : Machine) (w : Word) {n : Nat} (hn : 2 * n + 2 < 65536) :
    topWords (s.push w) (n + 1) = w :: topWords s n := by
  unfold topWords
  rw [List.range_succ_eq_map, List.map_cons, List.map_map]
  refine List.cons_eq_cons.mpr ⟨?_, List.map_congr_left fun i hi => ?_⟩
  · exact (congrArg (wordAt _ _) (BitVec.add_zero _)).trans (wordAt_setWord ..)
  · have hi := List.mem_range.mp hi
    have hto : s.regs.sp - 2 + BitVec.ofNat 16 (2 * (i + 1)) =
        s.regs.sp + BitVec.ofNat 16 (2 * i) := by
      rw [Nat.mul_add, BitVec.ofNat_add]
      bv_omega
    have hapart : Apart (s.regs.sp + BitVec.ofNat 16 (2 * i)) (s.regs.sp - 2) := by
      refine ⟨?_, ?_, ?_⟩ <;> bv_omega
    exact (congrArg (wordAt _ _) hto).trans (wordAt_setWord_of_apart hapart)

/-- The words pushed are on top of the stack, the last one first. -/
theorem topWords_pushes (s : Machine) (ws : List Word) {n : Nat}
    (hn : 2 * (ws.length + n) < 65536) :
    topWords (s.pushes ws) (ws.length + n) = ws.reverse ++ topWords s n := by
  induction ws generalizing s n with
  | nil => rw [List.length_nil, Nat.zero_add]; rfl
  | cons w ws ih =>
    rw [List.length_cons] at hn
    have := ih (s.push w) (n := n + 1) (by omega)
    rw [topWords_push s w (by omega)] at this
    rw [List.length_cons, Nat.add_right_comm, Nat.add_assoc, List.reverse_cons, List.append_assoc]
    exact this

/-- The word on top is taken off. -/
theorem topWords_drop (s : Machine) (n : Nat) :
    topWords s (n + 1) = s.top :: topWords s.drop n := by
  unfold topWords
  rw [List.range_succ_eq_map, List.map_cons, List.map_map]
  refine List.cons_eq_cons.mpr ⟨congrArg (wordAt _ _) (BitVec.add_zero _),
    List.map_congr_left fun i _ => congrArg (wordAt _ _) ?_⟩
  change s.regs.sp + BitVec.ofNat 16 (2 * (i + 1)) = s.regs.sp + 2 + BitVec.ofNat 16 (2 * i)
  rw [Nat.mul_add, BitVec.ofNat_add, BitVec.add_assoc, BitVec.add_comm (BitVec.ofNat 16 (2 * i))]
  rfl

/-- The words on the stack depend on the stack only. -/
theorem topWords_congr {t : Machine} {n : Nat} (hss : t.regs.ss = s.regs.ss)
    (hsp : t.regs.sp = s.regs.sp)
    (h : ∀ j < 2 * n, t.mem (phys s.regs.ss (s.regs.sp + BitVec.ofNat 16 j)) =
      s.mem (phys s.regs.ss (s.regs.sp + BitVec.ofNat 16 j))) :
    topWords t n = topWords s n := by
  refine List.map_congr_left fun i hi => ?_
  have hi := List.mem_range.mp hi
  have hone : s.regs.sp + BitVec.ofNat 16 (2 * i) + 1 =
      s.regs.sp + BitVec.ofNat 16 (2 * i + 1) := by
    rw [BitVec.ofNat_add, BitVec.add_assoc]
    rfl
  unfold wordAt
  rw [hss, hsp, hone, h (2 * i) (by omega), h (2 * i + 1) (by omega)]

/-- Some of the words are taken off. -/
theorem topWords_skip {ws ws' : List Word} {n : Nat} {r : Regs}
    (h : topWords s (ws.length + n) = ws ++ ws') (hss : r.ss = s.regs.ss)
    (hsp : r.sp = s.regs.sp + BitVec.ofNat 16 (2 * ws.length)) :
    topWords ⟨r, s.mem⟩ n = ws' := by
  induction ws generalizing s with
  | nil =>
    rw [List.length_nil, Nat.zero_add, List.nil_append] at h
    rw [← h]
    exact topWords_congr hss (hsp.trans (BitVec.add_zero _)) fun _ _ => rfl
  | cons w ws ih =>
    rw [List.length_cons, Nat.add_right_comm, topWords_drop] at h
    refine ih (s := s.drop) (List.cons.inj h).2 hss (hsp.trans ?_)
    change _ = s.regs.sp + 2 + _
    rw [List.length_cons, Nat.mul_add, Nat.add_comm, BitVec.ofNat_add, BitVec.add_assoc]
    rfl

/-- A word of the stack, counted from the top. -/
theorem wordAt_of_topWords {n i : Nat} {w : Word} (h : (topWords s n)[i]? = some w) :
    wordAt s.mem s.regs.ss (s.regs.sp + BitVec.ofNat 16 (2 * i)) = w := by
  unfold topWords at h
  rw [List.getElem?_map, Option.map_eq_some_iff] at h
  obtain ⟨j, hj, hw⟩ := h
  obtain ⟨hi, hij⟩ := List.getElem?_eq_some_iff.mp hj
  rw [List.getElem_range] at hij
  rw [hij, hw]

/-- What an instruction does. -/
def Instr.exec (s : Machine) : Instr → Machine
  | .mov dst src => s.put (s.get src) dst
  | .push src => s.push (s.get src)
  | .pop dst => s.drop.put s.top dst
  | .add dst src =>
    let a := s.get dst
    let b := s.get src
    s.store dst (a + b) (a.toNat + b.toNat ≥ 2 ^ 16) ((a + b).toInt ≠ a.toInt + b.toInt)
  | .inc dst =>
    let a := s.get dst
    s.store dst (a + 1) (s.regs.psw.getLsbD 0) ((a + 1).toInt ≠ a.toInt + 1)
  | .dec dst =>
    let a := s.get dst
    s.store dst (a - 1) (s.regs.psw.getLsbD 0) ((a - 1).toInt ≠ a.toInt - 1)
  | .or dst src => s.store dst (s.get dst ||| s.get src) false false
  | .xor dst src => s.store dst (s.get dst ^^^ s.get src) false false
  | .cmp dst src =>
    let a := s.get dst
    let b := s.get src
    let psw := arith s.regs.psw (a - b) (a.toNat < b.toNat) ((a - b).toInt ≠ a.toInt - b.toInt)
    { s with regs := { s.regs with psw := psw } }
  | .cli => { s with regs := { s.regs with psw := s.regs.psw &&& 0xFDFF } }
  | .sti => { s with regs := { s.regs with psw := s.regs.psw ||| 0x0200 } }
  | .lds dst src =>
    let s' : Machine := { s with regs := s.regs.set (wordAt s.mem s.regs.ds src) dst }
    { s' with regs := { s'.regs with ds := wordAt s.mem s.regs.ds (src + 2) } }

/-- Instructions one after the other. -/
def run (s : Machine) (l : List Instr) : Machine := l.foldl Instr.exec s

/-- Two programs one after the other. -/
theorem run_append (s : Machine) (l₁ l₂ : List Instr) : run s (l₁ ++ l₂) = run (run s l₁) l₂ :=
  List.foldl_append

end I8088.Segments
