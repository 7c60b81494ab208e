import Minix.Kernel.Proc
import Minix.Lib.Segments

/-!
# `save` and `restart`

The routines of `mpx88.asm` between which the kernel runs. `save` stores the state of the machine in
the process table, with the stack pointer running through the table backwards, and changes to the
stack of the kernel; `restart` loads it again, of whatever process is to run then.

Where the linker has put the table, the kernel's stack and the variables that C code shares is a
parameter. The variables of the file itself come first in the data segment.
-/

namespace Minix.Kernel.Mpx

open I8088 (Word phys)
open I8088.Segments

/-- the size of the kernel's stack -/
abbrev K_STACK_BYTES : Word := 256

/-- fcn code for disk interrupts -/
abbrev DISKINT : Word := 1
/-- the clock task -/
abbrev CLOCK : Word := BitVec.ofInt 16 (-3)
/-- fcn code for clock ticks -/
abbrev CLOCK_TICK : Word := 2
/-- the floppy disk task -/
abbrev FLOPPY : Word := BitVec.ofInt 16 (-5)
/-- the hard disk task -/
abbrev WINI : Word := BitVec.ofInt 16 (-6)

/-- `sizeof(struct proc)` -/
abbrev PROC_SIZE : Nat := 86

/-! ## Offsets into the proc table -/

/-- where `ds` is in a process table entry -/
abbrev dsreg : Word := 16
/-- where `cs` is -/
abbrev csreg : Word := 18
/-- where `ss` is -/
abbrev ssreg : Word := 20
/-- where `sp` is -/
abbrev spreg : Word := 22
/-- where the program counter is -/
abbrev PC : Word := 24
/-- where the flags are -/
abbrev PSW : Word := 28
/-- where the lowest legal stack value is -/
abbrev SPLIM : Word := 50
/-- the offset behind the registers that are pushed last -/
abbrev OFF : Word := 18
/-- the offset behind the registers that are popped first -/
abbrev ROFF : Word := 12

/-! ## Variables -/

/-- The variables of the file. -/
inductive Var where
  | splimit
  | bx_save
  | ds_save
  | ret_save
  | lds_low
  | lds_high
  deriving DecidableEq

/-- They follow `_sizes`, one after the other. -/
def Var.off : Var → Word
  | .splimit => 16
  | .bx_save => 18
  | .ds_save => 20
  | .ret_save => 22
  | .lds_low => 24
  | .lds_high => 26

/-- the variable for the lowest legal stack value -/
abbrev splimit : Word := 16
/-- the variable for `bx` -/
abbrev bx_save : Word := 18
/-- the variable for `ds` -/
abbrev ds_save : Word := 20
/-- the variable for the return address -/
abbrev ret_save : Word := 22
/-- the variable for the lower half of a pointer -/
abbrev lds_low : Word := 24

/-- Where the kernel's data segment starts is at this offset in its text. -/
abbrev ker_ds : Word := 4

/-- The places in the data segment that are used here, with their sizes: the variables of the file,
the process table, two variables, a message and the kernel's stack. -/
def areas (proc cur_proc proc_ptr int_mess k_stack : Word) : List (Nat × Nat) :=
  [(0, 28), (proc.toNat, PROC_SIZE * (NR_TASKS + NR_PROCS)), (cur_proc.toNat, 2),
    (proc_ptr.toNat, 2), (int_mess.toNat, MESS_SIZE), (k_stack.toNat, 256)]

/-- Where things are: the segments of the kernel, and the places in its data segment, none of them
over another. -/
structure Layout where
  cs : Word
  ds : Word
  proc : Word
  cur_proc : Word
  proc_ptr : Word
  int_mess : Word
  k_stack : Word
  text : cs.toNat * 16 + 6 ≤ ds.toNat * 16
  data : ds.toNat * 16 + 65536 ≤ 2 ^ 20
  fit : ∀ a ∈ areas proc cur_proc proc_ptr int_mess k_stack, a.1 + a.2 < 65536
  apart : (areas proc cur_proc proc_ptr int_mess k_stack).Pairwise fun a b =>
    a.1 + a.2 ≤ b.1 ∨ b.1 + b.2 ≤ a.1

/-- The entry of a process in the table. -/
def Layout.entry (l : Layout) (rp : Slot) : Word := l.proc + BitVec.ofNat 16 (PROC_SIZE * rp.val)

/-- The words that the routines use. Of an entry it is those up to `p_splimit`. -/
inductive Cell where
  | var (v : Var)
  | cur_proc
  | proc_ptr
  | int_type
  | field (rp : Slot) (i : Fin 26)
  deriving DecidableEq

/-- Where a word is in the data segment. -/
def Layout.off (l : Layout) : Cell → Word
  | .var v => v.off
  | .cur_proc => l.cur_proc
  | .proc_ptr => l.proc_ptr
  | .int_type => l.int_mess + 2
  | .field rp i => l.entry rp + BitVec.ofNat 16 (2 * i.val)

/-! ## The routines -/

open Operand in
/-- Save the machine state in the proc table. -/
def save (l : Layout) : List Instr :=
  [.push Name.ds, .push Name.cs, .pop Name.ds, .mov Name.ds (word .ds none ker_ds),
    .pop (word .ds none ds_save), .pop (word .ds none ret_save),
    .mov (word .ds none bx_save) Name.bx, .mov Name.bx (word .ds none l.proc_ptr),
    .add Name.bx (imm OFF),
    .pop (word .ds (some .bx) (PC - OFF)), .pop (word .ds (some .bx) (csreg - OFF)),
    .pop (word .ds (some .bx) (PSW - OFF)), .mov (word .ds (some .bx) (ssreg - OFF)) Name.ss,
    -- sp as it was prior to interrupt
    .mov (word .ds (some .bx) (spreg - OFF)) Name.sp,
    -- now sp points into the proc table
    .mov Name.sp Name.bx, .mov Name.bx Name.ds, .mov Name.ss Name.bx,
    .push (word .ds none ds_save), .push Name.es, .mov Name.es Name.bx, .push Name.bp,
    .push Name.di, .push Name.si, .push Name.dx, .push Name.cx, .push (word .ds none bx_save),
    .push Name.ax,
    .mov Name.sp (imm l.k_stack), .add Name.sp (imm K_STACK_BYTES),
    .mov (word .ds none splimit) (imm l.k_stack), .add Name.ax 8,
    .mov (word .ds none splimit) Name.ax, .mov Name.ax (word .ds none ret_save)]

open Operand in
/-- Set up and run a process or task. -/
def restore (l : Layout) : List Instr :=
  [.cli, .mov Name.sp (word .ds none l.proc_ptr),
    .pop Name.ax, .pop Name.bx, .pop Name.cx, .pop Name.dx, .pop Name.si, .pop Name.di,
    .mov (word .ds none lds_low) Name.bx, .mov Name.bx Name.sp,
    .mov Name.bp (word .ds (some .bx) (SPLIM - ROFF)), .mov (word .ds none splimit) Name.bp,
    .mov Name.bp (word .ds (some .bx) (dsreg - ROFF)), .mov (word .ds none (lds_low + 2)) Name.bp,
    .pop Name.bp, .pop Name.es, .mov Name.sp (word .ds (some .bx) (spreg - ROFF)),
    .mov Name.ss (word .ds (some .bx) (ssreg - ROFF)), .push (word .ds (some .bx) (PSW - ROFF)),
    .push (word .ds (some .bx) (csreg - ROFF)), .push (word .ds (some .bx) (PC - ROFF)),
    .lds .bx lds_low]

/-- The entry points that are reached by an interrupt or a trap. -/
inductive Entry where
  | s_call
  | tty_int
  | lpr_int
  | disk_int
  | wini_int
  | clock_int
  | surprise
  | trp
  | divide

open Operand in
/-- A message is built, and the parameters of `interrupt` are pushed. -/
def raise (l : Layout) (type task : Word) : List Instr :=
  [.mov (word .ds none (l.int_mess + 2)) (imm type), .mov Name.ax (imm l.int_mess), .push Name.ax,
    .mov Name.ax (imm task), .push Name.ax]

open Operand in
/-- What the routine does between `save` and the call of a function in C. -/
def Entry.args (l : Layout) : Entry → List Instr
  | .s_call =>
    -- use bp to access sys call parameters
    [.mov Name.bp (word .ds none l.proc_ptr), .push (word .ss (some .bp) 2),
      .push (word .ss (some .bp) 0), .push (word .ds none l.cur_proc),
      .push (word .ss (some .bp) 4)]
  | .disk_int => raise l DISKINT FLOPPY
  | .wini_int => raise l DISKINT WINI
  | .clock_int => raise l CLOCK_TICK CLOCK
  | .tty_int | .lpr_int | .surprise | .trp | .divide => []

/-- An interrupt or a trap leads to a routine at `ip`, which calls `save` before the instruction at
`next`. -/
def enter (l : Layout) (s : Machine) (ip next : Word) : Machine :=
  let s := run ((s.interrupt l.cs ip).call 0 next) (save l)
  s.jump s.regs.ax

/-- `restart` when a process is to run. -/
def resume (l : Layout) (s : Machine) : Machine := (run s (restore l)).iret

/-- `IDLE`, in a word. -/
abbrev IDLE_WORD : Word := BitVec.ofInt 16 IDLE

/-- The end of a routine: when nobody is runnable, the kernel waits at `L3` for an interrupt. -/
def restart (l : Layout) (L3 : Word) (s : Machine) : Machine :=
  let s := (Instr.cmp (.word .ds none l.cur_proc) (.imm IDLE_WORD)).exec s
  if zero s.regs.psw then (Instr.sti.exec s).jump L3 else resume l s

/-! ## The words of the kernel -/

variable (l : Layout)

/-- The words that the routines use, as they are in the memory. -/
def cells (mem : Ram) (c : Cell) : Word := wordAt mem l.ds (l.off c)

/-- The registers that the table holds for a process. -/
def context (v : Cell → Word) (rp : Slot) : Regs where
  ax := v (.field rp 0)
  bx := v (.field rp 1)
  cx := v (.field rp 2)
  dx := v (.field rp 3)
  si := v (.field rp 4)
  di := v (.field rp 5)
  bp := v (.field rp 6)
  es := v (.field rp 7)
  ds := v (.field rp 8)
  cs := v (.field rp 9)
  ss := v (.field rp 10)
  sp := v (.field rp 11)
  ip := v (.field rp 12)
  psw := v (.field rp 14)

/-- The bytes of these words, and of the one in the text. -/
def Own (a : Nat) : Prop :=
  (∃ c, a = phys l.ds (l.off c) ∨ a = phys l.ds (l.off c + 1)) ∨
    a = phys l.cs ker_ds ∨ a = phys l.cs (ker_ds + 1)

/-- Below a stack pointer there are so many bytes that the kernel does not use. -/
def Clear (r : Regs) (n : Nat) : Prop :=
  ∀ j, 1 ≤ j → j ≤ n → ¬Own l (phys r.ss (r.sp - BitVec.ofNat 16 j))

variable {l}

/-- The places one by one. -/
theorem Layout.places (l : Layout) :
    (28 ≤ l.proc.toNat ∧ 28 ≤ l.cur_proc.toNat ∧ 28 ≤ l.proc_ptr.toNat ∧ 28 ≤ l.int_mess.toNat) ∧
    (l.proc.toNat + 2064 < 65536 ∧ l.cur_proc.toNat + 2 < 65536 ∧ l.proc_ptr.toNat + 2 < 65536 ∧
      l.int_mess.toNat + 24 < 65536) ∧
    (l.proc.toNat + 2064 ≤ l.cur_proc.toNat ∨ l.cur_proc.toNat + 2 ≤ l.proc.toNat) ∧
    (l.proc.toNat + 2064 ≤ l.proc_ptr.toNat ∨ l.proc_ptr.toNat + 2 ≤ l.proc.toNat) ∧
    (l.proc.toNat + 2064 ≤ l.int_mess.toNat ∨ l.int_mess.toNat + 24 ≤ l.proc.toNat) ∧
    (l.cur_proc.toNat + 2 ≤ l.proc_ptr.toNat ∨ l.proc_ptr.toNat + 2 ≤ l.cur_proc.toNat) ∧
    (l.cur_proc.toNat + 2 ≤ l.int_mess.toNat ∨ l.int_mess.toNat + 24 ≤ l.cur_proc.toNat) ∧
    (l.proc_ptr.toNat + 2 ≤ l.int_mess.toNat ∨ l.int_mess.toNat + 24 ≤ l.proc_ptr.toNat) := by
  have hfit := l.fit
  have hapart := l.apart
  unfold areas at hfit hapart
  simp only [List.forall_mem_cons, List.pairwise_cons, PROC_SIZE, NR_TASKS, NR_PROCS, MESS_SIZE]
    at hfit hapart
  omega

/-- The stack of the kernel lies beside everything else. -/
theorem Layout.stack (l : Layout) :
    28 ≤ l.k_stack.toNat ∧ l.k_stack.toNat + 256 < 65536 ∧
    (l.proc.toNat + 2064 ≤ l.k_stack.toNat ∨ l.k_stack.toNat + 256 ≤ l.proc.toNat) ∧
    (l.cur_proc.toNat + 2 ≤ l.k_stack.toNat ∨ l.k_stack.toNat + 256 ≤ l.cur_proc.toNat) ∧
    (l.proc_ptr.toNat + 2 ≤ l.k_stack.toNat ∨ l.k_stack.toNat + 256 ≤ l.proc_ptr.toNat) ∧
    (l.int_mess.toNat + 24 ≤ l.k_stack.toNat ∨ l.k_stack.toNat + 256 ≤ l.int_mess.toNat) := by
  have hfit := l.fit
  have hapart := l.apart
  unfold areas at hfit hapart
  simp only [List.forall_mem_cons, List.pairwise_cons, PROC_SIZE, NR_TASKS, NR_PROCS, MESS_SIZE]
    at hfit hapart
  omega

/-- The entries of the table follow each other, and do not wrap around. -/
theorem Layout.entry_toNat (rp : Slot) :
    (l.entry rp).toNat = l.proc.toNat + PROC_SIZE * rp.val := by
  have hrp : rp.val < 24 := rp.isLt
  have := l.places.2.1.1
  unfold entry PROC_SIZE
  rw [BitVec.toNat_add, BitVec.toNat_ofNat, Nat.add_mod_mod, Nat.mod_eq_of_lt (by omega)]

/-- Nor do the fields of an entry. -/
theorem Layout.field_toNat (rp : Slot) (i : Fin 26) :
    (l.off (.field rp i)).toNat = l.proc.toNat + PROC_SIZE * rp.val + 2 * i.val := by
  have hrp : rp.val < 24 := rp.isLt
  have hi := i.isLt
  have := l.places.2.1.1
  unfold off
  rw [BitVec.toNat_add, entry_toNat, BitVec.toNat_ofNat, Nat.add_mod_mod,
    Nat.mod_eq_of_lt (by unfold PROC_SIZE; omega)]

/-- The type of a message follows its source. -/
theorem Layout.int_type_toNat : (l.off .int_type).toNat = l.int_mess.toNat + 2 := by
  have := l.places.2.1.2.2.2
  exact (BitVec.toNat_add ..).trans (Nat.mod_eq_of_lt (show l.int_mess.toNat + 2 < 65536 by omega))

/-- The variables are within 28 bytes. -/
theorem Var.off_lt (v : Var) : v.off.toNat + 2 ≤ 28 := by
  cases v <;> decide

/-- No cell is at the end of the segment. -/
theorem Layout.off_lt (c : Cell) : (l.off c).toNat < 65535 := by
  obtain ⟨-, ⟨hproc, hcur, hptr, hmess⟩, -⟩ := l.places
  cases c with
  | var v =>
    have := v.off_lt
    exact show v.off.toNat < 65535 by omega
  | cur_proc => exact show l.cur_proc.toNat < 65535 by omega
  | proc_ptr => exact show l.proc_ptr.toNat < 65535 by omega
  | int_type =>
    rw [int_type_toNat]
    omega
  | field rp i =>
    have hrp : rp.val < 24 := rp.isLt
    have hi := i.isLt
    rw [field_toNat]
    unfold PROC_SIZE
    omega

/-- Two words that do not overlap. -/
abbrev Beside (a b : Word) : Prop := a.toNat + 2 ≤ b.toNat ∨ b.toNat + 2 ≤ a.toNat

/-- Two variables are apart. -/
theorem Var.beside {v v' : Var} (h : v ≠ v') : Beside v.off v'.off := by
  revert h
  cases v <;> cases v' <;> decide

/-- The words of an entry lie in the table, and the other words do not. -/
theorem Layout.beside_field (c : Cell) (hc : ∀ rp i, c ≠ .field rp i) (rp : Slot) (i : Fin 26) :
    Beside (l.off c) (l.off (.field rp i)) := by
  have hrp : rp.val < 24 := rp.isLt
  have hi := i.isLt
  obtain ⟨⟨hproc, -⟩, -, hcur, hptr, hmess, -⟩ := l.places
  have hout : (l.off c).toNat + 2 ≤ l.proc.toNat ∨ l.proc.toNat + 2064 ≤ (l.off c).toNat := by
    cases c with
    | var v => exact Or.inl (v.off_lt.trans hproc)
    | cur_proc => exact hcur.symm
    | proc_ptr => exact hptr.symm
    | int_type =>
      rw [int_type_toNat]
      omega
    | field rp i => exact absurd rfl (hc rp i)
  unfold Beside
  rw [field_toNat]
  unfold PROC_SIZE
  omega

/-- A variable of the file comes before everything else. -/
theorem Layout.beside_var (c : Cell) (hc : ∀ v, c ≠ .var v) (v : Var) :
    Beside (l.off (.var v)) (l.off c) := by
  obtain ⟨⟨-, hcur, hptr, hmess⟩, -⟩ := l.places
  cases c with
  | var v => exact absurd rfl (hc v)
  | cur_proc => exact Or.inl (v.off_lt.trans hcur)
  | proc_ptr => exact Or.inl (v.off_lt.trans hptr)
  | int_type =>
    refine Or.inl (v.off_lt.trans ?_)
    rw [int_type_toNat]
    omega
  | field rp i => exact l.beside_field _ (by simp) rp i

/-- No two of the words overlap. -/
theorem Layout.beside {c c' : Cell} (h : c ≠ c') : Beside (l.off c) (l.off c') := by
  obtain ⟨-, -, -, -, -, hcp, hcm, hpm⟩ := l.places
  have hmess : l.int_mess.toNat + 2 = (l.off .int_type).toNat := int_type_toNat.symm
  have hsub : (l.off .cur_proc).toNat = l.cur_proc.toNat ∧
    (l.off .proc_ptr).toNat = l.proc_ptr.toNat := ⟨rfl, rfl⟩
  cases c' with
  | field rp' i' =>
    cases c with
    | field rp i =>
      have hi := i.isLt
      have hi' := i'.isLt
      have hne : rp.val ≠ rp'.val ∨ i.val ≠ i'.val := by
        by_contra hn
        rw [not_or, not_not, not_not, ← Fin.ext_iff, ← Fin.ext_iff] at hn
        exact h (by rw [hn.1, hn.2])
      unfold Beside
      rw [field_toNat, field_toNat]
      unfold PROC_SIZE
      omega
    | _ => exact l.beside_field _ (by simp) rp' i'
  | var v' =>
    cases c with
    | var v => exact Var.beside fun e => h (e ▸ rfl)
    | _ => exact (l.beside_var _ (by simp) v').symm
  | _ =>
    cases c with
    | field rp i => exact (l.beside_field _ (by simp) rp i).symm
    | var v => exact l.beside_var _ (by simp) v
    | _ => first | exact absurd rfl h | (unfold Beside; omega)

/-- One of the words is stored. -/
theorem cells_setWord (mem : Ram) (c : Cell) (w : Word) :
    cells l (setWord mem l.ds (l.off c) w) = Function.update (cells l mem) c w := by
  funext c'
  unfold cells
  by_cases h : c' = c
  · rw [h, wordAt_setWord, Function.update_self]
  · rw [wordAt_setWord_of_apart (apart_of_toNat (l.off_lt c') (l.off_lt c) (l.beside h)),
      Function.update_of_ne h]

/-- A cell is the kernel's own memory. -/
theorem within_own (c : Cell) : Within (Own l) l.ds (l.off c) :=
  ⟨Or.inl ⟨c, Or.inl rfl⟩, Or.inl ⟨c, Or.inr rfl⟩⟩

/-- A word is stored elsewhere. -/
theorem cells_setWord_of_out {mem : Ram} {seg off w : Word}
    (h : Within (fun a => ¬Own l a) seg off) : cells l (setWord mem seg off w) = cells l mem := by
  funext c
  exact wordAt_setWord_of_within h (within_own c)

/-- One of the words is stored, and the word that is read is elsewhere. -/
theorem wordAt_of_out {mem : Ram} {seg off w : Word} (c : Cell)
    (h : Within (fun a => ¬Own l a) seg off) :
    wordAt (setWord mem l.ds (l.off c) w) seg off = wordAt mem seg off :=
  wordAt_setWord_of_within (P := fun a => ¬Own l a)
    ⟨not_not.mpr (within_own c).1, not_not.mpr (within_own c).2⟩ h

/-- A word of the stack below a pointer. -/
theorem Clear.word {r : Regs} {n : Nat} (h : Clear l r n) {k : Nat} (hk : 2 ≤ k) (hn : k ≤ n) :
    Within (fun a => ¬Own l a) r.ss (r.sp - BitVec.ofNat 16 k) := by
  refine ⟨h k (by omega) hn, ?_⟩
  rw [below_succ _ hk]
  exact h (k - 1) (by omega) (by omega)

/-- The memory after the flags and two more places are pushed, the return address, and the segments
that `save` pushes. -/
def pushedBy (s : Machine) (cs next : Word) : Ram :=
  let U := s.regs.ss
  let S := s.regs.sp
  let m := setWord (setWord (setWord s.mem U (S - 2) s.regs.psw) U (S - 4) s.regs.cs) U (S - 6)
    s.regs.ip
  setWord (setWord (setWord m U (S - 8) next) U (S - 10) s.regs.ds) U (S - 12) cs

/-- A byte that the kernel does not use. -/
theorem setWord_of_own {mem : Ram} {w : Word} (c : Cell) {a : Nat} (h : ¬Own l a) :
    setWord mem l.ds (l.off c) w a = mem a :=
  setWord_of_ne (fun e => h (Or.inl ⟨c, Or.inl e⟩)) fun e => h (Or.inl ⟨c, Or.inr e⟩)

/-- Some of the words are stored, one after the other. -/
def stored (l : Layout) (mem : Ram) (ws : List (Cell × Word)) : Ram :=
  ws.foldl (fun m p => setWord m l.ds (l.off p.1) p.2) mem

/-- Cells that are stored are those that are read. -/
theorem cells_stored (mem : Ram) (ws : List (Cell × Word)) :
    cells l (stored l mem ws) = ws.foldl (fun v p => Function.update v p.1 p.2) (cells l mem) := by
  induction ws generalizing mem with
  | nil => rfl
  | cons p ws ih => exact (ih _).trans (by rw [cells_setWord, List.foldl_cons])

/-- Other memory stays. -/
theorem stored_of_own (mem : Ram) (ws : List (Cell × Word)) {a : Nat} (h : ¬Own l a) :
    stored l mem ws a = mem a := by
  induction ws generalizing mem with
  | nil => rfl
  | cons p ws ih => exact (ih _).trans (setWord_of_own p.1 h)

/-- The text comes before the data. -/
theorem text_ne {k : Word} (hk : k.toNat < 6) (off : Word) : phys l.cs k ≠ phys l.ds off := by
  have htext := l.text
  have hdata := l.data
  have hoff := off.isLt
  unfold phys
  rw [Nat.mod_eq_of_lt (by omega), Nat.mod_eq_of_lt (by omega)]
  omega

/-- A store in the data leaves the word in the text. -/
theorem text_setWord (mem : Ram) (off w : Word) :
    wordAt (setWord mem l.ds off w) l.cs ker_ds = wordAt mem l.cs ker_ds := by
  unfold wordAt
  rw [setWord_of_ne (text_ne (k := ker_ds + 1) (by decide) _) (text_ne (by decide) _),
    setWord_of_ne (text_ne (k := ker_ds) (by decide) _) (text_ne (by decide) _)]

/-- So do all the stores. -/
theorem stored_text (mem : Ram) (ws : List (Cell × Word)) :
    wordAt (stored l mem ws) l.cs ker_ds = wordAt mem l.cs ker_ds := by
  induction ws generalizing mem with
  | nil => rfl
  | cons p ws ih => exact (ih _).trans (text_setWord ..)

section Save

variable {s : Machine} {rp : Slot} {ip next : Word} {r : Regs} {m : Ram}

/-- What an interrupt pushes on the stack of a process is not the kernel's memory. -/
theorem pushedBy_own (hclear : Clear l s.regs 12) {cs seg off : Word} (h : Within (Own l) seg off) :
    wordAt (pushedBy s cs next) seg off = wordAt s.mem seg off := by
  have hword {k : Nat} (hk : 2 ≤ k) (hn : k ≤ 12) := hclear.word hk hn
  simp only [pushedBy, BitVec.ofNat_eq_ofNat]
  rw [wordAt_setWord_of_within (hword (k := 12) (by decide) (by decide)) h,
    wordAt_setWord_of_within (hword (k := 10) (by decide) (by decide)) h,
    wordAt_setWord_of_within (hword (k := 8) (by decide) (by decide)) h,
    wordAt_setWord_of_within (hword (k := 6) (by decide) (by decide)) h,
    wordAt_setWord_of_within (hword (k := 4) (by decide) (by decide)) h,
    wordAt_setWord_of_within (hword (k := 2) (by decide) (by decide)) h]

/-- What has been pushed. -/
theorem pushedBy_words (s : Machine) (cs next : Word) :
    wordAt (pushedBy s cs next) s.regs.ss (s.regs.sp - 12) = cs ∧
      wordAt (pushedBy s cs next) s.regs.ss (s.regs.sp - 10) = s.regs.ds ∧
      wordAt (pushedBy s cs next) s.regs.ss (s.regs.sp - 8) = next ∧
      wordAt (pushedBy s cs next) s.regs.ss (s.regs.sp - 6) = s.regs.ip ∧
      wordAt (pushedBy s cs next) s.regs.ss (s.regs.sp - 4) = s.regs.cs ∧
      wordAt (pushedBy s cs next) s.regs.ss (s.regs.sp - 2) = s.regs.psw := by
  have hskip {m : Ram} {w a b : Word} (h : Apart a b) :
      wordAt (setWord m s.regs.ss (s.regs.sp - b) w) s.regs.ss (s.regs.sp - a) =
        wordAt m s.regs.ss (s.regs.sp - a) := wordAt_setWord_of_apart ((apart_sub ..).mpr h)
  simp only [pushedBy]
  refine ⟨wordAt_setWord .., ?_, ?_, ?_, ?_, ?_⟩
  · rw [hskip (by decide), wordAt_setWord]
  · rw [hskip (by decide), hskip (by decide), wordAt_setWord]
  · rw [hskip (by decide), hskip (by decide), hskip (by decide), wordAt_setWord]
  · rw [hskip (by decide), hskip (by decide), hskip (by decide), hskip (by decide), wordAt_setWord]
  · rw [hskip (by decide), hskip (by decide), hskip (by decide), hskip (by decide),
      hskip (by decide), wordAt_setWord]

/-- `save` switches to the kernel's data segment. -/
theorem save_start (hclear : Clear l s.regs 12) (hker : wordAt s.mem l.cs ker_ds = l.ds) :
    run ((s.interrupt l.cs ip).call 0 next) ((save l).take 4) =
      ⟨{ s.regs with
          sp := s.regs.sp - 10, cs := l.cs, ip := 0, ds := l.ds, psw := masked s.regs.psw },
        pushedBy s l.cs next⟩ := by
  have hds : wordAt (pushedBy s l.cs next)
      (wordAt (pushedBy s l.cs next) s.regs.ss (s.regs.sp - 12)) ker_ds = l.ds := by
    rw [(pushedBy_words s l.cs next).1,
      pushedBy_own hclear ⟨Or.inr (Or.inl rfl), Or.inr (Or.inr rfl)⟩,
      hker]
  simp only [save, List.take, run, List.foldl, Instr.exec, Machine.push, Machine.get, Machine.put,
    Machine.drop, Machine.top, Regs.get, Regs.set, Machine.offset, Machine.interrupt, Machine.call,
    sub_then_sub, sub_then_add, BitVec.reduceAdd, BitVec.reduceSub, BitVec.ofNat_eq_ofNat]
  exact congrArg (fun w => (⟨{ s.regs with
    sp := s.regs.sp - 10, cs := l.cs, ip := 0, ds := w, psw := masked s.regs.psw },
      pushedBy s l.cs next⟩ : Machine)) hds

/-- It pops the return address and the program counter into variables. -/
theorem save_vars (hds : r.ds = l.ds) (hout : Within (fun a => ¬Own l a) r.ss (r.sp + 2)) :
    ∃ psw, enabled psw = enabled r.psw ∧ run ⟨r, m⟩ (((save l).drop 4).take 5) =
      ⟨{ r with sp := r.sp + 4, bx := cells l m .proc_ptr + OFF, psw := psw },
        setWord (setWord (setWord m l.ds (l.off (.var .ds_save)) (wordAt m r.ss r.sp))
          l.ds (l.off (.var .ret_save)) (wordAt m r.ss (r.sp + 2)))
          l.ds (l.off (.var .bx_save)) r.bx⟩ := by
  have hread (u v w : Word) : wordAt (setWord (setWord (setWord m l.ds ds_save u) l.ds ret_save v)
      l.ds bx_save w) l.ds l.proc_ptr = cells l m .proc_ptr := by
    have := cells_setWord (l := l) m (.var .ds_save) u
    change cells l (setWord (setWord (setWord m l.ds (l.off (.var .ds_save)) u) l.ds
      (l.off (.var .ret_save)) v) l.ds (l.off (.var .bx_save)) w) .proc_ptr = _
    simp only [cells_setWord]
    rfl
  have hnext (u : Word) : wordAt (setWord m l.ds ds_save u) r.ss (r.sp + 2) =
      wordAt m r.ss (r.sp + 2) := wordAt_of_out (.var .ds_save) hout
  simp only [save, List.take, List.drop, run, List.foldl, Instr.exec, Machine.get, Machine.put,
    Machine.drop, Machine.top, Regs.get, Regs.set, Machine.offset, Machine.store, BitVec.add_assoc,
    BitVec.reduceAdd, BitVec.ofNat_eq_ofNat, hds]
  simp only [BitVec.ofNat_eq_ofNat] at hnext hread
  rw [hnext, hread]
  exact ⟨_, enabled_arith .., rfl⟩

/-- It copies what the interrupt pushed to the entry of the process. -/
theorem save_frame (rp : Slot) (hds : r.ds = l.ds) (hbx : r.bx = l.entry rp + OFF)
    (hout : ∀ k ∈ [2, 4], Within (fun a => ¬Own l a) r.ss (r.sp + BitVec.ofNat 16 k)) :
    run ⟨r, m⟩ (((save l).drop 9).take 8) =
      ⟨{ r with sp := l.entry rp + OFF, bx := l.ds, ss := l.ds },
        setWord (setWord (setWord (setWord (setWord m l.ds (l.off (.field rp 12))
          (wordAt m r.ss r.sp)) l.ds (l.off (.field rp 9)) (wordAt m r.ss (r.sp + 2)))
          l.ds (l.off (.field rp 14)) (wordAt m r.ss (r.sp + 4)))
          l.ds (l.off (.field rp 10)) r.ss) l.ds (l.off (.field rp 11)) (r.sp + 6)⟩ := by
  have hcs (u : Word) : wordAt (setWord m l.ds (l.entry rp + 24) u) r.ss (r.sp + 2) =
      wordAt m r.ss (r.sp + 2) := wordAt_of_out (.field rp 12) (hout 2 (by decide))
  have hpsw (u v : Word) : wordAt (setWord (setWord m l.ds (l.entry rp + 24) u) l.ds
      (l.entry rp + 18) v) r.ss (r.sp + 4) = wordAt m r.ss (r.sp + 4) :=
    (wordAt_of_out (.field rp 9) (hout 4 (by decide))).trans
      (wordAt_of_out (.field rp 12) (hout 4 (by decide)))
  simp only [BitVec.ofNat_eq_ofNat] at hcs hpsw
  simp only [save, List.take, List.drop, run, List.foldl, Instr.exec, Machine.get, Machine.put,
    Machine.drop, Machine.top, Regs.get, Regs.set, Machine.offset, BitVec.add_assoc,
    BitVec.reduceAdd, BitVec.reduceSub, BitVec.ofNat_eq_ofNat, hds, hbx]
  rw [hcs, hpsw]
  rfl

/-- It pushes the registers into the entry. -/
theorem save_regs (rp : Slot) (hds : r.ds = l.ds) (hss : r.ss = l.ds) (hbx : r.bx = l.ds)
    (hsp : r.sp = l.entry rp + OFF) :
    run ⟨r, m⟩ (((save l).drop 17).take 10) =
      ⟨{ r with sp := l.off (.field rp 0), es := l.ds },
        setWord (setWord (setWord (setWord (setWord (setWord (setWord (setWord (setWord m
          l.ds (l.off (.field rp 8)) (cells l m (.var .ds_save)))
          l.ds (l.off (.field rp 7)) r.es) l.ds (l.off (.field rp 6)) r.bp)
          l.ds (l.off (.field rp 5)) r.di) l.ds (l.off (.field rp 4)) r.si)
          l.ds (l.off (.field rp 3)) r.dx) l.ds (l.off (.field rp 2)) r.cx)
          l.ds (l.off (.field rp 1)) (cells l m (.var .bx_save)))
          l.ds (l.off (.field rp 0)) r.ax⟩ := by
  have hskip {m : Ram} {a u : Word} (ha : ∃ i : Fin 26, a = BitVec.ofNat 16 (2 * i.val)) :
      wordAt (setWord m l.ds (l.entry rp + a) u) l.ds bx_save = wordAt m l.ds bx_save := by
    obtain ⟨i, rfl⟩ := ha
    exact congrFun (cells_setWord m (.field rp i) u) (.var .bx_save)
  simp only [BitVec.ofNat_eq_ofNat] at hskip
  simp only [save, List.take, List.drop, run, List.foldl, Instr.exec, Machine.get, Machine.put,
    Machine.push, Regs.get, Regs.set, Machine.offset, add_then_sub, BitVec.reduceSub,
    BitVec.ofNat_eq_ofNat, hds, hbx, hss, hsp]
  rw [hskip (by decide), hskip (by decide), hskip (by decide), hskip (by decide),
    hskip (by decide), hskip (by decide), hskip (by decide)]
  rfl

/-- It switches to the kernel's stack and returns. -/
theorem save_end (hds : r.ds = l.ds) :
    ∃ psw, enabled psw = enabled r.psw ∧ run ⟨r, m⟩ ((save l).drop 27) =
      ⟨{ r with sp := l.k_stack + K_STACK_BYTES, ax := cells l m (.var .ret_save), psw := psw },
        setWord (setWord m l.ds (l.off (.var .splimit)) l.k_stack)
          l.ds (l.off (.var .splimit)) (r.ax + 8)⟩ := by
  have hread (u v : Word) : wordAt (setWord (setWord m l.ds splimit u) l.ds splimit v) l.ds
      ret_save = cells l m (.var .ret_save) :=
    (congrFun (cells_setWord _ (.var .splimit) v) (.var .ret_save)).trans
      (congrFun (cells_setWord m (.var .splimit) u) (.var .ret_save))
  simp only [BitVec.ofNat_eq_ofNat] at hread
  simp only [save, List.drop, run, List.foldl, Instr.exec, Machine.get, Machine.put, Regs.get,
    Regs.set, Machine.offset, Machine.store, BitVec.ofNat_eq_ofNat, hds]
  rw [hread]
  exact ⟨_, (enabled_arith ..).trans (enabled_arith ..), rfl⟩

/-- Only bytes below the stack pointer are pushed to. -/
theorem pushedBy_of_ne (s : Machine) (cs next : Word) {a : Nat}
    (h : ∀ j, 1 ≤ j → j ≤ 12 → a ≠ phys s.regs.ss (s.regs.sp - BitVec.ofNat 16 j)) :
    pushedBy s cs next a = s.mem a := by
  have hodd (k : Nat) (hk : 2 ≤ k) (hn : k ≤ 12) :
      a ≠ phys s.regs.ss (s.regs.sp - BitVec.ofNat 16 k + 1) := by
    have := h (k - 1) (by omega) (by omega)
    have he : s.regs.sp - BitVec.ofNat 16 k + 1 = s.regs.sp - BitVec.ofNat 16 (k - 1) :=
      below_succ _ hk
    rwa [he]
  simp only [pushedBy, BitVec.ofNat_eq_ofNat]
  rw [setWord_of_ne (h 12 (by decide) (by decide)) (hodd 12 (by decide) (by decide)),
    setWord_of_ne (h 10 (by decide) (by decide)) (hodd 10 (by decide) (by decide)),
    setWord_of_ne (h 8 (by decide) (by decide)) (hodd 8 (by decide) (by decide)),
    setWord_of_ne (h 6 (by decide) (by decide)) (hodd 6 (by decide) (by decide)),
    setWord_of_ne (h 4 (by decide) (by decide)) (hodd 4 (by decide) (by decide)),
    setWord_of_ne (h 2 (by decide) (by decide)) (hodd 2 (by decide) (by decide))]

/-- The words that `save` stores. -/
def savedWords (rp : Slot) (r : Regs) (next k_stack : Word) : List (Cell × Word) :=
  [(.var .ds_save, r.ds), (.var .ret_save, next), (.var .bx_save, r.bx), (.field rp 12, r.ip),
    (.field rp 9, r.cs), (.field rp 14, r.psw), (.field rp 10, r.ss), (.field rp 11, r.sp),
    (.field rp 8, r.ds), (.field rp 7, r.es), (.field rp 6, r.bp), (.field rp 5, r.di),
    (.field rp 4, r.si), (.field rp 3, r.dx), (.field rp 2, r.cx), (.field rp 1, r.bx),
    (.field rp 0, r.ax), (.var .splimit, k_stack), (.var .splimit, r.ax + 8)]

/-- Up to the change to the stack of the kernel. -/
theorem save_table (ip next : Word) (hclear : Clear l s.regs 12)
    (hker : wordAt s.mem l.cs ker_ds = l.ds)
    (hptr : cells l s.mem .proc_ptr = l.entry rp) :
    ∃ psw, enabled psw = false ∧
      run ((s.interrupt l.cs ip).call 0 next) ((save l).take 27) =
        ⟨{ s.regs with
            bx := l.ds, sp := l.off (.field rp 0), ds := l.ds, es := l.ds, ss := l.ds, cs := l.cs,
            ip := 0, psw := psw },
          stored l (pushedBy s l.cs next) ((savedWords rp s.regs next l.k_stack).take 17)⟩ := by
  have hsplit : (save l).take 27 = (save l).take 4 ++ (((save l).drop 4).take 5 ++
    (((save l).drop 9).take 8 ++ ((save l).drop 17).take 10)) := rfl
  obtain ⟨-, hds, hnext, hip, hcs, hpsw⟩ := pushedBy_words s l.cs next
  have hword {k : Nat} (hk : 2 ≤ k) (hn : k ≤ 12) := hclear.word hk hn
  have hptr₁ : cells l (pushedBy s l.cs next) .proc_ptr + OFF = l.entry rp + OFF := by
    rw [← hptr]
    exact congrArg (· + OFF) (pushedBy_own hclear (within_own .proc_ptr))
  obtain ⟨psw, hp, h₁⟩ := save_vars (l := l) (m := pushedBy s l.cs next)
    (r := { s.regs with
      sp := s.regs.sp - 10, cs := l.cs, ip := 0, ds := l.ds, psw := masked s.regs.psw })
    rfl (by dsimp only; rw [sub_then_add]; exact hword (k := 8) (by decide) (by decide))
  have hout (u v w : Word) {k : Nat} (hk : 2 ≤ k) (hn : k ≤ 12) :
      wordAt (setWord (setWord (setWord (pushedBy s l.cs next) l.ds (l.off (.var .ds_save)) u)
        l.ds (l.off (.var .ret_save)) v) l.ds (l.off (.var .bx_save)) w) s.regs.ss
          (s.regs.sp - BitVec.ofNat 16 k) =
        wordAt (pushedBy s l.cs next) s.regs.ss (s.regs.sp - BitVec.ofNat 16 k) := by
    rw [wordAt_of_out _ (hword hk hn), wordAt_of_out _ (hword hk hn),
      wordAt_of_out _ (hword hk hn)]
  have hout₆ := hout s.regs.ds next s.regs.bx (k := 6) (by decide) (by decide)
  have hout₄ := hout s.regs.ds next s.regs.bx (k := 4) (by decide) (by decide)
  have hout₂ := hout s.regs.ds next s.regs.bx (k := 2) (by decide) (by decide)
  have hrest : ∀ k ∈ [2, 4], Within (fun a => ¬Own l a) s.regs.ss
      (s.regs.sp - 10 + 4 + BitVec.ofNat 16 k) := by
    rw [List.forall_mem_cons, List.forall_mem_singleton, sub_then_add, sub_then_add, sub_then_add]
    exact ⟨hword (k := 4) (by decide) (by decide), hword (k := 2) (by decide) (by decide)⟩
  refine ⟨psw, hp.trans (enabled_masked _), ?_⟩
  rw [hsplit, run_append, save_start hclear hker, run_append, h₁, run_append,
    save_frame rp rfl hptr₁ hrest, save_regs rp rfl rfl rfl rfl]
  simp only [BitVec.ofNat_eq_ofNat] at hds hnext hip hcs hpsw hout₂ hout₄ hout₆
  simp only [sub_then_add, BitVec.reduceSub, BitVec.ofNat_eq_ofNat, hds, hnext, hout₂, hout₄,
    hout₆, hip, hcs, hpsw, BitVec.sub_zero, cells_setWord]
  rfl

/-- An interrupt or a trap, and `save`. -/
theorem enter_eq (ip next : Word) (hclear : Clear l s.regs 12)
    (hker : wordAt s.mem l.cs ker_ds = l.ds)
    (hptr : cells l s.mem .proc_ptr = l.entry rp) :
    ∃ psw, enabled psw = false ∧ enter l s ip next =
      ⟨{ s.regs with
          ax := next, bx := l.ds, sp := l.k_stack + K_STACK_BYTES, ds := l.ds, es := l.ds,
          ss := l.ds, cs := l.cs, ip := next, psw := psw },
        stored l (pushedBy s l.cs next) (savedWords rp s.regs next l.k_stack)⟩ := by
  have hsplit : save l = (save l).take 27 ++ (save l).drop 27 := rfl
  obtain ⟨psw₁, hp₁, h₁⟩ := save_table ip next hclear hker hptr
  obtain ⟨psw₂, hp₂, h₂⟩ := save_end (l := l)
    (m := stored l (pushedBy s l.cs next) ((savedWords rp s.regs next l.k_stack).take 17))
    (r := { s.regs with
      bx := l.ds, sp := l.off (.field rp 0), ds := l.ds, es := l.ds, ss := l.ds, cs := l.cs, ip := 0
      psw := psw₁ }) rfl
  have hret : cells l (stored l (pushedBy s l.cs next)
      ((savedWords rp s.regs next l.k_stack).take 17)) (.var .ret_save) = next := by
    rw [cells_stored]
    rfl
  refine ⟨psw₂, hp₂.trans hp₁, ?_⟩
  unfold enter
  rw [hsplit, run_append, h₁, h₂, hret]
  rfl

end Save

section Restore

variable {rp : Slot} {r : Regs} {m : Ram}

/-- `restart` pops the registers from the entry. -/
theorem restore_pops (hds : r.ds = l.ds) (hss : r.ss = l.ds)
    (hptr : cells l m .proc_ptr = l.entry rp) :
    ∃ psw, run ⟨r, m⟩ ((restore l).take 8) =
      ⟨{ r with
          ax := cells l m (.field rp 0), bx := cells l m (.field rp 1)
          cx := cells l m (.field rp 2), dx := cells l m (.field rp 3)
          si := cells l m (.field rp 4), di := cells l m (.field rp 5)
          sp := l.off (.field rp 6), psw := psw }, m⟩ := by
  have hread : wordAt m l.ds l.proc_ptr = l.entry rp := hptr
  have hzero : wordAt m l.ds (l.entry rp) = cells l m (.field rp 0) :=
    congrArg (wordAt m l.ds) (BitVec.add_zero _).symm
  simp only [restore, List.take, run, List.foldl, Instr.exec, Machine.get, Machine.put,
    Machine.drop, Machine.top, Regs.get, Regs.set, Machine.offset, BitVec.add_assoc,
    BitVec.reduceAdd, BitVec.ofNat_eq_ofNat, hds, hss, hread, hzero]
  exact ⟨_, rfl⟩

/-- It keeps `bx` and `ds` for the end. -/
theorem restore_vars (rp : Slot) (hds : r.ds = l.ds) (hss : r.ss = l.ds)
    (hsp : r.sp = l.off (.field rp 6)) :
    run ⟨r, m⟩ (((restore l).drop 8).take 8) =
      ⟨{ r with
          bx := l.off (.field rp 6), bp := cells l m (.field rp 6), es := cells l m (.field rp 7)
          sp := l.off (.field rp 8) },
        stored l m [(.var .lds_low, r.bx), (.var .splimit, cells l m (.field rp 25)),
          (.var .lds_high, cells l m (.field rp 8))]⟩ := by
  have hsp' : r.sp = l.entry rp + 12 := hsp
  have hskip {m : Ram} {a b u : Word} (v : Var) (i : Fin 26) (ha : v.off = a)
      (hb : BitVec.ofNat 16 (2 * i.val) = b) :
      wordAt (setWord m l.ds a u) l.ds (l.entry rp + b) = wordAt m l.ds (l.entry rp + b) := by
    rw [← ha, ← hb]
    exact congrFun (cells_setWord m (.var v) u) (.field rp i)
  simp only [restore, List.take, List.drop, run, List.foldl, Instr.exec, Machine.get, Machine.put,
    Machine.drop, Machine.top, Regs.get, Regs.set, Machine.offset, BitVec.add_assoc,
    BitVec.reduceAdd, BitVec.reduceSub, BitVec.ofNat_eq_ofNat, hds, hss, hsp']
  -- each field is read behind the variables that have been stored
  rw [hskip (a := 24#16) (b := 50#16) .lds_low 25 rfl rfl,
    hskip (a := 16#16) (b := 16#16) .splimit 8 rfl rfl,
    hskip (a := 24#16) (b := 16#16) .lds_low 8 rfl rfl,
    hskip (a := 26#16) (b := 12#16) .lds_high 6 rfl rfl,
    hskip (a := 16#16) (b := 12#16) .splimit 6 rfl rfl,
    hskip (a := 24#16) (b := 12#16) .lds_low 6 rfl rfl,
    hskip (a := 26#16) (b := 14#16) .lds_high 7 rfl rfl,
    hskip (a := 16#16) (b := 14#16) .splimit 7 rfl rfl,
    hskip (a := 24#16) (b := 14#16) .lds_low 7 rfl rfl]
  rfl

/-- It switches to the stack of the process. -/
theorem restore_stack (rp : Slot) (hds : r.ds = l.ds) (hbx : r.bx = l.off (.field rp 6)) :
    run ⟨r, m⟩ (((restore l).drop 16).take 2) =
      ⟨{ r with sp := cells l m (.field rp 11), ss := cells l m (.field rp 10) }, m⟩ := by
  have hbx' : r.bx = l.entry rp + 12 := hbx
  simp only [restore, List.take, List.drop, run, List.foldl, Instr.exec, Machine.get, Machine.put,
    Regs.get, Regs.set, Machine.offset, BitVec.add_assoc, BitVec.reduceAdd, BitVec.reduceSub,
    BitVec.ofNat_eq_ofNat, hds, hbx']
  rfl

/-- The memory after the words for the return from the interrupt are pushed. -/
def framed (m : Ram) (U S psw cs ip : Word) : Ram :=
  setWord (setWord (setWord m U (S - 2) psw) U (S - 4) cs) U (S - 6) ip

/-- What it pushes there is not the kernel's memory. -/
theorem framed_own (hclear : Clear l r 6) {psw cs ip seg off : Word} (h : Within (Own l) seg off) :
    wordAt (framed m r.ss r.sp psw cs ip) seg off = wordAt m seg off := by
  have hword {k : Nat} (hk : 2 ≤ k) (hn : k ≤ 6) := hclear.word hk hn
  simp only [framed, BitVec.ofNat_eq_ofNat]
  rw [wordAt_setWord_of_within (hword (k := 6) (by decide) (by decide)) h,
    wordAt_setWord_of_within (hword (k := 4) (by decide) (by decide)) h,
    wordAt_setWord_of_within (hword (k := 2) (by decide) (by decide)) h]

/-- What the return from the interrupt finds. -/
theorem framed_words (m : Ram) (U S psw cs ip : Word) :
    wordAt (framed m U S psw cs ip) U (S - 6) = ip ∧
      wordAt (framed m U S psw cs ip) U (S - 4) = cs ∧
      wordAt (framed m U S psw cs ip) U (S - 2) = psw := by
  have hskip {m : Ram} {w a b : Word} (h : Apart a b) :
      wordAt (setWord m U (S - b) w) U (S - a) = wordAt m U (S - a) :=
    wordAt_setWord_of_apart ((apart_sub ..).mpr h)
  simp only [framed]
  refine ⟨wordAt_setWord .., ?_, ?_⟩
  · rw [hskip (by decide), wordAt_setWord]
  · rw [hskip (by decide), hskip (by decide), wordAt_setWord]

/-- Only bytes below the stack pointer are pushed to. -/
theorem framed_of_ne {U S : Word} (m : Ram) (psw cs ip : Word) {a : Nat}
    (h : ∀ j, 1 ≤ j → j ≤ 6 → a ≠ phys U (S - BitVec.ofNat 16 j)) :
    framed m U S psw cs ip a = m a := by
  have hodd (k : Nat) (hk : 2 ≤ k) (hn : k ≤ 6) : a ≠ phys U (S - BitVec.ofNat 16 k + 1) := by
    rw [below_succ S hk]
    exact h (k - 1) (by omega) (by omega)
  simp only [framed, BitVec.ofNat_eq_ofNat]
  rw [setWord_of_ne (h 6 (by decide) (by decide)) (hodd 6 (by decide) (by decide)),
    setWord_of_ne (h 4 (by decide) (by decide)) (hodd 4 (by decide) (by decide)),
    setWord_of_ne (h 2 (by decide) (by decide)) (hodd 2 (by decide) (by decide))]

/-- It pushes flags, segment and program counter, and returns from the interrupt. -/
theorem restore_end (rp : Slot) (hds : r.ds = l.ds) (hbx : r.bx = l.off (.field rp 6))
    (hclear : Clear l r 6) :
    (run ⟨r, m⟩ ((restore l).drop 18)).iret =
      ⟨{ r with
          bx := cells l m (.var .lds_low), ds := cells l m (.var .lds_high)
          ip := cells l m (.field rp 12), cs := cells l m (.field rp 9)
          psw := cells l m (.field rp 14) },
        framed m r.ss r.sp (cells l m (.field rp 14)) (cells l m (.field rp 9))
          (cells l m (.field rp 12))⟩ := by
  have hbx' : r.bx = l.entry rp + 12 := hbx
  have hword {k : Nat} (hk : 2 ≤ k) (hn : k ≤ 6) := hclear.word hk hn
  have hcs (u : Word) : wordAt (setWord m r.ss (r.sp - 2) u) l.ds (l.entry rp + 18) =
      cells l m (.field rp 9) :=
    wordAt_setWord_of_within (hword (k := 2) (by decide) (by decide)) (within_own (.field rp 9))
  have hip (u v : Word) : wordAt (setWord (setWord m r.ss (r.sp - 2) u) r.ss (r.sp - 4) v) l.ds
      (l.entry rp + 24) = cells l m (.field rp 12) :=
    (wordAt_setWord_of_within (hword (k := 4) (by decide) (by decide))
      (within_own (.field rp 12))).trans
        (wordAt_setWord_of_within (hword (k := 2) (by decide) (by decide))
          (within_own (.field rp 12)))
  simp only [BitVec.ofNat_eq_ofNat] at hcs hip
  obtain ⟨F, hF⟩ : ∃ F, framed m r.ss r.sp (cells l m (.field rp 14)) (cells l m (.field rp 9))
    (cells l m (.field rp 12)) = F := ⟨_, rfl⟩
  have hframe : setWord (setWord (setWord m r.ss (r.sp - 2) (wordAt m l.ds (l.entry rp + 28)))
      r.ss (r.sp - 4) (cells l m (.field rp 9))) r.ss (r.sp - 6) (cells l m (.field rp 12)) = F :=
    hF
  obtain ⟨hip', hcs', hpsw'⟩ := framed_words m r.ss r.sp (cells l m (.field rp 14))
    (cells l m (.field rp 9)) (cells l m (.field rp 12))
  have hown (c : Cell) : wordAt F l.ds (l.off c) = cells l m c := by
    rw [← hF]
    exact framed_own hclear (within_own c)
  have hlow : wordAt F l.ds 24 = cells l m (.var .lds_low) := hown (.var .lds_low)
  have hhigh : wordAt F l.ds 26 = cells l m (.var .lds_high) := hown (.var .lds_high)
  rw [hF] at hip' hcs' hpsw'
  simp only [BitVec.ofNat_eq_ofNat] at hframe hip' hcs' hpsw' hlow hhigh
  simp only [restore, List.drop, run, List.foldl, Instr.exec, Machine.get, Machine.drop,
    Machine.top, Regs.get, Regs.set, Machine.offset, BitVec.add_assoc, BitVec.reduceAdd,
    BitVec.reduceSub, BitVec.ofNat_eq_ofNat, hds, hbx', Machine.iret, Machine.push, sub_then_sub,
    sub_then_add, hcs, hip, hframe, hip', hcs', hpsw', hlow, hhigh, BitVec.sub_zero, hF]

/-- The words that `restart` stores. -/
def restoredWords (v : Cell → Word) (rp : Slot) : List (Cell × Word) :=
  [(.var .lds_low, v (.field rp 1)), (.var .splimit, v (.field rp 25)),
    (.var .lds_high, v (.field rp 8))]

/-- `restart` gives the machine to the process that `proc_ptr` points to. -/
theorem resume_eq (rp : Slot) (hds : r.ds = l.ds) (hss : r.ss = l.ds)
    (hptr : cells l m .proc_ptr = l.entry rp) (hclear : Clear l (context (cells l m) rp) 6) :
    let c := context (cells l m) rp
    resume l ⟨r, m⟩ =
      ⟨c, framed (stored l m (restoredWords (cells l m) rp)) c.ss c.sp c.psw c.cs c.ip⟩ := by
  have hsplit : restore l = (restore l).take 8 ++ (((restore l).drop 8).take 8 ++
    (((restore l).drop 16).take 2 ++ (restore l).drop 18)) := rfl
  obtain ⟨psw, h⟩ := restore_pops hds hss hptr
  obtain ⟨M, hM⟩ : ∃ M, stored l m (restoredWords (cells l m) rp) = M := ⟨_, rfl⟩
  have hM' : stored l m [(.var .lds_low, cells l m (.field rp 1)),
    (.var .splimit, cells l m (.field rp 25)), (.var .lds_high, cells l m (.field rp 8))] = M := hM
  have hfield (i : Fin 26) : cells l M (.field rp i) = cells l m (.field rp i) := by
    rw [← hM, cells_stored]
    rfl
  have hlow : cells l M (.var .lds_low) = cells l m (.field rp 1) := by
    rw [← hM, cells_stored]
    rfl
  have hhigh : cells l M (.var .lds_high) = cells l m (.field rp 8) := by
    rw [← hM, cells_stored]
    rfl
  unfold resume
  rw [hsplit, run_append, h, run_append, restore_vars rp (by exact hds) (by exact hss) rfl]
  dsimp only
  rw [hM', run_append, restore_stack rp (by exact hds) rfl, hM]
  dsimp only
  rw [hfield, hfield, restore_end rp (by exact hds) rfl (by exact hclear), hfield, hfield,
    hfield, hlow, hhigh]
  rfl

end Restore

end Minix.Kernel.Mpx
