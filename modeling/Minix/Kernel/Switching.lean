import Minix.Kernel.Mpx
import Mathlib.Logic.Relation

/-!
# Switching processes

Every process has a processor of its own, as far as it can see. The machine runs one process at a
time; an interrupt or a trap saves it, C code looks at the registers in the process table and may
change them, and `restart` runs whatever process is to run then. The tasks are processes that share
the memory of the kernel, and may change the table while they run. All of this together does to the
registers that the processes believe to have just what the C code does to the table.
-/

namespace Minix.Kernel.Mpx

open I8088 (Word phys)
open I8088.Segments Relation

/-- `cur_proc` when a slot runs: the slot of the hardware stands for nobody. -/
def curWord (rp : Slot) : Word := if rp = HARDWARE then IDLE_WORD else BitVec.ofInt 16 (procNr rp)

/-- The comparison with `IDLE`. -/
theorem curWord_sub_idle (rp : Slot) : curWord rp - IDLE_WORD = 0 ↔ rp = HARDWARE := by
  revert rp
  decide

/-! ## Processes with processors of their own -/

/-- The registers of every process, and who is running. -/
structure Processors where
  regs : Slot → Regs
  cur : Slot

/-- The parameters of the function in C, the last one first. -/
def Entry.params (l : Layout) (r : Regs) (rp : Slot) : Entry → List Word
  | .s_call => [r.cx, curWord rp, r.ax, r.bx]
  | .disk_int => [FLOPPY, l.int_mess]
  | .wini_int => [WINI, l.int_mess]
  | .clock_int => [CLOCK, l.int_mess]
  | .tty_int | .lpr_int | .surprise | .trp | .divide => []

/-- What is in `int_mess` then. -/
def Entry.type : Entry → Option Word
  | .disk_int | .wini_int => some DISKINT
  | .clock_int => some CLOCK_TICK
  | .s_call | .tty_int | .lpr_int | .surprise | .trp | .divide => none

/-- What the C code behind an entry point may do to the registers of the processes, given its
parameters and who was running, and whom it may leave running. -/
abbrev Service : Type := Entry → List Word → (Slot → Regs) → Slot → (Slot → Regs) → Slot → Prop

/-- What a task may do to the registers of all processes while it runs: to its own by computing, and
to those of the others in the table, as for a system call of the memory manager. -/
abbrev Work : Type := Slot → (Slot → Regs) → (Slot → Regs) → Prop

/-- The process that runs computes, or a task works, or the kernel serves. While nobody is to run,
the registers in the slot of the hardware are those of the kernel. -/
inductive Turn (l : Layout) (serve : Service) (work : Work) : Processors → Processors → Prop
  | compute {v : Processors} (r : Regs) :
    Turn l serve work v ⟨Function.update v.regs v.cur r, v.cur⟩
  | task {v : Processors} {f : Slot → Regs} : procNr v.cur < 0 → work v.cur v.regs f →
    Turn l serve work v ⟨f, v.cur⟩
  | kernel {v : Processors} {e : Entry} {f : Slot → Regs} {q : Slot} : q ≠ HARDWARE →
    serve e (e.params l (v.regs v.cur) v.cur) v.regs v.cur f q → Turn l serve work v ⟨f, q⟩
  | idle {v : Processors} {e : Entry} {f : Slot → Regs} (r : Regs) :
    serve e (e.params l (v.regs v.cur) v.cur) v.regs v.cur f HARDWARE →
    Turn l serve work v ⟨Function.update f HARDWARE r, HARDWARE⟩

/-! ## The machine -/

/-- The registers of all processes as the table has them. -/
def contexts (l : Layout) (s : Machine) : Slot → Regs := context (cells l s.mem)

/-- The registers that the processes believe to have, when one of them runs. -/
def believed (l : Layout) (s : Machine) (rp : Slot) : Slot → Regs :=
  Function.update (contexts l s) rp s.regs

/-- Who is running is known to the kernel, and so is its data segment. -/
structure Knows (l : Layout) (mem : Ram) (rp : Slot) : Prop where
  text : wordAt mem l.cs ker_ds = l.ds
  ptr : cells l mem .proc_ptr = l.entry rp
  cur : cells l mem .cur_proc = curWord rp

/-- What the C code of the kernel leaves. -/
structure InKernel (l : Layout) (s : Machine) (rp : Slot) : Prop extends Knows l s.mem rp where
  ds : s.regs.ds = l.ds
  ss : s.regs.ss = l.ds

/-- What the C code of the kernel finds: interrupts are disabled, the parameters are on the stack,
and a message is there where one is sent. -/
structure Called (l : Layout) (e : Entry) (s : Machine) (rp : Slot) : Prop
    extends InKernel l s rp where
  es : s.regs.es = l.ds
  quiet : enabled s.regs.psw = false
  params : topWords s (e.params l (contexts l s rp) rp).length = e.params l (contexts l s rp) rp
  type : ∀ w, e.type = some w → cells l s.mem .int_type = w

/-- The C code that is called does to the table what the service says. -/
def Implements (l : Layout) (code : Entry → Machine → Machine → Prop) (serve : Service) : Prop :=
  ∀ {e : Entry} {k u : Machine} {rp : Slot}, Called l e k rp → code e k u →
    ∃ q, InKernel l u q ∧
      serve e (e.params l (contexts l k rp) rp) (contexts l k) rp (contexts l u) q

/-- An interrupt or a trap up to the call of a function in C. -/
def intoC (l : Layout) (e : Entry) (s : Machine) (ip next : Word) : Machine :=
  run (enter l s ip next) (e.args l)

/-- Whoever `restart` is going to run has room on the stack for what the kernel pushes. -/
def Room (l : Layout) (u : Machine) : Prop :=
  ∀ q, cells l u.mem .proc_ptr = l.entry q →
    Clear l (if q = HARDWARE then u.regs else contexts l u q) 12

/-- A process computes, without touching the words of the kernel, or a task works, or there is an
interrupt or a trap. While a task runs it is the first in its queue, so that `pick_proc` sets
`proc_ptr` and `cur_proc` to it when it is called there. -/
inductive Step (l : Layout) (L3 : Word) (code : Entry → Machine → Machine → Prop) (work : Work) :
    Machine → Machine → Prop
  | compute {s t : Machine} : (∀ a, Own l a → t.mem a = s.mem a) → Clear l t.regs 12 →
    Step l L3 code work s t
  | task {s t : Machine} {rp : Slot} : procNr rp < 0 → Knows l s.mem rp → Knows l t.mem rp →
    Clear l t.regs 12 → work rp (believed l s rp) (believed l t rp) → Step l L3 code work s t
  | kernel {s u : Machine} (e : Entry) (ip next : Word) : code e (intoC l e s ip next) u →
    Room l u → Step l L3 code work s (restart l L3 u)

/-- The registers of the machine are those of the process that runs, and the table has those of the
others. On the stack of whoever runs there is room for what the kernel pushes. -/
structure Refines (l : Layout) (s : Machine) (v : Processors) : Prop where
  knows : Knows l s.mem v.cur
  clear : Clear l s.regs 12
  regs : s.regs = v.regs v.cur
  table : ∀ rp, rp ≠ v.cur → contexts l s rp = v.regs rp

variable {l : Layout} {L3 : Word} {code : Entry → Machine → Machine → Prop} {serve : Service}
  {work : Work} {s t u : Machine} {v : Processors} {rp : Slot} {r : Regs} {m : Ram} {ip next : Word}

/-! ## Into the kernel -/

/-- `save` puts the registers into the entry of whoever was running. -/
theorem context_saved (f : Cell → Word) (rp : Slot) (r : Regs) (next k : Word) :
    context ((savedWords rp r next k).foldl (fun v p => Function.update v p.1 p.2) f) rp = r := by
  simp only [context, savedWords, List.foldl_cons, List.foldl_nil, Function.update_apply]
  simp

theorem context_saved_of_ne (f : Cell → Word) {rp rp' : Slot} (h : rp' ≠ rp) (r : Regs)
    (next k : Word) :
    context ((savedWords rp r next k).foldl (fun v p => Function.update v p.1 p.2) f) rp' =
      context f rp' := by
  simp only [context, savedWords, List.foldl_cons, List.foldl_nil, Function.update_apply]
  simp [h]

/-- The state of the machine when `save` returns. -/
structure Entered (l : Layout) (s e : Machine) (rp : Slot) : Prop where
  ds : e.regs.ds = l.ds
  ss : e.regs.ss = l.ds
  es : e.regs.es = l.ds
  sp : e.regs.sp = l.k_stack + K_STACK_BYTES
  quiet : enabled e.regs.psw = false
  knows : Knows l e.mem rp
  own : context (cells l e.mem) rp = s.regs
  others : ∀ rp', rp' ≠ rp → context (cells l e.mem) rp' = context (cells l s.mem) rp'

theorem entered (hclear : Clear l s.regs 12) (h : Knows l s.mem rp) (ip next : Word) :
    Entered l s (enter l s ip next) rp := by
  obtain ⟨psw, hp, he⟩ := enter_eq ip next hclear h.text h.ptr
  have hbase : cells l (pushedBy s l.cs next) = cells l s.mem := by
    funext c
    exact pushedBy_own hclear (within_own c)
  have hcells : cells l (enter l s ip next).mem =
      (savedWords rp s.regs next l.k_stack).foldl (fun v p => Function.update v p.1 p.2)
        (cells l s.mem) := by
    rw [he, cells_stored, hbase]
  have htext : wordAt (enter l s ip next).mem l.cs ker_ds = l.ds := by
    rw [he, stored_text, pushedBy_own hclear ⟨Or.inr (Or.inl rfl), Or.inr (Or.inr rfl)⟩, h.text]
  refine ⟨by rw [he], by rw [he], by rw [he], by rw [he], by rw [he]; exact hp, ⟨htext, ?_, ?_⟩, ?_,
    fun rp' hne => ?_⟩
  · rw [hcells]
    exact h.ptr
  · rw [hcells]
    exact h.cur
  · rw [hcells, context_saved]
  · rw [hcells, context_saved_of_ne _ hne]

/-- The stack of the kernel is not in the table. -/
theorem Layout.stack_clear (hss : r.ss = l.ds) (hsp : r.sp = l.k_stack + K_STACK_BYTES) :
    Clear l r 256 := by
  intro j h₁ hn
  obtain ⟨hlow, htop, hproc, hcur, hptr, hmess⟩ := l.stack
  have hto : (r.sp - BitVec.ofNat 16 j).toNat = l.k_stack.toNat + 256 - j := by
    rw [hsp]
    have : (BitVec.ofNat 16 j).toNat = j := by
      rw [BitVec.toNat_ofNat]
      omega
    have hs : (l.k_stack + K_STACK_BYTES).toNat = l.k_stack.toNat + 256 :=
      (BitVec.toNat_add ..).trans (Nat.mod_eq_of_lt (show l.k_stack.toNat + 256 < 65536 by omega))
    rw [BitVec.toNat_sub, hs, this]
    omega
  have hbeside (c : Cell) : (l.off c).toNat + 2 ≤ l.k_stack.toNat ∨
      l.k_stack.toNat + 256 ≤ (l.off c).toNat := by
    cases c with
    | var v => exact Or.inl (v.off_lt.trans hlow)
    | cur_proc => exact hcur
    | proc_ptr => exact hptr
    | int_type =>
      rw [Layout.int_type_toNat]
      omega
    | field rp i =>
      have hrp : rp.val < 24 := rp.isLt
      have hi := i.isLt
      rw [Layout.field_toNat]
      unfold PROC_SIZE
      omega
  rw [hss]
  rintro (⟨c, h | h⟩ | h | h)
  · have := congrArg BitVec.toNat (phys_inj h)
    have := hbeside c
    omega
  · have hone : (l.off c + 1).toNat = (l.off c).toNat + 1 := by
      have := l.off_lt c
      exact (BitVec.toNat_add ..).trans
        (Nat.mod_eq_of_lt (show (l.off c).toNat + 1 < 65536 by omega))
    have := congrArg BitVec.toNat (phys_inj h)
    have := hbeside c
    omega
  · exact text_ne (by decide) _ h.symm
  · exact text_ne (k := ker_ds + 1) (by decide) _ h.symm

theorem cells_push {n : Nat} (h : Clear l s.regs n) (hn : 2 ≤ n) (w : Word) :
    cells l (s.push w).mem = cells l s.mem :=
  cells_setWord_of_out (h.word (k := 2) (le_refl 2) hn)

/-- A push leaves room for the next one. -/
theorem Clear.push {n : Nat} (h : Clear l s.regs (n + 2)) (w : Word) :
    Clear l (s.push w).regs n := by
  intro j h₁ hn
  have hout := h (j + 2) (by omega) (by omega)
  rw [← below_below] at hout
  exact hout

theorem text_push {n : Nat} (h : Clear l s.regs n) (hn : 2 ≤ n) (w : Word) :
    wordAt (s.push w).mem l.cs ker_ds = wordAt s.mem l.cs ker_ds :=
  wordAt_setWord_of_within (h.word (k := 2) (le_refl 2) hn)
    ⟨Or.inr (Or.inl rfl), Or.inr (Or.inr rfl)⟩

/-- A push does not disturb what is known. -/
theorem InKernel.push {n : Nat} (h : InKernel l s rp) (hc : Clear l s.regs n) (hn : 2 ≤ n)
    (w : Word) : InKernel l (s.push w) rp where
  text := (text_push hc hn w).trans h.text
  ptr := (congrFun (cells_push hc hn w) _).trans h.ptr
  cur := (congrFun (cells_push hc hn w) _).trans h.cur
  ds := h.ds
  ss := h.ss

/-- The parameters of `sys_call`. -/
theorem s_call_args {n : Nat} (h : InKernel l s rp) (hc : Clear l s.regs (n + 8)) :
    run s (Entry.args l .s_call) =
      (((Machine.push { s with regs := { s.regs with bp := l.entry rp } }
        (contexts l s rp).bx).push (contexts l s rp).ax).push (curWord rp)).push
          (contexts l s rp).cx := by
  obtain ⟨t, ht⟩ : ∃ t : Machine, { s with regs := { s.regs with bp := l.entry rp } } = t :=
    ⟨_, rfl⟩
  have hbp : t.regs.bp = l.entry rp := ht ▸ rfl
  have hds : t.regs.ds = l.ds := ht ▸ h.ds
  have hss : t.regs.ss = l.ds := ht ▸ h.ss
  have hmem : t.mem = s.mem := ht ▸ rfl
  have hct : Clear l t.regs (n + 6 + 2) := ht ▸ hc
  -- the table is not disturbed while the parameters are pushed
  have h₁ (w : Word) : cells l (t.push w).mem = cells l s.mem := by
    rw [cells_push hct (by omega), hmem]
  have h₂ (w w' : Word) : cells l ((t.push w).push w').mem = cells l s.mem := by
    rw [cells_push (n := n + 4 + 2) (hct.push w) (by omega), h₁]
  have h₃ (w w' w'' : Word) : cells l (((t.push w).push w').push w'').mem = cells l s.mem := by
    rw [cells_push (n := n + 2 + 2) ((hct.push w).push w') (by omega), h₂]
  have hstep : run s (Entry.args l .s_call) = run t ((Entry.args l .s_call).drop 1) := by
    rw [← ht]
    simp only [Entry.args, run, List.drop, List.foldl, Instr.exec, Machine.get, Machine.put,
      Regs.get, Regs.set, Machine.offset, h.ds]
    rw [show wordAt s.mem l.ds l.proc_ptr = l.entry rp from h.ptr]
  have hbx : t.get (.word .ss (some .bp) 2) = (contexts l s rp).bx := by
    change wordAt t.mem t.regs.ss (t.regs.bp + 2) = _
    rw [hss, hbp, hmem]
    rfl
  have hax (w : Word) : (t.push w).get (.word .ss (some .bp) 0) = (contexts l s rp).ax := by
    change wordAt (t.push w).mem t.regs.ss (t.regs.bp + 0) = _
    rw [hss, hbp]
    exact congrFun (h₁ w) (.field rp 0)
  have hcur (w w' : Word) : ((t.push w).push w').get (.word .ds none l.cur_proc) = curWord rp := by
    change wordAt ((t.push w).push w').mem t.regs.ds l.cur_proc = _
    rw [hds]
    exact (congrFun (h₂ w w') .cur_proc).trans h.cur
  have hcx (w w' w'' : Word) : (((t.push w).push w').push w'').get (.word .ss (some .bp) 4) =
      (contexts l s rp).cx := by
    change wordAt (((t.push w).push w').push w'').mem t.regs.ss (t.regs.bp + 4) = _
    rw [hss, hbp]
    exact congrFun (h₃ w w' w'') (.field rp 2)
  rw [hstep]
  simp only [Entry.args, run, List.drop, List.foldl, Instr.exec]
  rw [hbx, hax, hcur, hcx, ← ht]

/-- A message of the hardware is built in its place. -/
theorem raise_args {n : Nat} (h : InKernel l s rp) (hc : Clear l s.regs (n + 4))
    (type task : Word) :
    let t := run s (raise l type task)
    InKernel l t rp ∧ t.regs.es = s.regs.es ∧ t.regs.psw = s.regs.psw ∧
      contexts l t = contexts l s ∧ cells l t.mem .int_type = type ∧
      topWords t 2 = [task, l.int_mess] ∧
      ∀ a, ¬Own l a → Above s.regs 4 a → t.mem a = s.mem a := by
  obtain ⟨b, hb⟩ : ∃ b : Machine, ⟨s.regs, setWord s.mem l.ds (l.off .int_type) type⟩ = b :=
    ⟨_, rfl⟩
  have heq : run s (raise l type task) =
      ⟨{ ((b.push l.int_mess).push task).regs with ax := task },
        ((b.push l.int_mess).push task).mem⟩ := by
    rw [← hb]
    simp only [raise, run, List.foldl, Instr.exec, Machine.get, Machine.put, Machine.push, Regs.get,
      Regs.set, Machine.offset, h.ds]
    rfl
  have hregs : b.regs = s.regs := hb ▸ rfl
  have hcb : Clear l b.regs (n + 2 + 2) := hregs ▸ hc
  have hcells : cells l b.mem = Function.update (cells l s.mem) .int_type type := by
    rw [← hb, cells_setWord]
  have hmem : cells l ((b.push l.int_mess).push task).mem =
      Function.update (cells l s.mem) .int_type type := by
    rw [cells_push (n := n + 2) (hcb.push _) (by omega), cells_push hcb (by omega), hcells]
  have hbin : InKernel l b rp :=
    ⟨⟨hb ▸ (text_setWord ..).trans h.text, hcells ▸ h.ptr, hcells ▸ h.cur⟩, hregs ▸ h.ds,
      hregs ▸ h.ss⟩
  have hin := (hbin.push hcb (by omega) l.int_mess).push (n := n + 2) (hcb.push _) (by omega) task
  have hes : b.regs.es = s.regs.es := congrArg Regs.es hregs
  have hpsw : b.regs.psw = s.regs.psw := congrArg Regs.psw hregs
  rw [heq]
  refine ⟨⟨hin.toKnows, hin.ds, hin.ss⟩, hes, hpsw, ?_, ?_, ?_, fun a ha hab => ?_⟩
  · funext q
    unfold contexts
    rw [hmem]
    rfl
  · rw [hmem]
    rfl
  · exact (topWords_push (b.push l.int_mess) task (n := 1) (by decide)).trans
      (congrArg _ (topWords_push b l.int_mess (n := 0) (by decide)))
  · have habb : Above b.regs (2 + 2) a := hregs ▸ hab
    have hmess : b.mem a = s.mem a := by
      rw [← hb]
      exact setWord_of_own .int_type ha
    exact (push_frame (habb.push _) (by decide) _).trans
      ((push_frame habb (by decide) _).trans hmess)

/-- Where the C code is called, it finds what it needs, and the registers of every process in the
table. -/
theorem called (hclear : Clear l s.regs 12) (h : Knows l s.mem rp) (e : Entry) (ip next : Word) :
    Called l e (intoC l e s ip next) rp ∧ contexts l (intoC l e s ip next) rp = s.regs ∧
      ∀ q, q ≠ rp → contexts l (intoC l e s ip next) q = contexts l s q := by
  have he := entered hclear h ip next
  have hin : InKernel l (enter l s ip next) rp := ⟨he.knows, he.ds, he.ss⟩
  have hc : Clear l (enter l s ip next).regs 256 := Layout.stack_clear he.ss he.sp
  unfold intoC
  obtain ⟨k, hk⟩ : ∃ k, enter l s ip next = k := ⟨_, rfl⟩
  rw [hk] at he hin hc ⊢
  -- nothing but the stack and the message is new after the call of `save`
  have hof {t : Machine} (ht : InKernel l t rp) (hes : t.regs.es = k.regs.es)
      (hpsw : t.regs.psw = k.regs.psw) (hcon : contexts l t = contexts l k)
      (htype : ∀ w, e.type = some w → cells l t.mem .int_type = w)
      (htop : topWords t (e.params l (contexts l k rp) rp).length =
        e.params l (contexts l k rp) rp) :
      Called l e t rp ∧ contexts l t rp = s.regs ∧
        ∀ q, q ≠ rp → contexts l t q = contexts l s q := by
    refine ⟨⟨ht, hes.trans he.es, hpsw ▸ he.quiet, ?_, htype⟩, hcon ▸ he.own, hcon ▸ he.others⟩
    rw [hcon]
    exact htop
  have hraise (type task : Word) (htype : e.type = some type)
      (hparams : e.params l (contexts l k rp) rp = [task, l.int_mess])
      (hargs : e.args l = raise l type task) :
      Called l e (run k (e.args l)) rp ∧ contexts l (run k (e.args l)) rp = s.regs ∧
        ∀ q, q ≠ rp → contexts l (run k (e.args l)) q = contexts l s q := by
    obtain ⟨ht, hes, hpsw, hcon, hint, htop, -⟩ := raise_args (n := 252) hin hc type task
    rw [hargs]
    refine hof ht hes hpsw hcon (fun w hw => ?_) ?_
    · rw [hint, ← Option.some.inj (htype.symm.trans hw)]
    · rw [hparams]
      exact htop
  have hnone (hargs : e.args l = []) (htype : e.type = none)
      (hparams : e.params l (contexts l k rp) rp = []) :
      Called l e (run k (e.args l)) rp ∧ contexts l (run k (e.args l)) rp = s.regs ∧
        ∀ q, q ≠ rp → contexts l (run k (e.args l)) q = contexts l s q := by
    rw [hargs]
    refine hof hin rfl rfl rfl (fun w hw => ?_) ?_
    · rw [htype] at hw
      cases hw
    · rw [hparams]
      rfl
  cases e with
  | s_call =>
    have hs := s_call_args (n := 248) hin hc
    obtain ⟨b, hb⟩ : ∃ b : Machine, { k with regs := { k.regs with bp := l.entry rp } } = b :=
      ⟨_, rfl⟩
    have hcb : Clear l b.regs 256 := hb ▸ hc
    have hbin : InKernel l b rp := hb ▸ ⟨hin.toKnows, hin.ds, hin.ss⟩
    have hregs : b.regs.es = k.regs.es ∧ b.regs.psw = k.regs.psw ∧ b.mem = k.mem :=
      hb ▸ ⟨rfl, rfl, rfl⟩
    rw [hb] at hs
    rw [hs]
    obtain ⟨hes, hpsw, hmem⟩ := hregs
    have h₁ := hbin.push hcb (by decide) (contexts l k rp).bx
    have c₁ := hcb.push (n := 254) (contexts l k rp).bx
    have h₂ := h₁.push c₁ (by decide) (contexts l k rp).ax
    have c₂ := c₁.push (n := 252) (contexts l k rp).ax
    have h₃ := h₂.push c₂ (by decide) (curWord rp)
    have c₃ := c₂.push (n := 250) (curWord rp)
    have h₄ := h₃.push c₃ (by decide) (contexts l k rp).cx
    refine hof h₄ hes hpsw ?_ (fun w hw => by cases hw) ?_
    · refine congrArg context ?_
      rw [cells_push c₃ (by decide), cells_push c₂ (by decide), cells_push c₁ (by decide),
        cells_push hcb (by decide), hmem]
    · refine (topWords_push _ _ (n := 3) (by decide)).trans (congrArg _ ?_)
      refine (topWords_push _ _ (n := 2) (by decide)).trans (congrArg _ ?_)
      refine (topWords_push _ _ (n := 1) (by decide)).trans (congrArg _ ?_)
      exact topWords_push _ _ (n := 0) (by decide)
  | disk_int => exact hraise DISKINT FLOPPY rfl rfl rfl
  | wini_int => exact hraise DISKINT WINI rfl rfl rfl
  | clock_int => exact hraise CLOCK_TICK CLOCK rfl rfl rfl
  | tty_int => exact hnone rfl rfl rfl
  | lpr_int => exact hnone rfl rfl rfl
  | surprise => exact hnone rfl rfl rfl
  | trp => exact hnone rfl rfl rfl
  | divide => exact hnone rfl rfl rfl

/-! ## Out of the kernel -/

/-- The end of a call of the kernel: either the machine has the registers of whoever is to run, or
nobody is to run and it waits, in the segments of the kernel, with interrupts enabled. -/
theorem restart_cases (h : InKernel l u rp) (L3 : Word) :
    (rp = HARDWARE ∧ ∃ psw, restart l L3 u = ⟨{ u.regs with psw := psw, ip := L3 }, u.mem⟩) ∨
      (rp ≠ HARDWARE ∧ ∃ psw, restart l L3 u = resume l ⟨{ u.regs with psw := psw }, u.mem⟩) := by
  have hcur : u.get (.word .ds none l.cur_proc) = curWord rp := by
    change wordAt u.mem u.regs.ds l.cur_proc = _
    rw [h.ds]
    exact h.cur
  have hidle : u.get (.imm IDLE_WORD) = IDLE_WORD := rfl
  unfold restart
  simp only [Instr.exec, zero_arith, decide_eq_true_eq]
  rw [hcur, hidle]
  by_cases hrp : rp = HARDWARE
  · refine Or.inl ⟨hrp, ?_⟩
    rw [if_pos ((curWord_sub_idle rp).mpr hrp)]
    exact ⟨_, rfl⟩
  · refine Or.inr ⟨hrp, ?_⟩
    rw [if_neg fun he => hrp ((curWord_sub_idle rp).mp he)]
    exact ⟨_, rfl⟩

/-- The words that `restart` stores are of no importance to the table. -/
theorem context_restored (f : Cell → Word) (rp q : Slot) :
    context ((restoredWords f rp).foldl (fun v p => Function.update v p.1 p.2) f) q =
      context f q := by
  rfl

/-- `restart` gives the machine to whoever is to run, and leaves the table as it is. -/
theorem restarted (h : InKernel l u rp) (hrp : rp ≠ HARDWARE) (hroom : Room l u) (L3 : Word) :
    (restart l L3 u).regs = contexts l u rp ∧ Knows l (restart l L3 u).mem rp ∧
      ∀ q, contexts l (restart l L3 u) q = contexts l u q := by
  have hclear : Clear l (contexts l u rp) 12 := by
    have := hroom rp h.ptr
    rwa [if_neg hrp] at this
  have hclear₆ : Clear l (contexts l u rp) 6 := fun j h₁ h₂ => hclear j h₁ (by omega)
  obtain ⟨he, -⟩ | ⟨-, psw, he⟩ := restart_cases h L3
  · exact absurd he hrp
  · have hres := resume_eq rp (r := { u.regs with psw := psw }) (m := u.mem) h.ds h.ss h.ptr hclear₆
    obtain ⟨M, hM⟩ : ∃ M, framed (stored l u.mem (restoredWords (cells l u.mem) rp))
      (contexts l u rp).ss (contexts l u rp).sp (contexts l u rp).psw (contexts l u rp).cs
      (contexts l u rp).ip = M := ⟨_, rfl⟩
    have hregs : restart l L3 u = ⟨contexts l u rp, M⟩ := by
      rw [he, ← hM]
      exact hres
    have hcells : cells l M = (restoredWords (cells l u.mem) rp).foldl
        (fun v p => Function.update v p.1 p.2) (cells l u.mem) := by
      rw [← hM, ← cells_stored]
      funext c
      exact framed_own hclear₆ (within_own c)
    have htext : wordAt M l.cs ker_ds = l.ds := by
      rw [← hM]
      exact (framed_own hclear₆ ⟨Or.inr (Or.inl rfl), Or.inr (Or.inr rfl)⟩).trans
        ((stored_text ..).trans h.text)
    rw [hregs]
    refine ⟨rfl, ⟨htext, ?_, ?_⟩, fun q => ?_⟩
    · rw [hcells]
      exact h.ptr
    · rw [hcells]
      exact h.cur
    · change context (cells l M) q = _
      rw [hcells, context_restored]
      rfl

/-! ## The memory of the processes -/

/-- On the way into the kernel nothing is changed but the words of the kernel, its stack, and what
is below the stack pointer. -/
theorem intoC_frame (hclear : Clear l s.regs 12) (h : Knows l s.mem rp) (e : Entry)
    (ip next : Word) {a : Nat} (hown : ¬Own l a) (hs : Above s.regs 12 a)
    (hk : ∀ r : Regs, r.ss = l.ds → r.sp = l.k_stack + K_STACK_BYTES → Above r 8 a) :
    (intoC l e s ip next).mem a = s.mem a := by
  have he := entered hclear h ip next
  have hin : InKernel l (enter l s ip next) rp := ⟨he.knows, he.ds, he.ss⟩
  have hc : Clear l (enter l s ip next).regs 256 := Layout.stack_clear he.ss he.sp
  have hab : Above (enter l s ip next).regs 8 a := hk _ he.ss he.sp
  have henter : (enter l s ip next).mem a = s.mem a := by
    obtain ⟨psw, -, heq⟩ := enter_eq ip next hclear h.text h.ptr
    rw [heq]
    exact (stored_of_own _ _ hown).trans (pushedBy_of_ne s l.cs next hs)
  unfold intoC
  obtain ⟨k, hk⟩ : ∃ k, enter l s ip next = k := ⟨_, rfl⟩
  rw [hk] at he hin hc hab henter ⊢
  rw [← henter]
  have hraise (type task : Word) : (run k (raise l type task)).mem a = k.mem a :=
    (raise_args (n := 252) hin hc type task).2.2.2.2.2.2 a hown fun j h₁ hn => hab j h₁ (by omega)
  cases e with
  | s_call =>
    rw [s_call_args (n := 248) hin hc]
    have h₁ := Above.push (s := ⟨{ k.regs with bp := l.entry rp }, k.mem⟩) (n := 6) hab
      (contexts l k rp).bx
    have h₂ := h₁.push (n := 4) (contexts l k rp).ax
    have h₃ := h₂.push (n := 2) (curWord rp)
    rw [push_frame h₃ (by decide), push_frame h₂ (by decide), push_frame h₁ (by decide)]
    exact push_frame (s := ⟨{ k.regs with bp := l.entry rp }, k.mem⟩) hab (by decide) _
  | disk_int => exact hraise DISKINT FLOPPY
  | wini_int => exact hraise DISKINT WINI
  | clock_int => exact hraise CLOCK_TICK CLOCK
  | tty_int => rfl
  | lpr_int => rfl
  | surprise => rfl
  | trp => rfl
  | divide => rfl

/-- On the way out it is the same. -/
theorem restart_frame (h : InKernel l u rp) (hroom : Room l u) (L3 : Word) {a : Nat}
    (hown : ¬Own l a) (hs : Above (contexts l u rp) 6 a) : (restart l L3 u).mem a = u.mem a := by
  obtain ⟨-, psw, he⟩ | ⟨hrp, psw, he⟩ := restart_cases h L3
  · rw [he]
  · have hclear : Clear l (contexts l u rp) 12 := by
      have := hroom rp h.ptr
      rwa [if_neg hrp] at this
    rw [he, resume_eq rp (by exact h.ds) (by exact h.ss) h.ptr
      fun j h₁ h₂ => hclear j h₁ (by omega)]
    exact (framed_of_ne _ _ _ _ hs).trans (stored_of_own _ _ hown)

/-! ## Runs -/

/-- The kernel finds the registers that the processes have, and these have what it leaves. -/
theorem Refines.served (himp : Implements l code serve) (h : Refines l s v) {e : Entry}
    (hcode : code e (intoC l e s ip next) u) (hroom : Room l u) (L3 : Word) :
    ∃ f q, serve e (e.params l (v.regs v.cur) v.cur) v.regs v.cur f q ∧
      ((q ≠ HARDWARE ∧ Refines l (restart l L3 u) ⟨f, q⟩) ∨
        (q = HARDWARE ∧
          ∃ r, Refines l (restart l L3 u) ⟨Function.update f HARDWARE r, HARDWARE⟩)) := by
  obtain ⟨hcalled, hown, hothers⟩ := called h.clear h.knows e ip next
  obtain ⟨q, hin, hserve⟩ := himp hcalled hcode
  have hfound : contexts l (intoC l e s ip next) = v.regs := by
    funext rp
    by_cases hrp : rp = v.cur
    · rw [hrp, hown, h.regs]
    · rw [hothers rp hrp, h.table rp hrp]
  rw [hfound] at hserve
  refine ⟨contexts l u, q, hserve, ?_⟩
  have hleft := hroom q hin.ptr
  by_cases hq : q = HARDWARE
  · subst hq
    obtain ⟨-, psw, he⟩ | ⟨hne, -⟩ := restart_cases hin L3
    · refine Or.inr ⟨rfl, (restart l L3 u).regs, ?_, ?_, ?_, fun rp hrp => ?_⟩
      · rw [he]
        exact hin.toKnows
      · rw [he]
        exact hleft
      · exact (Function.update_self HARDWARE (restart l L3 u).regs (contexts l u)).symm
      · rw [he]
        exact (Function.update_of_ne hrp ..).symm
    · exact absurd rfl hne
  · obtain ⟨hregs, hknows, htable⟩ := restarted hin hq hroom L3
    rw [if_neg hq] at hleft
    exact Or.inl ⟨hq, hknows, hregs ▸ hleft, hregs, fun rp _ => htable rp⟩

/-- A process computes. -/
theorem Refines.compute (h : Refines l s v) (hown : ∀ a, Own l a → t.mem a = s.mem a)
    (hclear : Clear l t.regs 12) : Refines l t ⟨Function.update v.regs v.cur t.regs, v.cur⟩ := by
  have hcells : cells l t.mem = cells l s.mem := by
    funext c
    exact wordAt_congr hown (within_own c)
  refine ⟨⟨?_, ?_, ?_⟩, hclear, ?_, fun rp hrp => ?_⟩
  · exact (wordAt_congr hown ⟨Or.inr (Or.inl rfl), Or.inr (Or.inr rfl)⟩).trans h.knows.text
  · exact hcells ▸ h.knows.ptr
  · exact hcells ▸ h.knows.cur
  · exact (Function.update_self v.cur t.regs v.regs).symm
  · change context (cells l t.mem) rp = Function.update v.regs v.cur t.regs rp
    rw [hcells, Function.update_of_ne hrp]
    exact h.table rp hrp

theorem Layout.entry_inj {p q : Slot} (h : l.entry p = l.entry q) : p = q := by
  have := congrArg BitVec.toNat h
  rw [entry_toNat, entry_toNat] at this
  unfold PROC_SIZE at this
  exact Fin.ext (by omega)

theorem Refines.believed (h : Refines l s v) : believed l s v.cur = v.regs := by
  funext rp
  unfold Mpx.believed
  by_cases hrp : rp = v.cur
  · rw [hrp, Function.update_self, h.regs]
  · rw [Function.update_of_ne hrp, h.table rp hrp]

/-- A task works. -/
theorem Refines.task (h : Refines l s v) (hknows : Knows l s.mem rp) (hknows' : Knows l t.mem rp)
    (hclear : Clear l t.regs 12) : rp = v.cur ∧ Refines l t ⟨Mpx.believed l t rp, rp⟩ := by
  refine ⟨Layout.entry_inj (hknows.ptr.symm.trans h.knows.ptr), hknows', hclear, ?_, fun q hq => ?_⟩
  · exact (Function.update_self rp t.regs (contexts l t)).symm
  · exact (Function.update_of_ne hq ..).symm

/-- What the machine does is what the processors do. -/
theorem Refines.step (himp : Implements l code serve) (h : Refines l s v)
    (hstep : Step l L3 code work s t) : ∃ w, Turn l serve work v w ∧ Refines l t w := by
  cases hstep with
  | compute hown hclear => exact ⟨_, .compute t.regs, h.compute hown hclear⟩
  | task htask hknows hknows' hclear hwork =>
    obtain ⟨rfl, ht⟩ := h.task hknows hknows' hclear
    rw [h.believed] at hwork
    exact ⟨_, .task htask hwork, ht⟩
  | @kernel u e ip next hcode hroom =>
    obtain ⟨f, q, hserve, ⟨hq, hw⟩ | ⟨hq, r, hw⟩⟩ := h.served himp hcode hroom L3
    · exact ⟨⟨f, q⟩, .kernel hq hserve, hw⟩
    · exact ⟨⟨Function.update f HARDWARE r, HARDWARE⟩, .idle r (hq ▸ hserve), hw⟩

/-- Whatever order the processes and the interrupts come in, the processes cannot tell that they
share one processor. -/
theorem processor_shared (himp : Implements l code serve) (h : Refines l s v)
    (hrun : ReflTransGen (Step l L3 code work) s t) :
    ∃ w, ReflTransGen (Turn l serve work) v w ∧ Refines l t w := by
  induction hrun with
  | refl => exact ⟨v, .refl, h⟩
  | tail _ hstep ih =>
    obtain ⟨w, hturns, hw⟩ := ih
    obtain ⟨x, hturn, hx⟩ := hw.step himp hstep
    exact ⟨x, hturns.tail hturn, hx⟩

/-! A clock interrupt in a process whose memory is away from the kernel's. -/

theorem own_lt {a : Nat} (h : Own l a) : a < l.ds.toNat * 16 + 65536 := by
  have htext := l.text
  have hmod (seg off : Word) : phys seg off ≤ seg.toNat * 16 + off.toNat := Nat.mod_le ..
  have hlt (off : Word) := off.isLt
  obtain ⟨c, h | h⟩ | h | h := h
  · exact h ▸ (hmod ..).trans_lt (Nat.add_lt_add_left (hlt _) _)
  · exact h ▸ (hmod ..).trans_lt (Nat.add_lt_add_left (hlt _) _)
  · have := hmod l.cs ker_ds
    have hk : ker_ds.toNat = 4 := rfl
    omega
  · have := hmod l.cs (ker_ds + 1)
    have hk : (ker_ds + 1).toNat = 5 := rfl
    omega

def oneLayout : Layout where
  cs := 0x60
  ds := 0x400
  proc := 0x1000
  cur_proc := 0x40
  proc_ptr := 0x42
  int_mess := 0x50
  k_stack := 0x100
  text := by decide
  data := by decide
  fit := by decide
  apart := by decide

/-- A process, with its text and its data in segments of its own. -/
def oneProcess : Regs where
  ax := 1
  bx := 2
  cx := 3
  dx := 4
  si := 5
  di := 6
  bp := 7
  sp := 0x200
  ds := 0x3000
  es := 0x3000
  ss := 0x3000
  cs := 0x2000
  ip := 8
  psw := 0x0200

/-- It runs as the first user process. -/
def oneMachine : Machine where
  regs := oneProcess
  mem := setWord (setWord (setWord (fun _ => 0) oneLayout.ds oneLayout.cur_proc (curWord 10))
    oneLayout.ds oneLayout.proc_ptr (oneLayout.entry 10)) oneLayout.cs ker_ds oneLayout.ds

/-- Its stack is behind the segments of the kernel. -/
theorem oneProcess_stack (w : Word) : phys oneProcess.ss w = 0x30000 + w.toNat := by
  have := w.isLt
  change (0x3000 * 16 + w.toNat) % 2 ^ 20 = _
  omega

theorem oneProcess_clear (r : Regs) (hss : r.ss = oneProcess.ss) (n : Nat) :
    Clear oneLayout r n := by
  intro j h₁ hn hown
  have := own_lt hown
  rw [hss, oneProcess_stack] at this
  have hds : oneLayout.ds.toNat = 0x400 := rfl
  omega

theorem oneMachine_refines : Refines oneLayout oneMachine
    ⟨Function.update (contexts oneLayout oneMachine) 10 oneProcess, 10⟩ where
  knows := ⟨by decide, by decide, by decide⟩
  clear := oneProcess_clear _ rfl 12
  regs := (Function.update_self 10 oneProcess (contexts oneLayout oneMachine)).symm
  table := fun _ hrp => (Function.update_of_ne hrp ..).symm

/-- C code that changes nothing. -/
def idleCode : Entry → Machine → Machine → Prop := fun _ k u => u = k

def idleService : Service := fun _ _ f p g q => g = f ∧ q = p

theorem idleCode_implements : Implements l idleCode idleService := by
  intro e k u rp hcalled hcode
  exact ⟨rp, hcode ▸ hcalled.toInKernel, congrArg (contexts l) hcode, rfl⟩

/-- It lets the process go on. -/
theorem idleCode_room (h : Refines l s v) (hcur : v.cur ≠ HARDWARE) (e : Entry) (ip next : Word) :
    Room l (intoC l e s ip next) := by
  obtain ⟨hcalled, hown, -⟩ := called h.clear h.knows e ip next
  intro q hq
  have : q = v.cur := Layout.entry_inj (hq.symm.trans hcalled.ptr)
  rw [this, if_neg hcur, hown]
  exact h.clear

theorem processor_shared_one :
    ∃ w, ReflTransGen (Turn oneLayout idleService fun _ f g => g = f)
      ⟨Function.update (contexts oneLayout oneMachine) 10 oneProcess, 10⟩ w ∧
      Refines oneLayout (restart oneLayout 0 (intoC oneLayout .clock_int oneMachine 9 12)) w :=
  processor_shared idleCode_implements oneMachine_refines
    (.single (.kernel .clock_int 9 12 rfl (idleCode_room oneMachine_refines (by decide) _ 9 12)))

end Minix.Kernel.Mpx
