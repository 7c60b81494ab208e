import Minix.Kernel.Answers
import Minix.Kernel.Calls

/-!
# The system call of a process

`send`, `receive` and `send_rec` put their parameters into registers and trap to the kernel, which
takes them from the process table. Whatever else runs before the process goes on, the routine
returns to its caller with the answer: the kernel writes nothing else to the registers of a process
that waits, as long as no task does.
-/

namespace Minix.Libsys

open I8088 (Word phys)
open I8088.Segments Kernel.Mpx
open Kernel (Slot HARDWARE)

/-- Function code of a send. -/
abbrev SEND : Word := 1
/-- Function code of a receive. -/
abbrev RECEIVE : Word := 2
/-- Function code of a send and a receive. -/
abbrev BOTH : Word := 3

open Operand in
/-- Up to the trap. -/
def sendRec (function : Word) : List Instr :=
  [.mov Name.cx (imm function), .push Name.bp, .mov Name.bp Name.sp,
    .mov Name.ax (word .ss (some .bp) 4), .mov Name.bx (word .ss (some .bp) 6)]

/-- The process is about to trap; it will go on at `next`. -/
def trap (function next : Word) (s : Machine) : Machine := (run s (sendRec function)).jump next

/-- Behind the trap. -/
def leave (s : Machine) : Machine := ((Instr.pop Name.bp).exec s).ret

/-- `send(dest, ptr)`. -/
def _send : Word → Machine → Machine := trap SEND
/-- `receive(src, ptr)`. -/
def _receive : Word → Machine → Machine := trap RECEIVE
/-- `sendrec(srcdest, ptr)`. -/
def _send_rec : Word → Machine → Machine := trap BOTH

/-- The parameters that the caller has pushed, behind the return address. -/
def destSrc (s : Machine) : Word := wordAt s.mem s.regs.ss (s.regs.sp + 2)
/-- The second parameter: where the message is. -/
def messPtr (s : Machine) : Word := wordAt s.mem s.regs.ss (s.regs.sp + 4)

variable {l : Layout} {L3 : Word} {code : Entry → Machine → Machine → Prop} {work : Work}
    {s t u : Machine} {v w : Processors} {rp : Slot} {function next ip ret n : Word}

/-- The state of the process when it traps. -/
theorem trap_eq (function next : Word) (s : Machine) :
    trap function next s =
      ⟨{ s.regs with
          ax := destSrc s, bx := messPtr s, cx := function, bp := s.regs.sp - 2
          sp := s.regs.sp - 2, ip := next },
        setWord s.mem s.regs.ss (s.regs.sp - 2) s.regs.bp⟩ := by
  have hread {k k' : Word} (hk : I8088.Segments.Apart k 2) (hk' : s.regs.sp - k = s.regs.sp + k') :
      wordAt (setWord s.mem s.regs.ss (s.regs.sp - 2) s.regs.bp) s.regs.ss (s.regs.sp - k) =
        wordAt s.mem s.regs.ss (s.regs.sp + k') :=
    (wordAt_setWord_of_apart ((apart_sub ..).mpr hk)).trans (congrArg _ hk')
  have hax := hread (k := 65534) (by decide) (show _ = s.regs.sp + 2 by bv_omega)
  have hbx := hread (k := 65532) (by decide) (show _ = s.regs.sp + 4 by bv_omega)
  simp only [BitVec.ofNat_eq_ofNat] at hax hbx
  simp only [trap, sendRec, run, List.foldl, Instr.exec, Machine.get, Machine.put, Machine.push,
    Machine.jump, Regs.get, Regs.set, Machine.offset, sub_then_add, BitVec.reduceSub,
    BitVec.ofNat_eq_ofNat]
  rw [hax, hbx]
  rfl

/-- The routine returns to its caller, which has its registers as they were, apart from those that
the routine uses. -/
def returned (function n : Word) (s : Machine) : Regs :=
  { s.regs with
    ax := n, bx := messPtr s, cx := function, sp := s.regs.sp + 2
    ip := wordAt s.mem s.regs.ss s.regs.sp }

/-- Behind the trap, with the answer in its register and the stack as it was. -/
theorem leave_eq (next : Word) (hregs : t.regs = { (trap function next s).regs with ax := n })
    (hbp : wordAt t.mem s.regs.ss (s.regs.sp - 2) = s.regs.bp)
    (hret : wordAt t.mem s.regs.ss s.regs.sp = wordAt s.mem s.regs.ss s.regs.sp) :
    leave t = ⟨returned function n s, t.mem⟩ := by
  have ht : t = ⟨t.regs, t.mem⟩ := rfl
  rw [trap_eq] at hregs
  rw [ht, hregs]
  simp only [leave, Instr.exec, Machine.drop, Machine.put, Machine.top, Machine.ret, Machine.jump,
    Regs.set, sub_then_add]
  rw [hbp]
  have hsp : s.regs.sp - (2 - 2) = s.regs.sp := BitVec.sub_zero _
  have hsp' : s.regs.sp - (2 - 2 - 2) = s.regs.sp + 2 := by bv_omega
  rw [hsp, hsp', hret]
  rfl

/-! ## While the process waits -/

/-- No task gives a process that waits a new image, a new map or a signal. -/
def Spares (work : Work) (rp : Slot) : Prop :=
  ∀ {p f g}, p ≠ rp → work p f g → ∃ n, g rp = { f rp with ax := n }

/-- A step of the machine while another process is running, or nobody. -/
def Away (l : Layout) (L3 : Word) (code : Entry → Machine → Machine → Prop) (work : Work)
    (rp : Slot) (s t : Machine) : Prop :=
  cells l s.mem .proc_ptr ≠ l.entry rp ∧ Step l L3 code work s t

/-- The kernel serves. -/
theorem answered_served (himp : Implements l code kernelService)
    (hrp : rp ≠ HARDWARE) (h : Refines l s v) {e : Entry}
    (hcode : code e (intoC l e s ip next) u) (hroom : Room l u) (L3 : Word) :
    ∃ w, Refines l (restart l L3 u) w ∧ ∃ n, w.regs rp = { v.regs rp with ax := n } := by
  obtain ⟨f, q, hserve, ⟨-, hw⟩ | ⟨-, r, hw⟩⟩ := h.served himp hcode hroom L3
  · exact ⟨_, hw, kernelService_answers hserve rp⟩
  · obtain ⟨n, hn⟩ := kernelService_answers hserve rp
    exact ⟨_, hw, n, (Function.update_of_ne hrp ..).trans hn⟩

/-- One turn away from the caller changes at most its `ax`. -/
theorem answered_away (himp : Implements l code kernelService) (hspares : Spares work rp)
    (hrp : rp ≠ HARDWARE) (h : Refines l s v) (hstep : Away l L3 code work rp s t) :
    ∃ w, Refines l t w ∧ ∃ n, w.regs rp = { v.regs rp with ax := n } := by
  obtain ⟨haway, hstep⟩ := hstep
  cases hstep with
  | compute hown hclear =>
    have hne : rp ≠ v.cur := fun e => haway (e ▸ h.knows.ptr)
    exact ⟨_, h.compute hown hclear, (v.regs rp).ax, Function.update_of_ne hne ..⟩
  | task _ hknows hknows' hclear hwork =>
    obtain ⟨rfl, ht⟩ := h.task hknows hknows' hclear
    have hne : v.cur ≠ rp := fun e => haway (e ▸ hknows.ptr)
    rw [h.believed] at hwork
    exact ⟨_, ht, hspares hne hwork⟩
  | @kernel u e ip next hcode hroom => exact answered_served himp hrp h hcode hroom L3

/-- And so does any number of turns. -/
theorem answered_run (himp : Implements l code kernelService) (hspares : Spares work rp)
    (hrp : rp ≠ HARDWARE) (h : Refines l s v)
    (hrun : Relation.ReflTransGen (Away l L3 code work rp) s t) :
    ∃ w, Refines l t w ∧ ∃ n, w.regs rp = { v.regs rp with ax := n } := by
  induction hrun with
  | refl => exact ⟨v, h, _, rfl⟩
  | tail _ hstep ih =>
    obtain ⟨w, hw, n, hn⟩ := ih
    obtain ⟨x, hx, m, hm⟩ := answered_away himp hspares hrp hw hstep
    exact ⟨x, hx, m, by rw [hm, hn]⟩

/-- A process traps. -/
theorem refines_trap (h : Refines l s v) (hclear : Clear l s.regs 14) (function next : Word) :
    Refines l (trap function next s)
      ⟨Function.update v.regs v.cur (Libsys.trap function next s).regs, v.cur⟩ := by
  rw [trap_eq]
  refine h.compute (fun a ha => ?_) fun j h₁ hn => ?_
  · obtain ⟨h₁, h₂⟩ := hclear.word (k := 2) (by decide) (by decide)
    exact setWord_of_ne (fun e => h₁ (e ▸ ha)) fun e => h₂ (e ▸ ha)
  · exact hclear.push (n := 12) s.regs.bp j h₁ hn

/-- The kernel gets the parameters of the caller, and the routine returns to it with the answer, in
whatever order other processes and interrupts come before. -/
theorem send_rec_returns (himp : Implements l code kernelService) (hspares : Spares work rp)
    (h : Refines l s v) (hcur : v.cur = rp) (hrp : rp ≠ HARDWARE) (hclear : Clear l s.regs 14)
    (hcode : code .s_call (intoC l .s_call (trap function next s) ip ret) u) (hroom : Room l u)
    (hrun : Relation.ReflTransGen (Away l L3 code work rp) (restart l L3 u) t)
    (hback : cells l t.mem .proc_ptr = l.entry rp)
    (hbp : wordAt t.mem s.regs.ss (s.regs.sp - 2) = s.regs.bp)
    (hret : wordAt t.mem s.regs.ss s.regs.sp = wordAt s.mem s.regs.ss s.regs.sp) :
    topWords (intoC l .s_call (trap function next s) ip ret) 4 =
        [function, curWord rp, destSrc s, messPtr s] ∧
      leave t = ⟨returned function t.regs.ax s, t.mem⟩ := by
  have htrap := refines_trap h hclear function next
  subst hcur
  constructor
  · obtain ⟨hcalled, hown, -⟩ := called htrap.clear htrap.knows .s_call ip ret
    have := hcalled.params
    rw [hown, trap_eq] at this
    rw [trap_eq]
    exact this
  · obtain ⟨w, hw, k, hk⟩ := answered_served himp hrp htrap hcode hroom L3
    obtain ⟨x, hx, m, hm⟩ := answered_run himp hspares hrp hw hrun
    have hxcur : x.cur = v.cur := Layout.entry_inj (hx.knows.ptr.symm.trans hback)
    have hregs : t.regs = { (trap function next s).regs with ax := m } := by
      rw [hx.regs, hxcur, hm, hk]
      dsimp only
      rw [Function.update_self]
    refine leave_eq next ?_ hbp hret
    rw [hregs]

/-! The process of the clock interrupt makes a system call. What it asks for as its destination is
process 0, which is not in use yet. -/

/-- C code that does what the kernel does. -/
def kernelCode (l : Layout) : Entry → Machine → Machine → Prop := fun e k u =>
  ∃ rp q, Called l e k rp ∧ InKernel l u q ∧
    kernelService e (e.params l (contexts l k rp) rp) (contexts l k) rp (contexts l u) q

/-- The C code of the kernel, as modelled, is such an implementation. -/
theorem kernelCode_implements : Implements l (kernelCode l) kernelService := by
  rintro e k u rp hcalled ⟨rp', q, hcalled', hin, hserve⟩
  obtain rfl : rp' = rp := Layout.entry_inj (hcalled'.ptr.symm.trans hcalled.ptr)
  exact ⟨q, hin, hserve⟩

/-- The process has trapped, and the C code is called. -/
def oneTrap : Machine := _send_rec 0x20 oneMachine

/-- The example: the machine when `sys_call` is entered. -/
def oneCalled : Machine := intoC oneLayout .s_call oneTrap 9 12

/-- The C code has returned, with the answer that the destination is bad. -/
def oneAnswered : Machine :=
  ⟨oneCalled.regs, setWord oneCalled.mem oneLayout.ds (oneLayout.off (.field 10 ⟨0, by decide⟩)) 0xFFFF⟩

/-- There the contexts are those of the processes. -/
theorem oneTrap_refines : Refines oneLayout oneTrap
    ⟨Function.update (Function.update (contexts oneLayout oneMachine) 10 oneProcess) 10
      oneTrap.regs, 10⟩ :=
  refines_trap oneMachine_refines (oneProcess_clear _ rfl 14) BOTH 0x20

/-- The parameters of `sys_call` are on the kernel's stack. -/
theorem oneCalled_called : Called oneLayout .s_call oneCalled 10 ∧
    contexts oneLayout oneCalled 10 = oneTrap.regs := by
  obtain ⟨hcalled, hregs, -⟩ := called oneTrap_refines.clear oneTrap_refines.knows .s_call 9 12
  exact ⟨hcalled, hregs⟩

/-- After the answer one context has a new `ax`. -/
theorem oneAnswered_contexts : contexts oneLayout oneAnswered =
    Function.update (contexts oneLayout oneCalled) 10
      { contexts oneLayout oneCalled 10 with ax := 0xFFFF } := by
  funext rp
  unfold contexts oneAnswered
  rw [cells_setWord]
  by_cases hrp : rp = 10
  · subst hrp
    rw [Function.update_self]
    rfl
  · rw [Function.update_of_ne hrp]
    have hne (i : Fin 26) : Cell.field rp i ≠ .field 10 ⟨0, by decide⟩ := fun he => hrp (Cell.field.inj he).1
    unfold context
    simp only [Function.update_of_ne (hne _)]

/-- And the machine is still in the kernel. -/
theorem oneAnswered_kernel : InKernel oneLayout oneAnswered 10 := by
  obtain ⟨hin, -⟩ := oneCalled_called
  refine ⟨⟨(text_setWord ..).trans hin.text, ?_, ?_⟩, hin.ds, hin.ss⟩
  · unfold oneAnswered
    rw [cells_setWord]
    exact hin.ptr
  · unfold oneAnswered
    rw [cells_setWord]
    exact hin.cur

/-- The table of the C code then: no slot is in use. -/
def oneKernel : Kernel.State := { Kernel.exampleStart with
  data := fun rp =>
    let r := contexts oneLayout oneCalled rp
    { Kernel.exampleStart.data rp with
      retReg := r.ax.toInt, csReg := r.cs.toNat, dsReg := r.ds.toNat, ssReg := r.ss.toNat
      esReg := r.es.toNat, sp := r.sp.toNat, pc := r.ip.toNat }
  pFlags := fun _ => .free
  sched := { Kernel.exampleStart.sched with procPtr := 10 } }

/-- A word is its own number. -/
theorem ofNat_toNat_word (w : Word) : BitVec.ofNat 16 w.toNat = w :=
  BitVec.eq_of_toNat_eq ((BitVec.toNat_ofNat ..).trans (Nat.mod_eq_of_lt w.isLt))

/-- The process table of the example shows its contexts. -/
theorem oneKernel_shows : Shows oneKernel (contexts oneLayout oneCalled) where
  ax _ := BitVec.ofInt_toInt.symm
  cs _ := (ofNat_toNat_word _).symm
  ds _ := (ofNat_toNat_word _).symm
  ss _ := (ofNat_toNat_word _).symm
  es _ := (ofNat_toNat_word _).symm
  sp _ := (ofNat_toNat_word _).symm
  ip _ := (ofNat_toNat_word _).symm

/-- And still does so after the answer. -/
theorem oneAnswered_shows :
    Shows (Kernel.setRet oneKernel 10 (-1)) (contexts oneLayout oneAnswered) := by
  have h := oneKernel_shows
  have hcases (rp : Slot) : rp = 10 ∨ contexts oneLayout oneAnswered rp =
      contexts oneLayout oneCalled rp ∧
        (Kernel.setRet oneKernel 10 (-1)).data rp = oneKernel.data rp := by
    by_cases hrp : rp = 10
    · exact Or.inl hrp
    · refine Or.inr ⟨?_, Function.update_of_ne hrp ..⟩
      rw [oneAnswered_contexts, Function.update_of_ne hrp]
  have hten : contexts oneLayout oneAnswered 10 =
      { contexts oneLayout oneCalled 10 with ax := 0xFFFF } := by
    rw [oneAnswered_contexts, Function.update_self]
  have hdata : (Kernel.setRet oneKernel 10 (-1)).data 10 =
      { oneKernel.data 10 with retReg := -1 } := by
    change Function.update oneKernel.data 10 { oneKernel.data 10 with retReg := -1 } 10 = _
    rw [Function.update_self]
  constructor <;> intro rp <;> obtain rfl | ⟨hf, hd⟩ := hcases rp
  all_goals first | rw [hten, hdata] | rw [hf, hd]
  · rfl
  · exact h.ax rp
  · exact h.cs 10
  · exact h.cs rp
  · exact h.ds 10
  · exact h.ds rp
  · exact h.ss 10
  · exact h.ss rp
  · exact h.es 10
  · exact h.es rp
  · exact h.sp 10
  · exact h.sp rp
  · exact h.ip 10
  · exact h.ip rp

/-- The kernel refuses to send to a process that is not there. -/
theorem oneKernel_refuses (mPtr : Nat) :
    Kernel.sysCall oneKernel 3 10 0 mPtr = some (Kernel.setRet oneKernel 10 (-1)) := rfl

/-- The step from the one to the other is one of the kernel's code. -/
theorem oneAnswered_code : kernelCode oneLayout .s_call oneCalled oneAnswered := by
  obtain ⟨hcalled, hregs⟩ := oneCalled_called
  refine ⟨10, 10, hcalled, oneAnswered_kernel, oneKernel, _, oneKernel_shows, ?_,
    oneAnswered_shows, fun rp => ?_, rfl⟩
  · unfold Entry.params
    rw [hregs]
    unfold oneTrap _send_rec
    rw [trap_eq]
    have hdest : destSrc oneMachine = 0 := by decide
    dsimp only
    rw [hdest]
    exact oneKernel_refuses _
  · rw [oneAnswered_contexts]
    by_cases hrp : rp = 10
    · subst hrp
      rw [Function.update_self]
      exact ⟨rfl, rfl, rfl, rfl, rfl, rfl, rfl⟩
    · rw [Function.update_of_ne hrp]
      exact ⟨rfl, rfl, rfl, rfl, rfl, rfl, rfl⟩

/-- It lets the process go on. -/
theorem oneAnswered_room : Room oneLayout oneAnswered := by
  obtain ⟨-, hregs⟩ := oneCalled_called
  intro q hq
  obtain rfl : q = 10 := Layout.entry_inj (hq.symm.trans oneAnswered_kernel.ptr)
  refine oneProcess_clear _ ?_ 12
  rw [if_neg (by decide), oneAnswered_contexts, Function.update_self]
  dsimp only
  rw [hregs]
  unfold oneTrap _send_rec
  rw [trap_eq]
  rfl

/-- Its stack is kept while the kernel runs. -/
theorem oneMachine_kept {a : Nat} (h : 0x301FE ≤ a) :
    (restart oneLayout 0 oneAnswered).mem a = oneTrap.mem a := by
  have htrap := oneTrap_refines
  have hown : ¬Own oneLayout a := fun ha => absurd (h.trans_lt (own_lt ha)) (by decide)
  obtain ⟨-, hregs⟩ := oneCalled_called
  have habove (n : Nat) (hn : n ≤ 12) : Above oneTrap.regs n a := by
    intro j h₁ h₂
    unfold oneTrap _send_rec
    rw [trap_eq]
    change a ≠ phys oneProcess.ss (0x1FE - BitVec.ofNat 16 j)
    rw [oneProcess_stack]
    bv_omega
  have hstack (r : Regs) (hss : r.ss = oneLayout.ds)
      (_ : r.sp = oneLayout.k_stack + K_STACK_BYTES) : Above r 8 a := by
    intro j h₁ h₂
    have : phys r.ss (r.sp - BitVec.ofNat 16 j) ≤ r.ss.toNat * 16 + _ := Nat.mod_le ..
    have hlt := (r.sp - BitVec.ofNat 16 j).isLt
    have hds : r.ss.toNat = 0x400 := hss ▸ rfl
    omega
  have hanswer : oneAnswered.mem a = oneCalled.mem a := setWord_of_own (.field 10 ⟨0, by decide⟩) hown
  refine (restart_frame oneAnswered_kernel oneAnswered_room 0 hown ?_).trans
    (hanswer.trans (intoC_frame htrap.clear htrap.knows .s_call 9 12 hown (habove 12 (by decide))
      hstack))
  rw [oneAnswered_contexts, Function.update_self, hregs]
  exact habove 6 (by decide)

/-- The stack of the caller is as it was. -/
theorem oneMachine_word {w : Word} (h₁ : 0x1FE ≤ w.toNat) (h₂ : w.toNat < 0xFFFF) :
    wordAt (restart oneLayout 0 oneAnswered).mem oneProcess.ss w =
      wordAt oneTrap.mem oneProcess.ss w := by
  have hone : (w + 1).toNat = w.toNat + 1 := by bv_omega
  unfold wordAt
  rw [oneProcess_stack, oneProcess_stack, hone, oneMachine_kept (by omega),
    oneMachine_kept (by omega)]

/-- The routine returns -1, which is `E_BAD_DEST`. -/
theorem send_rec_returns_one :
    leave (restart oneLayout 0 oneAnswered) =
      ⟨returned BOTH 0xFFFF oneMachine, (restart oneLayout 0 oneAnswered).mem⟩ := by
  obtain ⟨hax, hknows, -⟩ :=
    restarted oneAnswered_kernel (by decide) oneAnswered_room 0
  have hstay : Relation.ReflTransGen
      (Away oneLayout 0 (kernelCode oneLayout) (fun _ f g => g = f) 10)
      (restart oneLayout 0 oneAnswered) _ := .refl
  have h := send_rec_returns kernelCode_implements (fun _ h => ⟨_, congrFun h 10⟩)
    oneMachine_refines rfl (by decide) (oneProcess_clear _ rfl 14) oneAnswered_code
    oneAnswered_room hstay hknows.ptr
    ((oneMachine_word (by decide) (by decide)).trans ?_)
    ((oneMachine_word (by decide) (by decide)).trans ?_)
  · have hans : (restart oneLayout 0 oneAnswered).regs.ax = 0xFFFF := by
      rw [hax, oneAnswered_contexts, Function.update_self]
    have := h.2
    rwa [hans] at this
  · unfold oneTrap _send_rec
    rw [trap_eq]
    exact wordAt_setWord ..
  · unfold oneTrap _send_rec
    rw [trap_eq]
    exact wordAt_setWord_of_apart (by decide)

end Minix.Libsys
