import Minix.Kernel.Calls

/-!
# Interrupt messages

The handlers of the clock, the disks and the printer build their message in one buffer, and
a task that is not listening is only marked with the address of that buffer. The messages
are right as long as no handler builds a message of another type there while a task is
marked.
-/

namespace Minix.Kernel

open Function Transition

/-- The numbers of the tasks that interrupts are for, without their sign. -/
abbrev FLOPPY : Fin (NR_TASKS + 1) := 5
/-- hard disk task -/
abbrev WINI : Fin (NR_TASKS + 1) := 6
/-- terminal I/O class -/
abbrev TTY : Fin (NR_TASKS + 1) := 7
/-- printer I/O class -/
abbrev PRINTER : Fin (NR_TASKS + 1) := 8

/-- function code for clock interrupts -/
abbrev CLOCK_TICK : Int := 2
/-- fcn code for disk interrupts -/
abbrev DISKINT : Int := 1
/-- fcn code for tty input interrupts -/
abbrev TTY_CHAR_INT : Int := 1
/-- fcn code for tty output done -/
abbrev TTY_O_DONE : Int := 2

/-- `m2_i2` and `m2_p1` of a message. -/
abbrev REP_STATUS : Nat := 6
/-- where the address of a buffer is in a message -/
abbrev ADDRESS : Nat := 18

/-- Store words in the message at an address. -/
def storeFields (mem : Memory) (mPtr : Nat) : List (Nat × Int) → Memory
  | [] => mem
  | (o, v) :: fields => storeFields (storeWord mem HARDWARE (mPtr + o) v) mPtr fields

/-- Build a message in the kernel. -/
def buildMess (k : State) (mPtr : Nat) (fields : List (Nat × Int)) : State :=
  { k with mem := storeFields k.mem mPtr fields }

/-- Build a message and schedule the task. -/
def raise (k : State) (i : Fin (NR_TASKS + 1)) (mPtr : Nat) (fields : List (Nat × Int)) :
    Option State :=
  interrupt (buildMess k mPtr fields) i mPtr

/-- The clock interrupts. -/
def clockInt (k : State) : Option State := raise k CLOCK k.vars.intMess [(M_TYPE, CLOCK_TICK)]

/-- The floppy disk controller interrupts. -/
def diskInt (k : State) : Option State := raise k FLOPPY k.vars.intMess [(M_TYPE, DISKINT)]

/-- The hard disk controller interrupts. -/
def winiInt (k : State) : Option State := raise k WINI k.vars.intMess [(M_TYPE, DISKINT)]

/-- printer gives this status when idle -/
abbrev NORMAL_STATUS : Int := 0xDF

/-- printer gives this status when busy -/
abbrev BUSY_STATUS : Int := 0x5F

/-- Output characters as long as the printer takes them. There is no result while the printer is
busy, and else the status of the job. -/
def prLoop (status : Nat → Int) : Nat → Option Int
  | 0 => some OK
  | pcount + 1 =>
    if status (pcount + 1) = NORMAL_STATUS then prLoop status pcount
    else if status (pcount + 1) = BUSY_STATUS then none
    else some (status (pcount + 1))

/-- `pr_char`, with the status that the port gives for each count that is left. -/
def prChar (k : State) (prBusy : Bool) (pcount : Nat) (status : Nat → Int) : Option State :=
  if !prBusy then some k -- spurious 8259A interrupt
  else match prLoop status pcount with
    | none => some k
    | some r => raise k PRINTER k.vars.intMess [(M_TYPE, TTY_O_DONE), (REP_STATUS, r)]

/-- scan code for letter S -/
abbrev CTRL_S : Int := 31

/-- default x-off character -/
abbrev XOFF_CHAR : Int := 19

/-- DEL for use in CTRL-ALT-DEL reboot -/
abbrev DEL_CODE : Int := 83

/-- What the keyboard interrupt looks at: the scan code, the state of the console, and the count,
the limit and the address of `tty_driver_buf`. -/
structure Keybd where
  code : Int
  rawBit : Bool
  control : Bool
  alt : Bool
  stopc : Int
  count : Int
  limit : Int
  driverBuf : Nat

/-- A key has been released that is not of the shift type, or output is to stop. -/
def ignoredKey (b : Keybd) : Bool :=
  let k := b.code - 128
  if k > 0 then k != 29 && k != 42 && k != 54 && k != 56 && k != 69
  else !b.rawBit && b.control && b.code == CTRL_S && b.stopc == XOFF_CHAR

/-- `keyboard`. There is no result when the computer is rebooted. -/
def keyboard (k : State) (b : Keybd) : Option State :=
  if ignoredKey b then some k
  else if b.control && b.alt && b.code == DEL_CODE then none
  else if b.count < b.limit then
    raise k TTY k.vars.keybdMess [(M_TYPE, TTY_CHAR_INT), (ADDRESS, b.driverBuf)]
  else some k

/-- The interrupts. -/
inductive Irq where
  | clock
  | floppy
  | wini
  | keyboard (b : Keybd)
  | printer (prBusy : Bool) (pcount : Nat) (status : Nat → Int)

/-- The handler of an interrupt. -/
def handle (k : State) : Irq → Option State
  | .clock => clockInt k
  | .floppy => diskInt k
  | .wini => winiInt k
  | .keyboard b => keyboard k b
  | .printer prBusy pcount status => prChar k prBusy pcount status

/-- The buffer in which the handler for a task builds its message. -/
def messOf (v : KernelVars) (i : Fin (NR_TASKS + 1)) : Nat :=
  if i = TTY then v.keybdMess else v.intMess

/-- The type of the message that the handler for a task builds. -/
def mType (i : Fin (NR_TASKS + 1)) : Int := if i = CLOCK ∨ i = PRINTER then 2 else 1

/-- The bytes of a message that the handler for a task stores. -/
def handlerField (i : Fin (NR_TASKS + 1)) (b : Fin MESS_SIZE) : Prop :=
  b.val = 2 ∨ b.val = 3 ∨ i = PRINTER ∧ (b.val = 6 ∨ b.val = 7) ∨
    i = TTY ∧ (b.val = 18 ∨ b.val = 19)

/-- Two messages agree in what the handler for a task stores. -/
def SameFields (i : Fin (NR_TASKS + 1)) (m m' : Message) : Prop :=
  ∀ b, handlerField i b → m b = m' b

/-- The message of the last interrupt for a task, as long as it has not been delivered. -/
def owed : List Event → Fin (NR_TASKS + 1) → Option Message
  | [], _ => none
  | .irq task m :: log, i => if i = task then some m else owed log i
  | .deliver src dst _ _ _ :: log, i =>
    if src = HARDWARE ∧ dst = taskSlot i then none else owed log i
  | .accept _ _ _ _ :: log, i => owed log i
  | .exit _ :: log, i => owed log i

/-- What a task gets from the hardware is the message of an interrupt for it that has not been
delivered before, and that was of the type of its handler. -/
def Carried : List Event → Prop
  | [] => True
  | .irq task m :: log =>
    m 2 = loByte (mType task) ∧ m 3 = hiByte (mType task) ∧ Carried log
  | .deliver src dst _ m _ :: log =>
    (∀ i, i ≠ 0 → src = HARDWARE → dst = taskSlot i →
      ∃ m', owed log i = some m' ∧ SameFields i m m') ∧ Carried log
  | _ :: log => Carried log

/-- A task is marked as busy as long as a message is owed to it, and the message is still where the
mark says. -/
def Recorded (k : State) (i : Fin (NR_TASKS + 1)) : Prop :=
  if k.busyMap i then
    i ∈ [FLOPPY, WINI, TTY, PRINTER] ∧ k.taskMess i = messOf k.vars i ∧
      ∃ m, owed k.log i = some m ∧ SameFields i (readMess k.mem HARDWARE (k.taskMess i)) m ∧
        m 2 = loByte (mType i) ∧ m 3 = hiByte (mType i)
  else owed k.log i = none

/-- The tasks that are marked when they are not listening. -/
def Marked (i : Fin (NR_TASKS + 1)) : Prop := i ≠ 0 ∧ i ≠ CLOCK

/-- What the interrupts rely on, for the tasks in `T`. -/
structure Pending (k : State) (T : Fin (NR_TASKS + 1) → Prop) : Prop where
  linked : ∃ W, Linked k W
  carried : Carried k.log
  clock : k.busyMap CLOCK = false
  recorded : ∀ i, T i → Recorded k i

variable {k k' k₁ k₂ : State} {W : Slot → List Slot} {caller dest sender rp : Slot} {mPtr : Nat}
  {n : Int} {i j : Fin (NR_TASKS + 1)}

/-- The slot of a task. -/
theorem procAddr_task : ∀ i : Fin (NR_TASKS + 1), procAddr (-(i.val : Int)) = some (taskSlot i) := by
  decide

/-- Tasks have slots of their own. -/
theorem taskSlot_injective : Injective taskSlot := by decide

section Aside

/-- The call has nothing to do with interrupts. -/
structure Aside (k k' : State) : Prop where
  busyMap : k'.busyMap = k.busyMap
  taskMess : k'.taskMess = k.taskMess
  vars : k'.vars = k.vars
  mem : ∀ a, a + 1 ≤ k.vars.sysMess ∨ k.vars.sysMess + MESS_SIZE ≤ a →
    k'.mem HARDWARE a = k.mem HARDWARE a
  owed : ∀ i, i ≠ 0 → owed k'.log i = owed k.log i
  carried : Carried k.log → Carried k'.log

/-- A state that stays as it is. -/
theorem Aside.refl (k : State) : Aside k k :=
  ⟨rfl, rfl, rfl, fun _ _ => rfl, fun _ _ => rfl, id⟩

/-- Two changes aside from the messages of interrupts. -/
theorem Aside.trans (h : Aside k k₁) (h' : Aside k₁ k₂) : Aside k k₂ := by
  refine ⟨h'.busyMap.trans h.busyMap, h'.taskMess.trans h.taskMess, h'.vars.trans h.vars,
    fun a ha => ?_, fun i hi => (h'.owed i hi).trans (h.owed i hi), fun hc => h'.carried (h.carried hc)⟩
  rw [h'.mem a (h.vars ▸ ha), h.mem a ha]

/-- A process that wakes up changes the queues of the scheduler only. -/
theorem wake_eq (k : State) (rp : Slot) : wake k rp = { k with sched := (wake k rp).sched } := by
  unfold wake
  split <;> rfl

/-- So it is aside from those messages. -/
theorem wake_aside (k : State) (rp : Slot) : Aside k (wake k rp) := by
  rw [wake_eq]
  exact ⟨rfl, rfl, rfl, fun _ _ => rfl, fun _ _ => rfl, id⟩

/-- So is the result of a call. -/
theorem setRet_aside (k : State) (rp : Slot) (n : Int) : Aside k (setRet k rp n) :=
  ⟨rfl, rfl, rfl, fun _ _ => rfl, fun _ _ => rfl, id⟩

/-- A message that does not go from the hardware to a task. -/
theorem cpMess_aside {src dst : Slot} (hd : dst ≠ HARDWARE) (hs : src = HARDWARE → dst = MM)
    (k : State) (a b : Nat) (any : Bool) : Aside k (cpMess k src a dst b any) := by
  have hno : ∀ i : Fin (NR_TASKS + 1), i ≠ 0 → src = HARDWARE → dst ≠ taskSlot i := by
    intro i hi hh e
    exact hi (taskSlot_injective (e.symm.trans (hs hh)))
  refine ⟨rfl, rfl, rfl, fun x _ => ?_, fun i hi => ?_, fun hc => ⟨fun i hi hh e => ?_, hc⟩⟩
  · unfold cpMess storeMess
    dsimp only
    rw [update_of_ne hd.symm]
  · exact if_neg fun he => hno i hi he.1 he.2
  · exact absurd e (hno i hi hh)

/-- So is the end of a `receive`. -/
theorem endReceive_aside (k : State) (rp : Slot) : Aside k (endReceive k rp) := by
  have h : Aside k { k with
      pFlags := update k.pFlags rp { k.pFlags rp with receiving := false } } :=
    ⟨rfl, rfl, rfl, fun _ _ => rfl, fun _ _ => rfl, id⟩
  exact h.trans (wake_aside _ rp)

/-- So is the end of a `send`. -/
theorem endSend_aside (k : State) (rp : Slot) : Aside k (endSend k rp) := by
  have h : Aside k { k with
      pFlags := update k.pFlags rp { k.pFlags rp with sending := false } } :=
    ⟨rfl, rfl, rfl, fun _ _ => rfl, fun _ _ => rfl, id⟩
  exact h.trans (wake_aside _ rp)

/-- So is a message that is delivered, unless an interrupt sends it to a task. -/
theorem deliver_aside (h : Linked k W) (hw : waitsFor k dest caller = true)
    (hc : caller = HARDWARE → dest = MM) (mPtr : Nat) : Aside k (deliver k caller dest mPtr) := by
  have hd : dest ≠ HARDWARE := by
    rintro rfl
    exact ne_clear_of_receiving (waitsFor_receiving hw) h.flags.hardware
  have hlog : Aside k (logAccept k caller dest mPtr) :=
    ⟨rfl, rfl, rfl, fun _ _ => rfl, fun _ _ => rfl, id⟩
  have hcp := cpMess_aside hd hc (logAccept k caller dest mPtr) mPtr (k.pMessbuf dest)
    (k.pGetfrom dest == ANY)
  exact hlog.trans (hcp.trans (endReceive_aside _ dest))

/-- A `send` of a process, or of the hardware to the memory manager. -/
theorem miniSend_aside {srcDest : Int} (h : Linked k W)
    (hc : caller = HARDWARE → srcDest = procNr MM)
    (hs : miniSend k caller srcDest mPtr = some (n, k')) : Aside k k' := by
  rcases miniSend_cases hs with ⟨-, rfl⟩ | ⟨-, destPtr, hd, -, ⟨hw, rfl⟩ | ⟨-, -, hb⟩⟩
  · exact .refl _
  · refine deliver_aside h hw (fun hh => ?_) mPtr
    rw [hc hh] at hd
    exact (Option.some.inj hd).symm
  · obtain ⟨s, -, hb⟩ := Option.bind_eq_some_iff.mp hb
    obtain ⟨c, -, hb⟩ := Option.bind_eq_some_iff.mp hb
    obtain rfl := Option.some.inj hb
    exact ⟨rfl, rfl, rfl, fun _ _ => rfl, fun _ _ => rfl, id⟩

/-- The message that is built for MM lies apart from those of the interrupts. -/
theorem buildKsig_aside (k : State) (rp : Slot) : Aside k (buildKsig k rp) := by
  refine ⟨rfl, rfl, rfl, fun a ha => ?_, fun _ _ => rfl, id⟩
  unfold buildKsig storeWord
  simp only [update_self]
  have hne : ∀ o, o < MESS_SIZE → a ≠ k.vars.sysMess + o := by
    intro o ho
    omega
  rw [update_of_ne (hne 7 (by decide)), update_of_ne (hne 6 (by decide)),
    update_of_ne (hne 5 (by decide)), update_of_ne (hne 4 (by decide)),
    update_of_ne (hne 3 (by decide)), update_of_ne (hne 2 (by decide))]

/-- The memory manager is told of a signal. -/
theorem tellMM_aside (h : Linked k W) (ht : tellMM k MM rp = some k') : Aside k k' := by
  have hl : Linked (buildKsig k rp) W := ⟨h.queued, h.waiting, h.flags⟩
  unfold tellMM at ht
  split at ht
  · rename_i k₁ hs
    obtain rfl := Option.some.inj ht
    exact (buildKsig_aside k rp).trans ((miniSend_aside hl (fun _ => rfl) hs).trans
      ⟨rfl, rfl, rfl, fun _ _ => rfl, fun _ _ => rfl, id⟩)
  · cases ht

/-- It is informed of all signals that are pending. -/
theorem inform_aside (h : Linked k W) (hi : inform k MM = some k') : Aside k k' := by
  unfold inform at hi
  split at hi
  · obtain rfl := Option.some.inj hi
    exact .refl k
  · split at hi
    · obtain rfl := Option.some.inj hi
      exact .refl k
    · exact tellMM_aside h hi

/-- A `receive` of a process. -/
theorem miniRec_aside {src : Int} (h : Linked k W) (hne : caller ≠ HARDWARE)
    (hc : (k.pFlags caller).slotFree = false) (hr : miniRec k caller src mPtr = some (n, k')) :
    Aside k k' := by
  rcases miniRec_cases hr with ⟨prevPtr, sender, hf, rfl⟩ | ⟨prevPtr, k₁, hf, ha, hi⟩
  · obtain ⟨l₁, l₂, hl, -, -, -⟩ := h.waiting.findSender_some hf
    have hmem : sender ∈ W caller := by
      rw [hl]
      exact List.mem_append_right _ (List.mem_cons_self ..)
    have hs := h.ne_hardware hmem
    have hcp := cpMess_aside hne (fun e => absurd e hs) k (k.pMessbuf sender) mPtr (src == ANY)
    exact (hcp.trans (endSend_aside _ sender)).trans
      ⟨rfl, rfl, rfl, fun _ _ => rfl, fun _ _ => rfl, id⟩
  · obtain ⟨s, ha', hl⟩ := h.await hne hc src mPtr
    obtain rfl := Option.some.inj (ha.symm.trans ha')
    have h₁ : Aside k (startReceive k caller src mPtr s) :=
      ⟨rfl, rfl, rfl, fun _ _ => rfl, fun _ _ => rfl, id⟩
    rcases hi with rfl | ⟨-, hi⟩
    · exact h₁
    · exact h₁.trans (inform_aside hl hi)

/-- A trap of a process. -/
theorem sysCall_aside {function : Nat} {srcDest : Int} (h : Linked k W) (hr : Runnable k caller)
    (hs : sysCall k function caller srcDest mPtr = some k') : Aside k k' := by
  obtain ⟨hne, hc⟩ := hr
  rcases sysCall_cases hs with ⟨n, rfl⟩ | ⟨-, n₁, k₁, hsend, hrec⟩
  · exact setRet_aside k caller n
  · obtain ⟨h₁, hfree, W₁, hl₁⟩ : Aside k k₁ ∧ (k₁.pFlags caller).slotFree = false ∧
        ∃ W, Linked k₁ W := by
      rcases hsend with ⟨-, -, rfl⟩ | ⟨-, hsend⟩
      · rw [hc]
        exact ⟨.refl k₁, rfl, W, h⟩
      · refine ⟨miniSend_aside h (fun e => absurd e hne) hsend, ?_,
          h.effects (miniSend_effects (Or.inr hc) hsend)⟩
        rw [miniSend_slotFree hsend, hc]
        rfl
    rcases hrec with ⟨rfl | rfl, -⟩ | ⟨-, -, n₂, k₂, k₃, hk₂, hm, rfl⟩
    · exact h₁
    · exact h₁.trans (setRet_aside k₁ caller n₁)
    · refine h₁.trans (.trans ?_ (setRet_aside k₃ caller n₂))
      rcases hk₂ with rfl | rfl
      · exact miniRec_aside hl₁ hne hfree hm
      · exact (setRet_aside k₁ caller n₁).trans
          (miniRec_aside (hl₁.frame (setRet_frame k₁ caller n₁)) hne hfree hm)

end Aside

/-- The calls that are no interrupts and neither make nor remove processes. -/
def IsOrdinary : Call → Prop
  | .sysCall _ _ _ _ => True
  | .sched => True
  | .causeSig _ _ => True
  | .inform => True
  | .store _ _ _ => True
  | _ => False

/-- A call has nothing to do with interrupts. -/
theorem perform_aside {c : Call} (h : Linked k W) (hc : IsOrdinary c) (hg : AsIssued k c)
    (hp : perform k c = some k') : Aside k k' := by
  cases c with
  | sysCall function caller srcDest mPtr => exact sysCall_aside h hg hp
  | sched =>
    obtain rfl := Option.some.inj hp
    exact ⟨rfl, rfl, rfl, fun _ _ => rfl, fun _ _ => rfl, id⟩
  | causeSig n sigNr =>
    change causeSig k n sigNr = some k' at hp
    unfold causeSig at hp
    split at hp
    · cases hp
    · rename_i rp _
      have h₁ : Aside k (addSignal k rp sigNr) :=
        ⟨rfl, rfl, rfl, fun _ _ => rfl, fun _ _ => rfl, id⟩
      have hl : Linked (addSignal k rp sigNr) W := ⟨h.queued, h.waiting, h.flags⟩
      exact h₁.trans (inform_aside hl hp)
  | inform => exact inform_aside h hp
  | store rp a b =>
    obtain rfl := Option.some.inj hp
    refine ⟨rfl, rfl, rfl, fun x _ => ?_, fun _ _ => rfl, id⟩
    unfold storeByte
    dsimp only
    rw [update_of_ne (Ne.symm hg.1)]
  | _ => exact hc.elim

/-- Nothing is kept for a task that is not marked busy. -/
theorem recorded_of_clear (hb : k.busyMap i = false) (ho : owed k.log i = none) :
    Recorded k i := by
  unfold Recorded
  rwa [hb]

/-- A message that is kept is the one to deliver. -/
theorem recorded_of_busy {m : Message} (hi : i ∈ [FLOPPY, WINI, TTY, PRINTER])
    (hb : k.busyMap i = true) (ht : k.taskMess i = messOf k.vars i) (ho : owed k.log i = some m)
    (hm : SameFields i (readMess k.mem HARDWARE (k.taskMess i)) m)
    (hty : m 2 = loByte (mType i) ∧ m 3 = hiByte (mType i)) : Recorded k i := by
  unfold Recorded
  rw [hb]
  exact ⟨hi, ht, m, ho, hm, hty⟩

/-- What is recorded for a task depends on its mark and on the message that is owed to it. -/
theorem Recorded.congr (h : Recorded k i) (hb : k'.busyMap i = k.busyMap i)
    (ht : k'.taskMess i = k.taskMess i) (hv : k'.vars = k.vars)
    (ho : owed k'.log i = owed k.log i)
    (hm : k.busyMap i = true → ∀ b, handlerField i b →
      k'.mem HARDWARE (messOf k.vars i + b) = k.mem HARDWARE (messOf k.vars i + b)) :
    Recorded k' i := by
  unfold Recorded at h ⊢
  rw [hb, ho]
  by_cases hbusy : k.busyMap i = true
  · rw [if_pos hbusy] at h ⊢
    obtain ⟨hi, htask, m, hm₁, hsame, hty⟩ := h
    refine ⟨hi, ?_, m, hm₁, fun b hf => ?_, hty⟩
    · rw [ht, hv, htask]
    · rw [← hsame b hf]
      unfold readMess
      rw [ht, htask, hm hbusy b hf]
  · rw [if_neg hbusy] at h ⊢
    exact h

/-- The messages of the interrupts lie apart from that for MM. -/
theorem messOf_sysMess (v : KernelVars) (i : Fin (NR_TASKS + 1)) (b : Fin MESS_SIZE) :
    messOf v i + b + 1 ≤ v.sysMess ∨ v.sysMess + MESS_SIZE ≤ messOf v i + b := by
  have hb := b.isLt
  have h₁ := v.int_sys
  have h₂ := v.keybd_sys
  unfold messOf
  split <;> omega

/-- What is aside leaves the messages that are kept. -/
theorem Pending.aside (h : Pending k Marked) (ha : Aside k k') (hl : ∃ W, Linked k' W) :
    Pending k' Marked := by
  refine ⟨hl, ha.carried h.carried, ?_, fun i hi => ?_⟩
  · rw [ha.busyMap]
    exact h.clock
  · apply (h.recorded i hi).congr
    · rw [ha.busyMap]
    · rw [ha.taskMess]
    · exact ha.vars
    · exact ha.owed i hi.1
    · exact fun _ b _ => ha.mem _ (messOf_sysMess k.vars i b)

/-- The source of a message is none of its fields. -/
theorem withSource_same (m : Message) (src : Int) : SameFields i (withSource src m) m := by
  intro b hf
  unfold withSource
  have hb : 2 ≤ b.val := by
    unfold handlerField at hf
    omega
  rw [update_of_ne, update_of_ne]
  · rintro rfl
    exact absurd hb (by decide)
  · rintro rfl
    exact absurd hb (by decide)

/-- A message of the hardware that is handed over to a task is no longer owed. -/
theorem Pending.handOver {m : Message} (h : Pending k fun x => Marked x ∧ x ≠ i)
    (hw : waitsFor k (taskSlot i) HARDWARE = true) (ho : owed k.log i = some m)
    (hm : SameFields i (readMess k.mem HARDWARE mPtr) m) :
    Pending { deliver k HARDWARE (taskSlot i) mPtr with
      busyMap := update (deliver k HARDWARE (taskSlot i) mPtr).busyMap i false } Marked := by
  obtain ⟨W, hl⟩ := h.linked
  have hne : taskSlot i ≠ HARDWARE := by
    intro e
    rw [e] at hw
    exact ne_clear_of_receiving (waitsFor_receiving hw) hl.flags.hardware
  have hd := hl.deliver hw mPtr
  have hlog : (deliver k HARDWARE (taskSlot i) mPtr).log =
      .deliver HARDWARE (taskSlot i) (k.pMessbuf (taskSlot i))
        (withSource (procNr HARDWARE) (readMess k.mem HARDWARE mPtr))
        (k.pGetfrom (taskSlot i) == ANY) ::
      .accept HARDWARE (taskSlot i) mPtr (readMess k.mem HARDWARE mPtr) :: k.log := endReceive_log ..
  have howed : ∀ x, owed (deliver k HARDWARE (taskSlot i) mPtr).log x =
      if x = i then none else owed k.log x := by
    intro x
    rw [hlog, owed, owed]
    by_cases hx : x = i
    · rw [if_pos hx, if_pos ⟨rfl, by rw [hx]⟩]
    · rw [if_neg hx, if_neg fun he => hx (taskSlot_injective he.2).symm]
  have hrest : deliver k HARDWARE (taskSlot i) mPtr = { k with
      sched := (deliver k HARDWARE (taskSlot i) mPtr).sched
      pFlags := (deliver k HARDWARE (taskSlot i) mPtr).pFlags
      mem := (deliver k HARDWARE (taskSlot i) mPtr).mem
      log := (deliver k HARDWARE (taskSlot i) mPtr).log } := by
    unfold deliver endReceive
    rw [wake_eq]
    rfl
  have hmem : (deliver k HARDWARE (taskSlot i) mPtr).mem HARDWARE = k.mem HARDWARE := by
    unfold deliver endReceive
    rw [wake_mem]
    exact update_of_ne hne.symm _ _
  have hbusy : (deliver k HARDWARE (taskSlot i) mPtr).busyMap = k.busyMap := by rw [hrest]
  refine ⟨⟨W, hd.queued, hd.waiting, hd.flags⟩, ?_, ?_, fun x hx => ?_⟩
  · change Carried (deliver k HARDWARE (taskSlot i) mPtr).log
    rw [hlog]
    refine ⟨fun x _ _ e => ?_, h.carried⟩
    obtain rfl := taskSlot_injective e
    exact ⟨m, ho, fun b hf => (withSource_same _ _ b hf).trans (hm b hf)⟩
  · dsimp only
    by_cases hc : CLOCK = i
    · rw [hc, update_self]
    · rw [update_of_ne hc, hbusy]
      exact h.clock
  · by_cases he : x = i
    · rw [he]
      apply recorded_of_clear (update_self ..)
      exact (howed i).trans (if_pos rfl)
    · apply (h.recorded x ⟨hx, he⟩).congr
      · dsimp only
        rw [update_of_ne he, hbusy]
      · rw [hrest]
      · rw [hrest]
      · dsimp only
        rw [howed, if_neg he]
      · intro _ b _
        dsimp only
        rw [hmem]

/-- What the hardware can do to a task: fail, or hand its message over. -/
theorem miniSend_task {i : Fin (NR_TASKS + 1)}
    (h : miniSend k HARDWARE (-(i.val : Int)) mPtr = some (n, k')) :
    n ≠ OK ∧ k' = k ∨ n = OK ∧ waitsFor k (taskSlot i) HARDWARE = true ∧
      k' = deliver k HARDWARE (taskSlot i) mPtr := by
  rcases miniSend_cases h with hf | ⟨hn, destPtr, hd, -, ⟨hw, hk⟩ | ⟨-, hne, -⟩⟩
  · exact Or.inl hf
  · obtain rfl := Option.some.inj ((procAddr_task i).symm.trans hd)
    exact Or.inr ⟨hn, hw, hk⟩
  · exact absurd rfl hne

/-- The tasks that are marked get their messages if they listen by now. -/
theorem Pending.retryBusy {oldMap : Fin (NR_TASKS + 1) → Bool} {l : List (Fin (NR_TASKS + 1))}
    (h : Pending k Marked) (hl : l.Nodup) (h0 : 0 ∉ l)
    (hold : ∀ i ∈ l, oldMap i = true → k.busyMap i = true)
    (hr : retryBusy oldMap l k = some k') : Pending k' Marked := by
  induction l generalizing k with
  | nil =>
    obtain rfl := Option.some.inj hr
    exact h
  | cons i l ih =>
    rw [List.nodup_cons] at hl
    rw [Kernel.retryBusy] at hr
    have h0l : 0 ∉ l := fun hm => h0 (List.mem_cons_of_mem _ hm)
    split at hr
    · rename_i hi
      have hbusy := hold i (List.mem_cons_self ..) hi
      split at hr
      · cases hr
      · rename_i n k₁ hs
        rcases miniSend_task hs with ⟨hn, rfl⟩ | ⟨rfl, hw, rfl⟩
        · rw [if_neg hn] at hr
          exact ih h hl.2 h0l (fun x hx => hold x (List.mem_cons_of_mem _ hx)) hr
        · rw [if_pos rfl] at hr
          have hmark : Marked i := by
            refine ⟨?_, ?_⟩
            · rintro rfl
              exact h0 (List.mem_cons_self ..)
            · rintro rfl
              rw [h.clock] at hbusy
              cases hbusy
          have hrec := h.recorded i hmark
          unfold Recorded at hrec
          rw [if_pos hbusy] at hrec
          obtain ⟨-, -, m, ho, hm, -⟩ := hrec
          have hbut : Pending k fun x => Marked x ∧ x ≠ i :=
            ⟨h.linked, h.carried, h.clock, fun x hx => h.recorded x hx.1⟩
          apply ih (hbut.handOver hw ho hm) hl.2 h0l _ hr
          intro x hx hox
          have hxi : x ≠ i := by
            rintro rfl
            exact hl.1 hx
          have hsame : (deliver k HARDWARE (taskSlot i) (k.taskMess i)).busyMap = k.busyMap := by
            unfold deliver endReceive
            rw [wake_eq]
            rfl
          dsimp only
          rw [update_of_ne hxi, hsame]
          exact hold x (List.mem_cons_of_mem _ hx) hox
    · exact ih h hl.2 h0l (fun x hx => hold x (List.mem_cons_of_mem _ hx)) hr

/-- The interrupt itself: its task gets the message or is marked. -/
theorem Pending.offer {m : Message} {oldMap : Fin (NR_TASKS + 1) → Bool}
    (h : Pending k fun x => Marked x ∧ x ≠ j) (hj : j ∈ [CLOCK, FLOPPY, WINI, TTY, PRINTER])
    (ho : owed k.log j = some m) (hm : SameFields j (readMess k.mem HARDWARE mPtr) m)
    (hty : m 2 = loByte (mType j) ∧ m 3 = hiByte (mType j)) (hp : mPtr = messOf k.vars j)
    (hr : offerInterrupt k j mPtr = some (oldMap, k')) :
    Pending k' Marked ∧ ∀ i, oldMap i = true → k'.busyMap i = true := by
  unfold offerInterrupt at hr
  split at hr
  · cases hr
  · rename_i n k₁ hs
    rcases miniSend_task hs with ⟨hn, rfl⟩ | ⟨rfl, hw, rfl⟩
    · rw [if_pos hn] at hr
      split at hr
      · rename_i hclock
        obtain ⟨rfl, rfl⟩ := Prod.mk.inj (Option.some.inj hr)
        refine ⟨⟨h.linked.imp fun W hl => ⟨hl.queued, hl.waiting, hl.flags⟩, h.carried, h.clock,
          fun i hi => ?_⟩, fun i hi => hi⟩
        have hij : i ≠ j := by
          rintro rfl
          exact hi.2 hclock
        exact (h.recorded i ⟨hi, hij⟩).congr rfl rfl rfl rfl fun _ _ _ => rfl
      · rename_i hclock
        obtain ⟨rfl, rfl⟩ := Prod.mk.inj (Option.some.inj hr)
        refine ⟨⟨h.linked.imp fun W hl => ⟨hl.queued, hl.waiting, hl.flags⟩, h.carried, ?_,
          fun i hi => ?_⟩, fun i hi => ?_⟩
        · dsimp only
          rw [update_of_ne (Ne.symm hclock)]
          exact h.clock
        · by_cases hij : i = j
          · rw [hij]
            refine recorded_of_busy ?_ (update_self ..) ((update_self ..).trans hp) ho ?_ hty
            · exact (List.mem_cons.mp hj).resolve_left hclock
            · dsimp only
              rwa [update_self]
          · exact (h.recorded i ⟨hi, hij⟩).congr (update_of_ne hij ..) (update_of_ne hij ..) rfl rfl
              fun _ _ _ => rfl
        · dsimp only
          by_cases hij : i = j
          · rw [hij, update_self]
          · rwa [update_of_ne hij]
    · rw [if_neg (by decide)] at hr
      obtain ⟨rfl, rfl⟩ := Prod.mk.inj (Option.some.inj hr)
      exact ⟨h.handOver hw ho hm, fun i hi => hi⟩

/-- A word changes its two bytes only. -/
theorem storeWord_of_ne {mem : Memory} {a x : Nat} {v : Int} (h : x ≠ a) (h' : x ≠ a + 1) :
    storeWord mem HARDWARE a v HARDWARE x = mem HARDWARE x := by
  unfold storeWord
  rw [update_self, update_of_ne h', update_of_ne h]

/-- Storing fields changes no other bytes. -/
theorem storeFields_of_ne {mem : Memory} {a x : Nat} {fields : List (Nat × Int)}
    (h : ∀ f ∈ fields, x ≠ a + f.1 ∧ x ≠ a + f.1 + 1) :
    storeFields mem a fields HARDWARE x = mem HARDWARE x := by
  induction fields generalizing mem with
  | nil => rfl
  | cons f fields ih =>
    obtain ⟨h₁, h₂⟩ := h f (List.mem_cons_self ..)
    rw [storeFields, ih fun g hg => h g (List.mem_cons_of_mem _ hg), storeWord_of_ne h₁ h₂]

/-- The fields that a handler stores behind the type are its own. -/
def OwnFields (j : Fin (NR_TASKS + 1)) (extra : List (Nat × Int)) : Prop :=
  ∀ f ∈ extra, 4 ≤ f.1 ∧ f.1 + 1 < MESS_SIZE ∧
    ∀ i b, handlerField i b → b.val = f.1 ∨ b.val = f.1 + 1 → i = j

/-- The type is stored in its two bytes. -/
theorem storeFields_type {extra : List (Nat × Int)} (h : OwnFields j extra) (mem : Memory)
    (a : Nat) (v : Int) :
    storeFields mem a ((M_TYPE, v) :: extra) HARDWARE (a + 2) = loByte v ∧
      storeFields mem a ((M_TYPE, v) :: extra) HARDWARE (a + 3) = hiByte v := by
  have hne : ∀ o, o < 4 → ∀ f ∈ extra, a + o ≠ a + f.1 ∧ a + o ≠ a + f.1 + 1 := by
    intro o ho f hf
    have := (h f hf).1
    omega
  rw [storeFields, storeFields_of_ne (hne 2 (by decide)), storeFields_of_ne (hne 3 (by decide))]
  unfold storeWord
  rw [update_self]
  constructor
  · rw [update_of_ne (show a + 2 ≠ a + 2 + 1 by omega), update_self]
  · exact update_self ..

/-- The buffers of the handlers are one, or lie apart. -/
theorem messOf_apart (v : KernelVars) (h : messOf v i ≠ messOf v j) :
    messOf v i + MESS_SIZE ≤ messOf v j ∨ messOf v j + MESS_SIZE ≤ messOf v i := by
  have := v.int_keybd
  unfold messOf at h ⊢
  by_cases hi : i = TTY <;> by_cases hj : j = TTY
  · rw [if_pos hi, if_pos hj] at h
    exact absurd rfl h
  · rw [if_pos hi, if_neg hj]
    omega
  · rw [if_neg hi, if_pos hj]
    omega
  · rw [if_neg hi, if_neg hj] at h
    exact absurd rfl h

/-- A message for a task is built without a change to those that are owed to others. -/
theorem storeFields_recorded {extra : List (Nat × Int)} {i : Fin (NR_TASKS + 1)}
    (hextra : OwnFields j extra) (h : Recorded k i) (hij : i ≠ j) (hbusy : k.busyMap i = true)
    (hkeep : messOf k.vars i = messOf k.vars j → mType i = mType j) {b : Fin MESS_SIZE}
    (hf : handlerField i b) :
    storeFields k.mem (messOf k.vars j) ((M_TYPE, mType j) :: extra) HARDWARE
      (messOf k.vars i + b) = k.mem HARDWARE (messOf k.vars i + b) := by
  have hb := b.isLt
  by_cases he : messOf k.vars i = messOf k.vars j
  · unfold Recorded at h
    rw [if_pos hbusy] at h
    obtain ⟨-, htask, m, -, hsame, h₂, h₃⟩ := h
    have hold : k.mem HARDWARE (messOf k.vars i + b) = m b := by
      rw [← hsame b hf]
      unfold readMess
      rw [htask]
    have hty := storeFields_type hextra k.mem (messOf k.vars j) (mType j)
    rw [hold, he]
    by_cases hb2 : b.val = 2
    · obtain rfl : b = 2 := Fin.ext hb2
      rw [h₂, hkeep he]
      exact hty.1
    · by_cases hb3 : b.val = 3
      · obtain rfl : b = 3 := Fin.ext hb3
        rw [h₃, hkeep he]
        exact hty.2
      · rw [← hold, he]
        apply storeFields_of_ne
        intro f hfm
        rcases List.mem_cons.mp hfm with rfl | hfm
        · change messOf k.vars j + b.val ≠ messOf k.vars j + 2 ∧ _ ≠ messOf k.vars j + 2 + 1
          omega
        · have hown := (hextra f hfm).2.2 i b hf
          constructor
          · intro e
            exact hij (hown (Or.inl (by omega)))
          · intro e
            exact hij (hown (Or.inr (by omega)))
  · have hapart := messOf_apart k.vars he
    apply storeFields_of_ne
    intro f hfm
    have hlt : f.1 + 1 < MESS_SIZE := by
      rcases List.mem_cons.mp hfm with rfl | hfm
      · change 2 + 1 < 24
        decide
      · exact (hextra f hfm).2.1
    omega

/-- An interrupt keeps what is owed to the tasks, if it builds no message of another type where one
is owed. -/
theorem Pending.raise {extra : List (Nat × Int)} (h : Pending k Marked)
    (hj : j ∈ [CLOCK, FLOPPY, WINI, TTY, PRINTER]) (hextra : OwnFields j extra)
    (hkeep : ∀ i, Marked i → k.busyMap i = true → messOf k.vars i = messOf k.vars j →
      mType i = mType j)
    (hr : raise k j (messOf k.vars j) ((M_TYPE, mType j) :: extra) = some k') :
    Pending k' Marked := by
  obtain ⟨W, hl⟩ := h.linked
  have hty := storeFields_type hextra k.mem (messOf k.vars j) (mType j)
  unfold Kernel.raise at hr
  obtain ⟨⟨oldMap, k₁⟩, h₁, hr⟩ := Option.bind_eq_some_iff.mp hr
  obtain ⟨k₂, h₂, hr⟩ := Option.bind_eq_some_iff.mp hr
  have hbut : Pending (logIrq (buildMess k (messOf k.vars j) ((M_TYPE, mType j) :: extra)) j
      (messOf k.vars j)) fun x => Marked x ∧ x ≠ j := by
    refine ⟨⟨W, hl.queued, hl.waiting, hl.flags⟩, ⟨hty.1, hty.2, h.carried⟩, h.clock,
      fun i hi => ?_⟩
    refine (h.recorded i hi.1).congr rfl rfl rfl (if_neg hi.2) ?_
    exact fun hbusy b hf => storeFields_recorded hextra (h.recorded i hi.1) hi.2 hbusy
      (hkeep i hi.1 hbusy) hf
  obtain ⟨hp₁, hold⟩ := hbut.offer hj (if_pos rfl) (fun _ _ => rfl) hty rfl h₁
  have hp₂ := hp₁.retryBusy (by decide) (by decide) (fun i _ => hold i) h₂
  split at hr
  · obtain rfl := Option.some.inj hr
    obtain ⟨W₂, hl₂⟩ := hp₂.linked
    exact ⟨hl₂.effect (.pick k₂), hp₂.carried, hp₂.clock, fun i hi =>
      (hp₂.recorded i hi).congr rfl rfl rfl rfl fun _ _ _ => rfl⟩
  · obtain rfl := Option.some.inj hr
    exact hp₂

/-- What enters the kernel: a call or an interrupt. -/
inductive Entry where
  | call (c : Call)
  | irq (q : Irq)

/-- What enters the kernel. -/
def enter (k : State) : Entry → Option State
  | .call c => perform k c
  | .irq q => handle k q

/-- The processes call the kernel as they do, and the interrupts come in any order. -/
def EntersAsIssued (k : State) : Entry → Prop
  | .call c => IsOrdinary c ∧ AsIssued k c
  | .irq _ => True

/-- No handler builds its message over one of another type that a task is still owed: not the clock
nor the printer while a disk task is marked, nor a disk while the printer task is. -/
def KeepsIntMess (k : State) : Entry → Prop
  | .irq .clock => k.busyMap FLOPPY = false ∧ k.busyMap WINI = false
  | .irq (.printer prBusy pcount status) => prBusy = true → (prLoop status pcount).isSome →
    k.busyMap FLOPPY = false ∧ k.busyMap WINI = false
  | .irq .floppy => k.busyMap PRINTER = false
  | .irq .wini => k.busyMap PRINTER = false
  | _ => True

/-- A message without fields. -/
theorem ownFields_nil (j : Fin (NR_TASKS + 1)) : OwnFields j [] := fun _ hf => nomatch hf

/-- The status is a field of the printer's messages. -/
theorem ownFields_printer (r : Int) : OwnFields PRINTER [(REP_STATUS, r)] := by
  intro f hf
  obtain rfl := List.mem_singleton.mp hf
  refine ⟨(by decide : 4 ≤ 6), (by decide : 6 + 1 < 24), fun i b hf hb => ?_⟩
  change b.val = 6 ∨ b.val = 7 at hb
  rcases hf with h | h | ⟨h, -⟩ | ⟨-, h⟩
  · omega
  · omega
  · exact h
  · omega

/-- The address is a field of the terminal's messages. -/
theorem ownFields_tty (a : Int) : OwnFields TTY [(ADDRESS, a)] := by
  intro f hf
  obtain rfl := List.mem_singleton.mp hf
  refine ⟨(by decide : 4 ≤ 18), (by decide : 18 + 1 < 24), fun i b hf hb => ?_⟩
  change b.val = 18 ∨ b.val = 19 at hb
  rcases hf with h | h | ⟨-, h⟩ | ⟨h, -⟩
  · omega
  · omega
  · omega
  · exact h

/-- The two message buffers are apart. -/
theorem intMess_ne_keybdMess (v : KernelVars) : v.intMess ≠ v.keybdMess := by
  have h := v.int_keybd
  change v.intMess + 24 ≤ v.keybdMess ∨ v.keybdMess + 24 ≤ v.intMess at h
  omega

/-- A message for the clock or the printer is built while no disk task is marked. -/
theorem keeps_disk (hj : j = CLOCK ∨ j = PRINTER)
    (hd : k.busyMap FLOPPY = false ∧ k.busyMap WINI = false)
    (hi : i ∈ [FLOPPY, WINI, TTY, PRINTER]) (hb : k.busyMap i = true)
    (hm : messOf k.vars i = messOf k.vars j) : mType i = mType j := by
  have hint : messOf k.vars j = k.vars.intMess := by
    rcases hj with rfl | rfl <;> rfl
  have htype : mType j = 2 := by
    rcases hj with rfl | rfl <;> rfl
  simp only [List.mem_cons, List.not_mem_nil, or_false] at hi
  rcases hi with rfl | rfl | rfl | rfl
  · rw [hd.1] at hb
    cases hb
  · rw [hd.2] at hb
    cases hb
  · exact absurd (hint.symm.trans hm.symm) (intMess_ne_keybdMess k.vars)
  · rw [htype]
    rfl

/-- A message for another task is built while the printer task is not marked there. -/
theorem keeps_printer (hj : mType j = 1)
    (hp : messOf k.vars PRINTER = messOf k.vars j → k.busyMap PRINTER = false)
    (hi : i ∈ [FLOPPY, WINI, TTY, PRINTER]) (hb : k.busyMap i = true)
    (hm : messOf k.vars i = messOf k.vars j) : mType i = mType j := by
  simp only [List.mem_cons, List.not_mem_nil, or_false] at hi
  rw [hj]
  rcases hi with rfl | rfl | rfl | rfl
  · rfl
  · rfl
  · rfl
  · rw [hp hm] at hb
    cases hb

/-- A handler does nothing, or it builds and sends a message with its own fields. -/
theorem handle_cases {q : Irq} (h : handle k q = some k') : k' = k ∨ ∃ j extra,
    j ∈ [CLOCK, FLOPPY, WINI, TTY, PRINTER] ∧ OwnFields j extra ∧
      (KeepsIntMess k (.irq q) → ∀ i ∈ [FLOPPY, WINI, TTY, PRINTER], k.busyMap i = true →
        messOf k.vars i = messOf k.vars j → mType i = mType j) ∧
      raise k j (messOf k.vars j) ((M_TYPE, mType j) :: extra) = some k' := by
  cases q with
  | clock => exact Or.inr ⟨CLOCK, [], by decide, ownFields_nil _,
      fun hk i hi => keeps_disk (Or.inl rfl) hk hi, h⟩
  | floppy => exact Or.inr ⟨FLOPPY, [], by decide, ownFields_nil _,
      fun hk i hi => keeps_printer rfl (fun _ => hk) hi, h⟩
  | wini => exact Or.inr ⟨WINI, [], by decide, ownFields_nil _,
      fun hk i hi => keeps_printer rfl (fun _ => hk) hi, h⟩
  | keyboard b =>
    change keyboard k b = some k' at h
    unfold keyboard at h
    split at h
    · exact Or.inl (Option.some.inj h).symm
    · split at h
      · cases h
      · split at h
        · refine Or.inr ⟨TTY, _, by decide, ownFields_tty b.driverBuf, fun _ i hi => ?_, h⟩
          exact keeps_printer rfl (fun e => absurd e (intMess_ne_keybdMess k.vars)) hi
        · exact Or.inl (Option.some.inj h).symm
  | printer prBusy pcount status =>
    change prChar k prBusy pcount status = some k' at h
    unfold prChar at h
    split at h
    · exact Or.inl (Option.some.inj h).symm
    · rename_i hbusy
      split at h
      · exact Or.inl (Option.some.inj h).symm
      · rename_i r hr
        refine Or.inr ⟨PRINTER, _, by decide, ownFields_printer r, fun hk i hi => ?_, h⟩
        refine keeps_disk (Or.inr rfl) (hk ?_ (by rw [hr]; rfl)) hi
        simpa using hbusy

/-- Every entry leaves the messages that are kept. -/
theorem Pending.enter {e : Entry} (h : Pending k Marked) (hg : EntersAsIssued k e)
    (hk : KeepsIntMess k e) (he : enter k e = some k') : Pending k' Marked := by
  cases e with
  | call c =>
    obtain ⟨W, hl⟩ := h.linked
    refine h.aside (perform_aside hl hg.1 hg.2 he) (hl.perform hg.2 ?_ he)
    cases c with
    | fork k1 k2 pid => exact hg.1.elim
    | _ => trivial
  | irq q =>
    rcases handle_cases he with rfl | ⟨j, extra, hj, hextra, hkeep, hr⟩
    · exact h
    · apply h.raise hj hextra _ hr
      intro i hi hb hm
      have hrec := h.recorded i hi
      unfold Recorded at hrec
      rw [if_pos hb] at hrec
      exact hkeep hk i hrec.1 hb hm

/-- Nothing is kept at the start. -/
theorem Pending.started (h : Started k) : Pending k Marked := by
  obtain ⟨vars, base, sizes, mem, rfl⟩ := h
  exact ⟨⟨_, Linked.main vars base sizes mem⟩, trivial, rfl, fun i _ => recorded_of_clear rfl rfl⟩

/-- In every run in which no handler builds its message over one of another type that a task is
still owed, the tasks get the messages of their own interrupts, each once, and a task that has not
got its message is marked with it. -/
theorem interrupt_messages
    (hr : Reach enter (fun k e => EntersAsIssued k e ∧ KeepsIntMess k e) Started k) :
    Carried k.log ∧ ∀ i, Marked i → Recorded k i := by
  have h : Pending k Marked := by
    refine hr.invariant (fun k => Pending k Marked) (fun k => Pending.started) ?_
    rintro k e k' h ⟨hg, hk⟩ he
    exact h.enter hg hk he
  exact ⟨h.carried, h.recorded⟩

section Example

instance : (c : Call) → Decidable (IsOrdinary c)
  | .sysCall _ _ _ _ => .isTrue trivial
  | .sched => .isTrue trivial
  | .causeSig _ _ => .isTrue trivial
  | .inform => .isTrue trivial
  | .store _ _ _ => .isTrue trivial
  | .interrupt _ _ => .isFalse id
  | .fork _ _ _ => .isFalse id
  | .newmap _ _ => .isFalse id
  | .exec _ _ => .isFalse id
  | .xit _ _ => .isFalse id

instance (k : State) : (e : Entry) → Decidable (EntersAsIssued k e)
  | .call c => inferInstanceAs (Decidable (IsOrdinary c ∧ AsIssued k c))
  | .irq _ => .isTrue trivial

instance (k : State) : (e : Entry) → Decidable (KeepsIntMess k e)
  | .call _ => .isTrue trivial
  | .irq .clock => inferInstanceAs (Decidable (_ ∧ _))
  | .irq .floppy => inferInstanceAs (Decidable (_ = false))
  | .irq .wini => inferInstanceAs (Decidable (_ = false))
  | .irq (.keyboard _) => .isTrue trivial
  | .irq (.printer prBusy pcount status) => inferInstanceAs (Decidable (prBusy = true →
    (prLoop status pcount).isSome → k.busyMap FLOPPY = false ∧ k.busyMap WINI = false))

/-- The printer task works on a request of FS when the printer has finished a job. -/
def printerBusy : List Entry :=
  ([.sysCall RECEIVE 0 ANY 100, .sysCall RECEIVE 1 ANY 100, .sysCall RECEIVE 2 ANY 100,
    .sysCall RECEIVE 3 (-1) 100, .sysCall RECEIVE 4 ANY 100, .sysCall RECEIVE 5 ANY 100,
    .sysCall RECEIVE 6 ANY 100, .sysCall RECEIVE MM ANY 100, .sysCall SEND FS (-8) 100,
    .sysCall RECEIVE FS ANY 100].map Entry.call) ++
  [.irq (.printer true 0 fun _ => 0), .call (.sysCall SEND 0 1 100),
    .call (.sysCall RECEIVE 0 ANY 100)]

/-- The printer task is busy when its interrupt comes, and then the clock and the disk interrupt. -/
theorem interrupt_messages_example :
    ∃ k, run enter (fun k e => EntersAsIssued k e ∧ KeepsIntMess k e) exampleStart
      (printerBusy ++ [.irq .clock, .irq .floppy]) = some k ∧ Carried k.log := by
  obtain ⟨k, hk⟩ := Option.isSome_iff_exists.mp (show (run enter
    (fun k e => EntersAsIssued k e ∧ KeepsIntMess k e) exampleStart
      (printerBusy ++ [.irq .clock, .irq .floppy])).isSome = true by decide +kernel)
  exact ⟨k, hk, (interrupt_messages (.of_run (.init exampleStart_started) hk)).1⟩

/-- The last message that the printer task got is not of the type of its interrupt. -/
def misled : List Event → Bool
  | .deliver src dst _ m _ :: log => src = HARDWARE ∧ dst = taskSlot PRINTER ∧
    (owed log PRINTER).any fun m' => m 2 ≠ m' 2
  | _ => false

/-- When all messages are carried, no task is misled. -/
theorem Carried.not_misled {log : List Event} (h : Carried log) : ¬misled log = true := by
  intro hm
  cases log with
  | nil => cases hm
  | cons e log =>
    cases e with
    | deliver src dst buf m any =>
      obtain ⟨hs, hd, hm⟩ := of_decide_eq_true hm
      obtain ⟨m', ho, hsame⟩ := h.1 PRINTER (by decide) hs hd
      rw [ho, Option.any_some, decide_eq_true_eq] at hm
      exact hm (hsame 2 (Or.inl rfl))
    | _ => cases hm

/-- The message of the printer is still owed to its task when a floppy interrupt comes: the task
gets the type of the message for the floppy task. -/
theorem interrupt_messages_shared :
    ¬∀ k, Reach enter EntersAsIssued Started k → Carried k.log := by
  intro hall
  have hrun : (run enter EntersAsIssued exampleStart (printerBusy ++ [.irq .floppy])).any
      (fun k => misled k.log) = true := by decide +kernel
  obtain ⟨k, hk, hm⟩ := (Option.any_eq_true _ _).mp hrun
  exact (hall k (.of_run (.init exampleStart_started) hk)).not_misled hm

end Example

end Minix.Kernel
