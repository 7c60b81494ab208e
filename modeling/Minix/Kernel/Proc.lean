import Minix.Kernel.Callers

/-!
# Messages between processes

Sending and receiving, with the queue of the processes that wait to send to a process
threaded through `p_sendlink`, and the delivery of interrupts. Every process has a data
space of its own. The space of `HARDWARE` holds the messages that the kernel itself
builds; the stack and the buffers of a task count as the task's own space.

A call has no result when it panics, follows links for ever, or leaves the process table.
-/

namespace Minix.Kernel

open Intrusive Function

/-- A SEND, a RECEIVE, and both in one call. -/
abbrev SEND : Nat := 1
abbrev RECEIVE : Nat := 2
abbrev BOTH : Nat := 3

/-- The file system. -/
abbrev FS : Slot := 9

abbrev OK : Int := 0

/-- destination address illegal -/
abbrev E_BAD_DEST : Int := -1

/-- source address illegal -/
abbrev E_BAD_SRC : Int := -2

/-- interrupt for task that is not waiting -/
abbrev E_OVERRUN : Int := -4

/-- ordinary users can't send to tasks -/
abbrev E_NO_PERM : Int := -8

/-- bad address given to utility routine -/
abbrev E_BAD_ADDR : Int := -10

/-- The bits of `p_flags`. -/
structure PFlags where
  /-- set when slot is not in use -/
  slotFree : Bool
  /-- keeps unmapped forked child from running -/
  noMap : Bool
  /-- set when process blocked trying to send -/
  sending : Bool
  /-- set when process blocked trying to recv -/
  receiving : Bool
  deriving DecidableEq

/-- No bit is set: the process is runnable. -/
def PFlags.clear : PFlags := ⟨false, false, false, false⟩

/-- The flags of a free slot. -/
def PFlags.free : PFlags := ⟨true, false, false, false⟩

/-- A segment of a process, in clicks. -/
structure MemMap where
  memVir : Nat
  memPhys : Nat
  memLen : Nat
  deriving DecidableEq

/-- The segments of a process. -/
structure ProcMap where
  t : MemMap
  d : MemMap
  s : MemMap
  deriving DecidableEq

/-- What the kernel keeps of a process for the machine and for accounting. -/
structure ProcData where
  retReg : Int
  csReg : Nat
  dsReg : Nat
  ssReg : Nat
  esReg : Nat
  sp : Nat
  pc : Nat
  pid : Int
  userTime : Int
  sysTime : Int
  childUtime : Int
  childStime : Int
  alarm : Int
  deriving DecidableEq

/-- `sizeof(message)`. -/
abbrev MESS_SIZE : Nat := 24

/-- The bytes of a message: two of `m_source`, two of `m_type`, and the union. -/
abbrev Message : Type := Fin MESS_SIZE → UInt8

/-- The data space of every process. -/
abbrev Memory : Type := Slot → Nat → UInt8

/-- The message at an address. -/
def readMess (mem : Memory) (rp : Slot) (a : Nat) : Message := fun i => mem rp (a + i)

/-- Store a message at an address. -/
def storeMess (mem : Memory) (rp : Slot) (a : Nat) (m : Message) : Memory :=
  update mem rp fun x =>
    if h : a ≤ x ∧ x < a + MESS_SIZE then m ⟨x - a, by omega⟩ else mem rp x

/-- The bytes of a 16-bit integer. -/
def loByte (n : Int) : UInt8 := UInt8.ofNat (n % 256).toNat
def hiByte (n : Int) : UInt8 := UInt8.ofNat (n / 256 % 256).toNat

/-- Store a 16-bit integer at an address. -/
def storeWord (mem : Memory) (rp : Slot) (a : Nat) (n : Int) : Memory :=
  update mem rp (update (update (mem rp) a (loByte n)) (a + 1) (hiByte n))

/-- The message with the number of its sender in `m_source`. -/
def withSource (src : Int) (m : Message) : Message :=
  update (update m 0 (loByte src)) 1 (hiByte src)

/-- Where `m_type` and the words behind it lie in a message. -/
abbrev M_TYPE : Nat := 2
abbrev M_I1 : Nat := 4
abbrev M_I2 : Nat := 6

/-- What happens to messages: one is accepted from a sender, one is delivered, with the mark
whether the receiver takes messages from anybody, a process is removed, and an interrupt occurs
with a message for a task. -/
inductive Event where
  | accept (src dst : Slot) (buf : Nat) (m : Message)
  | deliver (src dst : Slot) (buf : Nat) (m : Message) (any : Bool)
  | exit (rc : Slot)
  | irq (task : Fin (NR_TASKS + 1)) (m : Message)
  deriving DecidableEq

/-- The addresses of the messages that the kernel builds in its own data: `int_mess`, the one of
the keyboard, and the `m` of the system task. The linker puts them apart. -/
structure KernelVars where
  intMess : Nat
  keybdMess : Nat
  sysMess : Nat
  int_fits : intMess + MESS_SIZE ≤ 65536
  keybd_fits : keybdMess + MESS_SIZE ≤ 65536
  int_keybd : intMess + MESS_SIZE ≤ keybdMess ∨ keybdMess + MESS_SIZE ≤ intMess
  int_sys : intMess + MESS_SIZE ≤ sysMess ∨ sysMess + MESS_SIZE ≤ intMess
  keybd_sys : keybdMess + MESS_SIZE ≤ sysMess ∨ sysMess + MESS_SIZE ≤ keybdMess

/-- The variables of the kernel. -/
structure State where
  sched : Sched
  data : Slot → ProcData
  pFlags : Slot → PFlags
  pMap : Slot → ProcMap
  callers : Callers
  /-- pointer to message buffer -/
  pMessbuf : Slot → Nat
  /-- from whom does process want to receive? -/
  pGetfrom : Slot → Int
  /-- bit map for pending signals 1-16 -/
  pPending : Slot → Nat
  /-- number of procs with p_pending != 0 -/
  sigProcs : Int
  /-- bit map of busy tasks -/
  busyMap : Fin (NR_TASKS + 1) → Bool
  /-- ptrs to messages for busy tasks -/
  taskMess : Fin (NR_TASKS + 1) → Nat
  /-- incremented when clock int can't send mess -/
  lostTicks : Int
  vars : KernelVars
  mem : Memory
  /-- the messages so far, the latest first; the code does not look at it -/
  log : List Event

/-- `proc_addr(n)`, for the numbers that have a slot. -/
def procAddr (n : Int) : Option Slot :=
  if h : 0 ≤ n + NR_TASKS ∧ n + NR_TASKS < (NR_TASKS + NR_PROCS : Nat) then
    some ⟨(n + NR_TASKS).toNat, by omega⟩
  else none

/-- `if (rp->p_flags == 0) ready(rp)`. -/
def wake (k : State) (rp : Slot) : State :=
  if k.pFlags rp = .clear then { k with sched := ready k.sched rp } else k

/-- A message that wraps around top of memory or lies outside data seg. -/
def badAddr (d : MemMap) (vb : Nat) : Bool :=
  let vlo := vb / 16
  let vhi := (vb + MESS_SIZE - 1) % 65536 / 16
  vhi < vlo || d.memLen ≤ (vhi + 65536 - d.memVir % 65536) % 65536

/-- The process takes a message from `caller`. -/
def waitsFor (k : State) (rp caller : Slot) : Bool :=
  (k.pFlags rp).receiving && accepts (k.pGetfrom rp) caller

/-- Record that a message has been accepted from `caller`. -/
def logAccept (k : State) (caller dest : Slot) (mPtr : Nat) : State :=
  { k with log := .accept caller dest mPtr (readMess k.mem caller mPtr) :: k.log }

/-- `cp_mess`: copy the message at `srcBuf` of `src` to `dstBuf` of `dst`, with its source. -/
def cpMess (k : State) (src : Slot) (srcBuf : Nat) (dst : Slot) (dstBuf : Nat) (any : Bool) :
    State :=
  let m := withSource (procNr src) (readMess k.mem src srcBuf)
  { k with
    mem := storeMess k.mem dst dstBuf m
    log := .deliver src dst dstBuf m any :: k.log }

/-- Deblock a process that was trying to send. -/
def endSend (k : State) (rp : Slot) : State :=
  wake { k with pFlags := update k.pFlags rp { k.pFlags rp with sending := false } } rp

/-- Deblock a process that was trying to receive. -/
def endReceive (k : State) (rp : Slot) : State :=
  wake { k with pFlags := update k.pFlags rp { k.pFlags rp with receiving := false } } rp

/-- The destination is waiting: copy the message and deblock it. -/
def deliver (k : State) (caller dest : Slot) (mPtr : Nat) : State :=
  endReceive (cpMess (logAccept k caller dest mPtr) caller mPtr dest (k.pMessbuf dest)
    (k.pGetfrom dest == ANY)) dest

/-- A process that is blocked sending from `mPtr`, with the queues that it has left and entered. -/
def startSend (k : State) (caller : Slot) (mPtr : Nat) (s : Sched) (c : Callers) : State :=
  { k with
    pMessbuf := update k.pMessbuf caller mPtr
    pFlags := update k.pFlags caller { k.pFlags caller with sending := true }
    sched := s
    callers := c }

/-- The destination is not waiting: block the caller and queue it. -/
def block (k : State) (caller dest : Slot) (mPtr : Nat) : Option State := do
  let s ← unready k.sched caller
  let c ← enqueue k.callers caller dest
  return startSend (logAccept k caller dest mPtr) caller mPtr s c

/-- Send a message from `caller` to `dest`. -/
def miniSend (k : State) (caller : Slot) (dest : Int) (mPtr : Nat) : Option (Int × State) :=
  -- user processes are only allowed to send to FS and MM
  if procNr caller ≥ LOW_USER ∧ dest ≠ procNr FS ∧ dest ≠ procNr MM then some (E_BAD_DEST, k)
  else match procAddr dest with
    | none => none
    | some destPtr =>
      if (k.pFlags destPtr).slotFree then some (E_BAD_DEST, k)
      else if badAddr (k.pMap caller).d mPtr then some (E_BAD_ADDR, k)
      else if waitsFor k destPtr caller then some (OK, deliver k caller destPtr mPtr)
      else if caller = HARDWARE then some (E_OVERRUN, k)
      else (block k caller destPtr mPtr).map fun k => (OK, k)

/-- fcn code for the message to MM about signals -/
abbrev KSIG : Int := 64

/-- Build the message about the pending signals of a process. -/
def buildKsig (k : State) (rp : Slot) : State :=
  let m := k.vars.sysMess
  let mem := storeWord k.mem HARDWARE (m + M_TYPE) KSIG
  let mem := storeWord mem HARDWARE (m + M_I1) (procNr rp)
  { k with mem := storeWord mem HARDWARE (m + M_I2) (k.pPending rp), sigProcs := k.sigProcs - 1 }

/-- MM is waiting for new input: tell it about a process with pending signals. -/
def tellMM (k : State) (mmp rp : Slot) : Option State :=
  match miniSend (buildKsig k rp) HARDWARE (procNr mmp) k.vars.sysMess with
  | some (0, k) => some { k with pPending := update k.pPending rp 0 }
  | _ => none -- panic: "can't inform MM"

/-- Find a process with pending signals, if MM is waiting for new input. -/
def inform (k : State) (mmp : Slot) : Option State :=
  if ¬(k.pFlags mmp).receiving ∨ k.pGetfrom mmp ≠ ANY then some k
  else match (List.finRange (NR_TASKS + NR_PROCS)).find?
      (fun rp => procNr rp ≥ 0 ∧ k.pPending rp ≠ 0) with
    | none => some k
    | some rp => tellMM k mmp rp

/-- The caller takes the message of `sender` from its queue, and the sender is deblocked. -/
def acquire (k : State) (caller : Slot) (prevPtr : Option Slot) (sender : Slot) (mPtr : Nat)
    (any : Bool) : State :=
  let k := endSend (cpMess k sender (k.pMessbuf sender) caller mPtr any) sender
  { k with callers := takeSender k.callers caller prevPtr sender }

/-- A process that is blocked receiving from `src` into `mPtr`, with the ready lists that it has
left. -/
def startReceive (k : State) (caller : Slot) (src : Int) (mPtr : Nat) (s : Sched) : State :=
  { k with
    pGetfrom := update k.pGetfrom caller src
    pMessbuf := update k.pMessbuf caller mPtr
    pFlags := update k.pFlags caller { k.pFlags caller with receiving := true }
    sched := s }

/-- No suitable message is available: block the process trying to receive. -/
def await (k : State) (caller : Slot) (src : Int) (mPtr : Nat) : Option State :=
  (unready k.sched caller).map (startReceive k caller src mPtr)

/-- If MM has just blocked, now is the time to tell it about pending signals. -/
def informBlocked (k : State) (caller : Slot) (src : Int) : Option State :=
  if k.sigProcs > 0 ∧ caller = MM ∧ src = ANY then inform k MM else some k

/-- A process or task wants to get a message. -/
def miniRec (k : State) (caller : Slot) (src : Int) (mPtr : Nat) : Option (Int × State) :=
  match findSender k.callers caller src with
  | none => none
  | some (prevPtr, some sender) => some (OK, acquire k caller prevPtr sender mPtr (src == ANY))
  | some (_, none) => do
    let k ← await k caller src mPtr
    let k ← informBlocked k caller src
    return (OK, k)

/-- `rp->p_reg[RET_REG] = n`. -/
def setRet (k : State) (rp : Slot) (n : Int) : State :=
  { k with data := update k.data rp { k.data rp with retReg := n } }

/-- The SEND half of a call: the result is known to the caller at once when the call ends here. -/
def sendHalf (k : State) (function : Nat) (caller : Slot) (srcDest : Int) (mPtr : Nat) :
    Option (Int × State) :=
  if function &&& SEND ≠ 0 then
    (miniSend k caller srcDest mPtr).map fun (n, k) =>
      (n, if function = SEND ∨ n ≠ OK then setRet k caller n else k)
  else some (OK, k)

/-- The system call of MINIX: send or receive a message, or both. -/
def sysCall (k : State) (function : Nat) (caller : Slot) (srcDest : Int) (mPtr : Nat) :
    Option State :=
  if srcDest < -NR_TASKS ∨ srcDest ≥ NR_PROCS ∧ srcDest ≠ ANY then
    some (setRet k caller E_BAD_SRC)
  else if function ≠ BOTH ∧ procNr caller ≥ LOW_USER then
    some (setRet k caller E_NO_PERM) -- users only do BOTH
  else match sendHalf k function caller srcDest mPtr with
    | none => none
    | some (n, k) =>
      if n ≠ OK then some k -- SEND failed
      else if function &&& RECEIVE ≠ 0 then
        (miniRec k caller srcDest mPtr).map fun (n, k) => setRet k caller n
      else some k

/-- The slot of the task with number `-i`. -/
def taskSlot (i : Fin (NR_TASKS + 1)) : Slot := ⟨NR_TASKS - i.val, by have := i.isLt; change 8 - i.val < 24; omega⟩

/-- The number of the clock task, without its sign. -/
abbrev CLOCK : Fin (NR_TASKS + 1) := 3

/-- Offer the pending interrupts of the tasks in the list, as far as they were pending in
`oldMap`. -/
def retryBusy (oldMap : Fin (NR_TASKS + 1) → Bool) :
    List (Fin (NR_TASKS + 1)) → State → Option State
  | [], k => some k
  | i :: l, k =>
    if oldMap i then
      match miniSend k HARDWARE (-(i : Nat)) (k.taskMess i) with
      | none => none
      | some (n, k) =>
        retryBusy oldMap l (if n = OK then { k with busyMap := update k.busyMap i false } else k)
    else retryBusy oldMap l k

/-- Send the interrupt message to the task, or note that it is pending. The map returned tells
which tasks may have become ready to listen. -/
def offerInterrupt (k : State) (i : Fin (NR_TASKS + 1)) (mPtr : Nat) :
    Option ((Fin (NR_TASKS + 1) → Bool) × State) :=
  match miniSend k HARDWARE (-(i : Nat)) mPtr with
  | none => none
  | some (n, k) =>
    if n ≠ OK then
      -- the task was not waiting
      if i = CLOCK then some (k.busyMap, { k with lostTicks := Int.bmod (k.lostTicks + 1) 65536 })
      else some (k.busyMap, { k with
        busyMap := update k.busyMap i true, taskMess := update k.taskMess i mPtr })
    else some (update k.busyMap i false, { k with busyMap := update k.busyMap i false })

/-- Record that an interrupt for a task has occurred. -/
def logIrq (k : State) (i : Fin (NR_TASKS + 1)) (mPtr : Nat) : State :=
  { k with log := .irq i (readMess k.mem HARDWARE mPtr) :: k.log }

/-- An interrupt has occurred. Schedule the task with number `-i` that handles it. -/
def interrupt (k : State) (i : Fin (NR_TASKS + 1)) (mPtr : Nat) : Option State := do
  let (oldMap, k) ← offerInterrupt (logIrq k i mPtr) i mPtr
  let k ← retryBusy oldMap [2, 3, 4, 5, 6, 7, 8] k
  -- if a task has just been readied and a user is running, run the task
  return if k.sched.rdyHead .TASK_Q ≠ none ∧ (k.sched.curProc ≥ 0 ∨ k.sched.curProc = IDLE) then
    { k with sched := pickProc k.sched } else k

end Minix.Kernel
