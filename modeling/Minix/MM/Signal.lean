import Minix.MM.ForkExit

/-!
# Signals

A signal is caught, which may grow the stack, or it terminates its process. One
call may signal many processes, and one that is terminated may take orphans of
others along. What the kernel and the file system answer meanwhile is an input.
-/

namespace Minix.MM

abbrev SIGINT : Nat := 2
abbrev SIGQUIT : Nat := 3
abbrev SIGKILL : Nat := 9
abbrev SIGSEGV : Nat := 11
abbrev SIGALRM : Nat := 14
/-- number of signals used -/
abbrev NR_SIGS : Nat := 16
/-- used by kernel to signal stack fault -/
abbrev STACK_FAULT : Nat := 16

/-- `1 << (sig_nr - 1)`. -/
def sigMask (sigNr : Nat) : BitVec 16 := 1#16 <<< (sigNr - 1)

/-- which signals cause core images -/
def coreBits : BitVec 16 := 0x0EFC

/-- For each signal and process, the stack pointer that `sys_getsp` reports, and whether a core
image can be written. -/
structure Answers where
  sp : Nat → Proc → Nat
  core : Nat → Proc → Bool

/-- The status of a process that a signal terminates; `core` when a core image was dumped. -/
def sigStatus (m : Mproc) (sigNr : Nat) (core : Bool) : BitVec 8 :=
  if coreBits &&& sigMask sigNr ≠ 0 ∧ m.mpRealuid = m.mpEffuid ∧ core
  then BitVec.ofNat 8 sigNr ||| 0x80 else BitVec.ofNat 8 sigNr

/-- Take default action. -/
def sigKill (s : State) (rmp : Proc) (sigNr : Nat) (ans : Answers) : Option State :=
  let s := s.modify rmp fun m => { m with mpSigstatus := sigStatus m sigNr (ans.core sigNr rmp) }
  mmExit (s.noteAct .mmExit rmp) rmp 0

/-- Signal should be caught: disable further signals, and see if the stack can hold the 8 bytes
that the kernel pushes. -/
def catchSig (s : State) (rmp : Proc) (sigNr newSp : Nat) : Int × State :=
  let s := s.modify rmp fun m => { m with mpCatch := m.mpCatch &&& ~~~sigMask sigNr }
  let r := adjust (s.mproc rmp) (s.mproc rmp).segD.memLen (subClicks newSp 8)
  (r.1, (s.noteAct .adjust rmp).modify rmp fun _ => r.2)

/-- Send a signal to a process. If it is not to be caught or the stack cannot grow, kill the
process. -/
def sigProc (s : State) (rmp : Proc) (sigNr : Nat) (ans : Answers) : Option State :=
  if ¬(s.mproc rmp).inUse then some s -- if already dead forget it
  else if (s.mproc rmp).mpCatch &&& sigMask sigNr ≠ 0 then
    let r := catchSig s rmp sigNr (ans.sp sigNr rmp)
    if r.1 = OK then some (r.2.noteAct .sysSig rmp) else sigKill r.2 rmp sigNr ans
  else sigKill s rmp sigNr ans

/-- A process that hangs on PAUSE or WAIT is released from it. -/
def unpause (s : State) (pro : Proc) : State :=
  let m := s.mproc pro
  if m.paused ∧ ¬m.hanging then (s.modify pro fun m => { m with paused := false }).reply pro EINTR 0
  else if m.waiting ∧ ¬m.hanging then
    (s.modify pro fun m => { m with waiting := false }).reply pro EINTR 0
  else s

/-- The arguments of `check_sig`: `proc_id` is a pid, or 0 for the caller's group, or -1. -/
structure SigCall where
  procId : Int
  sigNr : Nat
  sendUid : Nat

/-- Is `rmp` one of the processes to signal? -/
def SigCall.sendSig (c : SigCall) (s : State) (rmp : Proc) : Bool :=
  let m := s.mproc rmp
  (¬(c.sendUid ≠ m.mpEffuid ∧ c.sendUid ≠ SUPER_USER) ∧
      ¬(0 < c.procId ∧ c.procId ≠ m.mpPid) ∧
      ¬m.hanging ∧ -- don't wake the dead
      ¬(c.procId = 0 ∧ (s.mproc s.mp).mpProcgrp ≠ m.mpProcgrp)) ∨
    (c.sendUid = SUPER_USER ∧ c.procId = -1)

/-- SIGALRM is a little special: it is sent only while the timer is on, and turns it off. -/
def timerOff (s : State) (c : SigCall) (rmp : Proc) : State :=
  if c.sigNr = SIGALRM then s.modify rmp fun m => { m with alarmOn := false } else s

/-- Does `check_sig` go past its tests for `rmp`? -/
def SigCall.sends (c : SigCall) (s : State) (rmp : Proc) : Bool :=
  c.sendSig s rmp ∧ (s.mproc rmp).mpIgnore &&& sigMask c.sigNr = 0

/-- The search of the process table for processes to signal, with the number found so far. -/
def signalAll (c : SigCall) (ans : Answers) : List Proc → State × Nat → Option (State × Nat)
  | [], r => some r
  | rmp :: l, (s, count) =>
    if ¬(s.mproc rmp).inUse then signalAll c ans l (s, count)
    else if c.sigNr = SIGALRM ∧ ¬(s.mproc rmp).alarmOn then signalAll c ans l (s, count)
    else if ¬c.sends s rmp then signalAll c ans l (timerOff s c rmp, count)
    else do
      let s ← sigProc (timerOff s c rmp) rmp c.sigNr ans
      let s := unpause s rmp
      if 0 < c.procId then some (s, count + 1) -- only one process being signalled
      else signalAll c ans l (s, count + 1)

/-- The processes that may be signalled. -/
def aboveInit : List Proc := (List.finRange NR_PROCS).drop 3

/-- Check to see if it is possible to send a signal. If the calling process has killed itself,
don't reply. -/
def checkSig (s : State) (c : SigCall) (ans : Answers) : Option (Int × State) :=
  if c.sigNr < 1 ∨ NR_SIGS < c.sigNr then some (EINVAL, s)
  else (signalAll c ans aboveInit (s, 0)).map fun r =>
    let s := if (r.1.mproc r.1.mp).live then r.1 else { r.1 with dontReply := true }
    (if 0 < r.2 then OK else ESRCH, s)

/-- The KILL call. -/
def doKill (s : State) (pid : Int) (killSig : Nat) (ans : Answers) : Option (Int × State) :=
  checkSig s ⟨pid, killSig, (s.mproc s.mp).mpEffuid⟩ ans

/-- Handle a stack fault by growing the stack segment until sp is inside of it. If this is
impossible because data segment is in the way, kill the process. -/
def stackFault (s : State) (procNr : Proc) (ans : Answers) : Option State :=
  let r := adjust (s.mproc procNr) (s.mproc procNr).segD.memLen (ans.sp STACK_FAULT procNr)
  let s := s.modify procNr fun _ => r.2
  if r.1 = OK then some s
  else sigProc (s.modify procNr fun m => { m with mpCatch := 0 }) procNr SIGSEGV ans

/-- One bit of the map of a kernel signal. For SIGINT and SIGQUIT, use `proc_id` 0, since multiple
processes may have to be signalled. -/
def ksigCall (procId i : Nat) : SigCall :=
  ⟨if i + 1 = SIGINT ∨ i + 1 = SIGQUIT then 0 else procId, i + 1, SUPER_USER⟩

/-- One turn of the loop over the bit map. -/
def ksigBit (sigMap : BitVec 16) (procId : Nat) (ans : Answers) (s : State) (i : Nat) :
    Option State :=
  if sigMap.getLsbD i then (checkSig s (ksigCall procId i) ans).map Prod.snd else some s

/-- Accept a signal originating in the kernel or in the file system; `who` is nobody when it is
`HARDWARE`. -/
def doKsig (s : State) (who : Option Proc) (procNr : Proc) (sigMap : BitVec 16) (ans : Answers) :
    Option (Int × State) :=
  if who ≠ none ∧ who ≠ some FS_PROC_NR then some (EPERM, s)
  else if ¬(s.mproc procNr).inUse ∨ (s.mproc procNr).hanging then some (OK, s)
  else
    let procId := (s.mproc procNr).mpPid
    let s := { s with mp := MM_PROC_NR } -- pretend kernel signals are from MM
    if sigMap = sigMask STACK_FAULT then (stackFault s procNr ans).map fun s => (OK, s)
    else ((List.range NR_SIGS).foldlM (ksigBit sigMap procId ans) s).map fun s =>
      (OK, { s with dontReply := true })

/-- What the SIGNAL call asks for. -/
inductive SigFunc where
  | ign
  | dfl
  | func

/-- The signal maps after SIGNAL. -/
def SigFunc.set (f : SigFunc) (mask : BitVec 16) (m : Mproc) : Mproc :=
  match f with
  | .ign => { m with mpIgnore := m.mpIgnore ||| mask, mpCatch := m.mpCatch &&& ~~~mask }
  | .dfl => { m with mpIgnore := m.mpIgnore &&& ~~~mask, mpCatch := m.mpCatch &&& ~~~mask }
  | .func => { m with mpIgnore := m.mpIgnore &&& ~~~mask, mpCatch := m.mpCatch ||| mask }

/-- The SIGNAL call: set bits to indicate that a signal is to be caught or ignored. -/
def doSignal (s : State) (who : Proc) (sig : Nat) (f : SigFunc) : Int × State :=
  if sig < 1 ∨ NR_SIGS < sig then (EINVAL, s)
  else if sig = SIGKILL then (OK, s) -- SIGKILL may not be ignored or caught
  else (OK, s.modify who (f.set (sigMask sig)))

/-- The ALARM call: `left` is what the clock task answers. -/
def doAlarm (s : State) (who : Proc) (sec : Nat) (left : Int) : Int × State :=
  (left, s.modify who fun m => { m with alarmOn := sec ≠ 0 })

/-- The PAUSE call. -/
def doPause (s : State) (who : Proc) : Int × State :=
  (OK, { s.modify who fun m => { m with paused := true } with dontReply := true })

end Minix.MM
