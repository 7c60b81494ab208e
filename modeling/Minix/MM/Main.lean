import Minix.MM.Exec
import Minix.MM.Signal

/-!
# The main loop of the memory manager

A message is a system call of a process, or a signal from the kernel or the file
system. Every call returns a result, and the main loop sends it unless the call
has said otherwise.
-/

namespace Minix.MM

open State

/-- number of system calls allowed -/
abbrev NCALLS : Int := 69

/-- The calls that `do_getset` handles. -/
inductive GetSet where
  | getuid
  | getgid
  | getpid
  | setuid (usrId : Nat)
  | setgid (grpid : Nat)

/-- Handle GETUID, GETGID, GETPID, SETUID, SETGID. -/
def doGetset (s : State) (who : Proc) (c : GetSet) : Int × State :=
  let m := s.mproc who
  match c with
  | .getuid => (m.mpRealuid, { s with result2 := m.mpEffuid })
  | .getgid => (m.mpRealgid, { s with result2 := m.mpEffgid })
  | .getpid => (m.mpPid, { s with result2 := (s.mproc m.mpParent).mpPid })
  | .setuid usrId =>
    if m.mpRealuid ≠ usrId ∧ m.mpEffuid ≠ SUPER_USER then (EPERM, s)
    else (OK, s.modify who fun m => { m with mpRealuid := usrId, mpEffuid := usrId })
  | .setgid grpid =>
    if m.mpRealgid ≠ grpid ∧ m.mpEffuid ≠ SUPER_USER then (EPERM, s)
    else (OK, s.modify who fun m => { m with mpRealgid := grpid, mpEffgid := grpid })

/-- A call of the memory manager; `other` is a call number for which it has no procedure. -/
inductive MMCall where
  | fork
  | exec (a : ExecCall)
  | brk (addr sp : Nat)
  | exit (status : BitVec 8)
  | wait
  | kill (pid : Int) (killSig : Nat) (ans : Answers)
  | signal (sig : Nat) (f : SigFunc)
  | alarm (sec : Nat) (left : Int)
  | pause
  | getset (c : GetSet)
  | ksig (procNr : Proc) (sigMap : BitVec 16) (ans : Answers)
  | other (nr : Int)

/-- `(*call_vec[mm_call])()` for a call of the process `who`. -/
def perform (s : State) (who : Proc) : MMCall → Option (Int × State)
  | .fork => doFork s who
  | .exec a => doExec s who a
  | .brk addr sp => some (doBrk s who addr sp)
  | .exit status => doMmExit s who status
  | .wait => doWait s who
  | .kill pid killSig ans => doKill s pid killSig ans
  | .signal sig f => some (doSignal s who sig f)
  | .alarm sec left => some (doAlarm s who sec left)
  | .pause => some (doPause s who)
  | .getset c => some (doGetset s who c)
  | .ksig procNr sigMap ans => doKsig s (some who) procNr sigMap ans
  | .other nr => some (if nr < 0 ∨ NCALLS ≤ nr then E_BAD_CALL else EINVAL, s)

/-- Is this EXEC? -/
def MMCall.isExec : MMCall → Bool
  | .exec _ => true
  | _ => false

/-- A message that the memory manager receives. For one from `HARDWARE`, `below` is whether the
word before the process table happens to read as the flags of a live process. -/
inductive Request where
  | call (who : Proc) (c : MMCall)
  | hardware (procNr : Proc) (sigMap : BitVec 16) (ans : Answers) (below : Bool)

/-- The end of a turn of the main loop: send the results back to the user to indicate
completion. A process that has gone through EXEC is not answered, it starts anew. -/
def answer (s : State) (who : Proc) (isExec : Bool) (error : Int) : State :=
  if s.dontReply then s
  else if isExec ∧ error = OK then s.setOwed who false
  else s.reply who error s.result2

/-- The end of a turn for a message from `HARDWARE`: `reply` looks at the slot before the first. -/
def answerHardware (s : State) (below : Bool) (error : Int) : State :=
  if s.dontReply ∨ ¬below then s
  else { s with hist.replies := ⟨none, error, s.result2, false⟩ :: s.hist.replies }

/-- Get work and do it. The file system sends its signals without waiting for an answer. -/
def serve (s : State) : Request → Option State
  | .call who c => do
    let s := { s with mp := who, dontReply := false }
    let (error, s) ← perform (if who = FS_PROC_NR then s else s.setOwed who true) who c
    return answer s who c.isExec error
  | .hardware procNr sigMap ans below => do
    let (error, s) ← doKsig { s with dontReply := false } none procNr sigMap ans
    return answerHardware s below error

/-! ## Start of the system -/

/-- The call by which FS reports the size of INIT, and of all that is in memory at the start. -/
structure Boot where
  initText : Nat
  initData : Nat
  tot : Nat
  initOrg : Nat

/-- The hole table as the compiler leaves it. -/
def blankHoles : HoleTable := ⟨fun _ => ⟨0, 0, none⟩, none, none⟩

/-- A slot as the compiler leaves it. -/
def blankSlot : Mproc :=
  ⟨⟨0, 0, 0⟩, ⟨0, 0, 0⟩, ⟨0, 0, 0⟩, 0, 0, 0, MM_PROC_NR, 0, 0, 0, 0, 0, 0, 0,
    false, false, false, false, false, false⟩

/-- Nothing has happened: INIT, FS and MM are there. -/
def blankHistory : History :=
  ⟨fun _ => none, [], 3, fun p => p, fun _ => 0, [], [], [], [], fun _ => false⟩

/-- Initialize the memory manager. -/
def mmInit (t : HoleTable) (totMem : Nat) : State where
  mproc p := { blankSlot with inUse := p ≤ INIT_PROC_NR }
  table := memInit t totMem
  procsInUse := 3
  nextPid := 3
  mp := MM_PROC_NR
  dontReply := false
  result2 := 0
  hist := blankHistory

/-- INIT's table entry. -/
def initSlot (b : Boot) (m : Mproc) : Mproc :=
  let initClicks := addClicks b.initText b.initData
  { m with
    segT.memPhys := b.initOrg
    segT.memLen := b.initText
    segD.memPhys := addClicks b.initOrg b.initText
    segD.memLen := b.initData
    segS.memVir := initClicks
    segS.memPhys := addClicks b.initOrg initClicks
    separate := b.initText ≠ 0 }

/-- Take INIT, the system and the RAM disk out of the memory map. The system stops here when less
than 32K are left over. -/
def doBrk2 (s : State) (totMem : Nat) (b : Boot) : Option State := do
  let ramBase := addClicks b.initOrg (addClicks b.initText b.initData)
  let (_, t) ← allocMem s.table b.tot
  let mem1 := totMem / 64
  let mem2 := addClicks ramBase 32 / 64
  let mem3 := subClicks b.tot ramBase / 64
  if mem1 < mem2 + mem3 + 32 then none
  else some ({ s with table := t }.modify INIT_PROC_NR (initSlot b))

/-- The memory manager once FS has reported. -/
def boot (t : HoleTable) (totMem : Nat) (b : Boot) : Option State := doBrk2 (mmInit t totMem) totMem b

end Minix.MM
