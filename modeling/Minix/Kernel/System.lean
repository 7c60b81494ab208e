import Minix.Kernel.Proc

/-!
# The system task and the start of the kernel

The calls by which the memory manager tells the kernel about a new process, its memory
map, an EXEC and an exit, the signals that tasks cause, and the process table as `main`
sets it up.

The memory map of SYS_NEWMAP is an argument here; the code fetches it from the space of
the caller.
-/

namespace Minix.Kernel

open Intrusive Function

/-- process number is out of range -/
abbrev E_BAD_PROC : Int := -11

/-- The numbers that the system task accepts. -/
def badProc (k : Int) : Prop := k < 0 ∨ k ≥ NR_PROCS

instance (k : Int) : Decidable (badProc k) := inferInstanceAs (Decidable (_ ∨ _))

/-- Copy parent 'proc' struct to child. -/
def copyProc (k : State) (parent child : Slot) : State :=
  { k with
    sched := { k.sched with
      pNextready := update k.sched.pNextready child (k.sched.pNextready parent) }
    data := update k.data child (k.data parent)
    pFlags := update k.pFlags child (k.pFlags parent)
    pMap := update k.pMap child (k.pMap parent)
    callers := copyCallers k.callers parent child
    pMessbuf := update k.pMessbuf child (k.pMessbuf parent)
    pGetfrom := update k.pGetfrom child (k.pGetfrom parent)
    pPending := update k.pPending child (k.pPending parent) }

/-- Inhibit the process from running, install the child's pid, and set all the accounting times
to 0. The child sees pid = 0 to know it is child. -/
def forked (k : State) (rpc : Slot) (pid : Int) : State :=
  { k with
    pFlags := update k.pFlags rpc { k.pFlags rpc with noMap := true }
    data := update k.data rpc { k.data rpc with
      pid := pid, retReg := 0, userTime := 0, sysTime := 0, childUtime := 0, childStime := 0 } }

/-- `sys_fork()`. 'k1' has forked. The child is 'k2'. -/
def doFork (k : State) (k1 k2 pid : Int) : Option (Int × State) :=
  if badProc k1 ∨ badProc k2 then some (E_BAD_PROC, k)
  else match procAddr k1, procAddr k2 with
    | some parent, some rpc =>
      some (OK, forked (copyProc k parent rpc) rpc pid)
    | _, _ => none

/-- The new map, the segment registers that follow it, and the flag that waits for it. -/
def mapped (k : State) (rp : Slot) (map : ProcMap) : State :=
  { k with
    pMap := update k.pMap rp map
    data := update k.data rp { k.data rp with
      csReg := map.t.memPhys, dsReg := map.d.memPhys
      ssReg := map.d.memPhys, esReg := map.d.memPhys }
    pFlags := update k.pFlags rp { k.pFlags rp with noMap := false } }

/-- `sys_newmap()`. Process 'n' gets the memory map. -/
def doNewmap (k : State) (n : Int) (map : ProcMap) : Option (Int × State) :=
  if n < -NR_TASKS ∨ n ≥ NR_PROCS then some (E_BAD_PROC, k)
  else match procAddr n with
    | none => none
    | some rp =>
      let oldFlags := k.pFlags rp
      let k := mapped k rp map
      some (OK, if oldFlags ≠ .clear then wake k rp else k)

/-- The registers of a new program. -/
def resetProc (k : State) (rp : Slot) (sp : Nat) : State :=
  { k with data := update k.data rp { k.data rp with sp := sp, pc := 0, alarm := 0 } }

/-- `sys_exec()`. A process has done a successful EXEC. Patch it up. -/
def doExec (k : State) (n : Int) (sp : Nat) : Option (Int × State) :=
  if badProc n then some (E_BAD_PROC, k)
  else match procAddr n with
    | none => none
    | some rp =>
      -- MM does not reply to EXEC call
      some (OK, endReceive (resetProc k rp sp) rp)

/-- The parent inherits the times of its child. -/
def accumTimes (k : State) (rp rc : Slot) : State :=
  let d := k.data
  { k with data := update d rp { d rp with
      childUtime := (d rp).childUtime + ((d rc).userTime + (d rc).childUtime)
      childStime := (d rp).childStime + ((d rc).sysTime + (d rc).childStime) } }

/-- Take the exiting process off the queue it is on, if it was trying to send. -/
def unqueue (k : State) (rc : Slot) : Option Callers :=
  if (k.pFlags rc).sending then dropSender rc (List.finRange (NR_TASKS + NR_PROCS)) k.callers
  else some k.callers

/-- The slot of `rc` is free, with the queues that it has left. -/
def freeSlot (k : State) (rc : Slot) (s : Sched) (c : Callers) : State :=
  { k with
    sched := s
    callers := c
    data := update k.data rc { k.data rc with alarm := 0 }
    pFlags := update k.pFlags rc .free
    log := .exit rc :: k.log }

/-- `rc` leaves the kernel. -/
def removeProc (k : State) (rc : Slot) : Option State := do
  let s ← unready k.sched rc
  let c ← unqueue k rc
  return freeSlot k rc s c

/-- `sys_xit()`. A process has exited. -/
def doXit (k : State) (parent proc : Int) : Option (Int × State) :=
  if badProc parent ∨ badProc proc then some (E_BAD_PROC, k)
  else match procAddr parent, procAddr proc with
    | some rp, some rc =>
      (removeProc (accumTimes k rp rc) rc).map fun k => (OK, k)
    | _, _ => none

/-- Note the signal, and count the process if it had none pending. -/
def addSignal (k : State) (rp : Slot) (sigNr : Nat) : State :=
  { k with
    sigProcs := if k.pPending rp = 0 then k.sigProcs + 1 else k.sigProcs
    pPending := update k.pPending rp (k.pPending rp ||| 1 <<< (sigNr - 1)) }

/-- A task wants to send a signal to a process. -/
def causeSig (k : State) (n : Int) (sigNr : Nat) : Option State :=
  match procAddr n with
  | none => none
  | some rp => inform (addSignal k rp sigNr) MM

/-- The first user process. -/
abbrev INIT_PROC_NR : Int := 2

/-- must be bigger than kernel size (clicks) -/
abbrev VERY_BIG : Nat := 39328

/-- The program of a task is missing only for the hardware. -/
def startReady (rp : Slot) : Bool := rp ≠ HARDWARE && procNr rp ≤ INIT_PROC_NR

/-- Where the program number `t` of MM, FS and INIT starts: the kernel and the programs before it
lie end to end. -/
def textBase (base : Nat) (sizes : Nat → Nat) : Nat → Nat
  | 0 => base + sizes 0 + sizes 1
  | t + 1 => textBase base sizes t + sizes (2 * t + 2) + sizes (2 * t + 3)

/-- The memory maps at the start, from the sizes in clicks that `build` has filled in. -/
def startMap (base : Nat) (sizes : Nat → Nat) (rp : Slot) : ProcMap :=
  if procNr rp < 0 then
    { t := ⟨0, base, VERY_BIG⟩
      d := ⟨0, base + sizes 0, VERY_BIG⟩
      s := ⟨sizes 0 + sizes 1, base + sizes 0 + sizes 1, VERY_BIG⟩ }
  else if procNr rp ≤ INIT_PROC_NR then
    let t := rp.val - NR_TASKS
    let phys := textBase base sizes t
    { t := ⟨0, phys, sizes (2 * t + 2)⟩
      d := ⟨0, phys + sizes (2 * t + 2), sizes (2 * t + 3)⟩
      s := ⟨sizes (2 * t + 3), phys + sizes (2 * t + 2) + sizes (2 * t + 3), 0⟩ }
  else ⟨⟨0, 0, 0⟩, ⟨0, 0, 0⟩, ⟨0, 0, 0⟩⟩

/-- The ready lists before anybody is ready. -/
def emptySched : Sched where
  pNextready := fun _ => none
  rdyHead := fun _ => none
  rdyTail := fun _ => none
  curProc := 0
  prevProc := 0
  procPtr := HARDWARE
  billPtr := HARDWARE

/-- The process table that `main` sets up, before the first process is picked. -/
def mainTable (vars : KernelVars) (base : Nat) (sizes : Nat → Nat) (mem : Memory) : State where
  sched := ((List.finRange (NR_TASKS + NR_PROCS)).filter startReady).foldl ready emptySched
  data := fun _ => ⟨0, 0, 0, 0, 0, 0, 0, 0, 0, 0, 0, 0, 0⟩
  pFlags := fun rp => if procNr rp ≤ INIT_PROC_NR then .clear else .free
  pMap := startMap base sizes
  callers := ⟨fun _ => none, fun _ => none⟩
  pMessbuf := fun _ => 0
  pGetfrom := fun _ => 0
  pPending := fun _ => 0
  sigProcs := 0
  busyMap := fun _ => false
  taskMess := fun _ => 0
  lostTicks := 0
  vars := vars
  mem := mem
  log := []

/-- `main`. -/
def main (vars : KernelVars) (base : Nat) (sizes : Nat → Nat) (mem : Memory) : State :=
  let k := mainTable vars base sizes mem
  { k with sched := pickProc k.sched }

end Minix.Kernel
