import Mathlib.Data.List.FinRange
import Minix.Lib.Extent
import Minix.MM.Alloc

/-!
# The process table of the memory manager

The table, the variables of the main loop, and a history that the program does
not keep: which process is in a slot, what memory it was given and gave back,
when it terminated, who was told, and which answers were sent.
-/

namespace Minix.MM

open Extents

/-- number of slots in proc table -/
abbrev NR_PROCS : Nat := 16
abbrev SUPER_USER : Nat := 0

/-- A slot of the process table. -/
abbrev Proc : Type := Fin NR_PROCS

/-- process number of memory manager -/
abbrev MM_PROC_NR : Proc := 0
/-- process number of file system -/
abbrev FS_PROC_NR : Proc := 1
/-- init -- the process that goes multiuser -/
abbrev INIT_PROC_NR : Proc := 2

abbrev OK : Int := 0
abbrev EPERM : Int := -1
abbrev ESRCH : Int := -3
abbrev EINTR : Int := -4
abbrev ENOEXEC : Int := -8
abbrev ECHILD : Int := -10
abbrev EAGAIN : Int := -11
abbrev ENOMEM : Int := -12
abbrev EACCES : Int := -13
abbrev EINVAL : Int := -22
abbrev E_BAD_CALL : Int := -102

/-- Subtraction of `vir_clicks` and `phys_clicks`. -/
def subClicks (a b : Nat) : Nat := (a + (65536 - b)) % 65536

/-- A segment: where it lies in virtual and in physical memory, and its length. -/
structure MemMap where
  memVir : Nat
  memPhys : Nat
  memLen : Nat
  deriving DecidableEq

/-- A slot of the process table: `mp_seg[T]`, `mp_seg[D]` and `mp_seg[S]`, the status at exit, the
ids, the signal maps, and the bits of `mp_flags`. -/
structure Mproc where
  segT : MemMap
  segD : MemMap
  segS : MemMap
  mpExitstatus : BitVec 8
  mpSigstatus : BitVec 8
  mpPid : Nat
  mpParent : Proc
  mpProcgrp : Nat
  mpRealuid : Nat
  mpEffuid : Nat
  mpRealgid : Nat
  mpEffgid : Nat
  mpIgnore : BitVec 16
  mpCatch : BitVec 16
  inUse : Bool
  waiting : Bool
  hanging : Bool
  paused : Bool
  alarmOn : Bool
  separate : Bool

namespace Mproc

/-- What WAIT tells a parent about its child. -/
def status (m : Mproc) : Nat := m.mpSigstatus.toNat + 256 * m.mpExitstatus.toNat

/-- A process that has not terminated. -/
def live (m : Mproc) : Bool := m.inUse && !m.hanging

/-- A process that hangs on WAIT or PAUSE. -/
def suspended (m : Mproc) : Bool := m.waiting || m.paused

/-- The size of a core image, as `cleanup` and `new_mem` both work it out. -/
def coreClicks (m : Mproc) : Nat :=
  let s := addClicks m.segS.memVir m.segS.memLen
  if m.separate then addClicks s m.segT.memLen else s

/-- The memory of a process. -/
def region (m : Mproc) : Extent := ⟨m.segT.memPhys, m.coreClicks⟩

end Mproc

/-- A call of `free_mem` by `cleanup` or `new_mem`: for which slot, what was returned, and what
`alloc_mem` had returned for that process. -/
structure Freed where
  proc : Proc
  block : Extent
  held : Option Extent

/-- A run of `mm_exit`: the process and its status. -/
structure Exit where
  born : Nat
  status : Nat

/-- A child that is reaped: the process, the status in the message to its parent, the process that
made it and whether that one has terminated, the slot of its parent and the process there, and
whether the message was sent. -/
structure Reap where
  born : Nat
  status : Nat
  father : Nat
  orphan : Bool
  dest : Proc
  destBorn : Nat
  sent : Bool

/-- What `sig_proc` does to a process. -/
inductive Deed where
  | adjust
  | sysSig
  | mmExit
  deriving DecidableEq

/-- An act of `sig_proc`, and whether its process had not terminated by then. -/
structure Act where
  deed : Deed
  proc : Proc
  live : Bool

/-- A message that `reply` sends, to `HARDWARE` if there is no slot, and whether a process was
waiting for an answer there. -/
structure Reply where
  dest : Option Proc
  result : Int
  res2 : Int
  owed : Bool

/-- What has happened. Processes are numbered by the FORKs, so that one that comes to use a slot
again is a different one. -/
structure History where
  /-- the block that `alloc_mem` last returned for the process in a slot -/
  held : Proc → Option Extent
  freed : List Freed
  births : Nat
  /-- the process in a slot -/
  born : Proc → Nat
  /-- the process that made it -/
  father : Proc → Nat
  exits : List Exit
  reaps : List Reap
  acts : List Act
  replies : List Reply
  /-- the process in a slot has made a call that is not answered -/
  owed : Proc → Bool

/-- The variables of the memory manager, and the history. -/
structure State where
  mproc : Proc → Mproc
  table : HoleTable
  procsInUse : Nat
  nextPid : Nat
  mp : Proc
  dontReply : Bool
  result2 : Int
  hist : History

namespace State

/-- Write to one slot. -/
def modify (s : State) (p : Proc) (f : Mproc → Mproc) : State :=
  { s with mproc := Function.update s.mproc p (f (s.mproc p)) }

/-- Send a reply to a user process, if it is still alive. -/
def reply (s : State) (p : Proc) (result res2 : Int) : State :=
  if (s.mproc p).live then
    { s with hist := { s.hist with
        replies := ⟨some p, result, res2, s.hist.owed p⟩ :: s.hist.replies
        owed := Function.update s.hist.owed p false } }
  else s

/-- `free_mem(rmp->mp_seg[T].mem_phys, ...)`. -/
def freeCore (s : State) (p : Proc) : Option State :=
  let b := (s.mproc p).region
  (freeMem s.table b.base b.len).map fun t =>
    { s with
      table := t
      hist := { s.hist with
        held := Function.update s.hist.held p none
        freed := ⟨p, b, s.hist.held p⟩ :: s.hist.freed } }

/-- The process in a slot has been given a block. -/
def grant (s : State) (p : Proc) (t : HoleTable) (b : Extent) : State :=
  { s with table := t, hist.held := Function.update s.hist.held p (some b) }

/-- The call that the process in a slot has made is to be answered, or is not any more. -/
def setOwed (s : State) (p : Proc) (b : Bool) : State :=
  { s with hist.owed := Function.update s.hist.owed p b }

/-- Record that `mm_exit` has stored the status of a process. -/
def noteExit (s : State) (p : Proc) : State :=
  { s with hist.exits := ⟨s.hist.born p, (s.mproc p).status⟩ :: s.hist.exits }

/-- Record that a process is about to be reaped by its parent. -/
def noteReap (s : State) (p : Proc) : State :=
  let parent := (s.mproc p).mpParent
  { s with hist.reaps := ⟨s.hist.born p, (s.mproc p).status, s.hist.father p,
      s.hist.exits.any fun x => x.born = s.hist.father p, parent, s.hist.born parent,
      (s.mproc parent).live⟩ :: s.hist.reaps }

/-- Record what `sig_proc` does. -/
def noteAct (s : State) (d : Deed) (p : Proc) : State :=
  { s with hist.acts := ⟨d, p, (s.mproc p).live⟩ :: s.hist.acts }

/-- Record that `who` has made the process in a slot. -/
def noteBirth (s : State) (who child : Proc) : State :=
  { s with hist := { s.hist with
      births := s.hist.births + 1
      born := Function.update s.hist.born child s.hist.births
      father := Function.update s.hist.father child (s.hist.born who)
      owed := Function.update s.hist.owed child true } }

end State

/-! ## Growing the data and stack segments -/

/-- `((n << CLICK_SHIFT) + PAGE_SIZE - 1)/PAGE_SIZE`. -/
def pages (n : Nat) : Nat := (n * 16 % 65536 + 15) % 65536 / 16

/-- See if the segment sizes are feasible. -/
def sizeOk (fileType : Bool) (tc dc sc dvir sVir : Nat) : Int :=
  if fileType ∧ (4096 < pages tc ∨ 4096 < pages dc + pages sc) then ENOMEM
  else if ¬fileType ∧ 4096 < pages tc + pages dc + pages sc then ENOMEM
  else if sVir < addClicks dvir dc then ENOMEM
  else OK

/-- The stack segment grown down to the click `sp`; nothing happens when it is there already. -/
def growStack (m : Mproc) (spClick : Nat) : Mproc :=
  if spClick < m.segS.memVir then
    let delta := m.segS.memVir - spClick
    { m with segS := ⟨m.segS.memVir - delta, subClicks m.segS.memPhys delta,
      addClicks m.segS.memLen delta⟩ }
  else m

/-- See if data and stack segments can coexist, adjusting them if need be. Memory is added or
removed from the gap between them. -/
def adjust (m : Mproc) (dataClicks sp : Nat) : Int × Mproc :=
  let spClick := sp / 16
  if m.segS.memVir + m.segS.memLen ≤ spClick then (ENOMEM, m) -- sp too high
  else if min spClick m.segS.memVir < addClicks m.segD.memVir dataClicks then
    (ENOMEM, m) -- data and stack collided
  else
    let m' := growStack { m with segD := { m.segD with memLen := dataClicks } } spClick
    if sizeOk m'.separate m'.segT.memLen m'.segD.memLen m'.segS.memLen m'.segD.memVir
      m'.segS.memVir = OK then (OK, m') else (ENOMEM, m)

/-- The BRK and SBRK calls: `sp` is the kernel's answer to `sys_getsp`. -/
def doBrk (s : State) (who : Proc) (addr sp : Nat) : Int × State :=
  let r := adjust (s.mproc who) ((addr % 65536 + 15) / 16) sp
  (r.1, s.modify who fun _ => r.2)

end Minix.MM
