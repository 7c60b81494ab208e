import Minix.MM.Mproc

/-!
# FORK, EXIT and WAIT

A child gets a region as big as its parent's. A process goes when it has exited and
its parent has waited, in either order; its own children go to INIT. The size of a
region is not kept, but worked out again from the segments.
-/

namespace Minix.MM

/-- last few slots reserved for superuser -/
abbrev LAST_FEW : Nat := 2

/-- What a child needs: as much as its parent, and the gap too. -/
def progClicks (m : Mproc) : Nat :=
  addClicks (addClicks (addClicks m.segT.memLen m.segD.memLen) m.segS.memLen)
    (subClicks m.segS.memVir m.segD.memLen)

/-- The slot of a child whose memory starts at `childBase`: a copy of the parent's. -/
def forked (rmp : Mproc) (who : Proc) (childBase : Nat) : Mproc :=
  let dPhys := addClicks childBase rmp.segT.memLen
  { rmp with
    mpParent := who
    segT.memPhys := childBase
    segD.memPhys := dPhys
    segS.memPhys := addClicks dPhys (subClicks rmp.segS.memPhys rmp.segD.memPhys)
    mpExitstatus := 0
    mpSigstatus := 0 }

/-- The pid that is tried after `pid`. -/
def pidAfter (pid : Nat) : Nat := if pid < 30000 then pid + 1 else 3

/-- Find a free pid for the child and put it in the table. -/
def assignPid (child : Proc) : Nat → State → Option State
  | 0, _ => none
  | n + 1, s =>
    let next := pidAfter s.nextPid
    let t := (List.finRange NR_PROCS).any fun rmp => (s.mproc rmp).mpPid = next
    let s' := { s with nextPid := next }.modify child fun m => { m with mpPid := next }
    if t then assignPid child n s' else some s'

/-- The slot that FORK takes. -/
def freeSlot (s : State) : Option Proc :=
  (List.finRange NR_PROCS).find? fun rmc => !(s.mproc rmc).inUse

/-- The child's slot and memory are set up. -/
def placeChild (s : State) (who child : Proc) (t : HoleTable) (childBase : Nat) : State :=
  let m := s.mproc who
  let s := (s.grant child t ⟨childBase, progClicks m⟩).modify child fun _ => forked m who childBase
  { s with procsInUse := s.procsInUse + 1 }.noteBirth who child

/-- The FORK call. One round of the pids is more than the search for a free one can need. -/
def doFork (s : State) (who : Proc) : Option (Int × State) :=
  let rmp := s.mproc who
  if s.procsInUse = NR_PROCS then some (EAGAIN, s)
  else if NR_PROCS - LAST_FEW ≤ s.procsInUse ∧ rmp.mpEffuid ≠ SUPER_USER then some (EAGAIN, s)
  else do
    let (childBase, t) ← allocMem s.table (progClicks rmp)
    if childBase = NO_MEM then some (EAGAIN, { s with table := t })
    else do
      let child ← freeSlot s
      let s ← assignPid child 30000 (placeChild s who child t childBase)
      -- reply to child to wake it up
      return (s.nextPid, s.reply child 0 0)

/-- The part of `cleanup` before the children are disinherited: wake up the parent, release the
memory and the slot. -/
def release (s : State) (child : Proc) : Option State := do
  let parent := (s.mproc child).mpParent
  let s := (s.noteReap child).reply parent (s.mproc child).mpPid (s.mproc child).status
  let s ← s.freeCore child
  let s := s.modify child fun m => { m with hanging := false, paused := false }
  let s := s.modify parent fun m => { m with waiting := false }
  let s := s.modify child fun m => { m with inUse := false }
  return { s with procsInUse := s.procsInUse - 1 }

/-- INIT takes over a child. -/
def adopt (s : State) (rp : Proc) : State :=
  s.modify rp fun m => { m with mpParent := INIT_PROC_NR }

/-- One turn of the loop that disinherits the children of `childNr`: if INIT was waiting and the
child has exited, INIT gets it at once. -/
def disinherit (cleanup : State → Proc → Option State) (childNr : Proc) (r : State × Bool)
    (rp : Proc) : Option (State × Bool) :=
  if (r.1.mproc rp).mpParent = childNr then
    if r.2 ∧ (r.1.mproc rp).hanging then (cleanup (adopt r.1 rp) rp).map fun s => (s, false)
    else some (adopt r.1 rp, r.2)
  else some r

/-- Clean up the remains of a process. The number bounds the depth of the recursion. -/
def cleanup : Nat → State → Proc → Option State
  | 0, _, _ => none
  | n + 1, s, child => do
    let s ← release s child
    let initWaiting := (s.mproc INIT_PROC_NR).waiting
    let (s, _) ← (List.finRange NR_PROCS).foldlM (disinherit (cleanup n) child) (s, initWaiting)
    return s

/-- A process is done. If parent is waiting for it, clean it up, else hang. -/
def mmExit (s : State) (rmp : Proc) (exitStatus : BitVec 8) : Option State :=
  let s := (s.modify rmp fun m => { m with mpExitstatus := exitStatus }).noteExit rmp
  let gone := if (s.mproc (s.mproc rmp).mpParent).waiting then cleanup NR_PROCS s rmp
    else some (s.modify rmp fun m => { m with hanging := true })
  -- if the exited process has a timer pending, kill it
  gone.map fun s => s.modify rmp fun m => { m with alarmOn := false }

/-- The EXIT call. -/
def doMmExit (s : State) (who : Proc) (status : BitVec 8) : Option (Int × State) :=
  (mmExit s who status).map fun s => (OK, { s with dontReply := true })

/-- The WAIT call. -/
def doWait (s : State) (who : Proc) : Option (Int × State) :=
  let children := (List.finRange NR_PROCS).filter fun rp =>
    (s.mproc rp).inUse ∧ (s.mproc rp).mpParent = who
  match children.find? fun rp => (s.mproc rp).hanging with
  | some rp => -- a child has already exited
    (cleanup NR_PROCS s rp).map fun s => (OK, { s with dontReply := true })
  | none =>
    if children ≠ [] then
      some (OK, { s.modify who fun m => { m with waiting := true } with dontReply := true })
    else some (ECHILD, s) -- no - parent has no children

end Minix.MM
