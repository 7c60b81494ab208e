import Minix.FS.ReleaseCalls

/-!
# UNPAUSE

`do_unpause` with its messages: it looks the saved `fp_fd` up, which still has the number of the
call in its low byte, among the descriptors of its own caller, and while it waits for the answer
of the task it tests a message that no longer changes.
-/

namespace Minix.FS.Pipes

open Function Transition

/-- The system call numbers, the last one for who is suspended in IOCTL. -/
def callNumber : Option RwFlag → Nat
  | some .READING => 3
  | some .WRITING => 4
  | none => 54

/-- What `suspend` keeps of the descriptor: `fd << 8 | fs_call`. -/
def savedFd (d : Fproc) : Nat := d.fpFd.val * 256 + callNumber d.fpCall

/-- The minor device number. -/
def minor (dev : Nat) : Nat := dev % 256

/-- A message from a task. -/
structure TaskReply where
  /-- # of proc on whose behalf I/O was done -/
  repProcNr : Int
  /-- bytes transferred or error number -/
  repStatus : Int

/-- A CANCEL message. -/
structure Cancel where
  task : Int
  ttyLine : Nat
  procNr : Proc
  deriving DecidableEq

/-- The file system, with the messages that it has sent. -/
structure Sending where
  state : State
  cancels : List Cancel
  replies : List (Proc × Int)

/-- `revive`, with its reply to who was waiting for a task. There is no result when it panics. -/
def reviveReply (u : Sending) (procNr : Int) (bytes : Int) : Option Sending :=
  if h : 0 ≤ procNr ∧ procNr < NR_PROCS then
    let p : Proc := ⟨procNr.toNat, by omega⟩
    let d := u.state.fproc p
    some { u with
      state := revive u.state p bytes
      replies := if d.fpSuspended = true ∧ d.fpTask ≠ XPIPE then u.replies ++ [(p, bytes)]
        else u.replies }
  else none

/-- The wait for the answer of the task: what is received goes to another buffer than the message
that is tested. There is no result as long as the loop goes on. -/
def awaitAnswer (mess : TaskReply) (procNr : Proc) : Nat → Sending → Option Sending
  | 0, _ => none
  | fuel + 1, u =>
    if mess.repProcNr = procNr.val then some u
    else (reviveReply u mess.repProcNr mess.repStatus).bind (awaitAnswer mess procNr fuel)

/-- The device that is asked to cancel; `nil` is what `NIL_FILP->filp_ino->i_zone[0]` reads. -/
def cancelDev (s : State) (iZone0 : InodePtr → Nat) (nil : Nat) (p : Proc) : Nat :=
  match getFilp s.files MM (savedFd (s.fproc p)) with
  | some (_, f) => iZone0 (s.files.filp f).filpIno
  | none => nil

/-- The device of the file that a process is suspended on. -/
def suspendedDev (s : State) (iZone0 : InodePtr → Nat) (p : Proc) : Option Nat :=
  (s.files.fpFilp p (s.fproc p).fpFd).map fun f => iZone0 (s.files.filp f).filpIno

/-- A signal has been sent to a user who is paused on the file system: MM asks for UNPAUSE, and the
task sends these messages, the first of them when it is called. -/
def doUnpauseSend (s : State) (iZone0 : InodePtr → Nat) (nil : Nat) (msgs : Nat → TaskReply)
    (p : Proc) (fuel : Nat) : Option Sending :=
  let d := s.fproc p
  if d.fpSuspended = false then some ⟨s, [], []⟩
  else if -d.fpTask ≠ XPIPE then
    let cancel := ⟨-d.fpTask, minor (cancelDev s iZone0 nil p), p⟩
    (awaitAnswer (msgs 0) p fuel ⟨s, [cancel], []⟩).bind fun u => reviveReply u p.val EINTR
  else some ⟨s, [], []⟩

/-- The task answers the CANCEL with its message `n`. Before, it tells of other processes that it has
suspended, each of them once. -/
structure Answers (s : State) (p : Proc) (msgs : Nat → TaskReply) (n : Nat) : Prop where
  answer : (msgs n).repProcNr = p.val
  earlier : ∀ i < n, ∃ q : Proc, q ≠ p ∧ (msgs i).repProcNr = q.val ∧
    (s.fproc q).fpSuspended = true ∧ (s.fproc q).fpTask = (s.fproc p).fpTask
  once : ∀ i < n, ∀ j < n, (msgs i).repProcNr = (msgs j).repProcNr → i = j

/-- The call of a process has been interrupted, and nobody's answer has been lost. -/
structure Interrupted (s : State) (iZone0 : InodePtr → Nat) (p : Proc) (msgs : Nat → TaskReply)
    (n : Nat) (u : Sending) : Prop where
  cancels : if (s.fproc p).fpTask = XPIPE then u.cancels = []
    else ∃ dev, suspendedDev s iZone0 p = some dev ∧
      u.cancels = [⟨-(s.fproc p).fpTask, minor dev, p⟩]
  awake : (u.state.fproc p).fpSuspended = false
  told : u.replies.filter (fun r => r.1 = p) = [(p, EINTR)]
  passed : (s.fproc p).fpTask ≠ XPIPE → ∀ i < n, ∀ q : Proc, (msgs i).repProcNr = q.val →
    u.replies.filter (fun r => r.1 = q) = [(q, (msgs i).repStatus)]

section Unpause

variable {s : State} {p : Proc} {iZone0 : InodePtr → Nat} {nil : Nat} {msgs : Nat → TaskReply}

/-- No message ends the wait once the first one was for another process. -/
theorem awaitAnswer_other {mess : TaskReply} (h : mess.repProcNr ≠ p.val) (fuel : Nat)
    (u : Sending) : awaitAnswer mess p fuel u = none := by
  induction fuel generalizing u with
  | zero => rfl
  | succ fuel ih =>
    unfold awaitAnswer
    rw [if_neg h]
    cases reviveReply u mess.repProcNr mess.repStatus with
    | none => rfl
    | some u' => exact ih u'

theorem awaitAnswer_own {mess : TaskReply} (h : mess.repProcNr = p.val) (fuel : Nat)
    (u : Sending) : awaitAnswer mess p (fuel + 1) u = some u := by
  unfold awaitAnswer
  rw [if_pos h]

/-- A process that a task has suspended is told, and goes on. -/
theorem reviveReply_own {u : Sending} (hs : (u.state.fproc p).fpSuspended = true)
    (ht : (u.state.fproc p).fpTask ≠ XPIPE) (bytes : Int) :
    reviveReply u p.val bytes =
      some { u with state := revive u.state p bytes, replies := u.replies ++ [(p, bytes)] } := by
  unfold reviveReply
  have hp := p.isLt
  have hfin : (⟨(p.val : Int).toNat, by omega⟩ : Proc) = p := Fin.ext (Int.toNat_natCast p.val)
  rw [dif_pos ⟨by omega, by omega⟩]
  dsimp only
  rw [hfin, if_pos ⟨hs, ht⟩]

theorem revive_awake (hs : (s.fproc p).fpSuspended = true) (ht : (s.fproc p).fpTask ≠ XPIPE)
    (bytes : Int) : ((revive s p bytes).fproc p).fpSuspended = false := by
  unfold revive setFproc
  dsimp only
  rw [hs, if_neg Bool.noConfusion, if_neg ht]
  dsimp only
  rw [update_self]

/-- Nothing is done for who hangs on a pipe. -/
theorem doUnpauseSend_pipe (hs : (s.fproc p).fpSuspended = true) (ht : (s.fproc p).fpTask = XPIPE)
    (fuel : Nat) : doUnpauseSend s iZone0 nil msgs p fuel = some ⟨s, [], []⟩ := by
  unfold doUnpauseSend
  dsimp only
  rw [hs, if_neg Bool.noConfusion, ht, if_neg]
  exact not_not.mpr rfl

theorem doUnpauseSend_task (hs : (s.fproc p).fpSuspended = true)
    (ht : (s.fproc p).fpTask ≠ XPIPE) (fuel : Nat) : doUnpauseSend s iZone0 nil msgs p fuel =
      (awaitAnswer (msgs 0) p fuel
        ⟨s, [⟨-(s.fproc p).fpTask, minor (cancelDev s iZone0 nil p), p⟩], []⟩).bind
        fun u => reviveReply u p.val EINTR := by
  have hneg : -(s.fproc p).fpTask ≠ XPIPE := by
    unfold XPIPE at ht ⊢
    omega
  unfold doUnpauseSend
  dsimp only
  rw [hs, if_neg Bool.noConfusion, if_pos hneg]

/-- UNPAUSE interrupts the call of a suspended process as it should exactly if the process waits for
a task, the first message of the task is its answer for the process, and the descriptor that is
looked up among those of MM leads to a device with the same minor number. -/
theorem unpause_interrupts {n : Nat} (hs : (s.fproc p).fpSuspended = true)
    (ha : (s.fproc p).fpTask ≠ XPIPE → Answers s p msgs n) :
    (∃ fuel u, doUnpauseSend s iZone0 nil msgs p fuel = some u ∧
      Interrupted s iZone0 p msgs n u) ↔
    (s.fproc p).fpTask ≠ XPIPE ∧ (msgs 0).repProcNr = p.val ∧
      ∃ dev, suspendedDev s iZone0 p = some dev ∧ minor (cancelDev s iZone0 nil p) = minor dev := by
  by_cases ht : (s.fproc p).fpTask = XPIPE
  · refine iff_of_false ?_ fun hc => hc.1 ht
    rintro ⟨fuel, u, he, hint⟩
    rw [doUnpauseSend_pipe hs ht] at he
    obtain rfl := Option.some.inj he
    have hawake : (s.fproc p).fpSuspended = false := hint.awake
    rw [hs] at hawake
    cases hawake
  by_cases hfirst : (msgs 0).repProcNr = p.val
  · have hzero : n = 0 := by
      by_contra hn
      obtain ⟨q, hq, he, -⟩ := (ha ht).earlier 0 (Nat.pos_of_ne_zero hn)
      exact hq (Fin.ext (by have := hfirst.symm.trans he; omega))
    constructor
    · rintro ⟨fuel, u, he, hint⟩
      refine ⟨ht, hfirst, ?_⟩
      rw [doUnpauseSend_task hs ht] at he
      cases fuel with
      | zero => cases he
      | succ fuel =>
        rw [awaitAnswer_own hfirst, Option.bind_some, reviveReply_own hs ht] at he
        obtain rfl := Option.some.inj he
        have hc := hint.cancels
        rw [if_neg ht] at hc
        obtain ⟨dev, hdev, hc⟩ := hc
        refine ⟨dev, hdev, ?_⟩
        injection hc with hc
        injection hc
    · rintro ⟨-, -, dev, hdev, hm⟩
      have he : doUnpauseSend s iZone0 nil msgs p 1 = some ⟨revive s p EINTR,
          [⟨-(s.fproc p).fpTask, minor (cancelDev s iZone0 nil p), p⟩], [] ++ [(p, EINTR)]⟩ := by
        rw [doUnpauseSend_task hs ht, awaitAnswer_own hfirst, Option.bind_some,
          reviveReply_own hs ht]
      refine ⟨1, _, he, ?_, revive_awake hs ht EINTR, ?_, ?_⟩
      · rw [if_neg ht]
        exact ⟨dev, hdev, by rw [hm]⟩
      · exact List.filter_cons_of_pos (decide_eq_true rfl)
      · intro _ i hi
        rw [hzero] at hi
        cases hi
  · refine iff_of_false ?_ fun hc => hfirst hc.2.1
    rintro ⟨fuel, u, he, -⟩
    rw [doUnpauseSend_task hs ht, awaitAnswer_other hfirst] at he
    cases he

/-- When the process is interrupted so, the rest of the file system is as `do_unpause` leaves it. -/
theorem doUnpauseSend_state {fuel : Nat} {u : Sending} (ht : (s.fproc p).fpTask ≠ XPIPE)
    (hfirst : (msgs 0).repProcNr = p.val)
    (he : doUnpauseSend s iZone0 nil msgs p fuel = some u) : u.state = doUnpause s p := by
  have hneg : -(s.fproc p).fpTask ≠ XPIPE := by
    unfold XPIPE at ht ⊢
    omega
  unfold doUnpause
  cases hs : (s.fproc p).fpSuspended with
  | false =>
    unfold doUnpauseSend at he
    dsimp only at he
    rw [hs, if_pos rfl] at he
    rw [if_pos rfl, ← Option.some.inj he]
  | true =>
    rw [doUnpauseSend_task hs ht] at he
    rw [if_neg Bool.noConfusion, if_pos hneg]
    cases fuel with
    | zero => cases he
    | succ fuel =>
      rw [awaitAnswer_own hfirst, Option.bind_some, reviveReply_own hs ht] at he
      rw [← Option.some.inj he]

/-- MM has no descriptor with the number that is looked up, unless the process waits with its
descriptor 0. -/
theorem cancelDev_nil (hd : (s.fproc p).fpFd.val ≠ 0) : cancelDev s iZone0 nil p = nil := by
  have hnone : getFilp s.files MM (savedFd (s.fproc p)) = none := by
    unfold getFilp fdOf
    rw [dif_neg]
    · rfl
    · unfold savedFd NR_FDS
      omega
  unfold cancelDev
  rw [hnone]

section Example

/-- INIT opens the terminal, and waits for a line. -/
def waitForLine : List Request :=
  [.call 2 (.open ⟨true, true⟩ (some 5)), .call 2 (.readWrite .READING 0 50 10
    ⟨fun _ => ⟨none, zeroBlock, fun _ => zeroBlock⟩, some (-7), 0⟩)]

/-- The terminal task answers INIT at once, and what is read through `NIL_FILP` has the right minor
device number. -/
theorem unpause_interrupts_example : ∃ s, run serve AsIssued exampleStart waitForLine = some s ∧
    ∃ fuel u, doUnpauseSend s (fun _ => 1024) 0 (fun _ => ⟨2, -4⟩) 2 fuel = some u ∧
      Interrupted s (fun _ => 1024) 2 (fun _ => ⟨2, -4⟩) 0 u := by
  have hrun : (run serve AsIssued exampleStart waitForLine).any (fun s =>
      (s.fproc 2).fpSuspended = true ∧ (s.fproc 2).fpTask ≠ XPIPE ∧
      suspendedDev s (fun _ => 1024) 2 = some 1024 ∧
      minor (cancelDev s (fun _ => 1024) 0 2) = 0) = true := by
    decide +kernel
  obtain ⟨s, hs, hm⟩ := (Option.any_eq_true _ _).mp hrun
  obtain ⟨hsus, htask, hdev, hminor⟩ := of_decide_eq_true hm
  exact ⟨s, hs, (unpause_interrupts hsus fun _ =>
    ⟨rfl, fun i hi => absurd hi (Nat.not_lt_zero i), fun i hi => absurd hi (Nat.not_lt_zero i)⟩).mpr
      ⟨htask, rfl, 1024, hdev, hminor⟩⟩

/-- A process that hangs on a pipe is left there. -/
theorem unpause_interrupts_pipe : ¬∀ s, Reach serve AsIssued Started s →
    ∀ iZone0 nil msgs p n, (s.fproc p).fpSuspended = true →
    ((s.fproc p).fpTask ≠ XPIPE → Answers s p msgs n) →
    ∃ fuel u, doUnpauseSend s iZone0 nil msgs p fuel = some u ∧
      Interrupted s iZone0 p msgs n u := by
  intro hall
  have hrun : (run serve AsIssued exampleStart passData.dropLast.dropLast).any (fun s =>
      (s.fproc 3).fpSuspended = true ∧ (s.fproc 3).fpTask = XPIPE) = true := by
    decide +kernel
  obtain ⟨s, hs, hm⟩ := (Option.any_eq_true _ _).mp hrun
  obtain ⟨hsus, htask⟩ := of_decide_eq_true hm
  obtain ⟨fuel, u, he, hint⟩ := hall s (.of_run (.init exampleStart_started) hs) (fun _ => 0) 0
    (fun _ => ⟨0, 0⟩) 3 0 hsus fun hne => absurd htask hne
  rw [doUnpauseSend_pipe hsus htask] at he
  obtain rfl := Option.some.inj he
  have hawake : (s.fproc 3).fpSuspended = false := hint.awake
  rw [hsus] at hawake
  cases hawake

end Example

end Unpause

end Minix.FS.Pipes
