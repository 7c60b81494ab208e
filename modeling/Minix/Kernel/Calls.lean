import Minix.Kernel.ReadyQueues

/-!
# Runs of the kernel

Everything that enters the kernel, as it is issued: system calls by processes that run,
interrupts, the clock, signals, and the calls by which the memory manager makes, maps,
starts and removes processes. The queues are right after every run in which no process is
forked while somebody waits to send to it.
-/

namespace Minix.Kernel

open Intrusive Function Transition

/-- What enters the kernel. -/
inductive Call where
  | sysCall (function : Nat) (caller : Slot) (srcDest : Int) (mPtr : Nat)
  | interrupt (task : Fin (NR_TASKS + 1)) (mPtr : Nat)
  | sched
  | causeSig (n : Int) (sigNr : Nat)
  | inform
  | fork (k1 k2 pid : Int)
  | newmap (n : Int) (map : ProcMap)
  | exec (n : Int) (sp : Nat)
  | xit (parent proc : Int)
  | store (rp : Slot) (a : Nat) (b : UInt8)

/-- A process writes to its own memory. -/
def storeByte (k : State) (rp : Slot) (a : Nat) (b : UInt8) : State :=
  { k with mem := update k.mem rp (update (k.mem rp) a b) }

/-- The kernel serves a call. -/
def perform (k : State) : Call → Option State
  | .sysCall function caller srcDest mPtr => sysCall k function caller srcDest mPtr
  | .interrupt task mPtr => interrupt k task mPtr
  | .sched => some { k with sched := sched k.sched }
  | .causeSig n sigNr => causeSig k n sigNr
  | .inform => inform k MM
  | .fork k1 k2 pid => (doFork k k1 k2 pid).map Prod.snd
  | .newmap n map => (doNewmap k n map).map Prod.snd
  | .exec n sp => (doExec k n sp).map Prod.snd
  | .xit parent proc => (doXit k parent proc).map Prod.snd
  | .store rp a b => some (storeByte k rp a b)

/-- The flags of the process with a number satisfy a test. -/
def flagsOf (k : State) (n : Int) (p : PFlags → Bool) : Bool :=
  (procAddr n).any fun rp => p (k.pFlags rp)

/-- Only a process that runs makes a system call or writes to its memory. The memory manager forks
into a free slot a process that waits for its reply, starts a process that waits for its reply,
and removes each process once. -/
def AsIssued (k : State) : Call → Prop
  | .sysCall _ caller _ _ => Runnable k caller
  | .fork k1 k2 _ => flagsOf k k1 PFlags.receiving ∧ flagsOf k k2 PFlags.slotFree
  | .exec n _ => flagsOf k n PFlags.receiving
  | .xit _ proc => flagsOf k proc fun f => !f.slotFree
  | .store rp _ _ => Runnable k rp
  | _ => True

instance (k : State) : (c : Call) → Decidable (AsIssued k c)
  | .sysCall _ caller _ _ => inferInstanceAs (Decidable (Runnable k caller))
  | .interrupt _ _ => .isTrue trivial
  | .sched => .isTrue trivial
  | .causeSig _ _ => .isTrue trivial
  | .inform => .isTrue trivial
  | .fork k1 k2 _ =>
    inferInstanceAs (Decidable (flagsOf k k1 PFlags.receiving ∧ flagsOf k k2 PFlags.slotFree))
  | .newmap _ _ => .isTrue trivial
  | .exec n _ => inferInstanceAs (Decidable (flagsOf k n PFlags.receiving))
  | .xit _ proc => inferInstanceAs (Decidable (flagsOf k proc fun f => !f.slotFree))
  | .store rp _ _ => inferInstanceAs (Decidable (Runnable k rp))

/-- When a process is forked, nobody waits to send to it. -/
def CopiesNoQueue (k : State) : Call → Prop
  | .fork k1 _ _ => ∀ rp, procAddr k1 = some rp → k.callers.pCallerq rp = none
  | _ => True

instance (k : State) : (c : Call) → Decidable (CopiesNoQueue k c)
  | .fork k1 _ _ =>
    inferInstanceAs (Decidable (∀ rp, procAddr k1 = some rp → k.callers.pCallerq rp = none))
  | .sysCall _ _ _ _ => .isTrue trivial
  | .interrupt _ _ => .isTrue trivial
  | .sched => .isTrue trivial
  | .causeSig _ _ => .isTrue trivial
  | .inform => .isTrue trivial
  | .newmap _ _ => .isTrue trivial
  | .exec _ _ => .isTrue trivial
  | .xit _ _ => .isTrue trivial
  | .store _ _ _ => .isTrue trivial

/-- The kernel just after `main`. -/
def Started (k : State) : Prop := ∃ vars base sizes mem, k = main vars base sizes mem

variable {k k' : State} {W W' : Slot → List Slot} {parent child rc rp : Slot}

theorem flagsOf_some {n : Int} {p : PFlags → Bool} (h : flagsOf k n p)
    (hn : procAddr n = some rp) : p (k.pFlags rp) = true := by
  unfold flagsOf at h
  rwa [hn] at h

/-- A number that the system task accepts belongs to no task. -/
theorem ne_hardware_of_not_badProc {n : Int} (h : ¬badProc n) (hn : procAddr n = some rp) :
    rp ≠ HARDWARE := by
  rintro rfl
  unfold procAddr at hn
  split at hn
  · have := congrArg Fin.val (Option.some.inj hn)
    unfold badProc at h
    change (n + 8).toNat = 7 at this
    omega
  · cases hn

theorem doFork_cases {k1 k2 pid : Int} (h : (doFork k k1 k2 pid).map Prod.snd = some k') :
    k' = k ∨ ∃ parent child, procAddr k1 = some parent ∧ procAddr k2 = some child ∧
      child ≠ HARDWARE ∧ k' = forked (copyProc k parent child) child pid := by
  obtain ⟨⟨n, k₁⟩, hd, rfl⟩ := Option.map_eq_some_iff.mp h
  unfold doFork at hd
  split at hd
  · cases hd
    exact Or.inl rfl
  · rename_i hbad
    split at hd
    · rename_i parent child h₁ h₂
      cases hd
      exact Or.inr ⟨parent, child, h₁, h₂,
        ne_hardware_of_not_badProc (fun hb => hbad (Or.inr hb)) h₂, rfl⟩
    · cases hd

theorem doNewmap_cases {n : Int} {map : ProcMap}
    (h : (doNewmap k n map).map Prod.snd = some k') : k' = k ∨ ∃ rp, procAddr n = some rp ∧
      k' = if k.pFlags rp ≠ .clear then wake (mapped k rp map) rp else mapped k rp map := by
  obtain ⟨⟨_, k₁⟩, hd, rfl⟩ := Option.map_eq_some_iff.mp h
  unfold doNewmap at hd
  split at hd
  · cases hd
    exact Or.inl rfl
  · split at hd
    · cases hd
    · cases hd
      exact Or.inr ⟨_, ‹_›, rfl⟩

theorem doExec_cases {n : Int} {sp : Nat} (h : (doExec k n sp).map Prod.snd = some k') :
    k' = k ∨ ∃ rp, procAddr n = some rp ∧ k' = endReceive (resetProc k rp sp) rp := by
  obtain ⟨⟨_, k₁⟩, hd, rfl⟩ := Option.map_eq_some_iff.mp h
  unfold doExec at hd
  split at hd
  · cases hd
    exact Or.inl rfl
  · split at hd
    · cases hd
    · cases hd
      exact Or.inr ⟨_, ‹_›, rfl⟩

theorem doXit_cases {parent proc : Int} (h : (doXit k parent proc).map Prod.snd = some k') :
    k' = k ∨ ∃ rp rc, procAddr proc = some rc ∧ rc ≠ HARDWARE ∧
      removeProc (accumTimes k rp rc) rc = some k' := by
  obtain ⟨⟨_, k₁⟩, hd, rfl⟩ := Option.map_eq_some_iff.mp h
  unfold doXit at hd
  split at hd
  · cases hd
    exact Or.inl rfl
  · rename_i hbad
    split at hd
    · rename_i rp rc h₁ h₂
      obtain ⟨k₂, hr, he⟩ := Option.map_eq_some_iff.mp hd
      cases he
      exact Or.inr ⟨rp, rc, h₂, ne_hardware_of_not_badProc (fun hb => hbad (Or.inr hb)) h₂, hr⟩
    · cases hd

theorem resetProc_frame (k : State) (rp : Slot) (sp : Nat) : Frame k (resetProc k rp sp) :=
  ⟨rfl, rfl, rfl, rfl, rfl, rfl⟩

theorem accumTimes_frame (k : State) (rp rc : Slot) : Frame k (accumTimes k rp rc) :=
  ⟨rfl, rfl, rfl, rfl, rfl, rfl⟩

theorem storeByte_frame (k : State) (rp : Slot) (a : Nat) (b : UInt8) :
    Frame k (storeByte k rp a b) :=
  ⟨rfl, rfl, rfl, rfl, rfl, rfl⟩

section Ready

/-- Making the processes of a list ready puts exactly them on the queues. -/
theorem queued_foldl_ready {s : Sched} {X : Slot → Prop} {L : Queue → List Slot} {l : List Slot}
    (h : Queued s X L) (hl : l.Nodup) (hX : ∀ r ∈ l, ¬X r) :
    ∃ L', Queued (l.foldl ready s) (fun r => r ∈ l ∨ X r) L' := by
  induction l generalizing s X L with
  | nil => exact ⟨L, h.congr fun r => by simp⟩
  | cons a l ih =>
    rw [List.nodup_cons] at hl
    have ha := hX a (List.mem_cons_self ..)
    have hX' : ∀ r ∈ l, ¬(r = a ∨ X r) := by
      intro r hr
      rintro (rfl | hx)
      · exact hl.1 hr
      · exact hX r (List.mem_cons_of_mem _ hr) hx
    obtain ⟨L', h'⟩ := ih (h.ready ha) hl.2 hX'
    refine ⟨L', h'.congr fun r => ?_⟩
    rw [List.mem_cons, ← or_assoc, or_comm (a := r ∈ l)]

theorem queued_empty : Queued emptySched (fun _ => False) (fun _ => []) :=
  ⟨fun _ => rfl, fun _ _ h => (nomatch h), fun _ _ => by simp⟩

/-- At the start every process that has a program is ready, and nobody waits. -/
theorem Linked.main (vars : KernelVars) (base : Nat) (sizes : Nat → Nat) (mem : Memory) :
    Linked (main vars base sizes mem) fun _ => [] := by
  obtain ⟨L, h⟩ := queued_foldl_ready queued_empty
    ((List.nodup_finRange (NR_TASKS + NR_PROCS)).filter startReady) fun _ _ => id
  have hrun : ∀ r, r ∈ (List.finRange (NR_TASKS + NR_PROCS)).filter startReady ∨ False ↔
      Runnable (Kernel.main vars base sizes mem) r := by
    intro r
    have hf : (Kernel.main vars base sizes mem).pFlags r =
      if procNr r ≤ INIT_PROC_NR then .clear else .free := rfl
    unfold Runnable startReady
    rw [hf, or_false, List.mem_filter, Bool.and_eq_true, decide_eq_true_eq, decide_eq_true_eq]
    constructor
    · rintro ⟨-, hne, hr⟩
      exact ⟨hne, if_pos hr⟩
    · rintro ⟨hne, hr⟩
      refine ⟨List.mem_finRange r, hne, ?_⟩
      by_contra hn
      rw [if_neg hn] at hr
      cases hr
  refine ⟨⟨L, (h.congr hrun).pickProc⟩, ⟨fun _ => rfl, ?_⟩, ?_, rfl, fun s hs => ?_⟩
  · intro s d d' hs
    cases hs
  · intro s d hs
    cases hs
  · change (if procNr s ≤ INIT_PROC_NR then PFlags.clear else .free).slotFree = true at hs
    change (if procNr s ≤ INIT_PROC_NR then PFlags.clear else .free) = .free
    split
    · rw [if_pos ‹_›] at hs
      cases hs
    · rfl

end Ready

/-- The child of a process for which nobody waits is on no queue, and nobody waits for it. -/
theorem Linked.fork (h : Linked k W) (hp : W parent = []) (hc : (k.pFlags child).slotFree = true)
    (hne : child ≠ HARDWARE) (hpar : (k.pFlags parent).slotFree = false) (pid : Int) :
    Linked (forked (copyProc k parent child) child pid) (update W child []) := by
  have hfree := h.flags.free child hc
  have hout := h.not_waiting (show (k.pFlags child).sending = false by rw [hfree]; rfl)
  have hflags : (forked (copyProc k parent child) child pid).pFlags =
      update k.pFlags child { k.pFlags parent with noMap := true } := by
    unfold forked copyProc
    dsimp only
    rw [update_self, update_idem]
  obtain ⟨L, hq⟩ := h.queued
  have hrun : ∀ s, Runnable k s ↔ Runnable (forked (copyProc k parent child) child pid) s := by
    intro s
    unfold Runnable
    rw [hflags]
    by_cases he : s = child
    · rw [he, update_self, hfree]
      exact ⟨fun hr => (nomatch hr.2), fun hr => absurd hr.2 (by simp [PFlags.clear])⟩
    · rw [update_of_ne he]
  have hnot : ∀ q, child ∉ L q := by
    intro q hm
    have hr := ((hq.mem q child).mp hm).2.2
    rw [hfree] at hr
    cases hr
  refine ⟨⟨L, Queued.congr ⟨fun q => ?_, hq.tail, hq.mem⟩ hrun⟩, ?_, ?_⟩
  · exact (hq.chain q).update (hnot q)
  · exact h.waiting.copyCallers hp hout
  · rw [hflags]
    apply h.flags.update hne
    · intro hf
      rw [hpar] at hf
      cases hf
    · intro s d hs
      by_cases hd : d = child
      · rw [hd, update_self] at hs
        cases hs
      · rw [update_of_ne hd] at hs
        refine Or.inl ⟨hs, ?_⟩
        rintro rfl
        exact absurd hs (hout d)

theorem Linked.newmap (h : Linked k W) (rp : Slot) (map : ProcMap) :
    Linked (if k.pFlags rp ≠ .clear then wake (mapped k rp map) rp else mapped k rp map) W := by
  by_cases hold : k.pFlags rp = .clear
  · rw [if_neg (not_not.mpr hold)]
    have hflags : (mapped k rp map).pFlags = k.pFlags := by
      unfold mapped
      dsimp only
      rw [hold, ← hold, update_eq_self_iff, hold]
      rfl
    refine ⟨?_, h.waiting, ?_⟩
    · unfold Runnable
      rw [hflags]
      exact h.queued
    · rw [hflags]
      exact h.flags
  · rw [if_pos hold]
    have hne : rp ≠ HARDWARE := by
      rintro rfl
      exact hold h.flags.hardware
    refine ⟨queued_wake hne (queued_update rfl rfl hold h.queued), ?_, ?_⟩
    · rw [wake_callers]
      exact h.waiting
    · rw [wake_pFlags]
      apply h.flags.update hne
      · intro hf
        rw [h.flags.free rp hf]
        rfl
      · intro s d hs
        refine Or.inl ⟨hs, ?_⟩
        rintro rfl
        exact h.flags.sending s d hs

/-- A process that exits leaves all queues. -/
theorem Linked.exit (h : Linked k W) (rc : Slot) (hne : rc ≠ HARDWARE) :
    ∃ s c, removeProc k rc = some (freeSlot k rc s c) ∧
      Linked (freeSlot k rc s c) fun d => (W d).erase rc := by
  obtain ⟨L, hq⟩ := h.queued
  obtain ⟨s, hs, -⟩ := hq.unready rc
  obtain ⟨c, hc, hw⟩ : ∃ c, unqueue k rc = some c ∧ Waiting c fun d => (W d).erase rc := by
    unfold unqueue
    by_cases hsend : (k.pFlags rc).sending = true
    · rw [if_pos hsend]
      obtain ⟨c, W', hc, hw, hW⟩ := h.waiting.dropSender rc (List.finRange (NR_TASKS + NR_PROCS))
      obtain rfl : W' = fun d => (W d).erase rc := by
        ext1 d
        rw [hW, if_pos (List.mem_finRange d)]
      exact ⟨c, hc, hw⟩
    · rw [if_neg hsend]
      have hout := h.not_waiting (Bool.not_eq_true _ ▸ hsend)
      have hW : (fun d => (W d).erase rc) = W := by
        ext1 d
        exact List.erase_of_not_mem (hout d)
      rw [hW]
      exact ⟨_, rfl, h.waiting⟩
  refine ⟨s, c, ?_, queued_unready hs (by simp [PFlags.clear, PFlags.free]) rfl rfl h.queued, hw, ?_⟩
  · rw [removeProc, hs, Option.bind_eq_bind, Option.bind_some, hc]
    rfl
  · apply h.flags.update hne
    · exact fun _ => rfl
    · intro x d hx
      have hnd := (h.waiting.chain d).nodup
      rw [hnd.mem_erase_iff] at hx
      exact Or.inl ⟨hx.2, fun e => absurd e hx.1⟩

/-- Every call keeps the queues, if nobody waits to send to a process that is forked. -/
theorem Linked.perform {c : Call} (h : Linked k W) (hg : AsIssued k c) (hq : CopiesNoQueue k c)
    (hp : perform k c = some k') : ∃ W', Linked k' W' := by
  cases c with
  | sysCall function caller srcDest mPtr => exact h.effects (sysCall_effects hg.1 hg.2 hp)
  | interrupt task mPtr => exact h.effects (interrupt_effects hp)
  | sched =>
    obtain rfl := Option.some.inj hp
    exact h.effect (.sched k)
  | causeSig n sigNr => exact h.effects (causeSig_effects hp)
  | inform => exact h.effects (inform_effects hp)
  | fork k1 k2 pid =>
    rcases doFork_cases hp with rfl | ⟨parent, child, h₁, h₂, hne, rfl⟩
    · exact ⟨W, h⟩
    · have hrec : (k.pFlags parent).receiving = true := flagsOf_some hg.1 h₁
      exact ⟨_, h.fork (h.waiting.nil (hq parent h₁)) (flagsOf_some hg.2 h₂) hne
        (h.not_free (Or.inr hrec)) pid⟩
  | newmap n map =>
    rcases doNewmap_cases hp with rfl | ⟨rp, -, rfl⟩
    · exact ⟨W, h⟩
    · exact ⟨W, h.newmap rp map⟩
  | exec n sp =>
    rcases doExec_cases hp with rfl | ⟨rp, hn, rfl⟩
    · exact ⟨W, h⟩
    · exact ⟨W, (h.frame (resetProc_frame k rp sp)).endReceive (flagsOf_some hg hn)⟩
  | xit parent proc =>
    rcases doXit_cases hp with rfl | ⟨rp, rc, -, hne, hr⟩
    · exact ⟨W, h⟩
    · obtain ⟨s, c, he, hk⟩ := (h.frame (accumTimes_frame k rp rc)).exit rc hne
      obtain rfl := Option.some.inj (hr.symm.trans he)
      exact ⟨_, hk⟩
  | store rp a b =>
    obtain rfl := Option.some.inj hp
    exact ⟨W, h.frame (storeByte_frame k rp a b)⟩

/-- The ready queues as they should be: on the queue of its class, and once, is every process that
can be scheduled, and nobody else is on any. -/
def ReadyQueues (k : State) : Prop :=
  ∃ L : Queue → List Slot, Queued k.sched (Runnable k) L ∧ ∀ q, (L q).Nodup

theorem Linked.readyQueues (h : Linked k W) : ReadyQueues k := by
  obtain ⟨L, hq⟩ := h.queued
  exact ⟨L, hq, fun q => (hq.chain q).nodup⟩

/-- After every run in which no process is forked while somebody waits to send to it, the ready
queues are right, and `pick_proc` always takes the head of the highest queue that is not empty. -/
theorem ready_queues
    (hr : Reach perform (fun k c => AsIssued k c ∧ CopiesNoQueue k c) Started k) :
    ReadyQueues k ∧ ∀ s : Sched, (pickProc s).procPtr = (firstReady s).getD HARDWARE ∧
      (pickProc s).curProc = ((firstReady s).map procNr).getD IDLE := by
  have hinv : ∃ W, Linked k W := by
    refine hr.invariant (fun k => ∃ W, Linked k W) ?_ ?_
    · rintro k ⟨vars, base, sizes, mem, rfl⟩
      exact ⟨_, Linked.main vars base sizes mem⟩
    · rintro k c k' ⟨W, h⟩ ⟨hg, hq⟩ hp
      exact h.perform hg hq hp
  obtain ⟨W, h⟩ := hinv
  exact ⟨h.readyQueues, pickProc_spec⟩

section Example

/-- A kernel whose programs have 64 clicks of text and of data each. -/
def exampleStart : State :=
  main ⟨1000, 1100, 1200, by decide, by decide, by decide, by decide, by decide⟩ 96 (fun _ => 64)
    fun _ _ => 0

theorem exampleStart_started : Started exampleStart := ⟨_, _, _, _, rfl⟩

/-- The tasks wait for work, the floppy task for its interrupt. -/
def tasksWait : List Call :=
  [.sysCall RECEIVE 0 ANY 100, .sysCall RECEIVE 1 ANY 100, .sysCall RECEIVE 2 ANY 100,
    .sysCall RECEIVE 3 (-1) 100, .sysCall RECEIVE 4 ANY 100, .sysCall RECEIVE 5 ANY 100,
    .sysCall RECEIVE 6 ANY 100]

def exampleMap : ProcMap := ⟨⟨0, 500, 64⟩, ⟨0, 600, 64⟩, ⟨64, 700, 0⟩⟩

/-- INIT calls MM and is forked. -/
def forkInit : List Call :=
  [.sysCall BOTH 10 0 100, .fork 2 3 7, .newmap 3 exampleMap, .sysCall SEND MM 2 100,
    .sysCall SEND MM 3 100, .sysCall RECEIVE MM ANY 100]

theorem ready_queues_example :
    ∃ k, run perform (fun k c => AsIssued k c ∧ CopiesNoQueue k c) exampleStart
      (tasksWait ++ .sysCall RECEIVE MM ANY 100 :: .sysCall RECEIVE FS ANY 100 :: forkInit) = some k ∧
      ReadyQueues k := by
  obtain ⟨k, hk⟩ := Option.isSome_iff_exists.mp (show (run perform
    (fun k c => AsIssued k c ∧ CopiesNoQueue k c) exampleStart (tasksWait ++
      .sysCall RECEIVE MM ANY 100 :: .sysCall RECEIVE FS ANY 100 :: forkInit)).isSome = true by
    decide +kernel)
  exact ⟨k, hk, (ready_queues (.of_run (.init exampleStart_started) hk)).1⟩

/-- FS waits to send to INIT when INIT is forked, and the child gets a copy of the queue. Later FS
is made ready through the queue of the child while it waits for the floppy task, and made ready
again by that task. -/
def staleQueue : List Call :=
  tasksWait ++ .sysCall RECEIVE MM ANY 100 :: .sysCall SEND FS 2 100 :: forkInit ++
    [.sysCall BOTH 10 1 100, .interrupt 3 1000, .sysCall RECEIVE 5 ANY 100,
      .sysCall SEND FS (-5) 100, .sysCall BOTH 11 1 100, .interrupt 5 1000,
      .sysCall SEND 3 0 100, .sysCall RECEIVE 3 ANY 100]

/-- The second time takes MM off the queue of the servers, where it stood behind FS. -/
theorem ready_queues_stale : ¬∀ k, Reach perform AsIssued Started k → ReadyQueues k := by
  intro hall
  obtain ⟨k, hk, hhead, hnext, hmm⟩ : ∃ k, run perform AsIssued exampleStart staleQueue = some k ∧
      k.sched.rdyHead .SERVER_Q = some FS ∧ k.sched.pNextready FS = none ∧
      Runnable k MM := by
    have hlost : (run perform AsIssued exampleStart staleQueue).any (fun k => decide
        (k.sched.rdyHead .SERVER_Q = some FS ∧ k.sched.pNextready FS = none ∧ Runnable k MM)) =
        true := by decide +kernel
    obtain ⟨k, hk, hd⟩ := (Option.any_eq_true _ _).mp hlost
    exact ⟨k, hk, of_decide_eq_true hd⟩
  obtain ⟨L, hq, -⟩ := hall k (.of_run (.init exampleStart_started) hk)
  have hc : Chain k.sched.pNextready (some FS) (L .SERVER_Q) := hhead ▸ hq.chain .SERVER_Q
  have hl : L .SERVER_Q = [FS] := hc.unique ⟨rfl, hnext⟩
  have hm : MM ∈ L .SERVER_Q := (hq.mem .SERVER_Q MM).mpr ⟨rfl, hmm⟩
  rw [hl] at hm
  exact absurd hm (by decide)

end Example

end Minix.Kernel
