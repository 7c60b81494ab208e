import Minix.Kernel.Rendezvous

/-!
# What a message says

A blocked sender keeps its message in its own buffer until it is taken. One call can both
send and receive with the same buffer, so a sender may be handed a message of somebody
else before its own is taken. Apart from such calls, a delivered message is what its sender
had in the buffer when it made the call.
-/

namespace Minix.Kernel

open Intrusive Function Transition

/-- The buffer and the contents of the message of `s` that has been accepted and waits. -/
def sendingFrom : List Event → Slot → Option (Nat × Message)
  | [], _ => none
  | .accept src _ buf m :: log, s => if s = src then some (buf, m) else sendingFrom log s
  | .deliver src _ _ _ _ :: log, s => if s = src then none else sendingFrom log s
  | .exit rc :: log, s => if s = rc then none else sendingFrom log s
  | .irq _ _ :: log, s => sendingFrom log s

/-- Every delivered message has the contents, behind its source, of the message that has been
accepted, and is not put into a buffer from which the receiver itself is sending. -/
def Intact : List Event → Prop
  | [] => True
  | .deliver src dst buf m _ :: log =>
    (∃ b m', sendingFrom log src = some (b, m') ∧ ∀ i, 2 ≤ i.val → m i = m' i) ∧
      (∀ m', sendingFrom log dst ≠ some (buf, m')) ∧ Intact log
  | _ :: log => Intact log

/-- The log tells who is sending, and from what buffer, and the buffers still hold the messages. -/
structure Held (k : State) : Prop where
  rendezvous : Rendezvous k
  buffers : ∀ s, sendingFrom k.log s =
    if (k.pFlags s).sending then some (k.pMessbuf s, readMess k.mem s (k.pMessbuf s)) else none
  intact : Intact k.log
  noSignal : k.sigProcs = 0

variable {k k' : State} {caller dest sender rp : Slot} {mPtr : Nat} {n : Int}

theorem withSource_apply (src : Int) (m : Message) {i : Fin MESS_SIZE} (hi : 2 ≤ i.val) :
    withSource src m i = m i := by
  unfold withSource
  rw [update_of_ne, update_of_ne]
  · rintro rfl
    exact absurd hi (by decide)
  · rintro rfl
    exact absurd hi (by decide)

theorem storeMess_of_ne (mem : Memory) (a : Nat) (m : Message) (h : rp ≠ dest) :
    storeMess mem dest a m rp = mem rp := update_of_ne h _ _

/-- Nothing is sent by a process whose flag is not set. -/
theorem Held.not_sending (h : Held k) (hs : (k.pFlags rp).sending = false) :
    sendingFrom k.log rp = none := by
  rw [h.buffers, hs]
  rfl

theorem Held.setRet (h : Held k) (rp : Slot) (n : Int) : Held (setRet k rp n) :=
  ⟨h.rendezvous.frame (setRet_frame k rp n), h.buffers, h.intact, h.noSignal⟩

/-- A message that is handed over goes to a receiver that is not sending. -/
theorem Held.deliver (h : Held k) (hc : k.pFlags caller = .clear)
    (hw : waitsFor k dest caller = true) (hd : (k.pFlags dest).sending = false) (mPtr : Nat) :
    Held (deliver k caller dest mPtr) := by
  have hne : dest ≠ caller := by
    rintro rfl
    have := waitsFor_receiving hw
    rw [hc] at this
    cases this
  have hcs : (k.pFlags caller).sending = false := by
    rw [hc]
    rfl
  refine ⟨h.rendezvous.deliver (Or.inr hc) hw mPtr, fun s => ?_, ?_, ?_⟩
  · unfold Kernel.deliver
    rw [endReceive_log, endReceive_pFlags, flag_update PFlags.sending (by rfl)]
    have hmess : (endReceive (cpMess (logAccept k caller dest mPtr) caller mPtr dest
        (k.pMessbuf dest) (k.pGetfrom dest == ANY)) dest).pMessbuf = k.pMessbuf := wake_pMessbuf ..
    have hmem : (endReceive (cpMess (logAccept k caller dest mPtr) caller mPtr dest
        (k.pMessbuf dest) (k.pGetfrom dest == ANY)) dest).mem = storeMess k.mem dest
          (k.pMessbuf dest) (withSource (procNr caller) (readMess k.mem caller mPtr)) := wake_mem ..
    rw [hmess, hmem]
    change (if s = caller then none else if s = caller then _ else sendingFrom k.log s) =
      if (k.pFlags s).sending then _ else none
    by_cases hs : s = caller
    · rw [if_pos hs, hs, hcs]
      rfl
    · rw [if_neg hs, if_neg hs, h.buffers]
      by_cases hsd : s = dest
      · rw [hsd, hd]
        rfl
      · unfold readMess
        rw [storeMess_of_ne _ _ _ hsd]
  · unfold Kernel.deliver
    rw [endReceive_log]
    refine ⟨⟨mPtr, readMess k.mem caller mPtr, if_pos rfl, fun i hi => withSource_apply _ _ hi⟩,
      fun m' => ?_, h.intact⟩
    change (if dest = caller then _ else sendingFrom k.log dest) ≠ _
    rw [if_neg hne, h.not_sending hd]
    exact fun he => nomatch he
  · unfold Kernel.deliver endReceive wake
    split <;> exact h.noSignal

/-- A blocked sender has its message in the buffer. -/
theorem Held.block (h : Held k) (hne : caller ≠ HARDWARE) (hc : k.pFlags caller = .clear)
    (hd : (k.pFlags dest).slotFree = false) (hw : waitsFor k dest caller = false)
    (hb : block k caller dest mPtr = some k') : Held k' := by
  have hr := h.rendezvous.block hne hc hd hw hb
  obtain ⟨s, c, hb', -⟩ := h.rendezvous.linked.block hne hc dest mPtr
  obtain rfl := Option.some.inj (hb.symm.trans hb')
  refine ⟨hr, fun x => ?_, h.intact, h.noSignal⟩
  change (if x = caller then some (mPtr, readMess k.mem caller mPtr) else sendingFrom k.log x) =
    if (update k.pFlags caller { k.pFlags caller with sending := true } x).sending then
      some (update k.pMessbuf caller mPtr x, readMess k.mem x (update k.pMessbuf caller mPtr x))
    else none
  by_cases hx : x = caller
  · rw [if_pos hx, hx, update_self, update_self]
    rfl
  · rw [if_neg hx, update_of_ne hx, update_of_ne hx]
    exact h.buffers x

/-- A message is taken by a receiver that is not sending. -/
theorem Held.acquire {src : Int} {prevPtr : Option Slot} (h : Held k)
    (hf : findSender k.callers caller src = some (prevPtr, some sender))
    (hc : (k.pFlags caller).sending = false) (mPtr : Nat) :
    Held (acquire k caller prevPtr sender mPtr (src == ANY)) := by
  obtain ⟨l₁, l₂, hl, -, -, -⟩ := h.rendezvous.linked.waiting.findSender_some hf
  have hsend : (k.pFlags sender).sending = true := by
    apply h.rendezvous.linked.flags.sending sender caller
    rw [hl]
    exact List.mem_append_right _ (List.mem_cons_self ..)
  refine ⟨h.rendezvous.acquire hf mPtr, fun s => ?_, ?_, ?_⟩
  · unfold Kernel.acquire
    dsimp only
    rw [endSend_log, endSend_pFlags]
    have hmess : (endSend (cpMess k sender (k.pMessbuf sender) caller mPtr (src == ANY))
        sender).pMessbuf = k.pMessbuf := wake_pMessbuf ..
    have hmem : (endSend (cpMess k sender (k.pMessbuf sender) caller mPtr (src == ANY))
        sender).mem = storeMess k.mem caller mPtr
          (withSource (procNr sender) (readMess k.mem sender (k.pMessbuf sender))) := wake_mem ..
    rw [hmess, hmem]
    change (if s = sender then none else sendingFrom k.log s) = _
    by_cases hs : s = sender
    · rw [if_pos hs, hs, update_self]
      rfl
    · rw [if_neg hs, update_of_ne hs, h.buffers]
      change _ = if (k.pFlags s).sending then _ else none
      by_cases hsc : s = caller
      · rw [hsc, hc]
        rfl
      · unfold readMess
        rw [storeMess_of_ne _ _ _ hsc]
  · unfold Kernel.acquire
    dsimp only
    rw [endSend_log]
    refine ⟨⟨k.pMessbuf sender, readMess k.mem sender (k.pMessbuf sender), ?_, fun i hi =>
      withSource_apply _ _ hi⟩, fun m' => ?_, h.intact⟩
    · rw [h.buffers, hsend]
      rfl
    · rw [h.not_sending hc]
      exact fun he => nomatch he
  · unfold Kernel.acquire Kernel.endSend wake
    split <;> exact h.noSignal

/-- A receiver that is sending as well waits with the buffer from which it sends. -/
theorem Held.await {src : Int} {prevPtr : Option Slot} (h : Held k) (hne : caller ≠ HARDWARE)
    (hc : (k.pFlags caller).slotFree = false)
    (hf : findSender k.callers caller src = some (prevPtr, none))
    (hm : (k.pFlags caller).sending = true → k.pMessbuf caller = mPtr)
    (ha : await k caller src mPtr = some k') : Held k' := by
  have hr := h.rendezvous.await hne hc hf ha
  obtain ⟨s, ha', -⟩ := h.rendezvous.linked.await hne hc src mPtr
  obtain rfl := Option.some.inj (ha.symm.trans ha')
  refine ⟨hr, fun x => ?_, h.intact, h.noSignal⟩
  unfold startReceive
  dsimp only
  rw [flag_update PFlags.sending (by rfl), h.buffers]
  by_cases hx : x = caller
  · rw [hx, update_self]
    split
    · rw [hm ‹_›]
    · rfl
  · rw [update_of_ne hx]

/-- A process that does not send writes to its own memory. -/
theorem Held.store (h : Held k) (hs : (k.pFlags rp).sending = false) (a : Nat) (b : UInt8) :
    Held (storeByte k rp a b) := by
  refine ⟨h.rendezvous.frame (storeByte_frame k rp a b), fun s => ?_, h.intact, h.noSignal⟩
  unfold storeByte
  dsimp only
  rw [h.buffers]
  by_cases he : s = rp
  · rw [he, hs]
    rfl
  · unfold readMess
    rw [update_of_ne he]

/-- Of all calls, only system calls, and stores by the processes that make them. -/
def IsMessageCall : Call → Prop
  | .sysCall _ _ _ _ => True
  | .store _ _ _ => True
  | _ => False

instance : (c : Call) → Decidable (IsMessageCall c)
  | .sysCall _ _ _ _ => .isTrue trivial
  | .store _ _ _ => .isTrue trivial
  | .interrupt _ _ => .isFalse id
  | .sched => .isFalse id
  | .causeSig _ _ => .isFalse id
  | .inform => .isFalse id
  | .fork _ _ _ => .isFalse id
  | .newmap _ _ => .isFalse id
  | .exec _ _ => .isFalse id
  | .xit _ _ => .isFalse id

/-- A message is not sent to a receiver that is itself still sending, and nobody sends to a process
that waits to send to it, or to itself, and receives in the same call. -/
def KeepsBuffer (k : State) : Call → Prop
  | .sysCall function caller srcDest mPtr => ∀ dest, procAddr srcDest = some dest →
    function &&& SEND ≠ 0 → ¬(function ≠ BOTH ∧ procNr caller ≥ LOW_USER) →
    sendChecks k caller srcDest mPtr →
      (waitsFor k dest caller = true → (k.pFlags dest).sending = false) ∧
      (waitsFor k dest caller = false → function &&& RECEIVE ≠ 0 →
        dest ≠ caller ∧ ((findSender k.callers caller srcDest).bind Prod.snd) = none)
  | _ => True

instance (k : State) : (c : Call) → Decidable (KeepsBuffer k c)
  | .sysCall function caller srcDest mPtr =>
    inferInstanceAs (Decidable (∀ dest, procAddr srcDest = some dest →
      function &&& SEND ≠ 0 → ¬(function ≠ BOTH ∧ procNr caller ≥ LOW_USER) →
      sendChecks k caller srcDest mPtr →
        (waitsFor k dest caller = true → (k.pFlags dest).sending = false) ∧
        (waitsFor k dest caller = false → function &&& RECEIVE ≠ 0 →
          dest ≠ caller ∧ ((findSender k.callers caller srcDest).bind Prod.snd) = none)))
  | .interrupt _ _ => .isTrue trivial
  | .sched => .isTrue trivial
  | .causeSig _ _ => .isTrue trivial
  | .inform => .isTrue trivial
  | .fork _ _ _ => .isTrue trivial
  | .newmap _ _ => .isTrue trivial
  | .exec _ _ => .isTrue trivial
  | .xit _ _ => .isTrue trivial
  | .store _ _ _ => .isTrue trivial

/-- Receiving, when nothing that is accepted waits for a caller that is sending already. -/
theorem Held.miniRec {src : Int} (h : Held k) (hne : caller ≠ HARDWARE)
    (hc : (k.pFlags caller).slotFree = false)
    (hs : (k.pFlags caller).sending = true →
      k.pMessbuf caller = mPtr ∧ ∀ s ∈ pendingTo k.log caller, accepts src s = false)
    (hr : miniRec k caller src mPtr = some (n, k')) : Held k' := by
  rcases miniRec_cases hr with ⟨prevPtr, sender, hf, rfl⟩ | ⟨prevPtr, k₁, hf, ha, hi⟩
  · obtain ⟨l₁, l₂, hl, -, hacc, -⟩ := h.rendezvous.linked.waiting.findSender_some hf
    apply h.acquire hf
    rw [← Bool.not_eq_true]
    intro hsend
    have := (hs hsend).2 sender
    rw [hacc, hl] at this
    exact absurd (this (List.mem_append_right _ (List.mem_cons_self ..))) (by decide)
  · have h₁ : Held k₁ := h.await hne hc hf (fun hsend => (hs hsend).1) ha
    rcases hi with rfl | ⟨hsig, -⟩
    · exact h₁
    · rw [h₁.noSignal] at hsig
      exact absurd hsig (by decide)

/-- Sending, to a receiver that is not sending, or by blocking the caller with its buffer. -/
theorem Held.miniSend {dest : Int} (h : Held k) (hne : caller ≠ HARDWARE)
    (hc : k.pFlags caller = .clear)
    (hkeep : ∀ destPtr, procAddr dest = some destPtr → sendChecks k caller dest mPtr →
      waitsFor k destPtr caller = true → (k.pFlags destPtr).sending = false)
    (hs : miniSend k caller dest mPtr = some (n, k')) :
    Held k' ∧ ((k'.pFlags caller).sending = true → n = OK ∧ k'.pMessbuf caller = mPtr ∧
      ∃ destPtr, procAddr dest = some destPtr ∧ waitsFor k destPtr caller = false ∧
        pendingTo k'.log =
          update (pendingTo k.log) destPtr (pendingTo k.log destPtr ++ [caller])) := by
  have hclear : (k.pFlags caller).sending = false := by
    rw [hc]
    rfl
  rcases miniSend_cases hs with ⟨-, rfl⟩ | ⟨rfl, destPtr, hd, hfree, ⟨hw, rfl⟩ | ⟨hw, -, hb⟩⟩
  · refine ⟨h, fun hsend => ?_⟩
    rw [hclear] at hsend
    cases hsend
  · refine ⟨h.deliver hc hw (hkeep destPtr hd (miniSend_checks hs) hw) mPtr, fun hsend => ?_⟩
    unfold Kernel.deliver at hsend
    rw [endReceive_pFlags, flag_update PFlags.sending (by rfl)] at hsend
    exact absurd (hclear.symm.trans hsend) (by decide)
  · have hk := h.block hne hc hfree hw hb
    obtain ⟨s, c, hb', -⟩ := h.rendezvous.linked.block hne hc destPtr mPtr
    obtain rfl := Option.some.inj (hb.symm.trans hb')
    exact ⟨hk, fun _ => ⟨rfl, update_self .., destPtr, hd, hw, pendingTo_accept ..⟩⟩

/-- A system call of a process that runs keeps every message in the buffer of its sender. -/
theorem Held.sysCall {function : Nat} {srcDest : Int} (h : Held k) (hr : Runnable k caller)
    (hkeep : KeepsBuffer k (.sysCall function caller srcDest mPtr))
    (hs : sysCall k function caller srcDest mPtr = some k') : Held k' := by
  obtain ⟨hne, hc⟩ := hr
  rcases sysCall_cases hs with ⟨n, rfl⟩ | ⟨hperm, n₁, k₁, hsend, hrec⟩
  · exact h.setRet caller n
  · obtain ⟨h₁, hfree, hwait⟩ : Held k₁ ∧ (k₁.pFlags caller).slotFree = false ∧
        ((k₁.pFlags caller).sending = true → function &&& RECEIVE ≠ 0 →
          k₁.pMessbuf caller = mPtr ∧
            ∀ s ∈ pendingTo k₁.log caller, accepts srcDest s = false) := by
      rcases hsend with ⟨-, -, rfl⟩ | ⟨hbit, hsend⟩
      · rw [hc]
        exact ⟨h, rfl, fun hf => nomatch hf⟩
      · obtain ⟨h₁, hpost⟩ := h.miniSend hne hc
          (fun dest hd hchk => (hkeep dest hd hbit hperm hchk).1) hsend
        refine ⟨h₁, ?_, fun hf hbit' => ?_⟩
        · rw [miniSend_slotFree hsend, hc]
          rfl
        · obtain ⟨rfl, hmess, dest, hd, hw, hpend⟩ := hpost hf
          obtain ⟨hself, hfind⟩ := (hkeep dest hd hbit hperm (miniSend_checks hsend)).2 hw hbit'
          refine ⟨hmess, ?_⟩
          rw [hpend, update_of_ne hself.symm]
          obtain ⟨l₁, l₂, hl, hno, -, he⟩ := h.rendezvous.linked.waiting.findSender caller srcDest
          rw [he, Option.bind_some, List.head?_eq_none_iff] at hfind
          rw [hl, hfind, List.append_nil]
          exact hno
    rcases hrec with ⟨rfl | rfl, -⟩ | ⟨-, hbit, n₂, k₂, k₃, hk₂, hm, rfl⟩
    · exact h₁
    · exact h₁.setRet caller n₁
    · apply Held.setRet
      rcases hk₂ with rfl | rfl
      · exact h₁.miniRec hne hfree (fun hf => hwait hf hbit) hm
      · exact (h₁.setRet caller n₁).miniRec hne hfree (fun hf => hwait hf hbit) hm

/-- A process table in which nobody is sending, before the first call. -/
structure Quiet (k : State) : Prop where
  linked : Linked k fun _ => []
  sending : ∀ s, (k.pFlags s).sending = false
  noSignal : k.sigProcs = 0
  log : k.log = []

theorem Quiet.held (h : Quiet k) : Held k := by
  have hlog : pendingTo k.log = fun _ => [] := by rw [h.log]; rfl
  refine ⟨⟨?_, ?_, fun s hs => ?_, fun d _ => ?_, fun d s _ hs => ?_⟩, fun s => ?_, ?_, h.noSignal⟩
  · rw [hlog]
    exact h.linked
  · rw [h.log]
    trivial
  · rw [h.sending] at hs
    cases hs
  · rw [hlog]
  · rw [hlog] at hs
    cases hs
  · rw [h.log, h.sending]
    rfl
  · rw [h.log]
    trivial

theorem Quiet.main (vars : KernelVars) (base : Nat) (sizes : Nat → Nat) (mem : Memory) :
    Quiet (main vars base sizes mem) := by
  refine ⟨Linked.main vars base sizes mem, fun s => ?_, rfl, rfl⟩
  change (if procNr s ≤ INIT_PROC_NR then PFlags.clear else .free).sending = false
  split <;> rfl

/-- In every run of system calls that starts with nobody sending, and in which no message goes to
a receiver that is sending itself, or is taken by a caller that is sending in the same call, what
is delivered is what has been sent. -/
theorem message_integrity (hr : Reach perform
    (fun k c => IsMessageCall c ∧ AsIssued k c ∧ KeepsBuffer k c) Quiet k) : Intact k.log := by
  have h : Held k := by
    refine hr.invariant Held (fun k => Quiet.held) ?_
    rintro k c k' h ⟨hc, hg, hkeep⟩ hp
    cases c with
    | sysCall function caller srcDest mPtr => exact h.sysCall hg hkeep hp
    | store rp a b =>
      obtain rfl := Option.some.inj hp
      apply h.store
      rw [hg.2]
      rfl
    | _ => exact hc.elim
  exact h.intact

section Example

/-- INIT asks MM, and MM answers. -/
def askAndAnswer : List Call :=
  tasksWait ++ [.sysCall RECEIVE MM ANY 100, .sysCall RECEIVE FS ANY 100, .store 10 102 1,
    .sysCall BOTH 10 0 100, .sysCall SEND MM 2 200]

theorem message_integrity_example :
    ∃ k, run perform (fun k c => IsMessageCall c ∧ AsIssued k c ∧ KeepsBuffer k c) exampleStart
      askAndAnswer = some k ∧ k.log.length = 4 ∧ Intact k.log := by
  have hrun : (run perform (fun k c => IsMessageCall c ∧ AsIssued k c ∧ KeepsBuffer k c)
      exampleStart askAndAnswer).any (fun k => k.log.length = 4) = true := by decide +kernel
  obtain ⟨k, hk, hlog⟩ := (Option.any_eq_true _ _).mp hrun
  exact ⟨k, hk, of_decide_eq_true hlog,
    message_integrity (.of_run (.init (Quiet.main _ _ _ _)) hk)⟩

/-- The last message that was delivered is not of the type that was sent. -/
def garbled : List Event → Bool
  | .deliver src _ _ m _ :: log => (sendingFrom log src).any fun r => m 2 ≠ r.2 2
  | _ => false

theorem Intact.not_garbled {log : List Event} (h : Intact log) : ¬garbled log = true := by
  intro hg
  cases log with
  | nil => cases hg
  | cons e log =>
    cases e with
    | deliver src dst buf m any =>
      obtain ⟨⟨b, m', hm, hi⟩, -⟩ := h
      rw [garbled, hm, Option.any_some, decide_eq_true_eq] at hg
      exact hg (hi 2 (le_refl 2))
    | _ => cases hg

/-- FS sends a request to the terminal task and receives in the same call, while that task is busy
and then sends to FS. -/
def crossingSends : List Call :=
  [.sysCall RECEIVE 0 ANY 100, .sysCall RECEIVE 1 (-2) 100, .sysCall RECEIVE 2 ANY 100,
    .sysCall RECEIVE 3 ANY 100, .sysCall RECEIVE 4 ANY 100, .sysCall RECEIVE 5 ANY 100,
    .sysCall RECEIVE 6 ANY 100, .sysCall RECEIVE MM ANY 100, .store FS 102 3,
    .sysCall BOTH FS (-7) 100, .sysCall BOTH 10 0 100, .sysCall SEND MM (-2) 100,
    .sysCall RECEIVE MM ANY 100, .sysCall SEND 6 (-7) 100, .sysCall RECEIVE 6 ANY 100,
    .sysCall SEND 1 1 100, .sysCall RECEIVE 1 ANY 100]

/-- The terminal task gets its own message back and never sees the request. -/
theorem message_integrity_crossing :
    ¬∀ k, Reach perform (fun k c => IsMessageCall c ∧ AsIssued k c) Quiet k → Intact k.log := by
  intro hall
  have hrun : (run perform (fun k c => IsMessageCall c ∧ AsIssued k c)
      exampleStart crossingSends).any (fun k => garbled k.log) = true := by decide +kernel
  obtain ⟨k, hk, hg⟩ := (Option.any_eq_true _ _).mp hrun
  exact (hall k (.of_run (.init (Quiet.main _ _ _ _)) hk)).not_garbled hg

end Example

end Minix.Kernel
