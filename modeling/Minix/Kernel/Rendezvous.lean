import Minix.Kernel.Calls

/-!
# No message is lost or sent twice

The log of a run says which messages have been accepted and not delivered, and in which
order they were queued. The queues of the process table are these lists: what `mini_send`
accepts waits there until it is delivered, once, or until its sender exits.

A process that exits while others wait to send to it, or that is forked while it waits or is
waited for, breaks this.
-/

namespace Minix.Kernel

open Intrusive Function Transition

/-- Whose messages to `d` have been accepted and wait, the oldest first. -/
def pendingTo : List Event → Slot → List Slot
  | [], _ => []
  | .accept src dst _ _ :: log, d =>
    if d = dst then pendingTo log d ++ [src] else pendingTo log d
  | .deliver src dst _ _ _ :: log, d =>
    if d = dst then (pendingTo log d).erase src else pendingTo log d
  | .exit rc :: log, d => (pendingTo log d).erase rc
  | .irq _ _ :: log, d => pendingTo log d

/-- A process has one message at a time that waits, only such messages are delivered, and a
receiver that takes messages from anybody gets the oldest. -/
def InOrder : List Event → Prop
  | [] => True
  | .accept src _ _ _ :: log => (∀ d, src ∉ pendingTo log d) ∧ InOrder log
  | .deliver src dst _ _ any :: log =>
    src ∈ pendingTo log dst ∧ (any = true → (pendingTo log dst).head? = some src) ∧ InOrder log
  | .exit _ :: log => InOrder log
  | .irq _ _ :: log => InOrder log

/-- How many messages from `s` to `d` have been accepted. -/
def accepted : List Event → Slot → Slot → Nat
  | [], _, _ => 0
  | .accept src dst _ _ :: log, s, d => accepted log s d + if src = s ∧ dst = d then 1 else 0
  | _ :: log, s, d => accepted log s d

/-- How many messages from `s` to `d` have been delivered. -/
def delivered : List Event → Slot → Slot → Nat
  | [], _, _ => 0
  | .deliver src dst _ _ _ :: log, s, d => delivered log s d + if src = s ∧ dst = d then 1 else 0
  | _ :: log, s, d => delivered log s d

/-- How many messages from `s` to `d` have gone with the exit of `s`. -/
def discarded : List Event → Slot → Slot → Nat
  | [], _, _ => 0
  | .exit rc :: log, s, d =>
    discarded log s d + if rc = s ∧ s ∈ pendingTo log d then 1 else 0
  | _ :: log, s, d => discarded log s d

variable {k k' : State} {caller dest sender parent child rc rp : Slot} {log : List Event}
  {mPtr : Nat}

theorem pendingTo_accept (src dst : Slot) (buf : Nat) (m : Message) (log : List Event) :
    pendingTo (.accept src dst buf m :: log) =
      update (pendingTo log) dst (pendingTo log dst ++ [src]) := by
  ext1 d
  rw [pendingTo]
  by_cases hd : d = dst
  · rw [if_pos hd, hd, update_self]
  · rw [if_neg hd, update_of_ne hd]

theorem pendingTo_deliver (src dst : Slot) (buf : Nat) (m : Message) (any : Bool)
    (log : List Event) : pendingTo (.deliver src dst buf m any :: log) =
      update (pendingTo log) dst ((pendingTo log dst).erase src) := by
  ext1 d
  rw [pendingTo]
  by_cases hd : d = dst
  · rw [if_pos hd, hd, update_self]
  · rw [if_neg hd, update_of_ne hd]

/-- A message that is handed over at once leaves the queues as they were. -/
theorem pendingTo_deliver_accept {src dst : Slot} {buf buf' : Nat} {m m' : Message} {any : Bool}
    (h : src ∉ pendingTo log dst) :
    pendingTo (.deliver src dst buf' m' any :: .accept src dst buf m :: log) = pendingTo log := by
  rw [pendingTo_deliver, pendingTo_accept, update_self, update_idem, List.erase_append_right _ h,
    List.erase_cons_head, List.append_nil, update_eq_self]

/-- What has been accepted has been delivered or discarded, or waits. -/
theorem InOrder.balance (h : InOrder log) (s d : Slot) :
    accepted log s d =
      delivered log s d + discarded log s d + (pendingTo log d).count s := by
  induction log with
  | nil => rfl
  | cons e log ih =>
    cases e with
    | accept src dst buf m =>
      have := ih h.2
      simp only [accepted, delivered, discarded, pendingTo]
      by_cases hd : d = dst
      · rw [if_pos hd, List.count_append, List.count_singleton]
        by_cases hs : src = s
        · rw [if_pos ⟨hs, hd.symm⟩, if_pos (beq_iff_eq.mpr hs)]
          omega
        · rw [if_neg fun he => hs he.1, if_neg (by simpa using hs)]
          omega
      · rw [if_neg hd, if_neg fun he => hd he.2.symm]
        omega
    | deliver src dst buf m any =>
      have := ih h.2.2
      simp only [accepted, delivered, discarded, pendingTo]
      by_cases hd : d = dst
      · by_cases hs : src = s
        · have hpos : 0 < (pendingTo log d).count s :=
            List.count_pos_iff.mpr (hd ▸ hs ▸ h.1)
          rw [if_pos hd, if_pos ⟨hs, hd.symm⟩, hs, List.count_erase_self]
          omega
        · rw [if_pos hd, if_neg fun he => hs he.1, List.count_erase_of_ne (Ne.symm hs)]
          omega
      · rw [if_neg hd, if_neg fun he => hd he.2.symm]
        omega
    | exit rc =>
      have := ih h
      simp only [accepted, delivered, discarded, pendingTo]
      by_cases hs : rc = s
      · by_cases hm : s ∈ pendingTo log d
        · have hpos : 0 < (pendingTo log d).count s := List.count_pos_iff.mpr hm
          rw [if_pos ⟨hs, hm⟩, hs, List.count_erase_self]
          omega
        · rw [if_neg fun he => hm he.2, hs, List.erase_of_not_mem hm]
          omega
      · rw [if_neg fun he => hs he.1, List.count_erase_of_ne (Ne.symm hs)]
        omega
    | irq task m => exact ih h

/-- The queues are what the log says, and a receiver is blocked only as long as nobody that it
accepts waits. -/
structure Rendezvous (k : State) : Prop where
  linked : Linked k (pendingTo k.log)
  inOrder : InOrder k.log
  sending : ∀ s, (k.pFlags s).sending = true → ∃ d, s ∈ pendingTo k.log d
  live : ∀ d, (k.pFlags d).slotFree = true → pendingTo k.log d = []
  receiving : ∀ d s, (k.pFlags d).receiving = true → s ∈ pendingTo k.log d →
    accepts (k.pGetfrom d) s = false

/-- Nothing waits for a receiver that accepts everything. -/
theorem Rendezvous.nothing_waits (h : Rendezvous k) (hr : (k.pFlags dest).receiving = true)
    (hany : k.pGetfrom dest = ANY) : pendingTo k.log dest = [] := by
  rw [List.eq_nil_iff_forall_not_mem]
  intro s hs
  have := h.receiving dest s hr hs
  unfold accepts at this
  rw [hany, beq_self_eq_true, Bool.true_or] at this
  cases this

/-- A receiver that is deblocked was not sent anything since. -/
theorem Rendezvous.endReceive (h : Rendezvous k) (hr : (k.pFlags rp).receiving = true) :
    Rendezvous (endReceive k rp) := by
  have hl := h.linked.endReceive hr
  refine ⟨?_, ?_, fun s hs => ?_, fun d hd => ?_, fun d s hd hs => ?_⟩
  · rw [endReceive_log]
    exact hl
  · rw [endReceive_log]
    exact h.inOrder
  · rw [endReceive_log]
    rw [endReceive_pFlags, flag_update PFlags.sending (by rfl)] at hs
    exact h.sending s hs
  · rw [endReceive_log]
    rw [endReceive_pFlags, flag_update PFlags.slotFree (by rfl)] at hd
    exact h.live d hd
  · rw [endReceive_log] at hs
    rw [endReceive_pGetfrom]
    rw [endReceive_pFlags] at hd
    by_cases he : d = rp
    · rw [he, update_self] at hd
      cases hd
    · rw [update_of_ne he] at hd
      exact h.receiving d s hd hs

/-- A message that is handed over passes nobody who waits. -/
theorem Rendezvous.deliver (h : Rendezvous k) (hc : caller = HARDWARE ∨ k.pFlags caller = .clear)
    (hw : waitsFor k dest caller = true) (mPtr : Nat) : Rendezvous (deliver k caller dest mPtr) := by
  have hr := waitsFor_receiving hw
  have hout : ∀ d, caller ∉ pendingTo k.log d := by
    apply h.linked.not_waiting
    rcases hc with rfl | hc
    · rw [h.linked.flags.hardware]
      rfl
    · rw [hc]
      rfl
  unfold Kernel.deliver
  apply Rendezvous.endReceive
  · have hlog : pendingTo (cpMess (logAccept k caller dest mPtr) caller mPtr dest (k.pMessbuf dest)
        (k.pGetfrom dest == ANY)).log = pendingTo k.log := pendingTo_deliver_accept (hout dest)
    refine ⟨?_, ⟨?_, fun hany => ?_, hout, h.inOrder⟩, ?_, ?_, ?_⟩
    · rw [hlog]
      exact ⟨h.linked.queued, h.linked.waiting, h.linked.flags⟩
    · unfold logAccept
      rw [pendingTo_accept, update_self]
      exact List.mem_append_right _ (List.mem_singleton_self _)
    · unfold logAccept
      rw [pendingTo_accept, update_self, h.nothing_waits hr (beq_iff_eq.mp hany)]
      rfl
    · rw [hlog]
      exact h.sending
    · rw [hlog]
      exact h.live
    · rw [hlog]
      exact h.receiving
  · exact hr

/-- A sender that is blocked is the last on one queue. -/
theorem Rendezvous.block (h : Rendezvous k) (hne : caller ≠ HARDWARE)
    (hc : k.pFlags caller = .clear) (hd : (k.pFlags dest).slotFree = false)
    (hw : waitsFor k dest caller = false) (hb : block k caller dest mPtr = some k') :
    Rendezvous k' := by
  obtain ⟨s, c, hb', hl⟩ := h.linked.block hne hc dest mPtr
  obtain rfl := Option.some.inj (hb.symm.trans hb')
  have hout := h.linked.not_waiting (show (k.pFlags caller).sending = false by rw [hc]; rfl)
  have hlog : pendingTo (startSend (logAccept k caller dest mPtr) caller mPtr s c).log =
      update (pendingTo k.log) dest (pendingTo k.log dest ++ [caller]) := pendingTo_accept ..
  have hflags : (startSend (logAccept k caller dest mPtr) caller mPtr s c).pFlags =
      update k.pFlags caller { k.pFlags caller with sending := true } := rfl
  have hmem : ∀ x d, x ∈ update (pendingTo k.log) dest (pendingTo k.log dest ++ [caller]) d ↔
      x ∈ pendingTo k.log d ∨ x = caller ∧ d = dest := by
    intro x d
    by_cases he : d = dest
    · rw [he, update_self, List.mem_append, List.mem_singleton]
      exact or_congr_right (and_iff_left rfl).symm
    · rw [update_of_ne he]
      exact (or_iff_left fun hx => he hx.2).symm
  refine ⟨?_, ⟨hout, h.inOrder⟩, fun x hx => ?_, fun d hfree => ?_, fun d x hrec hx => ?_⟩
  · rw [hlog]
    exact hl
  · rw [hlog]
    rw [hflags] at hx
    by_cases he : x = caller
    · exact ⟨dest, (hmem x dest).mpr (Or.inr ⟨he, rfl⟩)⟩
    · rw [update_of_ne he] at hx
      obtain ⟨d, hd⟩ := h.sending x hx
      exact ⟨d, (hmem x d).mpr (Or.inl hd)⟩
  · rw [hlog, List.eq_nil_iff_forall_not_mem]
    rw [hflags, flag_update PFlags.slotFree (by rfl)] at hfree
    intro x hx
    rcases (hmem x d).mp hx with hx | ⟨-, rfl⟩
    · rw [h.live d hfree] at hx
      cases hx
    · rw [hd] at hfree
      cases hfree
  · rw [hflags, flag_update PFlags.receiving (by rfl)] at hrec
    rw [hlog] at hx
    change accepts (k.pGetfrom d) x = false
    rcases (hmem x d).mp hx with hx | ⟨rfl, rfl⟩
    · exact h.receiving d x hrec hx
    · unfold waitsFor at hw
      rwa [hrec, Bool.true_and] at hw

/-- A receiver takes the first message that it accepts, and it is delivered for good. -/
theorem Rendezvous.acquire {src : Int} {prevPtr : Option Slot} (h : Rendezvous k)
    (hf : findSender k.callers caller src = some (prevPtr, some sender)) (mPtr : Nat) :
    Rendezvous (Kernel.acquire k caller prevPtr sender mPtr (src == ANY)) := by
  obtain ⟨l₁, l₂, hl, hno, -, rfl⟩ := h.linked.waiting.findSender_some hf
  have hlink := h.linked.acquire hl mPtr (src == ANY)
  have hmem : sender ∈ pendingTo k.log caller := by
    rw [hl]
    exact List.mem_append_right _ (List.mem_cons_self ..)
  have hl₁ : sender ∉ l₁ := by
    intro hm
    have hnd := (h.linked.waiting.chain caller).nodup
    rw [hl, List.nodup_append] at hnd
    exact hnd.2.2 sender hm sender (List.mem_cons_self ..) rfl
  have hlog : pendingTo (Kernel.acquire k caller l₁.getLast? sender mPtr (src == ANY)).log =
      update (pendingTo k.log) caller (l₁ ++ l₂) := by
    unfold Kernel.acquire
    dsimp only
    rw [endSend_log]
    unfold cpMess
    dsimp only
    rw [pendingTo_deliver, hl, List.erase_append_right _ hl₁, List.erase_cons_head]
  have hflags : (Kernel.acquire k caller l₁.getLast? sender mPtr (src == ANY)).pFlags =
      update k.pFlags sender { k.pFlags sender with sending := false } := endSend_pFlags ..
  have hfrom : (Kernel.acquire k caller l₁.getLast? sender mPtr (src == ANY)).pGetfrom = k.pGetfrom :=
    endSend_pGetfrom ..
  have hsub : ∀ x d, x ∈ update (pendingTo k.log) caller (l₁ ++ l₂) d → x ∈ pendingTo k.log d :=
    fun x d hx => (h.linked.left hl hx).1
  refine ⟨?_, ?_, fun x hx => ?_, fun d hd => ?_, fun d x hrec hx => ?_⟩
  · rw [hlog]
    exact hlink
  · unfold Kernel.acquire
    dsimp only
    rw [endSend_log]
    refine ⟨hmem, fun hany => ?_, h.inOrder⟩
    -- everybody is accepted, so nobody has been passed over
    rw [hl]
    cases l₁ with
    | nil => rfl
    | cons x l₁ =>
      have := hno x (List.mem_cons_self ..)
      unfold accepts at this
      rw [hany, Bool.true_or] at this
      cases this
  · rw [hflags] at hx
    by_cases he : x = sender
    · rw [he, update_self] at hx
      cases hx
    · rw [update_of_ne he] at hx
      obtain ⟨d, hd⟩ := h.sending x hx
      refine ⟨d, ?_⟩
      rw [hlog]
      by_cases hdc : d = caller
      · rw [hdc, hl, List.mem_append, List.mem_cons] at hd
        rw [hdc, update_self, List.mem_append]
        exact hd.imp_right fun hd => hd.resolve_left he
      · rwa [update_of_ne hdc]
  · rw [hlog, List.eq_nil_iff_forall_not_mem]
    rw [hflags, flag_update PFlags.slotFree (by rfl)] at hd
    intro x hx
    have := hsub x d hx
    rw [h.live d hd] at this
    cases this
  · rw [hfrom]
    rw [hflags, flag_update PFlags.receiving (by rfl)] at hrec
    rw [hlog] at hx
    exact h.receiving d x hrec (hsub x d hx)

/-- A receiver is blocked because nobody that it accepts waits. -/
theorem Rendezvous.await {src : Int} {prevPtr : Option Slot} (h : Rendezvous k)
    (hne : caller ≠ HARDWARE) (hc : (k.pFlags caller).slotFree = false)
    (hf : findSender k.callers caller src = some (prevPtr, none))
    (ha : await k caller src mPtr = some k') : Rendezvous k' := by
  obtain ⟨s, ha', hl⟩ := h.linked.await hne hc src mPtr
  obtain rfl := Option.some.inj (ha.symm.trans ha')
  have hno := h.linked.waiting.findSender_none hf
  refine ⟨hl, h.inOrder, fun x hx => ?_, fun d hd => ?_, fun d x hrec hx => ?_⟩
  · apply h.sending x
    unfold startReceive at hx
    dsimp only at hx
    rwa [flag_update PFlags.sending (by rfl)] at hx
  · apply h.live d
    unfold startReceive at hd
    dsimp only at hd
    rwa [flag_update PFlags.slotFree (by rfl)] at hd
  · change accepts (update k.pGetfrom caller src d) x = false
    by_cases he : d = caller
    · rw [he, update_self]
      exact hno x (he ▸ hx)
    · rw [update_of_ne he]
      apply h.receiving d x _ hx
      unfold startReceive at hrec
      dsimp only at hrec
      rwa [update_of_ne he] at hrec

theorem Rendezvous.frame (h : Rendezvous k) (hf : Frame k k') : Rendezvous k' := by
  have hl := h.linked.frame hf
  obtain ⟨-, hp, -, -, hg, hlog⟩ := hf
  refine ⟨?_, ?_, ?_, ?_, ?_⟩
  · rw [hlog]
    exact hl
  · rw [hlog]
    exact h.inOrder
  · rw [hlog, hp]
    exact h.sending
  · rw [hlog, hp]
    exact h.live
  · rw [hlog, hp, hg]
    exact h.receiving

theorem Rendezvous.effect (h : Rendezvous k) (he : Effect k k') : Rendezvous k' := by
  cases he with
  | deliver mPtr hc hw => exact h.deliver hc hw mPtr
  | block hne hc hd hw hb => exact h.block hne hc hd hw hb
  | acquire mPtr hne hf => exact h.acquire hf mPtr
  | await hne hc hf ha => exact h.await hne hc hf ha
  | sched =>
    obtain ⟨L, hq⟩ := h.linked.queued
    exact ⟨⟨hq.sched, h.linked.waiting, h.linked.flags⟩, h.inOrder, h.sending, h.live, h.receiving⟩
  | pick =>
    obtain ⟨L, hq⟩ := h.linked.queued
    exact ⟨⟨⟨L, hq.pickProc⟩, h.linked.waiting, h.linked.flags⟩, h.inOrder, h.sending, h.live,
      h.receiving⟩
  | irq =>
    exact ⟨⟨h.linked.queued, h.linked.waiting, h.linked.flags⟩, h.inOrder, h.sending, h.live,
      h.receiving⟩
  | frame hf => exact h.frame hf

theorem Rendezvous.effects (h : Rendezvous k) (he : Effects k k') : Rendezvous k' := by
  induction he with
  | refl => exact h
  | tail _ he ih => exact ih.effect he

/-- The child of a process that neither sends nor is sent to has nothing to do with a message. -/
theorem Rendezvous.fork (h : Rendezvous k) (hp : pendingTo k.log parent = [])
    (hs : (k.pFlags parent).sending = false) (hc : (k.pFlags child).slotFree = true)
    (hne : child ≠ HARDWARE) (hpar : (k.pFlags parent).slotFree = false) (pid : Int) :
    Rendezvous (forked (copyProc k parent child) child pid) := by
  have hl := h.linked.fork hp hc hne hpar pid
  have hnil := h.live child hc
  have hsame : update (pendingTo k.log) child [] = pendingTo k.log := by
    rw [← hnil, update_eq_self]
  rw [hsame] at hl
  have hflags : (forked (copyProc k parent child) child pid).pFlags =
      update k.pFlags child { k.pFlags parent with noMap := true } := by
    unfold forked copyProc
    dsimp only
    rw [update_self, update_idem]
  refine ⟨hl, h.inOrder, fun x hx => ?_, fun d hd => ?_, fun d x hrec hx => ?_⟩
  · rw [hflags] at hx
    by_cases he : x = child
    · rw [he, update_self] at hx
      change (k.pFlags parent).sending = true at hx
      rw [hs] at hx
      cases hx
    · rw [update_of_ne he] at hx
      exact h.sending x hx
  · by_cases he : d = child
    · rw [he]
      exact hnil
    · rw [hflags, update_of_ne he] at hd
      exact h.live d hd
  · by_cases he : d = child
    · rw [he] at hx
      change x ∈ pendingTo k.log child at hx
      rw [hnil] at hx
      cases hx
    · rw [hflags, update_of_ne he] at hrec
      change accepts (update k.pGetfrom child (k.pGetfrom parent) d) x = false
      rw [update_of_ne he]
      exact h.receiving d x hrec hx

theorem Rendezvous.newmap (h : Rendezvous k) (rp : Slot) (map : ProcMap) :
    Rendezvous (if k.pFlags rp ≠ .clear then wake (mapped k rp map) rp else mapped k rp map) := by
  have hl := h.linked.newmap rp map
  have hlog : (if k.pFlags rp ≠ .clear then wake (mapped k rp map) rp
      else mapped k rp map).log = k.log := by
    split
    · exact wake_log ..
    · rfl
  have hflags : (if k.pFlags rp ≠ .clear then wake (mapped k rp map) rp
      else mapped k rp map).pFlags = update k.pFlags rp { k.pFlags rp with noMap := false } := by
    split
    · exact wake_pFlags ..
    · rfl
  have hfrom : (if k.pFlags rp ≠ .clear then wake (mapped k rp map) rp
      else mapped k rp map).pGetfrom = k.pGetfrom := by
    split
    · exact wake_pGetfrom ..
    · rfl
  refine ⟨?_, ?_, fun x hx => ?_, fun d hd => ?_, fun d x hrec hx => ?_⟩
  · rw [hlog]
    exact hl
  · rw [hlog]
    exact h.inOrder
  · rw [hflags, flag_update PFlags.sending (by rfl)] at hx
    rw [hlog]
    exact h.sending x hx
  · rw [hflags, flag_update PFlags.slotFree (by rfl)] at hd
    rw [hlog]
    exact h.live d hd
  · rw [hflags, flag_update PFlags.receiving (by rfl)] at hrec
    rw [hlog] at hx
    rw [hfrom]
    exact h.receiving d x hrec hx

/-- A process for which nobody waits takes only its own message along. -/
theorem Rendezvous.exit (h : Rendezvous k) (hne : rc ≠ HARDWARE) (hnil : pendingTo k.log rc = []) :
    ∃ k', removeProc k rc = some k' ∧ Rendezvous k' := by
  obtain ⟨s, c, he, hl⟩ := h.linked.exit rc hne
  have hmem : ∀ x d, x ∈ (pendingTo k.log d).erase rc ↔ x ≠ rc ∧ x ∈ pendingTo k.log d :=
    fun x d => (h.linked.waiting.chain d).nodup.mem_erase_iff
  refine ⟨_, he, hl, h.inOrder, fun x hx => ?_, fun d hd => ?_, fun d x hrec hx => ?_⟩
  · unfold freeSlot at hx
    dsimp only at hx
    by_cases hxrc : x = rc
    · rw [hxrc, update_self] at hx
      cases hx
    · rw [update_of_ne hxrc] at hx
      obtain ⟨d, hd⟩ := h.sending x hx
      exact ⟨d, (hmem x d).mpr ⟨hxrc, hd⟩⟩
  · change (pendingTo k.log d).erase rc = []
    have hd' : pendingTo k.log d = [] := by
      by_cases hdrc : d = rc
      · rw [hdrc]
        exact hnil
      · unfold freeSlot at hd
        dsimp only at hd
        rw [update_of_ne hdrc] at hd
        exact h.live d hd
    rw [hd']
    rfl
  · unfold freeSlot at hrec
    dsimp only at hrec
    by_cases hdrc : d = rc
    · rw [hdrc, update_self] at hrec
      cases hrec
    · rw [update_of_ne hdrc] at hrec
      exact h.receiving d x hrec ((hmem x d).mp hx).2

/-- A process is only forked when it neither sends nor is sent to, and only exits when nobody waits
to send to it. -/
def LeavesNoSender (k : State) : Call → Prop
  | .fork k1 _ _ => ∀ rp, procAddr k1 = some rp →
    k.callers.pCallerq rp = none ∧ (k.pFlags rp).sending = false
  | .xit _ proc => ∀ rc, procAddr proc = some rc → k.callers.pCallerq rc = none
  | _ => True

instance (k : State) : (c : Call) → Decidable (LeavesNoSender k c)
  | .fork k1 _ _ => inferInstanceAs (Decidable (∀ rp, procAddr k1 = some rp →
    k.callers.pCallerq rp = none ∧ (k.pFlags rp).sending = false))
  | .xit _ proc =>
    inferInstanceAs (Decidable (∀ rc, procAddr proc = some rc → k.callers.pCallerq rc = none))
  | .sysCall _ _ _ _ => .isTrue trivial
  | .interrupt _ _ => .isTrue trivial
  | .sched => .isTrue trivial
  | .causeSig _ _ => .isTrue trivial
  | .inform => .isTrue trivial
  | .newmap _ _ => .isTrue trivial
  | .exec _ _ => .isTrue trivial
  | .store _ _ _ => .isTrue trivial

/-- At the start nothing has been sent. -/
theorem Rendezvous.started (h : Started k) : Rendezvous k := by
  obtain ⟨vars, base, sizes, mem, rfl⟩ := h
  refine ⟨Linked.main vars base sizes mem, trivial, fun s hs => ?_, fun _ _ => rfl,
    fun d s _ hs => ?_⟩
  · change (if procNr s ≤ INIT_PROC_NR then PFlags.clear else .free).sending = true at hs
    split at hs <;> cases hs
  · cases hs

theorem Rendezvous.perform {c : Call} (h : Rendezvous k) (hg : AsIssued k c)
    (hq : LeavesNoSender k c) (hp : perform k c = some k') : Rendezvous k' := by
  cases c with
  | sysCall function caller srcDest mPtr => exact h.effects (sysCall_effects hg.1 hg.2 hp)
  | interrupt task mPtr => exact h.effects (interrupt_effects hp)
  | sched =>
    obtain rfl := Option.some.inj hp
    exact h.effect (.sched k)
  | causeSig n sigNr => exact h.effects (causeSig_effects hp)
  | inform => exact h.effects (inform_effects hp)
  | fork k1 k2 pid =>
    rcases doFork_cases hp with rfl | ⟨parent, child, h₁, h₂, hne, rfl⟩
    · exact h
    · have hrec : (k.pFlags parent).receiving = true := flagsOf_some hg.1 h₁
      obtain ⟨hnone, hsend⟩ := hq parent h₁
      exact h.fork (h.linked.waiting.nil hnone) hsend (flagsOf_some hg.2 h₂) hne
        (h.linked.not_free (Or.inr hrec)) pid
  | newmap n map =>
    rcases doNewmap_cases hp with rfl | ⟨rp, -, rfl⟩
    · exact h
    · exact h.newmap rp map
  | exec n sp =>
    rcases doExec_cases hp with rfl | ⟨rp, hn, rfl⟩
    · exact h
    · exact (h.frame (resetProc_frame k rp sp)).endReceive (flagsOf_some hg hn)
  | xit parent proc =>
    rcases doXit_cases hp with rfl | ⟨rp, rc, hn, hne, hr⟩
    · exact h
    · obtain ⟨k₁, he, hk⟩ := (h.frame (accumTimes_frame k rp rc)).exit hne
        (h.linked.waiting.nil (hq rc hn))
      obtain rfl := Option.some.inj (hr.symm.trans he)
      exact hk
  | store rp a b =>
    obtain rfl := Option.some.inj hp
    exact h.frame (storeByte_frame k rp a b)

/-- The caller queues as they should be: acyclic lists, in the order of the messages that wait,
with a process on exactly one of them, once, when it is blocked sending, and none for a free
slot. -/
structure CallerQueues (k : State) : Prop where
  chain : ∀ d, Chain k.callers.pSendlink (k.callers.pCallerq d) (pendingTo k.log d)
  nodup : ∀ d, (pendingTo k.log d).Nodup
  sending : ∀ s, (k.pFlags s).sending = true ↔ ∃! d, s ∈ pendingTo k.log d
  queued : ∀ s d, s ∈ pendingTo k.log d → (k.pFlags s).sending = true
  live : ∀ s d, s ∈ pendingTo k.log d → (k.pFlags d).slotFree = false

theorem Rendezvous.callerQueues (h : Rendezvous k) : CallerQueues k where
  chain := h.linked.waiting.chain
  nodup d := (h.linked.waiting.chain d).nodup
  sending s := by
    constructor
    · intro hs
      obtain ⟨d, hd⟩ := h.sending s hs
      exact ⟨d, hd, fun d' hd' => h.linked.waiting.apart s d' d hd' hd⟩
    · rintro ⟨d, hd, -⟩
      exact h.linked.flags.sending s d hd
  queued := h.linked.flags.sending
  live s d hs := by
    rw [← Bool.not_eq_true]
    intro hf
    rw [h.live d hf] at hs
    cases hs

/-- After every run in which a process is only forked when it neither sends nor is sent to, and
only exits when nobody waits to send to it, the caller queues are right, every message that has
been accepted has been delivered once or has gone with its sender or waits, and those for a
receiver that takes messages from anybody are delivered in order. -/
theorem caller_queues
    (hr : Reach perform (fun k c => AsIssued k c ∧ LeavesNoSender k c) Started k) :
    CallerQueues k ∧ InOrder k.log ∧ ∀ s d, accepted k.log s d =
      delivered k.log s d + discarded k.log s d + (pendingTo k.log d).count s := by
  have h : Rendezvous k := by
    refine hr.invariant Rendezvous (fun k => Rendezvous.started) ?_
    rintro k c k' h ⟨hg, hq⟩ hp
    exact h.perform hg hq hp
  exact ⟨h.callerQueues, h.inOrder, h.inOrder.balance⟩

section Example

/-- FS sends to INIT and to its child, and each of them takes the message or exits. -/
def sendToChild : List Call :=
  tasksWait ++ .sysCall RECEIVE MM ANY 100 :: .sysCall RECEIVE FS ANY 100 :: forkInit ++
    [.sysCall BOTH 10 1 100, .sysCall SEND FS 2 100, .sysCall SEND FS (-5) 100, .xit 2 3]

theorem caller_queues_example :
    ∃ k, run perform (fun k c => AsIssued k c ∧ LeavesNoSender k c) exampleStart sendToChild =
      some k ∧ CallerQueues k ∧ pendingTo k.log 3 = [FS] := by
  have hsome : (run perform (fun k c => AsIssued k c ∧ LeavesNoSender k c) exampleStart
      sendToChild).any (fun k => pendingTo k.log 3 = [FS]) = true := by decide +kernel
  obtain ⟨k, hk, hlog⟩ := (Option.any_eq_true _ _).mp hsome
  exact ⟨k, hk, (caller_queues (.of_run (.init exampleStart_started) hk)).1, of_decide_eq_true hlog⟩

/-- FS waits to send to a process when that process exits. -/
def exitUnderSender : List Call :=
  tasksWait ++ [.sysCall RECEIVE MM ANY 100, .sysCall RECEIVE FS ANY 100, .sysCall BOTH 10 0 100,
    .fork 2 3 7, .sysCall SEND MM 1 100, .sysCall RECEIVE MM ANY 100, .sysCall SEND FS 3 100,
    .xit 2 3]

/-- FS stays blocked on the queue of a free slot. -/
theorem caller_queues_exit : ¬∀ k, Reach perform AsIssued Started k →
    ∃ W, Waiting k.callers W ∧ (∀ s, (k.pFlags s).sending = true ↔ ∃ d, s ∈ W d) ∧
      ∀ s d, s ∈ W d → (k.pFlags d).slotFree = false := by
  intro hall
  have hrun : (run perform AsIssued exampleStart exitUnderSender).any (fun k => decide
      (k.callers.pCallerq 11 = some FS ∧ (k.pFlags 11).slotFree = true)) = true := by
    decide +kernel
  obtain ⟨k, hk, hd⟩ := (Option.any_eq_true _ _).mp hrun
  obtain ⟨hhead, hfree⟩ := of_decide_eq_true hd
  obtain ⟨W, hw, -, hlive⟩ := hall k (.of_run (.init exampleStart_started) hk)
  have hc := (hw.chain 11).head_eq
  rw [hhead] at hc
  have hm : FS ∈ W 11 := List.mem_of_mem_head? hc.symm
  rw [hlive FS 11 hm] at hfree
  cases hfree

end Example

end Minix.Kernel
