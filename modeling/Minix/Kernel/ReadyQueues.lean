import Minix.Kernel.Effects
import Minix.Lib.Run

/-!
# Who is on which queue

The kernel under every sequence of calls: a process that can run is on the ready queue of
its class, and a process on the queue of a receiver is blocked sending. Both facts are kept
by every effect, and by the calls of the memory manager as long as no process is forked
while somebody waits to send to it: the copy of its `p_callerq` would put the same senders
on two queues.
-/

namespace Minix.Kernel

open Intrusive Function Transition

/-- A process that can be scheduled. -/
def Runnable (k : State) (rp : Slot) : Prop := rp ≠ HARDWARE ∧ k.pFlags rp = .clear

instance (k : State) (rp : Slot) : Decidable (Runnable k rp) :=
  inferInstanceAs (Decidable (_ ∧ _))

/-- The flags agree with the queues `W` of waiting senders. -/
structure FlagsAgree (f : Slot → PFlags) (W : Slot → List Slot) : Prop where
  sending : ∀ s d, s ∈ W d → (f s).sending = true
  hardware : f HARDWARE = .clear
  free : ∀ s, (f s).slotFree = true → f s = .free

/-- The queues of the kernel, with the senders that wait for each receiver. -/
structure Linked (k : State) (W : Slot → List Slot) : Prop where
  queued : ∃ L, Queued k.sched (Runnable k) L
  waiting : Waiting k.callers W
  flags : FlagsAgree k.pFlags W

variable {k k' : State} {W W' : Slot → List Slot} {caller dest sender rp parent child : Slot}
  {mPtr : Nat}

/-- The flags of one process change, and of the others nobody starts to wait. -/
theorem FlagsAgree.update {f : Slot → PFlags} {v : PFlags} (h : FlagsAgree f W)
    (hne : rp ≠ HARDWARE) (hfree : v.slotFree = true → v = .free)
    (hW : ∀ s d, s ∈ W' d → s ∈ W d ∧ (s = rp → v.sending = true) ∨ s = rp ∧ v.sending = true) :
    FlagsAgree (update f rp v) W' := by
  refine ⟨fun s d hs => ?_, ?_, fun s hs => ?_⟩
  · by_cases he : s = rp
    · rw [he, update_self]
      rcases hW s d hs with ⟨-, hv⟩ | ⟨-, hv⟩
      · exact hv he
      · exact hv
    · rw [update_of_ne he]
      rcases hW s d hs with ⟨hm, -⟩ | ⟨hs', -⟩
      · exact h.sending s d hm
      · exact absurd hs' he
  · rw [update_of_ne hne.symm]
    exact h.hardware
  · by_cases he : s = rp
    · rw [he, update_self] at hs ⊢
      exact hfree hs
    · rw [update_of_ne he] at hs ⊢
      exact h.free s hs

theorem Queued.congr {s : Sched} {X Y : Slot → Prop} {L : Queue → List Slot}
    (h : Queued s X L) (hXY : ∀ rp, X rp ↔ Y rp) : Queued s Y L :=
  ⟨h.chain, h.tail, fun q rp => by rw [h.mem, hXY]⟩

/-- A process that has been unblocked goes on its queue, unless another flag blocks it still. -/
theorem queued_wake (hne : rp ≠ HARDWARE)
    (h : ∃ L, Queued k.sched (fun s => s ≠ rp ∧ Runnable k s) L) :
    ∃ L, Queued (wake k rp).sched (Runnable (wake k rp)) L := by
  obtain ⟨L, h⟩ := h
  unfold wake
  split
  · refine ⟨_, (h.ready fun hx : rp ≠ rp ∧ Runnable k rp => hx.1 rfl).congr fun s => ?_⟩
    constructor
    · rintro (rfl | ⟨-, hr⟩)
      · exact ⟨hne, ‹_›⟩
      · exact hr
    · intro hr
      by_cases hs : s = rp
      · exact Or.inl hs
      · exact Or.inr ⟨hs, hr⟩
  · refine ⟨L, h.congr fun s => ?_⟩
    constructor
    · exact And.right
    · intro hr
      refine ⟨?_, hr⟩
      rintro rfl
      exact absurd hr.2 ‹_›

/-- Changing the flags of a blocked process does not touch the others. -/
theorem queued_update {f : PFlags} (hk : k'.pFlags = update k.pFlags rp f)
    (hs : k'.sched = k.sched) (hb : k.pFlags rp ≠ .clear)
    (h : ∃ L, Queued k.sched (Runnable k) L) :
    ∃ L, Queued k'.sched (fun s => s ≠ rp ∧ Runnable k' s) L := by
  obtain ⟨L, h⟩ := h
  rw [hs]
  refine ⟨L, h.congr fun s => ?_⟩
  unfold Runnable
  rw [hk]
  by_cases he : s = rp
  · constructor
    · exact fun hr => absurd (he ▸ hr.2) hb
    · exact fun hr => absurd he hr.1
  · rw [update_of_ne he]
    exact ⟨fun hr => ⟨he, hr⟩, And.right⟩

/-- A process that has been blocked leaves its queue. -/
theorem queued_unready {s : Sched} {f : PFlags} (hs : unready k.sched rp = some s)
    (hf : f ≠ .clear) (hk : k'.pFlags = update k.pFlags rp f) (hs' : k'.sched = s)
    (h : ∃ L, Queued k.sched (Runnable k) L) :
    ∃ L, Queued k'.sched (Runnable k') L := by
  obtain ⟨L, h⟩ := h
  obtain ⟨s', he, hq⟩ := h.unready rp
  obtain rfl : s' = s := Option.some.inj (he.symm.trans hs)
  rw [hs']
  refine ⟨_, hq.congr fun x => ?_⟩
  unfold Runnable
  rw [hk]
  by_cases hx : x = rp
  · rw [hx, update_self]
    exact ⟨fun hr => absurd rfl hr.1, fun hr => absurd hr.2 hf⟩
  · rw [update_of_ne hx]
    exact ⟨And.right, fun hr => ⟨hx, hr⟩⟩

/-- A sender that waits is not the hardware. -/
theorem Linked.ne_hardware (h : Linked k W) (hs : sender ∈ W dest) : sender ≠ HARDWARE := by
  rintro rfl
  have := h.flags.sending HARDWARE dest hs
  rw [h.flags.hardware] at this
  cases this

/-- A process that runs waits for nobody. -/
theorem Linked.not_waiting (h : Linked k W) (hs : (k.pFlags caller).sending = false) (d : Slot) :
    caller ∉ W d := by
  intro hm
  rw [h.flags.sending caller d hm] at hs
  cases hs

theorem waitsFor_receiving (h : waitsFor k dest caller = true) :
    (k.pFlags dest).receiving = true :=
  ((Bool.and_eq_true _ _).mp h).1

theorem ne_clear_of_receiving (h : (k.pFlags rp).receiving = true) : k.pFlags rp ≠ .clear := by
  intro e
  rw [e] at h
  cases h

theorem ne_clear_of_sending (h : (k.pFlags rp).sending = true) : k.pFlags rp ≠ .clear := by
  intro e
  rw [e] at h
  cases h

/-- A free slot neither sends nor receives. -/
theorem Linked.not_free (h : Linked k W)
    (hb : (k.pFlags rp).sending = true ∨ (k.pFlags rp).receiving = true) :
    (k.pFlags rp).slotFree = false := by
  rw [← Bool.not_eq_true]
  intro hf
  rw [h.flags.free rp hf] at hb
  rcases hb with hb | hb <;> cases hb

/-- Handing over a message deblocks a receiver. -/
theorem Linked.endReceive (h : Linked k W) (hr : (k.pFlags rp).receiving = true) :
    Linked (endReceive k rp) W := by
  have hrec := ne_clear_of_receiving hr
  have hne : rp ≠ HARDWARE := by
    rintro rfl
    exact hrec h.flags.hardware
  have hfree := h.not_free (Or.inr hr)
  unfold Kernel.endReceive
  refine ⟨queued_wake hne (queued_update rfl rfl hrec h.queued), ?_, ?_⟩
  · rw [wake_callers]
    exact h.waiting
  · rw [wake_pFlags]
    apply h.flags.update hne
    · intro hf
      rw [hfree] at hf
      cases hf
    · intro s d hs
      refine Or.inl ⟨hs, ?_⟩
      rintro rfl
      exact h.flags.sending s d hs

theorem Linked.deliver (h : Linked k W) (hw : waitsFor k dest caller = true) (mPtr : Nat) :
    Linked (deliver k caller dest mPtr) W := by
  have h' : Linked (cpMess (logAccept k caller dest mPtr) caller mPtr dest (k.pMessbuf dest)
    (k.pGetfrom dest == ANY)) W := ⟨h.queued, h.waiting, h.flags⟩
  exact h'.endReceive (waitsFor_receiving hw)

/-- Blocking a sender takes it off the ready queue and puts it on the queue of the receiver. -/
theorem Linked.block (h : Linked k W) (hne : caller ≠ HARDWARE) (hc : k.pFlags caller = .clear)
    (dest : Slot) (mPtr : Nat) :
    ∃ s c, block k caller dest mPtr = some (startSend (logAccept k caller dest mPtr) caller mPtr s c) ∧
      Linked (startSend (logAccept k caller dest mPtr) caller mPtr s c)
        (update W dest (W dest ++ [caller])) := by
  have hout := h.not_waiting (show (k.pFlags caller).sending = false by rw [hc]; rfl)
  obtain ⟨L, hq⟩ := h.queued
  obtain ⟨s, hs, -⟩ := hq.unready caller
  obtain ⟨c, hc', hwait⟩ := h.waiting.enqueue hout dest
  refine ⟨s, c, ?_, queued_unready hs (by simp [PFlags.clear]) rfl rfl h.queued, hwait, ?_⟩
  · rw [Kernel.block, hs, Option.bind_eq_bind, Option.bind_some, hc']
    rfl
  · apply h.flags.update hne
    · intro hf
      change (k.pFlags caller).slotFree = true at hf
      rw [hc] at hf
      cases hf
    · intro x d hx
      by_cases hd : d = dest
      · rw [hd, update_self, List.mem_append, List.mem_singleton] at hx
        exact hx.imp (fun hm => ⟨hd ▸ hm, fun _ => rfl⟩) fun he => ⟨he, rfl⟩
      · rw [update_of_ne hd] at hx
        exact Or.inl ⟨hx, fun _ => rfl⟩

/-- Whoever is left on a queue is not the sender that has been taken off. -/
theorem Linked.left {l₁ l₂ : List Slot} (h : Linked k W) (hl : W caller = l₁ ++ sender :: l₂)
    {s d : Slot} (hs : s ∈ Function.update W caller (l₁ ++ l₂) d) : s ∈ W d ∧ s ≠ sender := by
  have hnd := (h.waiting.chain caller).nodup
  rw [hl, List.nodup_append, List.nodup_cons] at hnd
  have hmem : sender ∈ W caller := by
    rw [hl]
    exact List.mem_append_right _ (List.mem_cons_self ..)
  by_cases hd : d = caller
  · rw [hd, update_self, List.mem_append] at hs
    rw [hd, hl, List.mem_append, List.mem_cons]
    refine ⟨hs.imp_right Or.inr, ?_⟩
    rintro rfl
    rcases hs with hs | hs
    · exact hnd.2.2 s hs s (List.mem_cons_self ..) rfl
    · exact hnd.2.1.1 hs
  · rw [update_of_ne hd] at hs
    refine ⟨hs, ?_⟩
    rintro rfl
    exact hd (h.waiting.apart s d caller hs hmem)

/-- Off the queue of a receiver, a sender is deblocked. -/
theorem Linked.endSend {l₁ l₂ : List Slot} (h : Linked k W) (hl : W caller = l₁ ++ sender :: l₂) :
    Linked { endSend k sender with
      callers := takeSender (endSend k sender).callers caller l₁.getLast? sender }
      (update W caller (l₁ ++ l₂)) := by
  have hmem : sender ∈ W caller := by
    rw [hl]
    exact List.mem_append_right _ (List.mem_cons_self ..)
  have hne := h.ne_hardware hmem
  have hsend := h.flags.sending sender caller hmem
  have hfree := h.not_free (Or.inl hsend)
  unfold Kernel.endSend
  refine ⟨?_, ?_, ?_⟩
  · exact queued_wake hne (queued_update rfl rfl (ne_clear_of_sending hsend) h.queued)
  · dsimp only
    rw [wake_callers]
    exact h.waiting.takeSender hl
  · dsimp only
    rw [wake_pFlags]
    apply h.flags.update hne
    · intro hf
      rw [hfree] at hf
      cases hf
    · intro s d hs
      obtain ⟨hs, he⟩ := h.left hl hs
      exact Or.inl ⟨hs, fun e => absurd e he⟩

theorem Linked.acquire {l₁ l₂ : List Slot} (h : Linked k W) (hl : W caller = l₁ ++ sender :: l₂)
    (mPtr : Nat) (any : Bool) :
    Linked (acquire k caller l₁.getLast? sender mPtr any) (update W caller (l₁ ++ l₂)) := by
  have h' : Linked (cpMess k sender (k.pMessbuf sender) caller mPtr any) W :=
    ⟨h.queued, h.waiting, h.flags⟩
  exact h'.endSend hl

/-- Blocking a receiver takes it off the ready queue. -/
theorem Linked.await (h : Linked k W) (hne : caller ≠ HARDWARE)
    (hc : (k.pFlags caller).slotFree = false) (src : Int) (mPtr : Nat) :
    ∃ s, await k caller src mPtr = some (startReceive k caller src mPtr s) ∧
      Linked (startReceive k caller src mPtr s) W := by
  obtain ⟨L, hq⟩ := h.queued
  obtain ⟨s, hs, -⟩ := hq.unready caller
  refine ⟨s, ?_, queued_unready hs (by simp [PFlags.clear]) rfl rfl h.queued, h.waiting, ?_⟩
  · rw [Kernel.await, hs, Option.map_some]
  · apply h.flags.update hne
    · intro hf
      rw [hc] at hf
      cases hf
    · intro x d hx
      refine Or.inl ⟨hx, ?_⟩
      rintro rfl
      exact h.flags.sending x d hx

theorem Linked.frame (h : Linked k W) (hf : Frame k k') : Linked k' W := by
  obtain ⟨hs, hp, hc, -⟩ := hf
  refine ⟨?_, ?_, ?_⟩
  · rw [hs]
    unfold Runnable
    rw [hp]
    exact h.queued
  · rw [hc]
    exact h.waiting
  · rw [hp]
    exact h.flags

/-- Every effect keeps the queues. -/
theorem Linked.effect (h : Linked k W) (he : Effect k k') : ∃ W', Linked k' W' := by
  cases he with
  | deliver mPtr hc hw => exact ⟨W, h.deliver hw mPtr⟩
  | block hne hc hd hw hb =>
    obtain ⟨s, c, hb', hk⟩ := h.block hne hc _ _
    obtain rfl := Option.some.inj (hb.symm.trans hb')
    exact ⟨_, hk⟩
  | acquire mPtr hne hf =>
    obtain ⟨l₁, l₂, hl, -, -, rfl⟩ := h.waiting.findSender_some hf
    exact ⟨_, h.acquire hl mPtr _⟩
  | await hne hc hf ha =>
    obtain ⟨s, ha', hk⟩ := h.await hne hc _ _
    obtain rfl := Option.some.inj (ha.symm.trans ha')
    exact ⟨_, hk⟩
  | sched =>
    obtain ⟨L, hq⟩ := h.queued
    exact ⟨W, hq.sched, h.waiting, h.flags⟩
  | pick =>
    obtain ⟨L, hq⟩ := h.queued
    exact ⟨W, ⟨L, hq.pickProc⟩, h.waiting, h.flags⟩
  | irq => exact ⟨W, h.queued, h.waiting, h.flags⟩
  | frame hf => exact ⟨W, h.frame hf⟩

theorem Linked.effects (h : Linked k W) (he : Effects k k') : ∃ W', Linked k' W' := by
  induction he with
  | refl => exact ⟨W, h⟩
  | tail _ he ih =>
    obtain ⟨W', h'⟩ := ih
    exact h'.effect he

end Minix.Kernel
