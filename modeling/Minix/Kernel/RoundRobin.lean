import Minix.Kernel.Calls

/-!
# Nobody is overtaken

A user process that can run waits behind those that are ahead of it on the queue of the users. As
long as it does not run itself, nobody gets ahead of it, whatever enters the kernel, and every call
of `sched` takes one away that is.
-/

namespace Minix.Kernel

open Intrusive Function Transition

/-- A process waits on the queue of the users behind those in a list. -/
def Waits (rp : Slot) (A : List Slot) (k : State) : Prop :=
  ∃ W B, Linked k W ∧ Chain k.sched.pNextready (k.sched.rdyHead .USER_Q) (A ++ rp :: B)

/-- Whoever was not ahead of a process is not ahead of it afterwards. -/
def NoneOvertakes (rp : Slot) (k k' : State) : Prop :=
  ∀ A, Waits rp A k → ∃ A', A'.Sublist A ∧ Waits rp A' k'

variable {k k' k₁ : State} {W W' : Slot → List Slot} {rp x caller dest sender : Slot}
  {A B : List Slot} {s s' : Sched} {X : Slot → Prop} {L : Queue → List Slot} {mPtr : Nat} {n : Int}

/-- Nobody overtakes while nothing is done. -/
theorem NoneOvertakes.refl (rp : Slot) (k : State) : NoneOvertakes rp k k :=
  fun A h => ⟨A, List.Sublist.refl A, h⟩

/-- Nor in two steps, if in neither. -/
theorem NoneOvertakes.trans (h : NoneOvertakes rp k k₁) (h' : NoneOvertakes rp k₁ k') :
    NoneOvertakes rp k k' := by
  intro A hA
  obtain ⟨A₁, hs, h₁⟩ := h A hA
  obtain ⟨A₂, hs', h₂⟩ := h' A₁ h₁
  exact ⟨A₂, hs'.trans hs, h₂⟩

/-- The queue of the users is the list that the links give. -/
theorem Queued.user (h : Queued s X L)
    (hc : Chain s.pNextready (s.rdyHead .USER_Q) (A ++ rp :: B)) :
    L .USER_Q = A ++ rp :: B := (h.chain .USER_Q).unique hc

/-- Who waits for the processor can run, and is a user process. -/
theorem Waits.runnable (h : Waits rp A k) : queueOf rp = .USER_Q ∧ Runnable k rp := by
  obtain ⟨W, B, hk, hc⟩ := h
  obtain ⟨L, hq⟩ := hk.queued
  exact (hq.mem .USER_Q rp).mp (hq.user hc ▸ by simp)

/-! ## What happens to the queue -/

/-- A process that is made ready gets behind everybody. -/
theorem chain_ready (h : Queued s X L) (hx : ¬X x)
    (hc : Chain s.pNextready (s.rdyHead .USER_Q) (A ++ rp :: B)) :
    ∃ B', Chain (ready s x).pNextready ((ready s x).rdyHead .USER_Q) (A ++ rp :: B') := by
  have h' := (h.ready hx).chain .USER_Q
  by_cases hq : queueOf x = .USER_Q
  · rw [hq, update_self, h.user hc, List.append_assoc, List.cons_append] at h'
    exact ⟨_, h'⟩
  · rw [update_of_ne (Ne.symm hq), h.user hc] at h'
    exact ⟨_, h'⟩

/-- A process that leaves its queue may be one that is ahead. -/
theorem chain_unready (h : Queued s X L) (hne : x ≠ rp) (hs : unready s x = some s')
    (hc : Chain s.pNextready (s.rdyHead .USER_Q) (A ++ rp :: B)) :
    ∃ A' B', A'.Sublist A ∧ Chain s'.pNextready (s'.rdyHead .USER_Q) (A' ++ rp :: B') := by
  obtain ⟨s₁, hs₁, h'⟩ := h.unready x
  obtain rfl := Option.some.inj (hs₁.symm.trans hs)
  have h' : Chain s₁.pNextready (s₁.rdyHead .USER_Q) ((L .USER_Q).erase x) := h'.chain .USER_Q
  rw [h.user hc] at h'
  by_cases hA : x ∈ A
  · rw [List.erase_append_left _ hA] at h'
    exact ⟨_, _, List.erase_sublist, h'⟩
  · rw [List.erase_append_right _ hA, List.erase_cons_tail (by simpa using hne.symm)] at h'
    exact ⟨_, _, List.Sublist.refl A, h'⟩

/-- Choosing a process leaves the queues as they are. -/
theorem chain_pickProc (hc : Chain s.pNextready (s.rdyHead .USER_Q) (A ++ rp :: B)) :
    Chain (pickProc s).pNextready ((pickProc s).rdyHead .USER_Q) (A ++ rp :: B) := by
  obtain ⟨h₁, h₂, -⟩ := pickProc_queues s
  rw [h₁, h₂]
  exact hc

/-- `sched` puts the head of the queue behind everybody. -/
theorem chain_sched {a : Slot} (h : Queued s X L)
    (hc : Chain s.pNextready (s.rdyHead .USER_Q) (a :: A ++ rp :: B)) :
    Chain (sched s).pNextready ((sched s).rdyHead .USER_Q) (A ++ rp :: (B ++ [a])) := by
  have hhead : s.rdyHead .USER_Q = some a := hc.head_eq
  have hl : L .USER_Q = a :: (A ++ rp :: B) := h.user (A := a :: A) hc
  obtain ⟨l, t, ht⟩ : ∃ l t, A ++ rp :: B = l ++ [t] :=
    ⟨_, _, (List.dropLast_append_getLast (by simp)).symm⟩
  have htail : s.rdyTail .USER_Q = some t := by
    refine h.tail .USER_Q t ?_
    rw [hl, ht, ← List.cons_append, List.getLast?_concat]
  have hlist : A ++ rp :: (B ++ [a]) = l ++ t :: [a] := by
    rw [← List.cons_append, ← List.append_assoc, ht, List.append_assoc]
    rfl
  have ha : a ∉ l ++ [t] := by
    have : a ∉ A ++ rp :: B := (List.nodup_cons.mp hc.nodup).1
    rwa [ht] at this
  have hne : a ≠ t := fun e => ha (by simp [e])
  have hrest : Chain s.pNextready (s.pNextready a) (l ++ t :: []) := ht ▸ hc.2
  have hend := hrest.append ha
  unfold Kernel.sched
  simp only [hhead, htail, relink_some]
  obtain ⟨h₁, h₂, -⟩ := pickProc_queues { s with
    pNextready := update (update s.pNextready t (some a)) a none
    rdyHead := update s.rdyHead .USER_Q (update s.pNextready t (some a) a)
    rdyTail := update s.rdyTail .USER_Q (some a) }
  rw [h₁, h₂, hlist]
  dsimp only
  rw [update_self, update_of_ne hne]
  exact hend

/-! ## What the kernel does -/

/-- A process off the queues is made ready, or not. -/
theorem noneOvertakes_wake (hk : ∃ W, Linked k' W) (hx : ¬Runnable k x)
    (hs : k'.sched = ready k.sched x ∨ k'.sched = k.sched) : NoneOvertakes rp k k' := by
  rintro A ⟨W, B, h, hc⟩
  obtain ⟨W', hk⟩ := hk
  obtain ⟨L, hq⟩ := h.queued
  rcases hs with hs | hs
  · obtain ⟨B', hc'⟩ := chain_ready hq hx hc
    exact ⟨A, .refl A, W', B', hk, hs ▸ hc'⟩
  · exact ⟨A, .refl A, W', B, hk, hs ▸ hc⟩

/-- When another process leaves the queue, nobody overtakes. -/
theorem noneOvertakes_unready (hk : ∃ W, Linked k' W) (hne : x ≠ rp)
    (hs : unready k.sched x = some k'.sched) : NoneOvertakes rp k k' := by
  rintro A ⟨W, B, h, hc⟩
  obtain ⟨W', hk⟩ := hk
  obtain ⟨L, hq⟩ := h.queued
  obtain ⟨A', B', hA, hc'⟩ := chain_unready hq hne hs hc
  exact ⟨A', hA, W', B', hk, hc'⟩

/-- It is enough to look at kernels whose queues are right. -/
theorem NoneOvertakes.of_linked (h : ∀ W, Linked k W → NoneOvertakes rp k k') :
    NoneOvertakes rp k k' := by
  rintro A ⟨W, B, hk, hc⟩
  exact h W hk A ⟨W, B, hk, hc⟩

/-- The queues do not change. -/
theorem noneOvertakes_same (he : Effect k k') (hs : k'.sched = k.sched) :
    NoneOvertakes rp k k' := by
  rintro A ⟨W, B, h, hc⟩
  obtain ⟨W', hk⟩ := h.effect he
  exact ⟨A, .refl A, W', B, hk, hs ▸ hc⟩

/-- Nor when the next process is chosen. -/
theorem noneOvertakes_pick (k : State) :
    NoneOvertakes rp k { k with sched := pickProc k.sched } := by
  rintro A ⟨W, B, h, hc⟩
  obtain ⟨W', hk⟩ := h.effect (.pick k)
  exact ⟨A, .refl A, W', B, hk, chain_pickProc hc⟩

/-- `ready` or nothing. -/
theorem wake_sched (k : State) (x : Slot) :
    (wake k x).sched = ready k.sched x ∨ (wake k x).sched = k.sched := by
  unfold wake
  split
  · exact Or.inl rfl
  · exact Or.inr rfl

/-- Nobody overtakes when a message is delivered. -/
theorem noneOvertakes_deliver (hc : caller = HARDWARE ∨ k.pFlags caller = .clear)
    (hw : waitsFor k dest caller = true) (mPtr : Nat) :
    NoneOvertakes rp k (deliver k caller dest mPtr) := by
  refine .of_linked fun W h => ?_
  refine noneOvertakes_wake (x := dest) (h.effect (.deliver mPtr hc hw)) (fun hr => ?_)
    (wake_sched _ dest)
  exact ne_clear_of_receiving (waitsFor_receiving hw) hr.2

/-- Nor when another process blocks in a send. -/
theorem noneOvertakes_block (hne : caller ≠ HARDWARE) (hc : k.pFlags caller = .clear)
    (hfree : (k.pFlags dest).slotFree = false) (hw : waitsFor k dest caller = false)
    (hb : block k caller dest mPtr = some k') (hrp : caller ≠ rp) : NoneOvertakes rp k k' := by
  refine .of_linked fun W h => ?_
  obtain ⟨s, hs, hb'⟩ := Option.bind_eq_some_iff.mp hb
  obtain ⟨c, -, hb'⟩ := Option.bind_eq_some_iff.mp hb'
  obtain rfl := Option.some.inj hb'
  exact noneOvertakes_unready (h.effect (.block hne hc hfree hw hb)) hrp hs

/-- Nor when a message is taken from the queue. -/
theorem noneOvertakes_acquire {src : Int} {prevPtr : Option Slot} (hne : caller ≠ HARDWARE)
    (hf : findSender k.callers caller src = some (prevPtr, some sender)) (mPtr : Nat) :
    NoneOvertakes rp k (acquire k caller prevPtr sender mPtr (src == ANY)) := by
  refine .of_linked fun W h => ?_
  obtain ⟨l₁, l₂, hl, -, -, -⟩ := h.waiting.findSender_some hf
  have hmem : sender ∈ W caller := hl ▸ by simp
  refine noneOvertakes_wake (x := sender) (h.effect (.acquire mPtr hne hf)) (fun hr => ?_)
    (wake_sched _ sender)
  exact ne_clear_of_sending (h.flags.sending sender caller hmem) hr.2

/-- Nor when another process blocks in a receive. -/
theorem noneOvertakes_await {src : Int} {prevPtr : Option Slot} (hne : caller ≠ HARDWARE)
    (hc : (k.pFlags caller).slotFree = false)
    (hf : findSender k.callers caller src = some (prevPtr, none))
    (ha : await k caller src mPtr = some k') (hrp : caller ≠ rp) : NoneOvertakes rp k k' := by
  refine .of_linked fun W h => ?_
  obtain ⟨s, hs, hk⟩ := Option.map_eq_some_iff.mp ha
  subst hk
  exact noneOvertakes_unready (h.effect (.await hne hc hf ha)) hrp hs

/-- Nor in `mini_send`. -/
theorem noneOvertakes_miniSend {dest : Int} (hc : caller = HARDWARE ∨ k.pFlags caller = .clear)
    (hrp : caller ≠ rp) (h : miniSend k caller dest mPtr = some (n, k')) :
    NoneOvertakes rp k k' := by
  rcases miniSend_cases h with ⟨-, rfl⟩ | ⟨-, destPtr, -, hfree, ⟨hw, rfl⟩ | ⟨hw, hne, hb⟩⟩
  · exact .refl rp k'
  · exact noneOvertakes_deliver hc hw mPtr
  · exact noneOvertakes_block hne (hc.resolve_left hne) hfree hw hb hrp

/-- Nor when the queues are left alone. -/
theorem noneOvertakes_frame (h : Frame k k') : NoneOvertakes rp k k' :=
  noneOvertakes_same (.frame h) h.sched

/-- Nor in `inform`. -/
theorem noneOvertakes_inform (hrp : HARDWARE ≠ rp) (h : inform k MM = some k') :
    NoneOvertakes rp k k' := by
  unfold inform at h
  split at h
  · cases h
    exact .refl rp _
  · split at h
    · cases h
      exact .refl rp _
    · unfold tellMM at h
      split at h
      · rename_i k₁ hs
        cases h
        refine (noneOvertakes_frame ?_).trans
          ((noneOvertakes_miniSend (Or.inl rfl) hrp hs).trans (noneOvertakes_frame ?_))
        · exact ⟨rfl, rfl, rfl, rfl, rfl, rfl⟩
        · exact ⟨rfl, rfl, rfl, rfl, rfl, rfl⟩
      · cases h

/-- Nor in `mini_rec`. -/
theorem noneOvertakes_miniRec {src : Int} (hne : caller ≠ HARDWARE)
    (hc : (k.pFlags caller).slotFree = false) (hrp : caller ≠ rp) (hh : HARDWARE ≠ rp)
    (h : miniRec k caller src mPtr = some (n, k')) : NoneOvertakes rp k k' := by
  rcases miniRec_cases h with ⟨_, _, hf, rfl⟩ | ⟨_, k₁, hf, hw, rfl | ⟨-, hi⟩⟩
  · exact noneOvertakes_acquire hne hf mPtr
  · exact noneOvertakes_await hne hc hf hw hrp
  · exact (noneOvertakes_await hne hc hf hw hrp).trans (noneOvertakes_inform hh hi)

/-- Nor when a return code is set. -/
theorem noneOvertakes_setRet (h : k' = k ∨ k' = setRet k caller n) : NoneOvertakes rp k k' := by
  rcases h with rfl | rfl
  · exact .refl rp k'
  · exact noneOvertakes_frame (setRet_frame k caller n)

/-- A system call of somebody else. -/
theorem noneOvertakes_sysCall {function : Nat} {srcDest : Int} (hr : Runnable k caller)
    (hrp : caller ≠ rp) (hh : HARDWARE ≠ rp)
    (h : sysCall k function caller srcDest mPtr = some k') : NoneOvertakes rp k k' := by
  rcases sysCall_cases h with ⟨n, hk⟩ | ⟨-, n₁, k₁, hs, hrest⟩
  · exact noneOvertakes_setRet (Or.inr hk)
  · have h₁ : NoneOvertakes rp k k₁ ∧ (k₁.pFlags caller).slotFree = false := by
      rcases hs with ⟨-, -, rfl⟩ | ⟨-, hs⟩
      · exact ⟨.refl rp k₁, by rw [hr.2]; rfl⟩
      · exact ⟨noneOvertakes_miniSend (Or.inr hr.2) hrp hs, by rw [miniSend_slotFree hs, hr.2]; rfl⟩
    rcases hrest with ⟨hk, -⟩ | ⟨-, -, n₂, k₂, k₃, hk₂, hm, rfl⟩
    · exact h₁.1.trans (noneOvertakes_setRet hk)
    · have hfree : (k₂.pFlags caller).slotFree = false := by
        rcases hk₂ with rfl | rfl
        · exact h₁.2
        · exact h₁.2
      exact h₁.1.trans ((noneOvertakes_setRet hk₂).trans
        ((noneOvertakes_miniRec hr.1 hfree hrp hh hm).trans
          (noneOvertakes_frame (setRet_frame k₃ caller n₂))))

/-- Nor when interrupts are tried again. -/
theorem noneOvertakes_retryBusy {oldMap : Fin (NR_TASKS + 1) → Bool}
    {l : List (Fin (NR_TASKS + 1))} (hh : HARDWARE ≠ rp) (h : retryBusy oldMap l k = some k') :
    NoneOvertakes rp k k' := by
  induction l generalizing k with
  | nil =>
    cases h
    exact .refl rp _
  | cons i l ih =>
    rw [retryBusy] at h
    split at h
    · split at h
      · cases h
      · rename_i n k₁ hs
        refine (noneOvertakes_miniSend (Or.inl rfl) hh hs).trans
          ((noneOvertakes_frame ?_).trans (ih h))
        split <;> exact ⟨rfl, rfl, rfl, rfl, rfl, rfl⟩
    · exact ih h

/-- Nor when one is offered to a busy task. -/
theorem noneOvertakes_offerInterrupt {i : Fin (NR_TASKS + 1)}
    {oldMap : Fin (NR_TASKS + 1) → Bool} (hh : HARDWARE ≠ rp)
    (h : offerInterrupt k i mPtr = some (oldMap, k')) : NoneOvertakes rp k k' := by
  unfold offerInterrupt at h
  split at h
  · cases h
  · rename_i n k₁ hs
    refine (noneOvertakes_miniSend (Or.inl rfl) hh hs).trans (noneOvertakes_frame ?_)
    split at h
    · split at h <;> cases h <;> exact ⟨rfl, rfl, rfl, rfl, rfl, rfl⟩
    · cases h
      exact ⟨rfl, rfl, rfl, rfl, rfl, rfl⟩

/-- Nor in `interrupt`. -/
theorem noneOvertakes_interrupt {i : Fin (NR_TASKS + 1)} (hh : HARDWARE ≠ rp)
    (h : interrupt k i mPtr = some k') : NoneOvertakes rp k k' := by
  obtain ⟨⟨oldMap, k₁⟩, h₁, h⟩ := Option.bind_eq_some_iff.mp h
  obtain ⟨k₂, h₂, h⟩ := Option.bind_eq_some_iff.mp h
  refine (noneOvertakes_same (.irq k i mPtr) rfl).trans
    ((noneOvertakes_offerInterrupt hh h₁).trans ((noneOvertakes_retryBusy hh h₂).trans ?_))
  split at h
  · cases h
    exact noneOvertakes_pick _
  · cases h
    exact .refl rp _

/-- Nor in `cause_sig`. -/
theorem noneOvertakes_causeSig {sigNr : Nat} (hh : HARDWARE ≠ rp)
    (h : causeSig k n sigNr = some k') : NoneOvertakes rp k k' := by
  unfold causeSig at h
  split at h
  · cases h
  · refine (noneOvertakes_frame ?_).trans (noneOvertakes_inform hh h)
    exact ⟨rfl, rfl, rfl, rfl, rfl, rfl⟩

/-- A call that is not one of the process itself, and does not end it. -/
def NotOf (rp : Slot) : Call → Prop
  | .sysCall _ caller _ _ => caller ≠ rp
  | .xit _ proc => procAddr proc ≠ some rp
  | _ => True

instance (rp : Slot) : (c : Call) → Decidable (NotOf rp c)
  | .sysCall _ caller _ _ => inferInstanceAs (Decidable (caller ≠ rp))
  | .xit _ proc => inferInstanceAs (Decidable (procAddr proc ≠ some rp))
  | .interrupt _ _ => .isTrue trivial
  | .sched => .isTrue trivial
  | .causeSig _ _ => .isTrue trivial
  | .inform => .isTrue trivial
  | .fork _ _ _ => .isTrue trivial
  | .newmap _ _ => .isTrue trivial
  | .exec _ _ => .isTrue trivial
  | .store _ _ _ => .isTrue trivial

/-- Whether a call is `sched`. -/
def isSched : Call → Bool
  | .sched => true
  | _ => false

/-- Everything else that enters the kernel, apart from `sched`. -/
theorem noneOvertakes_perform {c : Call} (hg : AsIssued k c) (hq : CopiesNoQueue k c)
    (hc : NotOf rp c) (hne : c ≠ .sched) (hp : perform k c = some k') :
    NoneOvertakes rp k k' := by
  refine .of_linked fun W h => ?_
  have hk := h.perform hg hq hp
  by_cases hh : HARDWARE = rp
  · intro A hA
    exact absurd hh.symm hA.runnable.2.1
  · cases c with
    | sysCall function caller srcDest mPtr => exact noneOvertakes_sysCall hg hc hh hp
    | interrupt task mPtr => exact noneOvertakes_interrupt hh hp
    | sched => exact absurd rfl hne
    | causeSig n sigNr => exact noneOvertakes_causeSig hh hp
    | inform => exact noneOvertakes_inform hh hp
    | fork k1 k2 pid =>
      rcases doFork_cases hp with rfl | ⟨parent, child, -, h₂, -, rfl⟩
      · exact .refl rp _
      · rintro A ⟨W, B, hk₀, hc⟩
        obtain ⟨L, hL⟩ := hk₀.queued
        have hfree := hk₀.flags.free child (flagsOf_some hg.2 h₂)
        have hout : child ∉ A ++ rp :: B := by
          rw [← hL.user hc, hL.mem]
          intro hm
          have := hm.2.2
          rw [hfree] at this
          cases this
        obtain ⟨W', hk⟩ := hk
        exact ⟨A, .refl A, W', B, hk, hc.update hout⟩
    | newmap n map =>
      rcases doNewmap_cases hp with rfl | ⟨x, -, rfl⟩
      · exact .refl rp _
      · by_cases hf : k.pFlags x = .clear
        · rw [if_neg (not_not.mpr hf)] at hk ⊢
          rintro A ⟨W, B, -, hc⟩
          obtain ⟨W', hk⟩ := hk
          exact ⟨A, .refl A, W', B, hk, hc⟩
        · rw [if_pos hf] at hk ⊢
          exact noneOvertakes_wake hk (fun hr => hf hr.2) (wake_sched _ x)
    | exec n sp =>
      rcases doExec_cases hp with rfl | ⟨x, hn, rfl⟩
      · exact .refl rp _
      · refine noneOvertakes_wake hk (fun hr => ?_) (wake_sched _ x)
        exact ne_clear_of_receiving (flagsOf_some hg hn) hr.2
    | xit parent proc =>
      rcases doXit_cases hp with rfl | ⟨y, x, hx, -, hr⟩
      · exact .refl rp _
      · obtain ⟨s, hs, hr⟩ := Option.bind_eq_some_iff.mp hr
        obtain ⟨c, -, hr⟩ := Option.bind_eq_some_iff.mp hr
        obtain rfl := Option.some.inj hr
        exact noneOvertakes_unready hk (fun e => hc (e ▸ hx)) hs
    | store x a b =>
      obtain rfl := Option.some.inj hp
      exact noneOvertakes_frame (storeByte_frame k x a b)

/-- `sched` takes away whoever is first. -/
theorem Waits.sched {a : Slot} (h : Waits rp (a :: A) k) :
    Waits rp A { k with sched := sched k.sched } := by
  obtain ⟨W, B, hk, hc⟩ := h
  obtain ⟨L, hq⟩ := hk.queued
  obtain ⟨W', hk'⟩ := hk.effect (.sched k)
  exact ⟨W', B ++ [a], hk', chain_sched hq hc⟩

/-! ## Runs -/

/-- What may enter the kernel while a process waits. -/
abbrev Meanwhile (rp : Slot) (k : State) (c : Call) : Prop :=
  AsIssued k c ∧ CopiesNoQueue k c ∧ NotOf rp c

/-- Nobody is ahead of the process, and it runs as soon as no task and no server can. -/
def First (rp : Slot) (k : State) : Prop :=
  k.sched.rdyHead .USER_Q = some rp ∧
    (k.sched.rdyHead .TASK_Q = none → k.sched.rdyHead .SERVER_Q = none →
      (pickProc k.sched).procPtr = rp)

/-- Whoever waits behind nobody is first. -/
theorem Waits.first (h : Waits rp [] k) : First rp k := by
  obtain ⟨W, B, -, hc⟩ := h
  have hhead : k.sched.rdyHead .USER_Q = some rp := hc.head_eq
  refine ⟨hhead, fun ht hs => ?_⟩
  rw [(pickProc_spec k.sched).1, firstReady, ht, hs, hhead]
  rfl

/-- At some time in the run the process is first. -/
def GetsFirst (rp : Slot) (k : State) (l : List Call) : Prop :=
  ∃ l₁ k₁, l₁ <+: l ∧ run perform (Meanwhile rp) k l₁ = some k₁ ∧ First rp k₁

/-- Until a process is first, every call of `sched` brings it one place nearer. -/
theorem Waits.run {l : List Call} (h : Waits rp A k)
    (hrun : run perform (Meanwhile rp) k l = some k') :
    GetsFirst rp k l ∨
      ∃ A', A' ≠ [] ∧ A'.Sublist (A.drop (l.countP isSched)) ∧ Waits rp A' k' := by
  induction l generalizing k A with
  | nil =>
    cases hrun
    cases A with
    | nil => exact Or.inl ⟨[], _, List.prefix_rfl, rfl, h.first⟩
    | cons a A => exact Or.inr ⟨a :: A, List.cons_ne_nil a A, List.Sublist.refl _, h⟩
  | cons c l ih =>
    cases A with
    | nil => exact Or.inl ⟨[], k, List.nil_prefix, rfl, h.first⟩
    | cons a A =>
      rw [Transition.run] at hrun
      split at hrun
      · rename_i hg
        obtain ⟨k₁, hp, hrun⟩ := Option.bind_eq_some_iff.mp hrun
        -- how the places change in the first call
        obtain ⟨A₁, hsub, h₁⟩ : ∃ A₁, A₁.Sublist ((a :: A).drop ([c].countP isSched)) ∧
            Waits rp A₁ k₁ := by
          by_cases hc : c = .sched
          · subst hc
            obtain rfl := Option.some.inj hp
            exact ⟨A, List.Sublist.refl A, h.sched⟩
          · have hz : [c].countP isSched = 0 := by
              cases c <;> first | rfl | exact absurd rfl hc
            rw [hz]
            exact noneOvertakes_perform hg.1 hg.2.1 hg.2.2 hc hp (a :: A) h
        rcases ih h₁ hrun with ⟨l₁, k₂, hpre, hk₂, hf⟩ | ⟨A', hne, hs, hw⟩
        · refine Or.inl ⟨c :: l₁, k₂, (List.prefix_cons_inj c).mpr hpre, ?_, hf⟩
          rw [Transition.run, if_pos hg, hp]
          exact hk₂
        · refine Or.inr ⟨A', hne, hs.trans ?_, hw⟩
          have hcount : (c :: l).countP isSched = [c].countP isSched + l.countP isSched :=
            @List.countP_append _ isSched [c] l
          rw [hcount, ← List.drop_drop]
          exact hsub.drop _
      · cases hrun

/-- There are fourteen slots for user processes. -/
theorem users_length {l : List Slot} (hl : l.Nodup) (hu : ∀ x ∈ l, queueOf x = .USER_Q) :
    l.length ≤ 14 := by
  have hsub : l ⊆ (List.finRange (NR_TASKS + NR_PROCS)).filter fun x => queueOf x = .USER_Q := by
    intro x hx
    rw [List.mem_filter, decide_eq_true_eq]
    exact ⟨List.mem_finRange x, hu x hx⟩
  exact (hl.subperm hsub).length_le.trans (by decide)

/-- Round robin: a user process that can run has at most thirteen others ahead of it. While it waits
nobody overtakes it, whatever enters the kernel and in whatever order, and `sched` is called at most
once for each of them before it is first. -/
theorem round_robin
    (hr : Reach perform (fun k c => AsIssued k c ∧ CopiesNoQueue k c) Started k)
    (hrp : Runnable k rp) (hu : queueOf rp = .USER_Q) :
    ∃ A, Waits rp A k ∧ A.length ≤ 13 ∧ ∀ l k', run perform (Meanwhile rp) k l = some k' →
      GetsFirst rp k l ∨
        ∃ A', A' ≠ [] ∧ A'.Sublist (A.drop (l.countP isSched)) ∧ Waits rp A' k' := by
  obtain ⟨W, hk⟩ : ∃ W, Linked k W := by
    refine hr.invariant (fun k => ∃ W, Linked k W) ?_ ?_
    · rintro k ⟨vars, base, sizes, mem, rfl⟩
      exact ⟨_, Linked.main vars base sizes mem⟩
    · rintro k c k' ⟨W, h⟩ ⟨hg, hq⟩ hp
      exact h.perform hg hq hp
  obtain ⟨L, hq⟩ := hk.queued
  have hmem : rp ∈ L .USER_Q := (hq.mem .USER_Q rp).mpr ⟨hu, hrp⟩
  obtain ⟨A, B, hl⟩ := List.append_of_mem hmem
  have hc := hq.chain .USER_Q
  have hlen := users_length hc.nodup fun x hx => ((hq.mem .USER_Q x).mp hx).1
  rw [hl] at hc hlen
  have hw : Waits rp A k := ⟨W, B, hk, hc⟩
  refine ⟨A, hw, ?_, fun l k' hrun => hw.run hrun⟩
  rw [List.length_append, List.length_cons] at hlen
  omega

/-- INIT has been forked, and its child waits behind it. -/
theorem round_robin_child :
    ∃ k, run perform (fun k c => AsIssued k c ∧ CopiesNoQueue k c) exampleStart
      (tasksWait ++ .sysCall RECEIVE MM ANY 100 :: .sysCall RECEIVE FS ANY 100 :: forkInit) =
        some k ∧
      ∃ A, Waits 11 A k ∧ A.length ≤ 13 := by
  obtain ⟨k, hk, hrun⟩ : ∃ k, run perform (fun k c => AsIssued k c ∧ CopiesNoQueue k c) exampleStart
      (tasksWait ++ .sysCall RECEIVE MM ANY 100 :: .sysCall RECEIVE FS ANY 100 :: forkInit) =
        some k ∧ Runnable k 11 := by
    have hall : (run perform (fun k c => AsIssued k c ∧ CopiesNoQueue k c) exampleStart
      (tasksWait ++ .sysCall RECEIVE MM ANY 100 :: .sysCall RECEIVE FS ANY 100 :: forkInit)).any
        (fun k => decide (Runnable k 11)) = true := by decide +kernel
    obtain ⟨k, hk, hd⟩ := (Option.any_eq_true _ _).mp hall
    exact ⟨k, hk, of_decide_eq_true hd⟩
  obtain ⟨A, hw, hlen, -⟩ := round_robin (.of_run (.init exampleStart_started) hk) hrun (by decide)
  exact ⟨k, hk, A, hw, hlen⟩

end Minix.Kernel
