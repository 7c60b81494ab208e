import Mathlib.Logic.Relation
import Minix.Kernel.System

/-!
# What a call does

Sending, receiving, interrupts and signals are made of a few effects on the queues. Every
call is taken apart here once, so that a fact about the queues or the messages is only
shown for each effect.
-/

namespace Minix.Kernel

open Function Relation

/-- Nothing that the queues and the messages depend on is different. -/
structure Frame (k k' : State) : Prop where
  sched : k'.sched = k.sched
  pFlags : k'.pFlags = k.pFlags
  callers : k'.callers = k.callers
  pMessbuf : k'.pMessbuf = k.pMessbuf
  pGetfrom : k'.pGetfrom = k.pGetfrom
  log : k'.log = k.log

/-- Making a process ready leaves the flags alone. -/
@[simp] theorem wake_pFlags (k : State) (rp : Slot) : (wake k rp).pFlags = k.pFlags := by
  unfold wake
  split <;> rfl

/-- It leaves the queues of senders alone. -/
@[simp] theorem wake_callers (k : State) (rp : Slot) : (wake k rp).callers = k.callers := by
  unfold wake
  split <;> rfl

/-- It leaves the message pointers alone. -/
@[simp] theorem wake_pMessbuf (k : State) (rp : Slot) : (wake k rp).pMessbuf = k.pMessbuf := by
  unfold wake
  split <;> rfl

/-- It leaves alone whom each process receives from. -/
@[simp] theorem wake_pGetfrom (k : State) (rp : Slot) : (wake k rp).pGetfrom = k.pGetfrom := by
  unfold wake
  split <;> rfl

/-- It leaves the messages alone. -/
@[simp] theorem wake_mem (k : State) (rp : Slot) : (wake k rp).mem = k.mem := by
  unfold wake
  split <;> rfl

/-- It delivers nothing. -/
@[simp] theorem wake_log (k : State) (rp : Slot) : (wake k rp).log = k.log := by
  unfold wake
  split <;> rfl

/-- The end of a receive delivers nothing more. -/
theorem endReceive_log (k : State) (rp : Slot) : (endReceive k rp).log = k.log := wake_log ..

/-- It clears the flag RECEIVING of one process. -/
theorem endReceive_pFlags (k : State) (rp : Slot) : (endReceive k rp).pFlags =
    update k.pFlags rp { k.pFlags rp with receiving := false } := wake_pFlags ..

/-- It leaves alone whom each process receives from. -/
theorem endReceive_pGetfrom (k : State) (rp : Slot) :
    (endReceive k rp).pGetfrom = k.pGetfrom := wake_pGetfrom ..

/-- The end of a send delivers nothing more. -/
theorem endSend_log (k : State) (rp : Slot) : (endSend k rp).log = k.log := wake_log ..

/-- It clears the flag SENDING of one process. -/
theorem endSend_pFlags (k : State) (rp : Slot) : (endSend k rp).pFlags =
    update k.pFlags rp { k.pFlags rp with sending := false } := wake_pFlags ..

/-- It leaves alone whom each process receives from. -/
theorem endSend_pGetfrom (k : State) (rp : Slot) :
    (endSend k rp).pGetfrom = k.pGetfrom := wake_pGetfrom ..

/-- A flag that one process keeps is the same for all. -/
theorem flag_update (p : PFlags → Bool) {f : Slot → PFlags} {v : PFlags} {rp : Slot}
    (hv : p v = p (f rp))
    (d : Slot) : p (update f rp v d) = p (f d) := by
  by_cases he : d = rp
  · rw [he, update_self, hv]
  · rw [update_of_ne he]

/-- The effects that calls are made of. -/
inductive Effect : State → State → Prop
  | deliver {k : State} {caller dest : Slot} (mPtr : Nat) :
      caller = HARDWARE ∨ k.pFlags caller = .clear → waitsFor k dest caller = true →
      Effect k (deliver k caller dest mPtr)
  | block {k k' : State} {caller dest : Slot} {mPtr : Nat} :
      caller ≠ HARDWARE → k.pFlags caller = .clear → (k.pFlags dest).slotFree = false →
      waitsFor k dest caller = false → block k caller dest mPtr = some k' → Effect k k'
  | acquire {k : State} {caller sender : Slot} {src : Int} {prevPtr : Option Slot} (mPtr : Nat) :
      caller ≠ HARDWARE → findSender k.callers caller src = some (prevPtr, some sender) →
      Effect k (acquire k caller prevPtr sender mPtr (src == ANY))
  | await {k k' : State} {caller : Slot} {src : Int} {mPtr : Nat} {prevPtr : Option Slot} :
      caller ≠ HARDWARE → (k.pFlags caller).slotFree = false →
      findSender k.callers caller src = some (prevPtr, none) → await k caller src mPtr = some k' → Effect k k'
  | sched (k : State) : Effect k { k with sched := sched k.sched }
  | pick (k : State) : Effect k { k with sched := pickProc k.sched }
  | irq (k : State) (i : Fin (NR_TASKS + 1)) (mPtr : Nat) : Effect k (logIrq k i mPtr)
  | frame {k k' : State} : Frame k k' → Effect k k'

/-- Some effects in a row. -/
abbrev Effects : State → State → Prop := ReflTransGen Effect

variable {k k' : State} {caller : Slot} {n : Int} {mPtr : Nat}

/-- A step that touches no message passing has no effect on it. -/
theorem Frame.effects (h : Frame k k') : Effects k k' := .single (.frame h)

/-- Setting a return code is one. -/
theorem setRet_frame (k : State) (rp : Slot) (n : Int) : Frame k (setRet k rp n) :=
  ⟨rfl, rfl, rfl, rfl, rfl, rfl⟩

/-- What `mini_send` can do: fail and change nothing, hand the message over, or block the
caller. -/
theorem miniSend_cases {dest : Int} (h : miniSend k caller dest mPtr = some (n, k')) :
    n ≠ OK ∧ k' = k ∨ n = OK ∧ ∃ destPtr, procAddr dest = some destPtr ∧
      (k.pFlags destPtr).slotFree = false ∧
      (waitsFor k destPtr caller = true ∧ k' = deliver k caller destPtr mPtr ∨
        waitsFor k destPtr caller = false ∧ caller ≠ HARDWARE ∧
          block k caller destPtr mPtr = some k') := by
  unfold miniSend at h
  split at h
  · cases h
    exact Or.inl ⟨by decide, rfl⟩
  · split at h
    · cases h
    · rename_i destPtr hd
      split at h
      · cases h
        exact Or.inl ⟨by decide, rfl⟩
      · rename_i hfree
        rw [Bool.not_eq_true] at hfree
        split at h
        · cases h
          exact Or.inl ⟨by decide, rfl⟩
        · split at h
          · rename_i hw
            cases h
            exact Or.inr ⟨rfl, destPtr, hd, hfree, Or.inl ⟨hw, rfl⟩⟩
          · rename_i hw
            rw [Bool.not_eq_true] at hw
            split at h
            · cases h
              exact Or.inl ⟨by decide, rfl⟩
            · obtain ⟨k₁, hb, he⟩ := Option.map_eq_some_iff.mp h
              cases he
              exact Or.inr ⟨rfl, destPtr, hd, hfree, Or.inr ⟨hw, ‹_›, hb⟩⟩

/-- `mini_send` accepts the destination and the address of the message. -/
def sendChecks (k : State) (caller : Slot) (dest : Int) (mPtr : Nat) : Prop :=
  ¬(procNr caller ≥ LOW_USER ∧ dest ≠ procNr FS ∧ dest ≠ procNr MM) ∧
    badAddr (k.pMap caller).d mPtr = false

instance (k : State) (caller : Slot) (dest : Int) (mPtr : Nat) :
    Decidable (sendChecks k caller dest mPtr) :=
  inferInstanceAs (Decidable (_ ∧ _))

/-- A message is only accepted when the checks are passed. -/
theorem miniSend_checks {dest : Int} (h : miniSend k caller dest mPtr = some (OK, k')) :
    sendChecks k caller dest mPtr := by
  unfold miniSend at h
  split at h
  · cases h
  · rename_i hdest
    refine ⟨hdest, ?_⟩
    split at h
    · cases h
    · split at h
      · cases h
      · split at h
        · cases h
        · exact Bool.not_eq_true _ ▸ ‹_›

/-- Sending is one effect. -/
theorem miniSend_effects {dest : Int} (hc : caller = HARDWARE ∨ k.pFlags caller = .clear)
    (h : miniSend k caller dest mPtr = some (n, k')) : Effects k k' := by
  rcases miniSend_cases h with ⟨-, rfl⟩ | ⟨-, destPtr, -, hfree, ⟨hw, rfl⟩ | ⟨hw, hne, hb⟩⟩
  · exact .refl
  · exact .single (.deliver mPtr hc hw)
  · exact .single (.block hne (hc.resolve_left hne) hfree hw hb)

/-- What telling MM of a signal does to the messages. -/
theorem tellMM_effects {mmp rp : Slot} (h : tellMM k mmp rp = some k') : Effects k k' := by
  unfold tellMM at h
  split at h
  · rename_i k₁ hs
    cases h
    refine .trans (Frame.effects ?_) (.trans (miniSend_effects (Or.inl rfl) hs) (Frame.effects ?_))
    · exact ⟨rfl, rfl, rfl, rfl, rfl, rfl⟩
    · exact ⟨rfl, rfl, rfl, rfl, rfl, rfl⟩
  · cases h

/-- And so `inform`. -/
theorem inform_effects {mmp : Slot} (h : inform k mmp = some k') : Effects k k' := by
  unfold inform at h
  split at h
  · cases h
    exact .refl
  · split at h
    · cases h
      exact .refl
    · exact tellMM_effects h

/-- What `mini_rec` can do: take a message that is queued, or block the caller. -/
theorem miniRec_cases {src : Int} (h : miniRec k caller src mPtr = some (n, k')) :
    (∃ prevPtr sender, findSender k.callers caller src = some (prevPtr, some sender) ∧
      k' = acquire k caller prevPtr sender mPtr (src == ANY)) ∨
    ∃ prevPtr k₁, findSender k.callers caller src = some (prevPtr, none) ∧
      await k caller src mPtr = some k₁ ∧
      (k' = k₁ ∨ k₁.sigProcs > 0 ∧ inform k₁ MM = some k') := by
  unfold miniRec at h
  split at h
  · cases h
  · cases h
    exact Or.inl ⟨_, _, ‹_›, rfl⟩
  · obtain ⟨k₁, hw, h⟩ := Option.bind_eq_some_iff.mp h
    obtain ⟨k₂, hi, h⟩ := Option.bind_eq_some_iff.mp h
    cases h
    refine Or.inr ⟨_, k₁, ‹_›, hw, ?_⟩
    unfold informBlocked at hi
    split at hi
    · rename_i hs
      exact Or.inr ⟨hs.1, hi⟩
    · cases hi
      exact Or.inl rfl

/-- What `mini_rec` does to the messages. -/
theorem miniRec_effects {src : Int} (hne : caller ≠ HARDWARE)
    (hc : (k.pFlags caller).slotFree = false) (h : miniRec k caller src mPtr = some (n, k')) : Effects k k' := by
  rcases miniRec_cases h with ⟨_, _, hf, rfl⟩ | ⟨_, k₁, hf, hw, rfl | ⟨-, hi⟩⟩
  · exact .single (.acquire mPtr hne hf)
  · exact .single (.await hne hc hf hw)
  · exact .head (.await hne hc hf hw) (inform_effects hi)

/-- What a system call can do: be refused, fail to send, and else send, receive, or send and
receive. -/
theorem sysCall_cases {function : Nat} {srcDest : Int}
    (h : sysCall k function caller srcDest mPtr = some k') :
    (∃ n, k' = setRet k caller n) ∨ ¬(function ≠ BOTH ∧ procNr caller ≥ LOW_USER) ∧
    ∃ n₁ k₁, (function &&& SEND = 0 ∧ n₁ = OK ∧ k₁ = k ∨
        function &&& SEND ≠ 0 ∧ miniSend k caller srcDest mPtr = some (n₁, k₁)) ∧
      ((k' = k₁ ∨ k' = setRet k₁ caller n₁) ∧ (n₁ ≠ OK ∨ function &&& RECEIVE = 0) ∨
        n₁ = OK ∧ function &&& RECEIVE ≠ 0 ∧ ∃ n₂ k₂ k₃, (k₂ = k₁ ∨ k₂ = setRet k₁ caller n₁) ∧
          miniRec k₂ caller srcDest mPtr = some (n₂, k₃) ∧ k' = setRet k₃ caller n₂) := by
  unfold sysCall at h
  split at h
  · exact Or.inl ⟨_, (Option.some.inj h).symm⟩
  · split at h
    · exact Or.inl ⟨_, (Option.some.inj h).symm⟩
    · rename_i hperm
      refine Or.inr ⟨hperm, ?_⟩
      split at h
      · cases h
      · rename_i n₁ k₂ hs
        obtain ⟨k₁, hsend, hk₂⟩ : ∃ k₁, (function &&& SEND = 0 ∧ n₁ = OK ∧ k₁ = k ∨
            function &&& SEND ≠ 0 ∧ miniSend k caller srcDest mPtr = some (n₁, k₁)) ∧
            (k₂ = k₁ ∨ k₂ = setRet k₁ caller n₁) := by
          unfold sendHalf at hs
          split at hs
          · rename_i hbit
            obtain ⟨⟨n, k₁⟩, hm, he⟩ := Option.map_eq_some_iff.mp hs
            cases he
            refine ⟨k₁, Or.inr ⟨hbit, hm⟩, ?_⟩
            split
            · exact Or.inr rfl
            · exact Or.inl rfl
          · rename_i hbit
            cases hs
            exact ⟨k, Or.inl ⟨not_not.mp hbit, rfl, rfl⟩, Or.inl rfl⟩
        refine ⟨n₁, k₁, hsend, ?_⟩
        split at h
        · cases h
          exact Or.inl ⟨hk₂, Or.inl ‹_›⟩
        · rename_i hok
          split at h
          · obtain ⟨⟨n₂, k₃⟩, hm, he⟩ := Option.map_eq_some_iff.mp h
            exact Or.inr ⟨not_not.mp hok, ‹_›, n₂, k₂, k₃, hk₂, hm, he.symm⟩
          · rename_i hbit
            cases h
            exact Or.inl ⟨hk₂, Or.inr (not_not.mp hbit)⟩

/-- Sending frees no slot and takes none. -/
theorem miniSend_slotFree {dest : Int} (h : miniSend k caller dest mPtr = some (n, k')) (rp : Slot) :
    (k'.pFlags rp).slotFree = (k.pFlags rp).slotFree := by
  rcases miniSend_cases h with ⟨-, rfl⟩ | ⟨-, destPtr, -, hfree, ⟨hw, rfl⟩ | ⟨hw, hne, hb⟩⟩
  · rfl
  · unfold deliver
    rw [endReceive_pFlags, flag_update PFlags.slotFree (by rfl)]
    rfl
  · obtain ⟨s, hs, hb⟩ := Option.bind_eq_some_iff.mp hb
    obtain ⟨c, hc, hb⟩ := Option.bind_eq_some_iff.mp hb
    obtain rfl := Option.some.inj hb
    unfold startSend
    dsimp only
    rw [flag_update PFlags.slotFree (by rfl)]
    rfl

/-- What setting a return code, or not, does to them. -/
theorem setRet_effects (h : k' = k ∨ k' = setRet k caller n) : Effects k k' := by
  rcases h with rfl | rfl
  · exact .refl
  · exact (setRet_frame k caller n).effects

/-- A system call of a process that runs is a row of effects. -/
theorem sysCall_effects {function : Nat} {srcDest : Int} (hne : caller ≠ HARDWARE)
    (hc : k.pFlags caller = .clear) (h : sysCall k function caller srcDest mPtr = some k') :
    Effects k k' := by
  rcases sysCall_cases h with ⟨n, hk⟩ | ⟨-, n₁, k₁, hs, hr⟩
  · exact setRet_effects (Or.inr hk)
  · have h₁ : Effects k k₁ := by
      rcases hs with ⟨-, -, rfl⟩ | ⟨-, hs⟩
      · exact .refl
      · exact miniSend_effects (Or.inr hc) hs
    rcases hr with ⟨hk, -⟩ | ⟨-, -, n₂, k₂, k₃, hk₂, hm, rfl⟩
    · exact h₁.trans (setRet_effects hk)
    · have hfree : (k₂.pFlags caller).slotFree = false := by
        have hfree₁ : (k₁.pFlags caller).slotFree = false := by
          rcases hs with ⟨-, -, rfl⟩ | ⟨-, hs⟩
          · rw [hc]
            rfl
          · rw [miniSend_slotFree hs, hc]
            rfl
        rcases hk₂ with rfl | rfl
        · exact hfree₁
        · exact hfree₁
      exact h₁.trans ((setRet_effects hk₂).trans
        ((miniRec_effects hne hfree hm).trans (setRet_frame k₃ caller n₂).effects))

/-- What trying the interrupts again does to them. -/
theorem retryBusy_effects {oldMap : Fin (NR_TASKS + 1) → Bool} {l : List (Fin (NR_TASKS + 1))}
    (h : retryBusy oldMap l k = some k') : Effects k k' := by
  induction l generalizing k with
  | nil =>
    cases h
    exact .refl
  | cons i l ih =>
    rw [retryBusy] at h
    split at h
    · split at h
      · cases h
      · rename_i n k₁ hs
        refine (miniSend_effects (Or.inl rfl) hs).trans (.trans (Frame.effects ?_) (ih h))
        split <;> exact ⟨rfl, rfl, rfl, rfl, rfl, rfl⟩
    · exact ih h

/-- What offering an interrupt to a busy task does to them. -/
theorem offerInterrupt_effects {i : Fin (NR_TASKS + 1)} {oldMap : Fin (NR_TASKS + 1) → Bool}
    (h : offerInterrupt k i mPtr = some (oldMap, k')) : Effects k k' := by
  unfold offerInterrupt at h
  split at h
  · cases h
  · rename_i n k₁ hs
    refine (miniSend_effects (Or.inl rfl) hs).trans (Frame.effects ?_)
    split at h
    · split at h <;> cases h <;> exact ⟨rfl, rfl, rfl, rfl, rfl, rfl⟩
    · cases h
      exact ⟨rfl, rfl, rfl, rfl, rfl, rfl⟩

/-- An interrupt is a row of effects. -/
theorem interrupt_effects {i : Fin (NR_TASKS + 1)} (h : interrupt k i mPtr = some k') :
    Effects k k' := by
  obtain ⟨⟨oldMap, k₁⟩, h₁, h⟩ := Option.bind_eq_some_iff.mp h
  obtain ⟨k₂, h₂, h⟩ := Option.bind_eq_some_iff.mp h
  refine .head (.irq k i mPtr) ((offerInterrupt_effects h₁).trans ((retryBusy_effects h₂).trans ?_))
  split at h
  · cases h
    exact .single (.pick k₂)
  · cases h
    exact .refl

/-- A signal is a row of effects. -/
theorem causeSig_effects {n : Int} {sigNr : Nat} (h : causeSig k n sigNr = some k') :
    Effects k k' := by
  unfold causeSig at h
  split at h
  · cases h
  · refine .trans (Frame.effects ?_) (inform_effects h)
    exact ⟨rfl, rfl, rfl, rfl, rfl, rfl⟩

end Minix.Kernel
