import Mathlib.Data.Fintype.Card
import Minix.Kernel.Calls

/-!
# Signals for the memory manager

A signal is noted in `p_pending` until the memory manager can be told, and `sig_procs`
counts the processes that have one noted. The count is right, and the memory manager never
waits for a message while there is a signal to tell it about, as long as no process is
forked or removed that has signals pending.
-/

namespace Minix.Kernel

open Function Transition

/-- MM is blocked and takes messages from anybody. -/
def Listening (k : State) : Prop := (k.pFlags MM).receiving = true ∧ k.pGetfrom MM = ANY

instance (k : State) : Decidable (Listening k) := inferInstanceAs (Decidable (_ ∧ _))

/-- The live slots with signals pending. -/
def pendingProcs (k : State) : Finset Slot :=
  Finset.univ.filter fun rp => (k.pFlags rp).slotFree = false ∧ k.pPending rp ≠ 0

/-- The signals are accounted for. -/
structure Bookkept (k : State) : Prop where
  users : ∀ rp, k.pPending rp ≠ 0 → (k.pFlags rp).slotFree = false ∧ 0 ≤ procNr rp
  counted : k.sigProcs = (pendingProcs k).card
  told : Listening k → ∀ rp, k.pPending rp = 0

/-- Nothing that the signals depend on is different, unless MM stops to listen. -/
structure Still (k k' : State) : Prop where
  pPending : k'.pPending = k.pPending
  sigProcs : k'.sigProcs = k.sigProcs
  live : ∀ rp, (k'.pFlags rp).slotFree = (k.pFlags rp).slotFree
  listening : Listening k' → Listening k

variable {k k' k₁ k₂ : State} {caller dest rp rc parent child : Slot} {mPtr : Nat} {n : Int}

namespace Still

/-- Doing nothing keeps the counters as they are. -/
theorem refl (k : State) : Still k k := ⟨rfl, rfl, fun _ => rfl, id⟩

/-- So do two steps that each keep them. -/
theorem trans (h : Still k k₁) (h' : Still k₁ k₂) : Still k k₂ :=
  ⟨h'.pPending.trans h.pPending, h'.sigProcs.trans h.sigProcs,
    fun rp => (h'.live rp).trans (h.live rp), fun hl => h.listening (h'.listening hl)⟩

/-- Only other variables are different. -/
theorem of_eq (hp : k'.pPending = k.pPending) (hs : k'.sigProcs = k.sigProcs)
    (hf : k'.pFlags = k.pFlags) (hg : k'.pGetfrom = k.pGetfrom) : Still k k' := by
  refine ⟨hp, hs, fun rp => by rw [hf], fun hl => ?_⟩
  unfold Listening at hl
  rwa [hf, hg] at hl

/-- One process stops to wait for a message, or one flag of it is different that does not
matter. -/
theorem update_flags (rp : Slot) (v : PFlags) (hv : v.slotFree = (k.pFlags rp).slotFree)
    (hr : v.receiving = true → (k.pFlags rp).receiving = true) :
    Still k { k with pFlags := update k.pFlags rp v } := by
  refine ⟨rfl, rfl, fun q => flag_update PFlags.slotFree hv q, fun hl => ⟨?_, hl.2⟩⟩
  have hl : (update k.pFlags rp v MM).receiving = true := hl.1
  by_cases he : MM = rp
  · subst he
    exact hr (by rwa [update_self] at hl)
  · rwa [update_of_ne he] at hl

/-- `ready` and what goes with it keeps them. -/
theorem wake (k : State) (rp : Slot) : Still k (wake k rp) := by
  unfold Kernel.wake
  split
  · exact of_eq rfl rfl rfl rfl
  · exact refl k

/-- The end of a send keeps them. -/
theorem endSend (k : State) (rp : Slot) : Still k (endSend k rp) :=
  (update_flags rp { k.pFlags rp with sending := false } rfl id).trans (wake _ rp)

/-- The end of a receive keeps them. -/
theorem endReceive (k : State) (rp : Slot) : Still k (endReceive k rp) := by
  refine (update_flags rp { k.pFlags rp with receiving := false } rfl ?_).trans
    (wake _ rp)
  exact fun hr => (nomatch hr)

/-- The copy of a message keeps them. -/
theorem deliver (k : State) (caller dest : Slot) (mPtr : Nat) :
    Still k (deliver k caller dest mPtr) :=
  (of_eq rfl rfl rfl rfl : Still k (cpMess (logAccept k caller dest mPtr) caller mPtr dest
    (k.pMessbuf dest) (k.pGetfrom dest == ANY))).trans (endReceive _ dest)

/-- Waiting to send keeps them. -/
theorem block (h : block k caller dest mPtr = some k') : Still k k' := by
  obtain ⟨s, -, h⟩ := Option.bind_eq_some_iff.mp h
  obtain ⟨c, -, h⟩ := Option.bind_eq_some_iff.mp h
  obtain rfl := Option.some.inj h
  exact (update_flags caller { k.pFlags caller with sending := true } rfl id).trans
    (of_eq rfl rfl rfl rfl)

/-- Taking a message from the queue keeps them. -/
theorem acquire (k : State) (caller sender : Slot) (prevPtr : Option Slot) (mPtr : Nat)
    (any : Bool) : Still k (acquire k caller prevPtr sender mPtr any) :=
  (of_eq rfl rfl rfl rfl : Still k (cpMess k sender (k.pMessbuf sender) caller mPtr any)).trans
    ((endSend _ sender).trans (of_eq rfl rfl rfl rfl))

/-- The return code keeps them. -/
theorem setRet (k : State) (rp : Slot) (n : Int) : Still k (setRet k rp n) :=
  of_eq rfl rfl rfl rfl

/-- `mini_send` keeps them. -/
theorem miniSend {srcDest : Int} (h : miniSend k caller srcDest mPtr = some (n, k')) :
    Still k k' := by
  rcases miniSend_cases h with ⟨-, rfl⟩ | ⟨-, destPtr, -, -, ⟨-, rfl⟩ | ⟨-, -, hb⟩⟩
  · exact refl k'
  · exact deliver k caller destPtr mPtr
  · exact block hb

/-- Interrupts tried again keep them. -/
theorem retryBusy {oldMap : Fin (NR_TASKS + 1) → Bool} {l : List (Fin (NR_TASKS + 1))}
    (h : retryBusy oldMap l k = some k') : Still k k' := by
  induction l generalizing k with
  | nil =>
    cases h
    exact refl _
  | cons i l ih =>
    rw [Kernel.retryBusy] at h
    split at h
    · split at h
      · cases h
      · rename_i n k₁ hs
        refine (miniSend hs).trans (.trans ?_ (ih h))
        split <;> exact of_eq rfl rfl rfl rfl
    · exact ih h

/-- An interrupt offered to a busy task keeps them. -/
theorem offerInterrupt {i : Fin (NR_TASKS + 1)} {oldMap : Fin (NR_TASKS + 1) → Bool}
    (h : offerInterrupt k i mPtr = some (oldMap, k')) : Still k k' := by
  unfold Kernel.offerInterrupt at h
  split at h
  · cases h
  · rename_i n k₁ hs
    refine (miniSend hs).trans ?_
    split at h
    · split at h <;> cases h <;> exact of_eq rfl rfl rfl rfl
    · cases h
      exact of_eq rfl rfl rfl rfl

/-- `interrupt` keeps them. -/
theorem interrupt {i : Fin (NR_TASKS + 1)} (h : interrupt k i mPtr = some k') : Still k k' := by
  obtain ⟨⟨oldMap, k₁⟩, h₁, h⟩ := Option.bind_eq_some_iff.mp h
  obtain ⟨k₂, h₂, h⟩ := Option.bind_eq_some_iff.mp h
  have hirq : Still k (logIrq k i mPtr) := of_eq rfl rfl rfl rfl
  refine hirq.trans ((offerInterrupt h₁).trans ((retryBusy h₂).trans ?_))
  split at h
  · cases h
    exact of_eq rfl rfl rfl rfl
  · cases h
    exact refl _

/-- A new map keeps them, also when it wakes the process. -/
theorem newmap (k : State) (rp : Slot) (map : ProcMap) :
    Still k (if k.pFlags rp ≠ .clear then Kernel.wake (mapped k rp map) rp
      else mapped k rp map) := by
  have hm : Still k (mapped k rp map) :=
    (update_flags rp { k.pFlags rp with noMap := false } rfl id).trans
      (of_eq rfl rfl rfl rfl)
  split
  · exact hm.trans (wake _ rp)
  · exact hm

/-- The same processes have signals pending. -/
theorem pendingProcs_eq (h : Still k k') : pendingProcs k' = pendingProcs k := by
  unfold pendingProcs
  rw [h.pPending]
  exact Finset.filter_congr fun rp _ => by rw [h.live]

/-- What keeps the counters keeps the bookkeeping. -/
theorem bookkept (h : Still k k') (hb : Bookkept k) : Bookkept k' := by
  refine ⟨fun rp hp => ?_, ?_, fun hl => ?_⟩
  · rw [h.pPending] at hp
    rw [h.live]
    exact hb.users rp hp
  · rw [h.sigProcs, h.pendingProcs_eq]
    exact hb.counted
  · rw [h.pPending]
    exact hb.told (h.listening hl)

end Still

/-- What `inform` can do: nothing, and then MM is not listening or nobody has signals pending, or
tell MM about a process. -/
theorem inform_cases (h : inform k MM = some k') :
    k' = k ∧ (Listening k → ∀ rp, 0 ≤ procNr rp → k.pPending rp = 0) ∨
    ∃ rp, k.pPending rp ≠ 0 ∧ ¬Listening k' ∧ k'.pPending = update k.pPending rp 0 ∧
      k'.sigProcs = k.sigProcs - 1 ∧ ∀ q, (k'.pFlags q).slotFree = (k.pFlags q).slotFree := by
  unfold inform at h
  split at h
  · rename_i hn
    refine Or.inl ⟨(Option.some.inj h).symm, fun hl => ?_⟩
    rcases hn with hr | hg
    · exact absurd hl.1 hr
    · exact absurd hl.2 hg
  · split at h
    · rename_i hnone
      refine Or.inl ⟨(Option.some.inj h).symm, fun _ rp hrp => ?_⟩
      by_contra hp
      have := List.find?_eq_none.mp hnone rp (List.mem_finRange rp)
      exact this (decide_eq_true ⟨hrp, hp⟩)
    · rename_i rp hfind
      have hp : k.pPending rp ≠ 0 := by
        have hf := List.find?_some hfind
        rw [decide_eq_true_eq] at hf
        exact hf.2
      unfold tellMM at h
      split at h
      · rename_i k₁ hs
        obtain rfl := Option.some.inj h
        rcases miniSend_cases hs with ⟨hok, -⟩ | ⟨-, dest, hd, -, ⟨-, rfl⟩ | ⟨-, hne, -⟩⟩
        · exact absurd rfl hok
        · obtain rfl : MM = dest := Option.some.inj hd
          have hq := Still.deliver (buildKsig k rp) HARDWARE MM k.vars.sysMess
          refine Or.inr ⟨rp, hp, fun hl => ?_, ?_, hq.sigProcs, hq.live⟩
          · have hr : ((deliver (buildKsig k rp) HARDWARE MM k.vars.sysMess).pFlags MM).receiving =
                true := hl.1
            unfold deliver at hr
            rw [endReceive_pFlags, update_self] at hr
            cases hr
          · exact congrArg (update · rp 0) hq.pPending
        · exact absurd rfl hne
      · cases h

/-- What `mini_rec` can do: take a message that is queued, or block the caller, and then MM may be
told about a signal. -/
theorem miniRec_blocks {src : Int} (h : miniRec k caller src mPtr = some (n, k')) :
    (∃ prevPtr sender, k' = acquire k caller prevPtr sender mPtr (src == ANY)) ∨
    ∃ s, informBlocked (startReceive k caller src mPtr s) caller src = some k' := by
  unfold miniRec at h
  split at h
  · cases h
  · cases h
    exact Or.inl ⟨_, _, rfl⟩
  · obtain ⟨k₁, hw, hr⟩ := Option.bind_eq_some_iff.mp h
    obtain ⟨k₂, hi, he⟩ := Option.bind_eq_some_iff.mp hr
    obtain ⟨s, -, rfl⟩ := Option.map_eq_some_iff.mp hw
    cases he
    exact Or.inr ⟨s, hi⟩

namespace Bookkept

/-- A process is counted when its slot is taken and it has a signal pending. -/
theorem mem_pendingProcs : rp ∈ pendingProcs k ↔
    (k.pFlags rp).slotFree = false ∧ k.pPending rp ≠ 0 := by
  rw [pendingProcs, Finset.mem_filter]
  exact and_iff_right (Finset.mem_univ rp)

/-- MM is told, if it listens and there is somebody to tell it about. -/
theorem inform (hu : ∀ rp, k.pPending rp ≠ 0 → (k.pFlags rp).slotFree = false ∧ 0 ≤ procNr rp)
    (hc : k.sigProcs = (pendingProcs k).card) (h : inform k MM = some k') : Bookkept k' := by
  rcases inform_cases h with ⟨rfl, hnone⟩ | ⟨rp, hp, hl, hpend, hsig, hlive⟩
  · refine ⟨hu, hc, fun hl rp => ?_⟩
    by_contra hp
    exact hp (hnone hl rp (hu rp hp).2)
  · have hset : pendingProcs k' = (pendingProcs k).erase rp := by
      ext q
      rw [Finset.mem_erase, mem_pendingProcs, mem_pendingProcs, hlive, hpend]
      by_cases he : q = rp
      · rw [he, update_self]
        exact ⟨fun hq => absurd rfl hq.2, fun hq => absurd rfl hq.1⟩
      · rw [update_of_ne he]
        exact (and_iff_right he).symm
    have hmem : rp ∈ pendingProcs k := mem_pendingProcs.mpr ⟨(hu rp hp).1, hp⟩
    refine ⟨fun q hq => ?_, ?_, fun hl' => absurd hl' hl⟩
    · rw [hpend] at hq
      by_cases he : q = rp
      · rw [he, update_self] at hq
        exact absurd rfl hq
      · rw [update_of_ne he] at hq
        rw [hlive]
        exact hu q hq
    · rw [hsig, hset, hc, ← Finset.card_erase_add_one hmem]
      push_cast
      omega

/-- MM blocks, and is told at once about a signal that is pending. -/
theorem miniRec {src : Int} (hb : Bookkept k) (h : miniRec k caller src mPtr = some (n, k')) :
    Bookkept k' := by
  rcases miniRec_blocks h with ⟨prevPtr, sender, rfl⟩ | ⟨s, h⟩
  · exact (Still.acquire k caller sender prevPtr mPtr (src == ANY)).bookkept hb
  · have hlive : ∀ q, ((startReceive k caller src mPtr s).pFlags q).slotFree =
        (k.pFlags q).slotFree := fun q => flag_update PFlags.slotFree (by rfl) q
    have hset : pendingProcs (startReceive k caller src mPtr s) = pendingProcs k := by
      ext q
      rw [mem_pendingProcs, mem_pendingProcs, hlive]
      rfl
    have hu : ∀ rp, k.pPending rp ≠ 0 →
        ((startReceive k caller src mPtr s).pFlags rp).slotFree = false ∧ 0 ≤ procNr rp := by
      intro rp hp
      rw [hlive]
      exact hb.users rp hp
    have hc : k.sigProcs = (pendingProcs (startReceive k caller src mPtr s)).card := by
      rw [hset]
      exact hb.counted
    unfold informBlocked at h
    split at h
    · exact Bookkept.inform hu hc h
    · rename_i hn
      obtain rfl := Option.some.inj h
      refine ⟨hu, hc, fun hl rp => ?_⟩
      change k.pPending rp = 0
      by_cases hm : caller = MM
      · subst hm
        have hsrc : src = ANY := by
          have hg : update k.pGetfrom MM src MM = ANY := hl.2
          rwa [update_self] at hg
        by_contra hp
        have hpos : 0 < (pendingProcs k).card :=
          Finset.card_pos.mpr ⟨rp, mem_pendingProcs.mpr ⟨(hb.users rp hp).1, hp⟩⟩
        refine hn ⟨?_, rfl, hsrc⟩
        change k.sigProcs > 0
        rw [hb.counted]
        exact_mod_cast hpos
      · have hr : (update k.pFlags caller { k.pFlags caller with receiving := true } MM).receiving =
            true := hl.1
        have hg : update k.pGetfrom caller src MM = ANY := hl.2
        rw [update_of_ne (Ne.symm hm)] at hr hg
        exact hb.told ⟨hr, hg⟩ rp

/-- SEND, RECEIVE and BOTH keep the bookkeeping, `inform` included. -/
theorem sysCall {function : Nat} {srcDest : Int} (hb : Bookkept k)
    (h : sysCall k function caller srcDest mPtr = some k') : Bookkept k' := by
  rcases sysCall_cases h with ⟨n, rfl⟩ | ⟨-, n₁, k₁, hs, hr⟩
  · exact (Still.setRet k caller n).bookkept hb
  · have h₁ : Bookkept k₁ := by
      rcases hs with ⟨-, -, rfl⟩ | ⟨-, hs⟩
      · exact hb
      · exact (Still.miniSend hs).bookkept hb
    rcases hr with ⟨rfl | rfl, -⟩ | ⟨-, -, n₂, k₂, k₃, hk₂, hm, rfl⟩
    · exact h₁
    · exact (Still.setRet k₁ caller n₁).bookkept h₁
    · have h₂ : Bookkept k₂ := by
        rcases hk₂ with rfl | rfl
        · exact h₁
        · exact (Still.setRet k₁ caller n₁).bookkept h₁
      exact (Still.setRet k₃ caller n₂).bookkept (h₂.miniRec hm)

end Bookkept

/-- Tasks send signals to user processes, in the range 1 - 16, and the memory manager puts the child
of a fork into the slot of a user process. -/
def ToUsers : Call → Prop
  | .causeSig n sigNr => 0 ≤ n ∧ 1 ≤ sigNr ∧ sigNr ≤ 16
  | .fork _ k2 _ => LOW_USER ≤ k2
  | _ => True

/-- No process is forked or removed that has signals pending, and none is noted for a free slot that
MM cannot be told about at once. -/
def KeepsPending (k : State) : Call → Prop
  | .causeSig n _ => flagsOf k n (fun f => !f.slotFree) ∨ Listening k
  | .fork k1 _ _ => ∀ rp, procAddr k1 = some rp → k.pPending rp = 0
  | .xit _ proc => ∀ rp, procAddr proc = some rp → k.pPending rp = 0
  | _ => True

/-- The calls that run as they should. -/
abbrev KeptAsIssued (k : State) (c : Call) : Prop := AsIssued k c ∧ ToUsers c ∧ KeepsPending k c

/-- The number of the slot that `proc_addr` finds. -/
theorem procNr_of_procAddr (h : procAddr n = some rp) : procNr rp = n := by
  unfold procAddr at h
  split at h
  · rename_i hn
    have hn : 0 ≤ n + 8 := hn.1
    obtain rfl := Option.some.inj h
    unfold procNr
    change ((n + 8).toNat : Int) - 8 = n
    omega
  · cases h

namespace Bookkept

/-- The slots of signals are live. -/
theorem not_pending (hb : Bookkept k) (hf : (k.pFlags rp).slotFree = true) : k.pPending rp = 0 := by
  by_contra hp
  exact (nomatch (hb.users rp hp).1.symm.trans hf)

/-- A signal that is added is pending. -/
theorem addSignal_pending (k : State) (rp : Slot) (sigNr : Nat) :
    (addSignal k rp sigNr).pPending rp ≠ 0 := by
  unfold addSignal
  dsimp only
  rw [update_self]
  intro h
  have := (Nat.or_eq_zero_iff.mp h).2
  rw [Nat.one_shiftLeft] at this
  exact absurd this (Nat.two_pow_pos _).ne'

/-- It is pending for one process. -/
theorem addSignal_pending_of_ne {q : Slot} (he : q ≠ rp) (sigNr : Nat) :
    (addSignal k rp sigNr).pPending q = k.pPending q :=
  update_of_ne he _ _

/-- A signal for a live process is counted. -/
theorem addSignal_card (hb : Bookkept k) (hl : (k.pFlags rp).slotFree = false) (sigNr : Nat) :
    (addSignal k rp sigNr).sigProcs = (pendingProcs (addSignal k rp sigNr)).card := by
  have hset : pendingProcs (addSignal k rp sigNr) = insert rp (pendingProcs k) := by
    ext q
    rw [Finset.mem_insert, mem_pendingProcs, mem_pendingProcs]
    by_cases he : q = rp
    · subst he
      exact ⟨fun _ => Or.inl rfl, fun _ => ⟨hl, addSignal_pending k q sigNr⟩⟩
    · rw [addSignal_pending_of_ne he]
      exact (or_iff_right he).symm
  rw [hset]
  by_cases hp : k.pPending rp = 0
  · have hmem : rp ∉ pendingProcs k := fun hm => (mem_pendingProcs.mp hm).2 hp
    rw [Finset.card_insert_of_notMem hmem]
    refine (if_pos hp).trans ?_
    rw [hb.counted]
    push_cast
    rfl
  · rw [Finset.insert_eq_of_mem (mem_pendingProcs.mpr ⟨hl, hp⟩)]
    exact (if_neg hp).trans hb.counted

/-- A signal for a free slot while MM listens: MM is told, and that is all. -/
theorem causeSig_free (hb : Bookkept k) (hf : (k.pFlags rp).slotFree = true) (hl : Listening k)
    (hrp : 0 ≤ procNr rp) {sigNr : Nat}
    (h : Kernel.inform (addSignal k rp sigNr) MM = some k') :
    Bookkept k' := by
  have hnone := hb.told hl
  rcases inform_cases h with ⟨-, ht⟩ | ⟨q, hq, hnl, hpend, hsig, hlive⟩
  · exact absurd (ht hl rp hrp) (addSignal_pending k rp sigNr)
  · obtain rfl : q = rp := by
      by_contra he
      rw [addSignal_pending_of_ne he] at hq
      exact hq (hnone q)
    have hzero : ∀ r, k'.pPending r = 0 := by
      intro r
      rw [hpend]
      by_cases he : r = q
      · rw [he, update_self]
      · rw [update_of_ne he, addSignal_pending_of_ne he]
        exact hnone r
    have hempty : ∀ j : State, (∀ r, j.pPending r = 0) → pendingProcs j = ∅ := fun j hj =>
      Finset.eq_empty_of_forall_notMem fun r hr => (mem_pendingProcs.mp hr).2 (hj r)
    have hcount := hb.counted
    rw [hempty k hnone] at hcount
    refine ⟨fun r hr => absurd (hzero r) hr, ?_, fun _ => hzero⟩
    rw [hsig, hempty k' hzero]
    have hone : (addSignal k q sigNr).sigProcs = k.sigProcs + 1 := if_pos (hnone q)
    rw [hone, hcount]
    rfl

/-- `cause_sig` keeps the bookkeeping when its process is there or MM is listening. -/
theorem causeSig {sigNr : Nat} (hb : Bookkept k) (hn : 0 ≤ n)
    (hl : flagsOf k n (fun f => !f.slotFree) ∨ Listening k)
    (h : causeSig k n sigNr = some k') : Bookkept k' := by
  unfold Kernel.causeSig at h
  split at h
  · cases h
  · rename_i rp hrp
    have hnr : 0 ≤ procNr rp := (procNr_of_procAddr hrp).symm ▸ hn
    cases hf : (k.pFlags rp).slotFree with
    | false =>
      refine Bookkept.inform (fun q hq => ?_) (hb.addSignal_card hf sigNr) h
      by_cases he : q = rp
      · subst he
        exact ⟨hf, hnr⟩
      · rw [addSignal_pending_of_ne he] at hq
        exact hb.users q hq
    | true =>
      refine hb.causeSig_free hf (hl.resolve_left fun hl => ?_) hnr h
      have := flagsOf_some hl hrp
      rw [hf] at this
      cases this

/-- The child of a process without pending signals has none either. -/
theorem fork (hb : Bookkept k) (hp : k.pPending parent = 0)
    (hc : (k.pFlags child).slotFree = true) (hne : child ≠ MM) (pid : Int) :
    Bookkept (forked (copyProc k parent child) child pid) := by
  have hpend : (forked (copyProc k parent child) child pid).pPending = k.pPending := by
    unfold forked copyProc
    dsimp only
    rw [hp, ← hb.not_pending hc, update_eq_self]
  have hflags : ∀ q, q ≠ child →
      (forked (copyProc k parent child) child pid).pFlags q = k.pFlags q := by
    intro q hq
    unfold forked copyProc
    dsimp only
    rw [update_of_ne hq, update_of_ne hq]
  have hchild : ∀ q, k.pPending q ≠ 0 → q ≠ child := by
    rintro q hq rfl
    exact hq (hb.not_pending hc)
  refine ⟨fun q hq => ?_, ?_, fun hl => ?_⟩
  · rw [hpend] at hq
    rw [hflags q (hchild q hq)]
    exact hb.users q hq
  · have hset : pendingProcs (forked (copyProc k parent child) child pid) = pendingProcs k := by
      ext q
      rw [mem_pendingProcs, mem_pendingProcs, hpend]
      exact and_congr_left fun hq => by rw [hflags q (hchild q hq)]
    rw [hset]
    exact hb.counted
  · obtain ⟨hr, hg⟩ := hl
    have hg' : update k.pGetfrom child (k.pGetfrom parent) MM = ANY := hg
    rw [hflags MM hne.symm] at hr
    rw [update_of_ne hne.symm] at hg'
    rw [hpend]
    exact hb.told ⟨hr, hg'⟩

/-- A process without pending signals is removed. -/
theorem xit (hb : Bookkept k) (hp : k.pPending rc = 0) (h : removeProc k rc = some k') :
    Bookkept k' := by
  obtain ⟨s, -, h⟩ := Option.bind_eq_some_iff.mp h
  obtain ⟨c, -, h⟩ := Option.bind_eq_some_iff.mp h
  obtain rfl := Option.some.inj h
  have hflags : ∀ q, q ≠ rc → (freeSlot k rc s c).pFlags q = k.pFlags q := fun q hq =>
    update_of_ne hq _ _
  have hrc : ∀ q, k.pPending q ≠ 0 → q ≠ rc := by
    rintro q hq rfl
    exact hq hp
  refine ⟨fun q hq => ?_, ?_, fun hl => ?_⟩
  · rw [hflags q (hrc q hq)]
    exact hb.users q hq
  · have hset : pendingProcs (freeSlot k rc s c) = pendingProcs k := by
      ext q
      rw [mem_pendingProcs, mem_pendingProcs]
      exact and_congr_left fun hq => by rw [hflags q (hrc q hq)]
    rw [hset]
    exact hb.counted
  · by_cases he : MM = rc
    · subst he
      have hr : (update k.pFlags MM PFlags.free MM).receiving = true := hl.1
      rw [update_self] at hr
      cases hr
    · have hr := hl.1
      rw [hflags MM he] at hr
      exact hb.told ⟨hr, hl.2⟩

/-- So does every call of the system task that is issued as MM issues it. -/
theorem perform {c : Call} (hb : Bookkept k) (hg : KeptAsIssued k c)
    (h : perform k c = some k') : Bookkept k' := by
  obtain ⟨hi, hu, hk⟩ := hg
  cases c with
  | sysCall function caller srcDest mPtr => exact hb.sysCall h
  | interrupt task mPtr => exact (Still.interrupt h).bookkept hb
  | sched =>
    obtain rfl := Option.some.inj h
    have hq : Still k { k with sched := sched k.sched } := .of_eq rfl rfl rfl rfl
    exact hq.bookkept hb
  | causeSig n sigNr => exact hb.causeSig hu.1 hk h
  | inform => exact Bookkept.inform hb.users hb.counted h
  | fork k1 k2 pid =>
    rcases doFork_cases h with rfl | ⟨parent, child, h₁, h₂, -, rfl⟩
    · exact hb
    · refine hb.fork (hk parent h₁) (flagsOf_some hi.2 h₂) ?_ pid
      rintro rfl
      have hn := procNr_of_procAddr h₂
      have hu : LOW_USER ≤ k2 := hu
      rw [← hn] at hu
      exact absurd hu (by decide)
  | newmap n map =>
    rcases doNewmap_cases h with rfl | ⟨rp, -, rfl⟩
    · exact hb
    · exact (Still.newmap k rp map).bookkept hb
  | exec n sp =>
    rcases doExec_cases h with rfl | ⟨rp, -, rfl⟩
    · exact hb
    · have hq : Still k (resetProc k rp sp) := .of_eq rfl rfl rfl rfl
      exact (hq.trans (Still.endReceive _ rp)).bookkept hb
  | xit parent proc =>
    rcases doXit_cases h with rfl | ⟨rp, rc, hn, -, hr⟩
    · exact hb
    · have hq : Still k (accumTimes k rp rc) := .of_eq rfl rfl rfl rfl
      exact (hq.bookkept hb).xit (hk rc hn) hr
  | store rp a b =>
    obtain rfl := Option.some.inj h
    have hq : Still k (storeByte k rp a b) := .of_eq rfl rfl rfl rfl
    exact hq.bookkept hb

/-- At the start nothing is pending. -/
theorem started (h : Started k) : Bookkept k := by
  obtain ⟨vars, base, sizes, mem, rfl⟩ := h
  refine ⟨fun rp hp => absurd rfl hp, ?_, fun _ _ => rfl⟩
  have hempty : pendingProcs (main vars base sizes mem) = ∅ :=
    Finset.eq_empty_of_forall_notMem fun r hr => (mem_pendingProcs.mp hr).2 rfl
  rw [hempty]
  rfl

end Bookkept

/-- In every run in which no process is forked or removed that has signals pending, and no signal is
noted for a free slot, `sig_procs` is the number of live processes with pending signals, a child
starts without any, and when MM listens there are none. -/
theorem signal_bookkeeping (hr : Reach perform KeptAsIssued Started k) :
    k.sigProcs = (pendingProcs k).card ∧
    (∀ k1 k2 pid k', KeptAsIssued k (.fork k1 k2 pid) → perform k (.fork k1 k2 pid) = some k' →
      ∀ child, procAddr k2 = some child → k'.pPending child = 0) ∧
    (Listening k → ∀ rp, (k.pFlags rp).slotFree = false → k.pPending rp = 0) := by
  have hb : Bookkept k := hr.invariant Bookkept (fun k => Bookkept.started)
    fun k c k' h hg he => h.perform hg he
  refine ⟨hb.counted, fun k1 k2 pid k' hg he child hc => ?_, fun hl rp _ => hb.told hl rp⟩
  have hfree := hb.not_pending (flagsOf_some hg.1.2 hc)
  rcases doFork_cases he with rfl | ⟨parent, child', h₁, h₂, -, rfl⟩
  · exact hfree
  · obtain rfl := Option.some.inj (h₂.symm.trans hc)
    unfold forked copyProc
    dsimp only
    rw [update_self]
    exact hg.2.2 parent h₁

section Example

instance : (c : Call) → Decidable (ToUsers c)
  | .causeSig n sigNr => inferInstanceAs (Decidable (0 ≤ n ∧ 1 ≤ sigNr ∧ sigNr ≤ 16))
  | .fork _ k2 _ => inferInstanceAs (Decidable (LOW_USER ≤ k2))
  | .sysCall _ _ _ _ => .isTrue trivial
  | .interrupt _ _ => .isTrue trivial
  | .sched => .isTrue trivial
  | .inform => .isTrue trivial
  | .newmap _ _ => .isTrue trivial
  | .exec _ _ => .isTrue trivial
  | .xit _ _ => .isTrue trivial
  | .store _ _ _ => .isTrue trivial

instance (k : State) : (c : Call) → Decidable (KeepsPending k c)
  | .causeSig n _ =>
    inferInstanceAs (Decidable (flagsOf k n (fun f => !f.slotFree) = true ∨ Listening k))
  | .fork k1 _ _ => inferInstanceAs (Decidable (∀ rp, procAddr k1 = some rp → k.pPending rp = 0))
  | .xit _ proc => inferInstanceAs (Decidable (∀ rp, procAddr proc = some rp → k.pPending rp = 0))
  | .sysCall _ _ _ _ => .isTrue trivial
  | .interrupt _ _ => .isTrue trivial
  | .sched => .isTrue trivial
  | .inform => .isTrue trivial
  | .newmap _ _ => .isTrue trivial
  | .exec _ _ => .isTrue trivial
  | .store _ _ _ => .isTrue trivial

/-- INIT calls MM, and MM works on it. -/
def workForInit : List Call :=
  tasksWait ++ [.sysCall RECEIVE MM ANY 100, .sysCall RECEIVE FS ANY 100, .sysCall BOTH 10 0 100]

/-- INIT gets two signals after it has been forked, and MM does not listen yet. -/
theorem signal_bookkeeping_example :
    ∃ k, run perform KeptAsIssued exampleStart (workForInit ++
        [.fork 2 3 7, .causeSig 2 2, .causeSig 2 14]) = some k ∧ k.pPending 10 = 8194 ∧
      k.sigProcs = (pendingProcs k).card ∧
      (∀ k1 k2 pid k', KeptAsIssued k (.fork k1 k2 pid) → perform k (.fork k1 k2 pid) = some k' →
        ∀ child, procAddr k2 = some child → k'.pPending child = 0) ∧
      (Listening k → ∀ rp, (k.pFlags rp).slotFree = false → k.pPending rp = 0) := by
  have hrun : (run perform KeptAsIssued exampleStart (workForInit ++
      [.fork 2 3 7, .causeSig 2 2, .causeSig 2 14])).any
        (fun k => k.pPending 10 = 8194) = true := by decide +kernel
  obtain ⟨k, hk, hp⟩ := (Option.any_eq_true _ _).mp hrun
  exact ⟨k, hk, of_decide_eq_true hp,
    signal_bookkeeping (.of_run (.init exampleStart_started) hk)⟩

/-- INIT gets a signal while MM is about to fork it: the child starts with the signal pending, and
is not counted. -/
theorem signal_bookkeeping_fork :
    ¬∀ k, Reach perform (fun k c => AsIssued k c ∧ ToUsers c) Started k →
      k.sigProcs = (pendingProcs k).card := by
  intro hall
  have hrun : (run perform (fun k c => AsIssued k c ∧ ToUsers c) exampleStart (workForInit ++
      [.causeSig 2 2, .fork 2 3 7])).any
        (fun k => decide (k.sigProcs ≠ (pendingProcs k).card)) = true := by decide +kernel
  obtain ⟨k, hk, hd⟩ := (Option.any_eq_true _ _).mp hrun
  exact of_decide_eq_true hd (hall k (.of_run (.init exampleStart_started) hk))

end Example

end Minix.Kernel
