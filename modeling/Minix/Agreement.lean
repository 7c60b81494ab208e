import Minix.MM.Timers
import Minix.Alarms

/-!
# Agreement on alarms

As long as no alarm is asked for, the memory manager and the kernel agree that none is on, through
every order of calls, signals and clock ticks. The first request with a time ends that: the timer
of its process is on then, and the kernel keeps no alarm for it.
-/

namespace Minix.Alarms

open Function Kernel Kernel.Clock Transition

/-- The memory manager has the timer of a process on exactly when the kernel keeps an alarm for it or
a SIGALRM that is not delivered, and of the alarms that have gone off none is forgotten or acted on
twice. -/
structure Agree (st : System) : Prop where
  armed : ∀ p, (st.mm.mproc p).live = true → ((st.mm.mproc p).alarmOn = true ↔
    st.clock.pAlarm (slotOf p) ≠ 0 ∨ (st.pPending (slotOf p)).getLsbD 13 = true)
  due : ∀ p, st.due p = 0 ∨ st.due p = 1 ∧ (st.pPending (slotOf p)).getLsbD 13 = true

/-- An ALARM call only turns the timer off. -/
def Unset : Event → Prop
  | .call _ (.alarm sec _) => sec = 0
  | _ => True

/-- There is no alarm anywhere. -/
structure Calm (st : System) : Prop where
  own : OwnOnly st
  unarmed : MM.Unarmed st.mm
  pAlarm : ∀ p, st.clock.pAlarm (slotOf p) = 0
  pPending : ∀ p, (st.pPending (slotOf p)).getLsbD 13 = false
  due : ∀ p, st.due p = 0

/-- The bit of another signal is not the one of SIGALRM. -/
theorem getLsbD_sigalrm : ∀ k < 16, k ≠ 13 → (1#16 <<< k).getLsbD 13 = false := by decide

section Calm

variable {st st' : System} {x : MM.Tell}

theorem Calm.agree (h : Calm st) : Agree st where
  armed p _ := by
    rw [h.unarmed p, h.pAlarm p, h.pPending p]
    decide
  due p := Or.inl (h.due p)

theorem Calm.started (h : Started st) : Calm st where
  own := .started h
  unarmed := by
    obtain ⟨t, totMem, b, hb⟩ := h.mm
    exact .boot hb
  pAlarm p := h.pAlarm _
  pPending p := by
    rw [h.pPending]
    decide
  due := h.due

theorem Calm.clear (h : Calm st) (q : MM.Proc) :
    Calm (cancel { st with clock.pAlarm := update st.clock.pAlarm (slotOf q) 0 } q) := by
  refine ⟨h.own.clear q, h.unarmed, fun p => ?_, h.pPending, fun p => ?_⟩
  · change update st.clock.pAlarm (slotOf q) 0 (slotOf p) = 0
    rw [update_apply]
    split
    · rfl
    · exact h.pAlarm p
  · change update st.due q (min (st.due q) 0) p = 0
    rw [update_apply]
    split
    · rw [h.due q]
      rfl
    · exact h.due p

/-- A message that sets no alarm changes nothing. -/
theorem Calm.hear (h : Calm st) (hx : Outside x) (hsec : ∀ p sec, x = .setAlarm p sec → sec = 0)
    (he : hear st x = some st') : Calm st' := by
  have hown := h.own.hear hx he
  cases x with
  | sysFork parent child =>
    obtain rfl := Option.some.inj he
    refine ⟨hown, h.unarmed, fun p => ?_, fun p => ?_, fun p => ?_⟩
    · change update st.clock.pAlarm (slotOf child) (st.clock.pAlarm (slotOf parent)) (slotOf p) = 0
      rw [update_apply]
      split
      · exact h.pAlarm parent
      · exact h.pAlarm p
    · change (update st.pPending (slotOf child) (st.pPending (slotOf parent)) (slotOf p)).getLsbD 13 =
        false
      rw [update_apply]
      split
      · exact h.pPending parent
      · exact h.pPending p
    · change update st.due child 0 p = 0
      rw [update_apply]
      split
      · rfl
      · exact h.due p
  | sysNewmap q m => exact Option.some.inj he ▸ h
  | sysExec q => exact Option.some.inj he ▸ h.clear q
  | sysXit q => exact Option.some.inj he ▸ h.clear q
  | setAlarm q sec =>
    obtain rfl := hsec q sec rfl
    obtain ⟨left, st₁, hset, hsets⟩ := setAlarm_own h.own.word q 0
    unfold Alarms.hear at he
    dsimp only at he
    rw [hset] at he
    obtain rfl := Option.some.inj he
    refine ⟨hown, ?_, fun p => ?_, fun p => ?_, fun p => ?_⟩
    · exact hsets.rest.1.symm ▸ h.unarmed
    · change st₁.clock.pAlarm (slotOf p) = 0
      rw [hsets.pAlarm, update_apply]
      split
      · rfl
      · exact h.pAlarm p
    · change (st₁.pPending (slotOf p)).getLsbD 13 = false
      rw [hsets.rest.2.1]
      exact h.pPending p
    · change update st₁.due q (min (st₁.due q) 0) p = 0
      rw [hsets.rest.2.2, update_apply]
      split
      · rw [h.due q]
        rfl
      · exact h.due p
  | sigProc q sigNr => exact Option.some.inj he ▸ h

theorem Calm.hearKsig (h : Calm st) (hx : MM.Plain False x) (he : hearKsig st x = some st') :
    Calm st' := by
  unfold Alarms.hearKsig at he
  split at he
  · rw [if_neg hx] at he
    exact Option.some.inj he ▸ h
  · refine h.hear (outside_of_plain hx) ?_ he
    rintro p sec rfl
    exact hx

/-- What comes out of the clock task, when no signal is for a process. -/
theorem Calm.emits {out : List Output} (h : Calm st)
    (hout : ∀ (p : MM.Proc) sig, .causeSig p.val sig ∉ out) : Calm (out.foldl emit st) := by
  induction out generalizing st with
  | nil => exact h
  | cons o out ih =>
    refine ih ?_ fun p sig hm => hout p sig (List.mem_cons_of_mem _ hm)
    cases o with
    | causeSig n sigNr =>
      have hne : ∀ p : MM.Proc, (p.val : Int) ≠ n := by
        rintro p rfl
        exact hout p sigNr (List.mem_cons_self ..)
      refine ⟨⟨h.own.word, h.own.pAlarm⟩, h.unarmed, h.pAlarm,
        fun p => ?_, fun p => ?_⟩
      · change (if procNr (slotOf p) = n then _ else st.pPending (slotOf p)).getLsbD 13 = false
        rw [procNr_slotOf, if_neg (hne p)]
        exact h.pPending p
      · change (if (p.val : Int) = n then st.due p + 1 else st.due p) = 0
        rw [if_neg (hne p)]
        exact h.due p
    | callDog n f => exact h
    | reply n m => exact h

/-- No step but ALARM with a time starts an alarm. -/
theorem Calm.step {e : Event} (h : Calm st) (hg : Sent st e) (hu : Unset e)
    (he : step st e = some st') : Calm st' := by
  have hown := h.own.step hg he
  cases e with
  | call who c =>
    obtain ⟨mm, st₁, hserve, hears₁, rfl⟩ := step_call he
    have h₁ : Calm st₁ := by
      refine hears (fun _ x _ hx hs he => hs.hear (serveTells_outside hg.1 hx) ?_ he) h hears₁
      rintro p sec rfl
      rcases MM.performTells_plain hx with hp | ⟨child, -, hf⟩ | ⟨sec', left, rfl, ha⟩
      · exact hp
      · cases hf
      · have hz : sec' = 0 := hu
        exact (MM.Tell.setAlarm.inj ha).2.trans hz
    refine ⟨hown, h.unarmed.serve ?_ hserve, h₁.pAlarm, h₁.pPending, h₁.due⟩
    rintro who' sec left hc
    injection hc with _ hc
    subst hc
    exact hu
  | ksig p ans below =>
    obtain ⟨mm, st₁, hserve, hears₁, rfl⟩ := step_ksig he
    have h₀ : Calm { st with pPending := update st.pPending (slotOf p) 0 } := by
      refine ⟨⟨h.own.word, h.own.pAlarm⟩, h.unarmed, h.pAlarm,
        fun q => ?_, h.due⟩
      change (update st.pPending (slotOf p) 0 (slotOf q)).getLsbD 13 = false
      rw [update_apply]
      split
      · rfl
      · exact h.pPending q
    have hbit : (st.pPending (slotOf p)).getLsbD 13 = true → False := by
      rw [h.pPending p]
      exact Bool.noConfusion
    have h₁ : Calm st₁ :=
      hears (fun _ x _ hx hs he => hs.hearKsig (MM.doKsigTells_plain hbit hx) he) h₀ hears₁
    refine ⟨hown, h.unarmed.serve ?_ hserve, h₁.pAlarm, h₁.pPending, h₁.due⟩
    intro who sec left hc
    cases hc
  | clock m lost =>
    change clockStep st m lost = some st' at he
    unfold clockStep at he
    obtain ⟨⟨c, out⟩, hturn, rfl⟩ := Option.map_eq_some_iff.mp he
    have hm : getInt m M_TYPE = SET_ALARM → getInt m CLOCK_PROC_NR < 0 := hg
    generalize hc₀ : ({ st.clock with
      lostTicks := asInt (st.clock.lostTicks + lost) } : Clock.Task) = c₀ at hturn
    have hoff : ∀ p, c.pAlarm (slotOf p) = 0 ∧ ∀ sig, .causeSig p.val sig ∉ out := by
      intro p
      have h₀ : c₀.pAlarm (slotOf p) = 0 := by
        rw [← hc₀]
        exact h.pAlarm p
      exact turn_off hm h₀ hturn
    have hclock : Calm { st with clock := c } :=
      ⟨⟨h.own.word, fun p _ => (hoff p).1⟩, h.unarmed, fun p => (hoff p).1, h.pPending, h.due⟩
    exact hclock.emits fun p => (hoff p).2
  | signal p sigNr =>
    obtain rfl := Option.some.inj he
    obtain ⟨hpos, hle, hne⟩ := hg
    refine ⟨hown, h.unarmed, h.pAlarm, fun q => ?_, h.due⟩
    change (if procNr (slotOf q) = p.val then st.pPending (slotOf q) ||| 1#16 <<< (sigNr - 1)
      else st.pPending (slotOf q)).getLsbD 13 = false
    split
    · have hbit : (1#16 <<< (sigNr - 1)).getLsbD 13 = false := by
        have hnr : SIGALRM = 14 := rfl
        have hsig : sigNr - 1 ≠ 13 := by omega
        exact getLsbD_sigalrm _ (by omega) hsig
      rw [BitVec.getLsbD_or, h.pPending q, hbit]
      rfl
    · exact h.pPending q

theorem Calm.of_reach (hr : Reach Alarms.step (fun st e => Sent st e ∧ Unset e) Started st) :
    Calm st :=
  hr.invariant Calm (fun _ => .started) fun _ _ _ h hs he => h.step hs.1 hs.2 he

/-- What ALARM does to the process table. -/
theorem serve_alarm {s s' : MM.State} {who : MM.Proc} {sec : Nat} {left : Int}
    (he : MM.serve s (.call who (.alarm sec left)) = some s') :
    s'.mproc who = { s.mproc who with alarmOn := sec ≠ 0 } := by
  obtain ⟨error, s₁, s₂, hs, h₂, rfl⟩ := MM.serve_performs he
  obtain ⟨-, rfl⟩ := Prod.mk.inj (Option.some.inj h₂)
  rw [(MM.answer_same _ who (MM.MMCall.alarm sec left).isExec error).mproc, MM.State.modify_mproc,
    if_pos rfl, hs]

/-- After an ALARM call of a process that has none, the two agree exactly when it has turned the
timer off. -/
theorem Calm.alarm_agree (h : Calm st) {who : MM.Proc} {sec : Nat} {left : Int}
    (hg : Sent st (.call who (.alarm sec left)))
    (he : Alarms.step st (.call who (.alarm sec left)) = some st') : Agree st' ↔ sec = 0 := by
  refine ⟨fun hagree => ?_, fun hz => (h.step hg hz he).agree⟩
  by_contra hz
  have hown := h.own.step hg he
  obtain ⟨mm, st₁, hserve, hears₁, rfl⟩ := step_call he
  obtain ⟨hle, hlive⟩ : MM.INIT_PROC_NR ≤ who ∧ (st.mm.mproc who).live = true := by
    rcases hg.1 with ⟨hle, hlive, -⟩ | ⟨-, hf⟩
    · exact ⟨hle, hlive⟩
    · exact hf.elim
  have hne : who ≠ MM.MM_PROC_NR := by
    rintro rfl
    exact absurd hle (by decide)
  have hslot := serve_alarm hserve
  have hpend : st₁.pPending = st.pPending := by
    have htells : MM.serveTells st.mm (.call who (.alarm sec left)) = [.setAlarm who sec] := rfl
    rw [htells, List.foldlM_cons] at hears₁
    generalize hfirst : Alarms.hear st (.setAlarm who sec) = r at hears₁
    obtain ⟨st₂, hhear, hend⟩ := Option.bind_eq_some_iff.mp hears₁
    obtain rfl := Option.some.inj hend
    rw [← hfirst] at hhear
    obtain ⟨left', st₃, hset, hsets⟩ := setAlarm_own h.own.word who sec
    unfold Alarms.hear at hhear
    dsimp only at hhear
    rw [hset] at hhear
    obtain rfl := Option.some.inj hhear
    exact hsets.rest.2.1
  have harmed := hagree.armed who (by
    change (mm.mproc who).live = true
    rw [hslot]
    exact hlive)
  rcases harmed.mp (by
    change (mm.mproc who).alarmOn = true
    rw [hslot]
    exact decide_eq_true hz) with hk | hk
  · exact hk (hown.pAlarm who hne)
  · change (st₁.pPending (slotOf who)).getLsbD 13 = true at hk
    rw [hpend, h.pPending who] at hk
    cases hk

/-- While no ALARM call has given a time, the memory manager and the kernel agree on alarms, the
signals that the kernel passes on for a process leave the timers of the others, and an ALARM call
keeps the agreement exactly when it gives no time either. -/
theorem alarms_agree (hr : Reach Alarms.step (fun st e => Sent st e ∧ Unset e) Started st) :
    Agree st ∧
    (∀ p ans below st', Alarms.step st (.ksig p ans below) = some st' →
      ∀ q, q ≠ p → (st'.mm.mproc q).alarmOn = (st.mm.mproc q).alarmOn) ∧
    ∀ who sec left st', Sent st (.call who (.alarm sec left)) →
      Alarms.step st (.call who (.alarm sec left)) = some st' → (Agree st' ↔ sec = 0) := by
  have h : Calm st := .of_reach hr
  refine ⟨h.agree, fun p ans below st' he q _ => ?_, fun who sec left st' hg he =>
    h.alarm_agree hg he⟩
  obtain ⟨mm, st₁, hserve, -, rfl⟩ := step_ksig he
  have hmm : MM.Unarmed mm := h.unarmed.serve (fun _ _ _ hc => by cases hc) hserve
  exact (hmm q).trans (h.unarmed q).symm

end Calm

section Example

instance (st : System) : (e : Event) → Decidable (Sent st e)
  | .call who .fork =>
    inferInstanceAs (Decidable (MM.AsIssued st.mm (.call who .fork) ∧ True))
  | .call who (.exec a) =>
    inferInstanceAs (Decidable (MM.AsIssued st.mm (.call who (.exec a)) ∧ True))
  | .call who (.brk addr sp) =>
    inferInstanceAs (Decidable (MM.AsIssued st.mm (.call who (.brk addr sp)) ∧ True))
  | .call who (.exit status) =>
    inferInstanceAs (Decidable (MM.AsIssued st.mm (.call who (.exit status)) ∧ True))
  | .call who .wait =>
    inferInstanceAs (Decidable (MM.AsIssued st.mm (.call who .wait) ∧ True))
  | .call who (.kill pid sig ans) =>
    inferInstanceAs (Decidable (MM.AsIssued st.mm (.call who (.kill pid sig ans)) ∧ True))
  | .call who (.signal sig f) =>
    inferInstanceAs (Decidable (MM.AsIssued st.mm (.call who (.signal sig f)) ∧ True))
  | .call who (.alarm sec left) =>
    inferInstanceAs (Decidable (MM.AsIssued st.mm (.call who (.alarm sec left)) ∧
      sec < 65536 ∧ (setAlarm st who sec).map Prod.fst = some left))
  | .call who .pause =>
    inferInstanceAs (Decidable (MM.AsIssued st.mm (.call who .pause) ∧ True))
  | .call who (.getset c) =>
    inferInstanceAs (Decidable (MM.AsIssued st.mm (.call who (.getset c)) ∧ True))
  | .call who (.ksig p sigMap ans) =>
    inferInstanceAs (Decidable (MM.AsIssued st.mm (.call who (.ksig p sigMap ans)) ∧
      sigMap.getLsbD 13 = false))
  | .call who (.other nr) =>
    inferInstanceAs (Decidable (MM.AsIssued st.mm (.call who (.other nr)) ∧ True))
  | .ksig p _ _ => inferInstanceAs (Decidable (st.pPending (slotOf p) ≠ 0))
  | .clock m _ => inferInstanceAs (Decidable
      (getInt m M_TYPE = SET_ALARM → getInt m CLOCK_PROC_NR < 0))
  | .signal _ sigNr => inferInstanceAs (Decidable (1 ≤ sigNr ∧ sigNr ≤ 16 ∧ sigNr ≠ SIGALRM))

instance (e : Event) : Decidable (Unset e) := by
  unfold Unset
  split
  · infer_instance
  · infer_instance

/-- A child is made and turns its timer off, TTY sends it SIGINT, and the kernel passes it on. -/
theorem alarms_agree_example : ∃ st,
    run step (fun st e => Sent st e ∧ Unset e) exampleSystem
      [.call 2 .fork, .call 3 (.alarm 0 0), .signal 3 2,
        .ksig 3 ⟨fun _ _ => 0, fun _ _ => false⟩ false] = some st ∧ Agree st := by
  have hrun : (run step (fun st e => Sent st e ∧ Unset e) exampleSystem
      [.call 2 .fork, .call 3 (.alarm 0 0), .signal 3 2,
        .ksig 3 ⟨fun _ _ => 0, fun _ _ => false⟩ false]).isSome = true := by
    decide +kernel
  obtain ⟨st, hst⟩ := Option.isSome_iff_exists.mp hrun
  exact ⟨st, hst, (alarms_agree (.of_run (.init exampleSystem_started) hst)).1⟩

/-- INIT asks for an alarm after 10 seconds: its timer is on, and the kernel keeps no alarm for it. -/
theorem alarms_disagree : ¬∀ st, Reach step Sent Started st → Agree st := by
  intro hall
  have hrun : (run step Sent exampleSystem [.call 2 (.alarm 10 0)]).any (fun st =>
      (st.mm.mproc 2).live = true ∧ (st.mm.mproc 2).alarmOn = true ∧
        st.clock.pAlarm (slotOf 2) = 0 ∧ (st.pPending (slotOf 2)).getLsbD 13 = false) = true := by
    decide +kernel
  obtain ⟨st, hst, hm⟩ := (Option.any_eq_true _ _).mp hrun
  obtain ⟨hlive, hon, hoff, hbit⟩ := of_decide_eq_true hm
  have hagree := hall st (.of_run (.init exampleSystem_started) hst)
  rcases (hagree.armed 2 hlive).mp hon with hk | hk
  · exact hk hoff
  · rw [hbit] at hk
    cases hk

end Example

end Minix.Alarms
