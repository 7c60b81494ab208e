import Minix.Lib.Run
import Minix.MM.Pauses

/-!
# Every call is answered once

A process that has made a call is owed one answer, at once or when it is let go from
WAIT or PAUSE. Answers come from four places, so what each effect of a call sends is
worked out first. Signals from the kernel and the file system are not to be answered.
-/

namespace Minix.MM

open Function Transition

/-- The message that `reply` sends to `p`, if its process is alive, is sent. -/
def Sends (s s' : State) (p : Proc) : Prop :=
  ∃ r x, s'.hist.replies = (if (s.mproc p).live then
      ⟨some p, r, x, s.hist.owed p⟩ :: s.hist.replies else s.hist.replies) ∧
    s'.hist.owed = if (s.mproc p).live then update s.hist.owed p false else s.hist.owed

/-- What an effect means for those who hang on a call: nothing, that one of them is answered, that
the caller comes to hang on it, or that there is a new process, which is answered too. -/
inductive Told (W : Proc → Prop) (s s' : State) : Prop
  | quiet : (∀ q, (s'.mproc q).live = true →
        (s.mproc q).live = true ∧ (s'.mproc q).suspended = (s.mproc q).suspended) →
      s'.hist.replies = s.hist.replies → s'.hist.owed = s.hist.owed →
      s'.hist.births = s.hist.births → s'.hist.born = s.hist.born → Told W s s'
  | answer (p : Proc) : ((s.mproc p).live = true → INIT_PROC_NR ≤ p ∧
        ((s.mproc p).suspended = true ∨ W p ∧ s.hist.owed p = true)) →
      (∀ q, (s'.mproc q).live = true → (s.mproc q).live = true ∧
        (q ≠ p → (s'.mproc q).suspended = (s.mproc q).suspended)) →
      ((s'.mproc p).live = true → (s'.mproc p).suspended = false) → Sends s s' p →
      s'.hist.births = s.hist.births → s'.hist.born = s.hist.born → Told W s s'
  | suspend (who : Proc) : W who → (s.mproc who).live = true → s.hist.owed who = true →
      (s'.mproc who).live = true → (s'.mproc who).suspended = true →
      (∀ q, q ≠ who → s'.mproc q = s.mproc q) → s'.hist = s.hist → Told W s s'
  | birth (who child : Proc) : W who → INIT_PROC_NR < child → (s.mproc child).inUse = false →
      (s'.mproc child).suspended = false → (∀ q, q ≠ child → s'.mproc q = s.mproc q) →
      s'.hist.replies = ⟨some child, 0, 0, true⟩ :: s.hist.replies →
      s'.hist.owed = update s.hist.owed child false →
      s'.hist.births = s.hist.births + 1 →
      s'.hist.born = update s.hist.born child s.hist.births → Told W s s'

namespace Told

variable {W : Proc → Prop} {s s' : State}

/-- A change that leaves everybody where he is. -/
theorem of_flow (hm : ∀ q, (s'.mproc q).flow = (s.mproc q).flow)
    (hreplies : s'.hist.replies = s.hist.replies) (howed : s'.hist.owed = s.hist.owed)
    (hbirths : s'.hist.births = s.hist.births) (hborn : s'.hist.born = s.hist.born) :
    Told W s s' := by
  refine .quiet (fun q hq => ?_) hreplies howed hbirths hborn
  have hf := hm q
  simp only [Mproc.flow, Prod.mk.injEq] at hf
  unfold Mproc.suspended
  rw [Mproc.live_eq_true, hf.1, hf.2.1] at hq
  rw [hf.2.2.1, hf.2.2.2.1]
  exact ⟨Mproc.live_eq_true.mpr hq, rfl⟩

/-- The parent of a slot that is released is told; before that a status may have been noted, or
the slot been given to INIT. -/
theorem released {g : List Proc} {s₁ : State} (hs : Sound g s₁)
    (hm : ∀ q, ∃ r, s₁.mproc q = { s.mproc q with mpParent := r })
    (hreplies : s₁.hist.replies = s.hist.replies) (howed : s₁.hist.owed = s.hist.owed)
    (hbirths : s₁.hist.births = s.hist.births) (hborn : s₁.hist.born = s.hist.born)
    {p parent : Proc} (hpar : (s₁.mproc p).mpParent = parent) {t : HoleTable}
    (hp : INIT_PROC_NR ≤ parent ∧ ((s.mproc parent).waiting = true ∨
      (s.mproc parent).suspended = false ∧ W parent ∧ s.hist.owed parent = true)) :
    Told W s (released s₁ p t) := by
  obtain ⟨hi, hw⟩ := hp
  have hlive : ∀ q, (s₁.mproc q).live = (s.mproc q).live := fun q => by
    obtain ⟨r, he⟩ := hm q
    rw [he]
    rfl
  have hflags : ∀ q, (s₁.mproc q).waiting = (s.mproc q).waiting ∧
      (s₁.mproc q).paused = (s.mproc q).paused := fun q => by
    obtain ⟨r, he⟩ := hm q
    rw [he]
    exact ⟨rfl, rfl⟩
  have hpaused : (s.mproc parent).paused = false := by
    rcases hw with hw | ⟨hn, -⟩
    · rw [← (hflags parent).2]
      rw [← (hflags parent).1] at hw
      exact hs.single _ hw
    · exact (Mproc.suspended_eq_false.mp hn).2
  have hsend : Sends s (MM.released s₁ p t) parent := by
    subst hpar
    refine ⟨(s₁.mproc p).mpPid, (s₁.mproc p).status, ?_, ?_⟩
    · rw [← hreplies, ← howed, ← hlive]
      rfl
    · rw [← howed, ← hlive]
      rfl
  refine .answer parent (fun hl => ⟨hi, hw.imp (fun hw => ?_) fun hw => hw.2⟩) (fun q hq => ?_)
    (fun hl => ?_) hsend hbirths hborn
  · unfold Mproc.suspended
    rw [hw, Bool.true_or]
  · obtain ⟨hne, hq⟩ := released_live.mp hq
    refine ⟨hlive q ▸ hq, fun hqp => ?_⟩
    simp [MM.released, unflag, Mproc.suspended, hne, hpar, hqp, hflags q]
  · simp [MM.released, unflag, Mproc.suspended, hpar, hflags parent, hpaused]

/-- Whoever hangs on WAIT or PAUSE and is let go is told. -/
theorem unpause {g : List Proc} (hs : Sound g s) (p : Proc) : Told W s (unpause s p) := by
  have hinit : (s.mproc p).suspended = true → INIT_PROC_NR ≤ p := by
    intro hp
    by_contra hlt
    exact (nomatch (hs.managers p (not_le.mp hlt)).1.symm.trans hp)
  have hsend : ∀ f : Mproc → Mproc, (∀ m, (f m).inUse = m.inUse ∧ (f m).hanging = m.hanging) →
      (s.mproc p).suspended = true → (f (s.mproc p)).suspended = false →
      Told W s ((s.modify p f).reply p EINTR 0) := by
    intro f hf hsus hsus'
    have hm : ∀ q, ((s.modify p f).reply p EINTR 0).mproc q =
        if q = p then f (s.mproc p) else s.mproc q := fun q => by
      rw [State.reply_mproc, State.modify_mproc]
    have hlive : ∀ q, (((s.modify p f).reply p EINTR 0).mproc q).live = (s.mproc q).live := by
      intro q
      rw [hm]
      split
      · rename_i he
        unfold Mproc.live
        rw [(hf _).1, (hf _).2, he]
      · rfl
    refine .answer p (fun _ => ⟨hinit hsus, Or.inl hsus⟩) (fun q hq => ?_) (fun _ => ?_) ?_ ?_ ?_
    · rw [hlive] at hq
      exact ⟨hq, fun hne => by rw [hm, if_neg hne]⟩
    · rw [hm, if_pos rfl]
      exact hsus'
    · have hl : ((s.modify p f).mproc p).live = (s.mproc p).live := by
        rw [← hlive p, State.reply_mproc]
      refine ⟨EINTR, 0, ?_, ?_⟩
      all_goals
        rw [State.reply_hist, hl]
        rfl
    all_goals
      rw [State.reply_hist]
      rfl
  unfold MM.unpause
  dsimp only
  split
  · rename_i hp
    refine hsend (fun m => { m with paused := false }) (fun _ => ⟨rfl, rfl⟩) ?_ ?_
    · unfold Mproc.suspended
      rw [hp.1, Bool.or_true]
    · have hw : (s.mproc p).waiting = false := by
        rw [Bool.eq_false_iff]
        intro hw
        exact (nomatch (hs.single p hw).symm.trans hp.1)
      exact Mproc.suspended_eq_false.mpr ⟨hw, rfl⟩
  · split
    · rename_i hp
      refine hsend (fun m => { m with waiting := false }) (fun _ => ⟨rfl, rfl⟩) ?_ ?_
      · unfold Mproc.suspended
        rw [hp.1, Bool.true_or]
      · exact Mproc.suspended_eq_false.mpr ⟨rfl, hs.single p hp.1⟩
    · exact .of_flow (fun _ => rfl) rfl rfl rfl rfl

/-- The caller of WAIT or PAUSE comes to hang on it. -/
theorem suspended {who : Proc} (hW : W who) (hl : (s.mproc who).live = true)
    (ho : s.hist.owed who = true) {f : Mproc → Mproc}
    (hf : (f (s.mproc who)).live = (s.mproc who).live)
    (hsus : (f (s.mproc who)).suspended = true) : Told W s (s.modify who f) := by
  refine .suspend who hW hl ho ?_ ?_ (fun q hq => ?_) rfl
  · rw [State.modify_mproc, if_pos rfl, hf, hl]
  · rw [State.modify_mproc, if_pos rfl, hsus]
  · rw [State.modify_mproc, if_neg hq]

/-- The child of a FORK is told at once. -/
theorem fork (hs : Sound [] s) {who child : Proc} {base n : Nat} {t : HoleTable} (hW : W who)
    (hl : (s.mproc who).live = true) (hn : (s.mproc who).suspended = false)
    (hc : freeSlot s = some child)
    (hpid : assignPid child n (placeChild s who child t base) = some s') :
    Told W s (s'.reply child 0 0) := by
  obtain ⟨hlt, hfree⟩ := hs.freeSlot hc
  obtain ⟨pid, hm, -, -, -, -, hhist⟩ := forkedState_mproc hpid
  have hself : s'.mproc child = { forked (s.mproc who) who base with mpPid := pid } := by
    rw [hm, if_pos rfl]
  have hlive : (s'.mproc child).live = true := by
    rw [hself]
    exact hl
  have howed : s'.hist.owed child = true := by
    rw [hhist]
    exact update_self ..
  refine .birth who child hW hlt hfree ?_ (fun q hq => ?_) ?_ ?_ ?_ ?_
  · rw [State.reply_mproc, hself]
    exact hn
  · rw [State.reply_mproc, hm, if_neg hq]
  · rw [State.reply_hist, if_pos hlive, howed, hhist]
    rfl
  · have hplace : (placeChild s who child t base).hist.owed = update s.hist.owed child true := rfl
    rw [State.reply_hist, hhist]
    dsimp only
    rw [if_pos hlive, hplace, update_idem]
  all_goals
    rw [State.reply_hist, hhist]
    rfl

/-- The meaning of every effect. -/
theorem of_effect {A B : Prop} {E : State → Proc → Prop} {x y : List Proc × State}
    (hs : Sound x.1 x.2) (he : Effect A B E W x y) : Told W x.2 y.2 := by
  cases he with
  | quiet p hf => exact .of_flow (modify_flow (hf.flow _)) rfl rfl rfl rfl
  | vars mp d r hW => exact .of_flow (fun _ => rfl) rfl rfl rfl rfl
  | @adjusted g s p d sp hp hu hd =>
    have hf : (adjust (s.mproc p) d sp).2.flow = (s.mproc p).flow := adjust_flow _ _ _
    exact .of_flow (modify_flow (f := fun _ => (adjust (s.mproc p) d sp).2) hf) rfl rfl rfl rfl
  | act d hA => exact .of_flow (fun _ => rfl) rfl rfl rfl rfl
  | mark hf hA => exact .of_flow (modify_flow (hf.flow _)) rfl rfl rfl rfl
  | @hang g s p hp hu hw hA hB =>
    have hm : ∀ q, ((s.noteExit p).modify p fun m => { m with hanging := true }).mproc q =
        if q = p then { s.mproc p with hanging := true } else s.mproc q :=
      fun q => State.modify_mproc ..
    refine .quiet (fun q hq => ?_) rfl rfl rfl rfl
    rw [hm] at hq ⊢
    split at hq
    · simp [Mproc.live] at hq
    · rename_i hne
      rw [if_neg hne]
      exact ⟨hq, rfl⟩
  | @exitReap s s' p hp hu hw hA hr =>
    have hs' : Sound [] (s.noteExit p) := hs.congr fun _ => rfl
    obtain ⟨t, -, rfl⟩ := release_eq hr
    have hi := (hs.parent p hp hu).1
    exact released hs' (fun q => ⟨_, rfl⟩) rfl rfl rfl rfl rfl ⟨hi, Or.inl hw⟩
  | @reap g s s' p hW hp hh hl hn ho hr =>
    obtain ⟨t, -, rfl⟩ := release_eq hr
    have hi := (hs.parent p hp (hs.hanging p hh)).1
    exact released hs (fun q => ⟨_, rfl⟩) rfl rfl rfl rfl rfl ⟨hi, Or.inr ⟨hn, hW, ho⟩⟩
  | @adopt g s c p hc hpar hh =>
    refine .quiet (fun q hq => ⟨(adopt_later s p q).live hq, ?_⟩) rfl rfl rfl rfl
    have := (adopt_later s p q).rest
    rw [MM.adopt, State.modify_mproc]
    split
    · rename_i he
      rw [he]
      rfl
    · rfl
  | @adoptReap g s s' c p hc hpar hh hw hr =>
    obtain ⟨t, -, rfl⟩ := release_eq hr
    have hs' : Sound g (MM.adopt s p) := hs.adopt (hs.above_of_gone hc hpar)
    have hm : ∀ q, ∃ r, (MM.adopt s p).mproc q = { s.mproc q with mpParent := r } := by
      intro q
      rw [MM.adopt, State.modify_mproc]
      split
      · rename_i he
        exact ⟨INIT_PROC_NR, by rw [he]⟩
      · exact ⟨_, rfl⟩
    have hpi : ((MM.adopt s p).mproc p).mpParent = INIT_PROC_NR := by
      rw [MM.adopt, State.modify_mproc, if_pos rfl]
    exact released hs' hm rfl rfl rfl rfl hpi ⟨le_rfl, Or.inl hw⟩
  | settle hc => exact .of_flow (fun _ => rfl) rfl rfl rfl rfl
  | unpause p => exact unpause hs p
  | wait hW hp hl hn ho hc =>
    exact suspended hW hl ho (f := fun m => { m with waiting := true }) rfl rfl
  | pause hW hp hl hn ho =>
    refine suspended hW hl ho (f := fun m => { m with paused := true }) rfl ?_
    unfold Mproc.suspended
    rw [Bool.or_true]
  | noMem hp hu ha => exact .of_flow (fun _ => rfl) rfl rfl rfl rfl
  | fork hW hp hl hn hfull ha hb hc hpid => exact fork hs hW hl hn hc hpid
  | exec hp hl hi hE hm =>
    refine .of_flow (exec_flow hm) ?_ ?_ ?_ ?_
    all_goals
      obtain ⟨t₁, base, t₂, -, -, -, -, rfl⟩ := newMem_ok hm
      rfl

end Told

/-- Every answer that was sent was owed, to a process that is neither MM nor FS; those that hang on
a call are owed one, and of the others at most `who`, which is being served. -/
structure Owes (who : Proc) (s : State) : Prop where
  good : ∀ x ∈ s.hist.replies, x.owed = true ∧ ∃ p, x.dest = some p ∧ INIT_PROC_NR ≤ p
  owing : ∀ p, INIT_PROC_NR ≤ p → (s.mproc p).live = true → (s.mproc p).suspended = true →
    s.hist.owed p = true
  only : ∀ p, INIT_PROC_NR ≤ p → (s.mproc p).live = true → s.hist.owed p = true →
    (s.mproc p).suspended = true ∨ p = who
  young : ∀ p, (s.mproc p).live = true → s.hist.born p < s.hist.births

/-- The answers that a slot has been sent. -/
def answers (s : State) (p : Proc) : Nat := s.hist.replies.countP fun x => x.dest = some p

/-- The answers that a slot has been sent, and the one it is owed. -/
def ledger (s : State) (p : Proc) : Nat := answers s p + (s.hist.owed p).toNat

variable {W : Proc → Prop} {s s' : State} {who : Proc}

namespace Owes

/-- A message that is owed is sent. -/
theorem answer (h : Owes who s) {p : Proc} (hp : (s.mproc p).live = true →
      INIT_PROC_NR ≤ p ∧ s.hist.owed p = true)
    (hm : ∀ q, (s'.mproc q).live = true → (s.mproc q).live = true ∧
      (q ≠ p → (s'.mproc q).suspended = (s.mproc q).suspended))
    (hself : (s'.mproc p).live = true → (s'.mproc p).suspended = false) (hs : Sends s s' p)
    (hbirths : s'.hist.births = s.hist.births) (hborn : s'.hist.born = s.hist.born) :
    Owes who s' := by
  obtain ⟨r, x, hreplies, howed⟩ := hs
  have hother : ∀ q, q ≠ p → s'.hist.owed q = s.hist.owed q := by
    intro q hq
    rw [howed]
    split
    · exact update_of_ne hq ..
    · rfl
  refine ⟨fun y hy => ?_, fun q hi hq hsus => ?_, fun q hi hq ho => ?_, fun q hq => ?_⟩
  · rw [hreplies] at hy
    split at hy
    · rename_i hl
      rcases List.mem_cons.mp hy with rfl | hy
      · exact ⟨(hp hl).2, p, rfl, (hp hl).1⟩
      · exact h.good y hy
    · exact h.good y hy
  · have hne : q ≠ p := by
      rintro rfl
      exact (nomatch (hself hq).symm.trans hsus)
    obtain ⟨hl, hs⟩ := hm q hq
    rw [hother q hne]
    exact h.owing q hi hl (hs hne ▸ hsus)
  · obtain ⟨hl, hs⟩ := hm q hq
    have hne : q ≠ p := by
      rintro rfl
      rw [howed, if_pos hl, update_self] at ho
      cases ho
    rw [hother q hne] at ho
    rw [hs hne]
    exact h.only q hi hl ho
  · rw [hborn, hbirths]
    exact h.young q (hm q hq).1

theorem told (h : Owes who s) (ht : Told W s s') : Owes who s' := by
  cases ht with
  | quiet hm hreplies howed hbirths hborn =>
    refine ⟨?_, fun q hi hq hsus => ?_, fun q hi hq ho => ?_, fun q hq => ?_⟩
    · rw [hreplies]
      exact h.good
    · rw [howed]
      exact h.owing q hi (hm q hq).1 ((hm q hq).2 ▸ hsus)
    · rw [howed] at ho
      rw [(hm q hq).2]
      exact h.only q hi (hm q hq).1 ho
    · rw [hborn, hbirths]
      exact h.young q (hm q hq).1
  | answer p hp hm hself hs hbirths hborn =>
    refine h.answer (fun hl => ?_) hm hself hs hbirths hborn
    obtain ⟨hi, hp⟩ := hp hl
    exact ⟨hi, hp.elim (h.owing p hi hl) And.right⟩
  | suspend p hW hl ho hl' hsus hm hhist =>
    refine ⟨hhist ▸ h.good, fun q hi hq hqs => ?_, fun q hi hq hqo => ?_, fun q hq => ?_⟩
    · rw [hhist]
      by_cases hqp : q = p
      · rw [hqp, ho]
      · rw [hm q hqp] at hq hqs
        exact h.owing q hi hq hqs
    · by_cases hqp : q = p
      · rw [hqp]
        exact Or.inl hsus
      · rw [hhist] at hqo
        rw [hm q hqp] at hq ⊢
        exact h.only q hi hq hqo
    · rw [hhist]
      by_cases hqp : q = p
      · rw [hqp]
        exact h.young p hl
      · rw [hm q hqp] at hq
        exact h.young q hq
  | birth p child hW hlt hfree hsus hm hreplies howed hbirths hborn =>
    refine ⟨fun y hy => ?_, fun q hi hq hqs => ?_, fun q hi hq hqo => ?_, fun q hq => ?_⟩
    · rw [hreplies] at hy
      rcases List.mem_cons.mp hy with rfl | hy
      · exact ⟨rfl, child, rfl, hlt.le⟩
      · exact h.good y hy
    · have hqc : q ≠ child := by
        rintro rfl
        exact (nomatch hsus.symm.trans hqs)
      rw [hm q hqc] at hq hqs
      rw [howed, update_of_ne hqc]
      exact h.owing q hi hq hqs
    · have hqc : q ≠ child := by
        rintro rfl
        rw [howed, update_self] at hqo
        cases hqo
      rw [howed, update_of_ne hqc] at hqo
      rw [hm q hqc] at hq ⊢
      exact h.only q hi hq hqo
    · rw [hborn, hbirths]
      by_cases hqc : q = child
      · rw [hqc, update_self]
        exact Nat.lt_succ_self _
      · rw [hm q hqc] at hq
        rw [update_of_ne hqc]
        exact (h.young q hq).trans (Nat.lt_succ_self _)

end Owes

/-- A message that is owed turns a debt into an answer. -/
theorem ledger_sends (q : Proc) {p : Proc} (hp : (s.mproc p).live = true → s.hist.owed p = true)
    (hs : Sends s s' p) : ledger s' q = ledger s q := by
  obtain ⟨r, x, hreplies, howed⟩ := hs
  unfold ledger answers
  rw [hreplies, howed]
  split
  · rename_i hl
    by_cases hq : q = p
    · subst hq
      rw [update_self, hp hl, List.countP_cons, if_pos (decide_eq_true rfl)]
      rfl
    · have hne : ¬some p = some q := fun he => hq (Option.some.inj he).symm
      rw [update_of_ne hq, List.countP_cons, decide_eq_false hne]
      rfl
  · rfl

/-- Messages are only added. -/
theorem answers_sends (q : Proc) {p : Proc} (hs : Sends s s' p) : answers s q ≤ answers s' q := by
  obtain ⟨r, x, hreplies, -⟩ := hs
  unfold answers
  rw [hreplies]
  split
  · rw [List.countP_cons]
    exact Nat.le_add_right ..
  · exact le_rfl

/-- Since the state `s₀`, each slot has been sent what it was owed, or has a new process. -/
structure Balanced (s₀ s : State) : Prop where
  births : s₀.hist.births ≤ s.hist.births
  grow : ∀ q, answers s₀ q ≤ answers s q
  ledger : ∀ q, ledger s q = ledger s₀ q ∨ s₀.hist.births ≤ s.hist.born q

theorem Balanced.told {s₀ : State} (h : Balanced s₀ s) (ho : Owes who s) (ht : Told W s s') :
    Balanced s₀ s' := by
  have hsame : ∀ q, MM.ledger s' q = MM.ledger s q → s'.hist.born = s.hist.born →
      (MM.ledger s' q = MM.ledger s₀ q ∨ s₀.hist.births ≤ s'.hist.born q) := by
    intro q hl hb
    rw [hl, hb]
    exact h.ledger q
  cases ht with
  | quiet hm hreplies howed hbirths hborn =>
    refine ⟨hbirths ▸ h.births, fun q => (h.grow q).trans ?_, fun q => hsame q ?_ hborn⟩
    · unfold answers
      rw [hreplies]
    · unfold MM.ledger answers
      rw [hreplies, howed]
  | answer p hp hm hself hs hbirths hborn =>
    refine ⟨hbirths ▸ h.births, fun q => (h.grow q).trans (answers_sends q hs),
      fun q => hsame q (ledger_sends q (fun hl => ?_) hs) hborn⟩
    exact (hp hl).2.elim (ho.owing p (hp hl).1 hl) And.right
  | suspend p hW hl hown hl' hsus hm hhist =>
    refine ⟨hhist ▸ h.births, fun q => (h.grow q).trans ?_, fun q => hsame q ?_ (hhist ▸ rfl)⟩
    · unfold answers
      rw [hhist]
    · unfold MM.ledger answers
      rw [hhist]
  | birth p child hW hlt hfree hsus hm hreplies howed hbirths hborn =>
    refine ⟨hbirths ▸ h.births.trans (Nat.le_succ _), fun q => (h.grow q).trans ?_, fun q => ?_⟩
    · unfold answers
      rw [hreplies, List.countP_cons]
      exact Nat.le_add_right ..
    by_cases hq : q = child
    · rw [hborn, hq, update_self]
      exact Or.inr h.births
    · have hne : ¬some child = some q := fun he => hq (Option.some.inj he).symm
      have hl : MM.ledger s' q = MM.ledger s q := by
        unfold MM.ledger answers
        rw [hreplies, howed, update_of_ne hq, List.countP_cons, decide_eq_false hne]
        rfl
      rw [hl, hborn, update_of_ne hq]
      exact h.ledger q

/-- The process that is being served is alone owed an answer and does not hang, if it is alive. -/
def Busy (who : Proc) (s : State) : Prop :=
  (s.mproc who).live = true → s.hist.owed who = true ∧ (s.mproc who).suspended = false

/-- Nothing but a call of its own answers it or makes it hang. -/
theorem Busy.told (h : Busy who s) (ht : Told (fun _ => False) s s') : Busy who s' := by
  cases ht with
  | quiet hm hreplies howed hbirths hborn =>
    intro hl
    rw [howed, (hm who hl).2]
    exact h (hm who hl).1
  | answer p hp hm hself hs hbirths hborn =>
    intro hl
    obtain ⟨hlive, hsus⟩ := hm who hl
    obtain ⟨ho, hn⟩ := h hlive
    have hne : who ≠ p := by
      rintro rfl
      rcases (hp hlive).2 with hw | hw
      · exact (nomatch hn.symm.trans hw)
      · exact hw.1
    obtain ⟨r, x, -, howed⟩ := hs
    rw [howed, hsus hne]
    refine ⟨?_, hn⟩
    split
    · rw [update_of_ne hne]
      exact ho
    · exact ho
  | suspend p hW => exact hW.elim
  | birth p child hW => exact hW.elim

/-- What has been answered stays so while others are dealt with. -/
theorem owed_false_told (h : s.hist.owed who = false) (ht : Told (fun _ => False) s s') :
    s'.hist.owed who = false := by
  cases ht with
  | quiet hm hreplies howed => rw [howed, h]
  | answer p hp hm hself hs =>
    obtain ⟨r, x, -, howed⟩ := hs
    rw [howed]
    split
    · rw [update_apply]
      split
      · rfl
      · exact h
    · exact h
  | suspend p hW => exact hW.elim
  | birth p child hW => exact hW.elim

section Effects

variable {A B : Prop} {E : State → Proc → Prop} {x y : List Proc × State}

theorem Owes.effects (h : Owes who x.2) (hs : Sound x.1 x.2) (he : Effects A B E W x y) :
    Owes who y.2 := by
  induction he with
  | refl => exact h
  | tail he₁ he ih => exact ih.told (.of_effect (hs.effects he₁) he)

theorem Balanced.effects {s₀ : State} (h : Balanced s₀ x.2) (ho : Owes who x.2)
    (hs : Sound x.1 x.2) (he : Effects A B E W x y) : Balanced s₀ y.2 := by
  induction he with
  | refl => exact h
  | tail he₁ he ih => exact ih.told (ho.effects hs he₁) (.of_effect (hs.effects he₁) he)

theorem Busy.effects (h : Busy who x.2) (hs : Sound x.1 x.2)
    (he : Effects A B E (fun _ => False) x y) : Busy who y.2 := by
  induction he with
  | refl => exact h
  | tail he₁ he ih => exact ih.told (.of_effect (hs.effects he₁) he)

theorem owed_false_effects (h : x.2.hist.owed who = false) (hs : Sound x.1 x.2)
    (he : Effects A B E (fun _ => False) x y) : y.2.hist.owed who = false := by
  induction he with
  | refl => exact h
  | tail he₁ he ih => exact owed_false_told ih (.of_effect (hs.effects he₁) he)

theorem unpause_dontReply (s : State) (p : Proc) : (unpause s p).dontReply = s.dontReply := by
  unfold unpause
  dsimp only
  split
  · exact State.reply_dontReply ..
  · split
    · exact State.reply_dontReply ..
    · rfl

/-- Only the call that is served decides whether it is answered. -/
theorem dontReply_effects (he : Effects A B E (fun _ => False) x y) :
    y.2.dontReply = x.2.dontReply := by
  induction he with
  | refl => rfl
  | tail _ he ih =>
    refine Eq.trans ?_ ih
    cases he with
    | vars mp d r hW => exact hW.elim
    | exitReap hp hu hw hA hr =>
      obtain ⟨t, -, rfl⟩ := release_eq hr
      rfl
    | reap hW => exact hW.elim
    | adoptReap hc hpar hh hw hr =>
      obtain ⟨t, -, rfl⟩ := release_eq hr
      rfl
    | unpause p => exact unpause_dontReply ..
    | wait hW => exact hW.elim
    | pause hW => exact hW.elim
    | fork hW => exact hW.elim
    | exec hp hl hi hE hm =>
      obtain ⟨t₁, base, t₂, -, -, -, -, rfl⟩ := newMem_ok hm
      rfl
    | _ => rfl

end Effects

/-- The call is still to be answered; or it is not to be, since the process has died, has been
answered or hangs on it. -/
def Settled (who : Proc) (s : State) : Prop :=
  if s.dontReply then (s.mproc who).live = true → s.hist.owed who = true →
    (s.mproc who).suspended = true
  else Busy who s

theorem Settled.of_busy (hd : s.dontReply = false) (h : Busy who s) : Settled who s := by
  unfold Settled
  rw [if_neg (by rw [hd]; decide)]
  exact h

theorem Settled.of_dontReply (hd : s.dontReply = true) (h : (s.mproc who).live = true →
    s.hist.owed who = true → (s.mproc who).suspended = true) : Settled who s := by
  unfold Settled
  rw [if_pos hd]
  exact h

/-- A change that does not touch the process that is served. -/
theorem Busy.congr (h : Busy who s) (hm : (s'.mproc who).flow = (s.mproc who).flow)
    (ho : s'.hist.owed who = s.hist.owed who) : Busy who s' := by
  simp only [Mproc.flow, Prod.mk.injEq] at hm
  intro hl
  unfold Mproc.suspended
  rw [Mproc.live_eq_true, hm.1, hm.2.1] at hl
  rw [ho, hm.2.2.1, hm.2.2.2.1]
  exact h (Mproc.live_eq_true.mpr hl)

/-! ## The calls -/

theorem assignPid_dontReply {child : Proc} {n : Nat} (h : assignPid child n s = some s') :
    s'.dontReply = s.dontReply := by
  obtain ⟨pid, rfl, -⟩ := assignPid_eq h
  rfl

/-- FORK: the parent is answered by the main loop. -/
theorem doFork_settled {r : Int} (hs : Sound [] s) (hl : (s.mproc who).live = true)
    (hb : Busy who s) (hd : s.dontReply = false) (h : doFork s who = some (r, s')) :
    Settled who s' := by
  unfold doFork at h
  dsimp only at h
  split at h
  · obtain ⟨-, rfl⟩ := Prod.mk.inj (Option.some.inj h)
    exact .of_busy hd hb
  · split at h
    · obtain ⟨-, rfl⟩ := Prod.mk.inj (Option.some.inj h)
      exact .of_busy hd hb
    · obtain ⟨⟨base, t⟩, ha, h⟩ := Option.bind_eq_some_iff.mp h
      dsimp only at h
      split at h
      · obtain ⟨-, rfl⟩ := Prod.mk.inj (Option.some.inj h)
        exact .of_busy hd hb
      · obtain ⟨child, hc, h⟩ := Option.bind_eq_some_iff.mp h
        obtain ⟨s₁, hpid, h⟩ := Option.bind_eq_some_iff.mp h
        obtain ⟨-, rfl⟩ := Prod.mk.inj (Option.some.inj h)
        have hne : who ≠ child := by
          rintro rfl
          exact (nomatch (hs.freeSlot hc).2.symm.trans (Mproc.live_eq_true.mp hl).1)
        obtain ⟨pid, hm, -, -, -, -, hhist⟩ := forkedState_mproc hpid
        refine .of_busy ?_ (hb.congr ?_ ?_)
        · rw [State.reply_dontReply, assignPid_dontReply hpid]
          exact hd
        · rw [State.reply_mproc, hm, if_neg hne]
        · rw [State.reply_hist]
          dsimp only
          rw [apply_ite (fun f : Proc → Bool => f who), update_of_ne hne, ite_self, hhist]
          exact update_of_ne hne ..

/-- EXEC leaves it to the main loop whether to answer. -/
theorem doExec_busy {a : ExecCall} {r : Int} (hb : Busy who s)
    (h : doExec s who a = some (r, s')) : s'.dontReply = s.dontReply ∧ Busy who s' := by
  unfold doExec at h
  split at h
  · obtain ⟨-, rfl⟩ := Prod.mk.inj (Option.some.inj h)
    exact ⟨rfl, hb⟩
  · rename_i im hi
    obtain ⟨⟨r₁, s₁⟩, hm, h⟩ := Option.bind_eq_some_iff.mp h
    dsimp only at h
    split at h
    · rename_i hne
      obtain ⟨-, rfl⟩ := Prod.mk.inj (Option.some.inj h)
      obtain ⟨rfl, -⟩ := newMem_fail hm hne
      exact ⟨rfl, hb⟩
    · rename_i hok
      obtain ⟨-, rfl⟩ := Prod.mk.inj (Option.some.inj h)
      obtain rfl := not_not.mp hok
      have hhist : (s₁.modify who (execDone a im.ft)).hist.owed = s.hist.owed ∧
          s₁.dontReply = s.dontReply := by
        obtain ⟨t₁, base, t₂, -, -, -, -, rfl⟩ := newMem_ok hm
        exact ⟨rfl, rfl⟩
      exact ⟨hhist.2, hb.congr (exec_flow hm who) (by rw [hhist.1])⟩

/-- WAIT: the caller is answered when a child is cleaned up, at once or later. -/
theorem doWait_settled {r : Int} (hs : Sound [] s) (hp : INIT_PROC_NR ≤ who)
    (hl : (s.mproc who).live = true) (hb : Busy who s) (hd : s.dontReply = false)
    (h : doWait s who = some (r, s')) : Settled who s' := by
  obtain ⟨ho, hn⟩ := hb hl
  unfold doWait at h
  dsimp only at h
  split at h
  · rename_i rp hf
    obtain ⟨s₁, hc, he⟩ := Option.map_eq_some_iff.mp h
    obtain ⟨-, rfl⟩ := Prod.mk.inj he
    have hmem := List.mem_of_find?_eq_some hf
    simp only [List.mem_filter, List.mem_finRange, true_and, decide_eq_true_eq] at hmem
    have hh : (s.mproc rp).hanging = true := List.find?_some (p := fun rp => (s.mproc rp).hanging) hf
    have hlt : INIT_PROC_NR < rp := by
      refine lt_of_not_ge fun hle => ?_
      rw [← hmem.2, (hs.system rp hle).2] at hp
      exact absurd hp (by decide)
    obtain ⟨s₂, hr, hdis⟩ := cleanup_cases (A := False) (B := False) (E := fun _ _ => True)
      (W := fun _ => False) _ (g := []) hc hlt
    obtain ⟨t, -, rfl⟩ := release_eq hr
    have howed : (released s rp t).hist.owed who = false := by
      unfold released
      dsimp only
      rw [hmem.2, if_pos hl, update_self]
    have hdis := hdis (hs.released hlt t)
    refine .of_dontReply rfl fun _ howed' => ?_
    rw [show s₁.hist.owed who = false from
      owed_false_effects howed (hs.released hlt t) hdis.effects] at howed'
    cases howed'
  · split at h
    · obtain ⟨-, rfl⟩ := Prod.mk.inj (Option.some.inj h)
      refine .of_dontReply rfl fun _ _ => ?_
      dsimp only
      rw [State.modify_mproc, if_pos rfl]
      rfl
    · obtain ⟨-, rfl⟩ := Prod.mk.inj (Option.some.inj h)
      exact .of_busy hd hb

/-- KILL: the caller is answered unless it has killed itself. -/
theorem checkSig_settled {c : SigCall} {ans : Answers} {r : Int} (hs : Sound [] s)
    (hb : Busy who s) (hmp : s.mp = who) (hd : s.dontReply = false)
    (h : checkSig s c ans = some (r, s')) : Settled who s' := by
  unfold checkSig at h
  split at h
  · obtain ⟨-, rfl⟩ := Prod.mk.inj (Option.some.inj h)
    exact .of_busy hd hb
  · obtain ⟨⟨s₁, n⟩, ha, he⟩ := Option.map_eq_some_iff.mp h
    obtain ⟨heff, hpass⟩ := signalAll_effects (A := False) (B := False) (E := fun _ _ => True)
      (W := fun _ => False) hs (fun p hp => (mem_aboveInit p).mp hp) nodup_aboveInit
      (fun p hp => ⟨False.elim, False.elim⟩) ha
    obtain ⟨-, rfl⟩ := Prod.mk.inj he
    have hmp' : s₁.mp = who := hpass.mp.trans hmp
    have hb₁ : Busy who s₁ := Busy.effects hb hs heff
    have hd₁ : s₁.dontReply = false := (dontReply_effects heff).trans hd
    dsimp only
    split
    · exact .of_busy hd₁ hb₁
    · rename_i hdead
      rw [hmp'] at hdead
      exact .of_dontReply rfl fun hl => absurd hl hdead

/-- Every call of a process that runs is settled. -/
theorem perform_settled {c : MMCall} {r : Int} (hs : Sound [] s) (hp : INIT_PROC_NR ≤ who)
    (hl : (s.mproc who).live = true) (hb : Busy who s) (hmp : s.mp = who)
    (hd : s.dontReply = false) (h : perform s who c = some (r, s')) : Settled who s' := by
  have hu := Mproc.live_eq_true.mp hl
  cases c with
  | fork => exact doFork_settled hs hl hb hd h
  | exec a =>
    obtain ⟨hd', hb'⟩ := doExec_busy hb h
    exact .of_busy (hd'.trans hd) hb'
  | brk addr sp =>
    obtain ⟨-, rfl⟩ := Prod.mk.inj (Option.some.inj h)
    exact .of_busy hd (hb.congr (by rw [State.modify_mproc, if_pos rfl, adjust_flow]) rfl)
  | exit status =>
    obtain ⟨s₁, hx, he⟩ := Option.map_eq_some_iff.mp h
    obtain ⟨-, rfl⟩ := Prod.mk.inj he
    obtain ⟨-, -, hdead, -⟩ := mmExit_cases (A := False) (B := False) (E := fun _ _ => True)
      (W := fun _ => False) hs hp hu.1 False.elim False.elim hx
    exact .of_dontReply rfl fun hl => (nomatch hdead.symm.trans hl)
  | wait => exact doWait_settled hs hp hl hb hd h
  | kill pid killSig ans => exact checkSig_settled hs hb hmp hd h
  | signal sig f =>
    have h : doSignal s who sig f = (r, s') := Option.some.inj h
    unfold doSignal at h
    split at h
    · obtain ⟨-, rfl⟩ := Prod.mk.inj h
      exact .of_busy hd hb
    · split at h
      · obtain ⟨-, rfl⟩ := Prod.mk.inj h
        exact .of_busy hd hb
      · obtain ⟨-, rfl⟩ := Prod.mk.inj h
        exact .of_busy hd (hb.congr (modify_flow ((f.quiet _).flow _) _) rfl)
  | alarm sec left =>
    obtain ⟨-, rfl⟩ := Prod.mk.inj (Option.some.inj h)
    exact .of_busy hd (hb.congr (modify_flow ((quiet_alarm _).flow _) _) rfl)
  | pause =>
    obtain ⟨-, rfl⟩ := Prod.mk.inj (Option.some.inj h)
    refine .of_dontReply rfl fun _ _ => ?_
    dsimp only
    rw [State.modify_mproc, if_pos rfl]
    unfold Mproc.suspended
    rw [Bool.or_true]
  | getset c =>
    have h : doGetset s who c = (r, s') := Option.some.inj h
    unfold doGetset at h
    cases c with
    | setuid usrId =>
      dsimp only at h
      split at h
      · obtain ⟨-, rfl⟩ := Prod.mk.inj h
        exact .of_busy hd hb
      · obtain ⟨-, rfl⟩ := Prod.mk.inj h
        exact .of_busy hd (hb.congr (modify_flow
          (f := fun m => { m with mpRealuid := usrId, mpEffuid := usrId }) rfl _) rfl)
    | setgid grpid =>
      dsimp only at h
      split at h
      · obtain ⟨-, rfl⟩ := Prod.mk.inj h
        exact .of_busy hd hb
      · obtain ⟨-, rfl⟩ := Prod.mk.inj h
        exact .of_busy hd (hb.congr (modify_flow
          (f := fun m => { m with mpRealgid := grpid, mpEffgid := grpid }) rfl _) rfl)
    | _ =>
      obtain ⟨-, rfl⟩ := Prod.mk.inj h
      exact .of_busy hd (hb.congr rfl rfl)
  | ksig procNr sigMap ans =>
    have hne : some who ≠ none ∧ some who ≠ some FS_PROC_NR :=
      ⟨nofun, fun he => absurd (Option.some.inj he ▸ hp) (by decide)⟩
    obtain ⟨-, rfl⟩ := Prod.mk.inj (Option.some.inj ((if_pos hne).symm.trans h))
    exact .of_busy hd hb
  | other nr =>
    obtain ⟨-, rfl⟩ := Prod.mk.inj (Option.some.inj h)
    exact .of_busy hd hb

/-- EXEC returns `OK` exactly when the program was loaded. -/
theorem doExec_ok {a : ExecCall} {r : Int} (h : doExec s who a = some (r, s')) :
    r = OK ↔ Loads s (.call who (.exec a)) who := by
  unfold doExec at h
  cases hi : execImage a with
  | error e =>
    rw [hi] at h
    obtain ⟨rfl, -⟩ := Prod.mk.inj (Option.some.inj h)
    refine iff_of_false (execImage_error hi) ?_
    rintro ⟨a', im, he, hok, -⟩
    obtain rfl : a = a' := by injection he with _ he; injection he
    rw [hi] at hok
    cases hok
  | ok im =>
    rw [hi] at h
    obtain ⟨⟨r₁, s₁⟩, hm, h⟩ := Option.bind_eq_some_iff.mp h
    dsimp only at h
    split at h
    · rename_i hne
      obtain ⟨rfl, -⟩ := Prod.mk.inj (Option.some.inj h)
      refine iff_of_false hne ?_
      rintro ⟨a', im', he, hok, hroom⟩
      obtain rfl : a = a' := by injection he with _ he; injection he
      rw [hi] at hok
      obtain rfl := Except.ok.inj hok
      rw [(newMem_fail hm hne).2] at hroom
      exact hne (Option.some.inj hroom)
    · rename_i hok
      obtain ⟨rfl, -⟩ := Prod.mk.inj (Option.some.inj h)
      obtain rfl := not_not.mp hok
      obtain ⟨t₁, base, t₂, hroom, -⟩ := newMem_ok hm
      exact iff_of_true rfl ⟨a, im, rfl, hi, hroom⟩

/-- The only call that comes back with `OK` but not to its caller is an EXEC that goes through. -/
theorem performs_ok {c : MMCall} {r : Int} {s₀ : State} (h : perform s who c = some (r, s'))
    (ht : s₀.table = s.table) : c.isExec = true ∧ r = OK ↔ Loads s₀ (.call who c) who := by
  cases c with
  | exec a =>
    unfold Loads
    rw [ht]
    exact (and_iff_right rfl).trans (doExec_ok h)
  | _ =>
    refine iff_of_false (fun he => (nomatch he.1)) ?_
    rintro ⟨a, im, he, -⟩
    injection he with _ he
    cases he

theorem perform_exec {c : MMCall} {r : Int} (hb : Busy who s) (hd : s.dontReply = false)
    (h : perform s who c = some (r, s')) (he : c.isExec = true) : s'.dontReply = false := by
  cases c with
  | exec a => exact (doExec_busy hb h).1.trans hd
  | _ => cases he

/-- A signal that goes to a live process, and is not a stack fault, is not to be answered. -/
theorem doKsig_dontReply {w : Option Proc} {p : Proc} {sigMap : BitVec 16} {ans : Answers} {r : Int}
    (hw : w = none ∨ w = some FS_PROC_NR) (hl : (s.mproc p).live = true)
    (hf : sigMap ≠ sigMask STACK_FAULT) (h : doKsig s w p sigMap ans = some (r, s')) :
    s'.dontReply = true := by
  obtain ⟨hu, hh⟩ := Mproc.live_eq_true.mp hl
  unfold doKsig at h
  dsimp only at h
  rw [if_neg (fun hne => hw.elim hne.1 hne.2), if_neg (by simp [hu, hh]), if_neg hf] at h
  obtain ⟨s₁, -, he⟩ := Option.map_eq_some_iff.mp h
  obtain ⟨-, rfl⟩ := Prod.mk.inj he
  rfl

/-! ## The main loop -/

/-- Who makes a call. -/
def Request.caller : Request → Option Proc
  | .call who _ => some who
  | .hardware .. => none

/-- A signal from the file system is for a process that is alive, and is not a stack fault; and so
is one from the kernel, if the word before the process table looks like a live process. -/
def Signals (s : State) : Request → Prop
  | .call who (.ksig procNr sigMap _) => who = FS_PROC_NR →
      (s.mproc procNr).live = true ∧ sigMap ≠ sigMask STACK_FAULT
  | .hardware procNr sigMap _ below => below = true →
      (s.mproc procNr).live = true ∧ sigMap ≠ sigMask STACK_FAULT
  | _ => True

instance (s : State) : (r : Request) → Decidable (Signals s r)
  | .call _ .fork => .isTrue trivial
  | .call _ (.exec _) => .isTrue trivial
  | .call _ (.brk _ _) => .isTrue trivial
  | .call _ (.exit _) => .isTrue trivial
  | .call _ .wait => .isTrue trivial
  | .call _ (.kill _ _ _) => .isTrue trivial
  | .call _ (.signal _ _) => .isTrue trivial
  | .call _ (.alarm _ _) => .isTrue trivial
  | .call _ .pause => .isTrue trivial
  | .call _ (.getset _) => .isTrue trivial
  | .call who (.ksig procNr sigMap _) => inferInstanceAs (Decidable (who = FS_PROC_NR →
      (s.mproc procNr).live = true ∧ sigMap ≠ sigMask STACK_FAULT))
  | .call _ (.other _) => .isTrue trivial
  | .hardware procNr sigMap _ below => inferInstanceAs (Decidable (below = true →
      (s.mproc procNr).live = true ∧ sigMap ≠ sigMask STACK_FAULT))

/-- Every answer was owed, to a user process; and of those that are alive just those are owed one
that hang on WAIT or PAUSE. -/
structure Disciplined (s : State) : Prop where
  good : ∀ x ∈ s.hist.replies, x.owed = true ∧ ∃ p, x.dest = some p ∧ INIT_PROC_NR ≤ p
  owed : ∀ p, INIT_PROC_NR ≤ p → (s.mproc p).live = true →
    (s.hist.owed p = true ↔ (s.mproc p).suspended = true)

/-- Nobody is being served. -/
abbrev Idle (s : State) : Prop := Owes FS_PROC_NR s

theorem Owes.idle (h : Owes who s) (hw : INIT_PROC_NR ≤ who → (s.mproc who).live = true →
    s.hist.owed who = true → (s.mproc who).suspended = true) : Idle s := by
  refine ⟨h.good, h.owing, fun p hi hl ho => Or.inl ?_, h.young⟩
  rcases h.only p hi hl ho with hs | rfl
  · exact hs
  · exact hw hi hl ho

theorem Owes.disciplined (h : Idle s) : Disciplined s := by
  refine ⟨h.good, fun p hi hl => ⟨fun ho => ?_, h.owing p hi hl⟩⟩
  rcases h.only p hi hl ho with hs | rfl
  · exact hs
  · exact absurd hi (by decide)

/-- The end of a turn: the caller is answered if it is to be, and has not gone through EXEC. -/
theorem answer_idle {isExec : Bool} {r : Int} (h : Owes who s) (hi : INIT_PROC_NR ≤ who)
    (hset : Settled who s) : Idle (answer s who isExec r) := by
  unfold answer
  unfold Settled at hset
  split
  · rename_i hd
    rw [if_pos hd] at hset
    exact h.idle fun _ => hset
  · rename_i hd
    rw [if_neg hd] at hset
    split
    · -- the program that made the call is not there any more
      refine ⟨h.good, fun p hp hl hs => ?_, fun p hp hl ho => ?_, h.young⟩
      · have hne : p ≠ who := by
          rintro rfl
          exact (nomatch (hset hl).2.symm.trans hs)
        show update s.hist.owed who false p = true
        rw [update_of_ne hne]
        exact h.owing p hp hl hs
      · replace ho : update s.hist.owed who false p = true := ho
        have hne : p ≠ who := by
          rintro rfl
          rw [update_self] at ho
          cases ho
        rw [update_of_ne hne] at ho
        exact Or.inl ((h.only p hp hl ho).resolve_right hne)
    · have hm : ∀ q, (s.reply who r s.result2).mproc q = s.mproc q := fun q => by
        rw [State.reply_mproc]
      have hsend : Sends s (s.reply who r s.result2) who := by
        refine ⟨r, s.result2, ?_, ?_⟩
        all_goals rw [State.reply_hist]
      have h' : Owes who (s.reply who r s.result2) := by
        refine h.answer (fun hl => ⟨hi, (hset hl).1⟩) (fun q hq => ?_) (fun hl => ?_) hsend ?_ ?_
        · rw [hm] at hq ⊢
          exact ⟨hq, fun _ => rfl⟩
        · rw [hm] at hl ⊢
          exact (hset hl).2
        all_goals rw [State.reply_hist]
      refine h'.idle fun _ hl ho => ?_
      rw [hm] at hl
      rw [State.reply_hist] at ho
      dsimp only at ho
      rw [if_pos hl, update_self] at ho
      cases ho

/-- What the end of a turn does to the account: an EXEC that has gone through is paid for without
an answer. -/
theorem answer_ledger {isExec : Bool} {r : Int} (hset : Settled who s)
    (hd : isExec = true → s.dontReply = false) (q : Proc) :
    (¬(q = who ∧ isExec = true ∧ r = OK) → ledger (answer s who isExec r) q = ledger s q) ∧
      (q = who ∧ isExec = true ∧ r = OK → (s.mproc q).live = true →
        ledger (answer s who isExec r) q + 1 = ledger s q) := by
  unfold answer
  unfold Settled at hset
  split
  · rename_i hdr
    refine ⟨fun _ => rfl, fun ⟨_, he, _⟩ => ?_⟩
    rw [hd he] at hdr
    cases hdr
  · rename_i hdr
    rw [if_neg hdr] at hset
    split
    · rename_i hx
      refine ⟨fun hne => ?_, fun ⟨he, _⟩ hl => ?_⟩
      · have hq : q ≠ who := fun he => hne ⟨he, hx⟩
        unfold ledger answers State.setOwed
        dsimp only
        rw [update_of_ne hq]
      · subst he
        unfold ledger answers State.setOwed
        dsimp only
        rw [update_self, (hset hl).1]
        rfl
    · rename_i hx
      refine ⟨fun _ => ledger_sends q (fun hl => (hset hl).1) ⟨r, s.result2, ?_, ?_⟩,
        fun he => absurd he.2 hx⟩
      all_goals rw [State.reply_hist]

theorem answers_answer (s : State) (who : Proc) (isExec : Bool) (r : Int) (q : Proc) :
    answers s q ≤ answers (answer s who isExec r) q := by
  unfold answer
  split
  · exact le_rfl
  · split
    · exact le_rfl
    · refine answers_sends (p := who) q ⟨r, s.result2, ?_, ?_⟩
      all_goals rw [State.reply_hist]

theorem Balanced.refl (s : State) : Balanced s s := ⟨le_rfl, fun _ => le_rfl, fun _ => Or.inl rfl⟩

/-- A call of a process that runs. -/
theorem serve_call {c : MMCall} (hs : Sound [] s) (h : Idle s) (hp : INIT_PROC_NR ≤ who)
    (hl : (s.mproc who).live = true) (hn : (s.mproc who).suspended = false)
    (he : serve s (.call who c) = some s') : Idle s' ∧ ∀ q, (s'.mproc q).live = true →
      s'.hist.born q < s.hist.births → answers s q ≤ answers s' q ∧
        (q = who ∧ ¬Loads s (.call who c) q → ledger s' q = ledger s q + 1) ∧
        (¬(q = who ∧ ¬Loads s (.call who c) q) → ledger s' q = ledger s q) := by
  obtain ⟨⟨r, s₁⟩, hc, he⟩ := Option.bind_eq_some_iff.mp he
  obtain rfl := Option.some.inj he
  have hne : who ≠ FS_PROC_NR := fun he => absurd (he ▸ hp) (by decide)
  rw [if_neg hne] at hc
  have hfree : s.hist.owed who = false := by
    rw [Bool.eq_false_iff]
    intro ho
    rcases h.only who hp hl ho with hs | hf
    · exact (nomatch hn.symm.trans hs)
    · exact hne hf
  set s₀ := ({ s with mp := who, dontReply := false } : State).setOwed who true with hs₀
  have hsound : Sound [] s₀ := hs.congr fun _ => rfl
  have howed : ∀ q, s₀.hist.owed q = if q = who then true else s.hist.owed q :=
    fun q => update_apply ..
  have h₀ : Owes who s₀ := by
    refine ⟨h.good, fun q hq hql hsus => ?_, fun q hq hql ho => ?_, h.young⟩
    · rw [howed]
      split
      · rfl
      · exact h.owing q hq hql hsus
    · rw [howed] at ho
      by_cases hqw : q = who
      · exact Or.inr hqw
      · rw [if_neg hqw] at ho
        rcases h.only q hq hql ho with hs | rfl
        · exact Or.inl hs
        · exact absurd hq (by decide)
  have hb₀ : Busy who s₀ := fun _ => ⟨by rw [howed, if_pos rfl], hn⟩
  have heff : Effects False False (fun _ _ => True) (fun _ => True) ([], s₀) ([], s₁) :=
    perform_effects trivial hsound hp hl hn (show s₀.hist.owed who = true by rw [howed, if_pos rfl])
      (fun _ _ _ _ _ _ => ⟨False.elim, False.elim⟩) (fun _ _ _ _ _ => trivial) hc
  have h₁ : Owes who s₁ := Owes.effects h₀ hsound heff
  have hbal : Balanced s₀ s₁ := Balanced.effects (Balanced.refl s₀) h₀ hsound heff
  have hgrow : ∀ q, answers s q ≤ answers s₁ q := hbal.grow
  have hset : Settled who s₁ := perform_settled hsound hp hl hb₀ rfl rfl hc
  refine ⟨answer_idle h₁ hp hset, fun q hq hyoung => ?_⟩
  have hsame := answer_same s₁ who c.isExec r
  rw [hsame.mproc] at hq
  rw [(congrArg (·.born) hsame.hist :)] at hyoung
  have hbal : ledger s₁ q = ledger s₀ q :=
    (hbal.ledger q).resolve_right (Nat.not_le.mpr hyoung)
  have hx : c.isExec = true ∧ r = OK ↔ Loads s (.call who c) who := performs_ok hc rfl
  obtain ⟨hother, hexec⟩ := answer_ledger (r := r) hset (perform_exec hb₀ rfl hc) q
  refine ⟨(hgrow q).trans (answers_answer ..), ?_⟩
  by_cases hqw : q = who
  · have hl₀ : ledger s₀ q = ledger s q + 1 := by
      unfold ledger
      rw [howed, if_pos hqw, hqw, hfree]
      rfl
    subst hqw
    refine ⟨fun hno => ?_, fun hno => ?_⟩
    · rw [hother fun he => hno.2 (hx.mp he.2), hbal, hl₀]
    · have := hexec ⟨rfl, hx.mpr (not_not.mp fun hn => hno ⟨rfl, hn⟩)⟩ hq
      omega
  · have hl₀ : ledger s₀ q = ledger s q := by
      unfold ledger
      rw [howed, if_neg hqw]
      rfl
    refine ⟨fun hno => absurd hno.1 hqw, fun _ => ?_⟩
    rw [hother fun he => hqw he.1, hbal, hl₀]

/-- A signal from the kernel or the file system: nobody is answered for it. -/
theorem serve_signal {w : Option Proc} {procNr : Proc} {sigMap : BitVec 16} {ans : Answers}
    {r : Int} {s₀ : State} (hs : Sound [] s₀) (h : Idle s₀) (hi : INIT_PROC_NR ≤ procNr)
    (he : doKsig s₀ w procNr sigMap ans = some (r, s')) : Idle s' ∧ Balanced s₀ s' := by
  have heff : Effects False False (fun _ _ => True) (fun _ => True) ([], s₀) ([], s') :=
    doKsig_effects (u := procNr) trivial hs hi False.elim he
  exact ⟨Owes.effects h hs heff, Balanced.effects (Balanced.refl s₀) h hs heff⟩

/-- A turn of the main loop. -/
theorem serve_idle {r : Request} (hs : Sound [] s) (h : Idle s) (hi : AsIssued s r)
    (hsig : Signals s r) (he : serve s r = some s') : Idle s' ∧ ∀ q, INIT_PROC_NR ≤ q →
      (s'.mproc q).live = true → s'.hist.born q < s.hist.births → answers s q ≤ answers s' q ∧
        (r.caller = some q ∧ ¬Loads s r q → ledger s' q = ledger s q + 1) ∧
        (¬(r.caller = some q ∧ ¬Loads s r q) → ledger s' q = ledger s q) := by
  cases r with
  | call who c =>
    rcases hi with ⟨hp, hl, hn⟩ | ⟨rfl, hi⟩
    · obtain ⟨hidle, hq⟩ := serve_call hs h hp hl hn he
      refine ⟨hidle, fun q _ hql hyoung => ?_⟩
      obtain ⟨hgrow, hdue, hnot⟩ := hq q hql hyoung
      have hcall : (Request.call who c).caller = some q ↔ q = who :=
        ⟨fun he => (Option.some.inj he).symm, fun he => he ▸ rfl⟩
      rw [hcall]
      exact ⟨hgrow, hdue, hnot⟩
    · cases c with
      | ksig procNr sigMap ans =>
        obtain ⟨⟨r, s₁⟩, hc, he⟩ := Option.bind_eq_some_iff.mp he
        obtain rfl := Option.some.inj he
        rw [if_pos rfl] at hc
        obtain ⟨hl, hf⟩ := hsig rfl
        have hs' : Sound [] { s with mp := FS_PROC_NR, dontReply := false } := hs.congr fun _ => rfl
        have h' : Idle { s with mp := FS_PROC_NR, dontReply := false } :=
          ⟨h.good, h.owing, h.only, h.young⟩
        obtain ⟨hidle, hbal⟩ := serve_signal hs' h' hi hc
        have hd : s₁.dontReply = true :=
          doKsig_dontReply (s := { s with mp := FS_PROC_NR, dontReply := false })
            (Or.inr rfl) hl hf hc
        have hsame : answer s₁ FS_PROC_NR (MMCall.ksig procNr sigMap ans).isExec r = s₁ := by
          unfold answer
          rw [if_pos hd]
        rw [hsame]
        refine ⟨hidle, fun q hq _ hyoung => ⟨hbal.grow q, fun hc => ?_, fun _ => ?_⟩⟩
        · obtain rfl := Option.some.inj hc.1
          exact absurd hq (by decide)
        · exact (hbal.ledger q).resolve_right (Nat.not_le.mpr hyoung)
      | _ => exact hi.elim
  | hardware procNr sigMap ans below =>
    obtain ⟨⟨r, s₁⟩, hc, he⟩ := Option.bind_eq_some_iff.mp he
    obtain rfl := Option.some.inj he
    have hs' : Sound [] { s with dontReply := false } := hs.congr fun _ => rfl
    have h' : Idle { s with dontReply := false } := ⟨h.good, h.owing, h.only, h.young⟩
    obtain ⟨hidle, hbal⟩ := serve_signal hs' h' hi hc
    have hsame : answerHardware s₁ below r = s₁ := by
      unfold answerHardware
      cases below with
      | false => rw [if_pos (Or.inr Bool.false_ne_true)]
      | true =>
        obtain ⟨hl, hf⟩ := hsig rfl
        have hd : s₁.dontReply = true :=
          doKsig_dontReply (s := { s with dontReply := false }) (Or.inl rfl) hl hf hc
        rw [if_pos (Or.inl hd)]
    rw [hsame]
    refine ⟨hidle, fun q _ _ hyoung => ⟨hbal.grow q, fun hc => (nomatch hc.1), fun _ => ?_⟩⟩
    exact (hbal.ledger q).resolve_right (Nat.not_le.mpr hyoung)

theorem AsIssued.caller_running {r : Request} (hi : AsIssued s r) {q : Proc}
    (hq : INIT_PROC_NR ≤ q) (hc : r.caller = some q) : (s.mproc q).suspended = false := by
  cases r with
  | call who c =>
    obtain rfl := Option.some.inj hc
    rcases hi with ⟨-, -, hn⟩ | ⟨rfl, -⟩
    · exact hn
    · exact absurd hq (by decide)
  | hardware => cases hc

/-- Nobody is owed anything at the start. -/
theorem Owes.boot {t : HoleTable} {totMem : Nat} {b : Boot} (h : boot t totMem b = some s) :
    Idle s := by
  have hf := boot_flow h
  simp only [Mproc.flow, Prod.mk.injEq] at hf
  have hhist : s.hist = blankHistory := by
    obtain ⟨base, t', -, -, rfl⟩ := boot_eq h
    rfl
  refine ⟨?_, fun p _ _ hs => ?_, fun p _ _ ho => ?_, fun p hp => ?_⟩
  · rw [hhist]
    exact fun _ hx => absurd hx List.not_mem_nil
  · have hn : (s.mproc p).suspended = false :=
      Mproc.suspended_eq_false.mpr ⟨(hf p).2.2.1, (hf p).2.2.2.1⟩
    rw [hn] at hs
    cases hs
  · rw [hhist] at ho
    cases ho
  · have hu := (Mproc.live_eq_true.mp hp).1
    rw [(hf p).1] at hu
    rw [hhist]
    exact Nat.lt_succ_of_le (of_decide_eq_true hu)

/-- An answer is due to a process: to its call, unless this is an EXEC that goes through, or to the
WAIT or PAUSE that it hangs on. -/
def Due (s : State) (r : Request) (p : Proc) : Prop :=
  r.caller = some p ∧ ¬Loads s r p ∨ (s.mproc p).suspended = true

/-- A program with four clicks of text and data and one of stack, in twenty clicks. -/
def smallProgram : ExecCall :=
  ⟨16, 1, OK, 0, some fun i => [0x04100301, 32, 32, 32, 0, 0, 320, 0].getD i 0, OK, 0, 0, 0⟩

/-- The parent waits and is told of the death of its child; then it loads a program that catches
SIGINT and pauses. -/
def waitThenPause : List Request :=
  [.call 2 .fork, .call 3 .fork, .call 3 .wait, .call 4 (.exit 2), .call 3 (.exec smallProgram),
    .call 3 (.signal SIGINT .func), .call 3 .pause]

/-- INIT sends it SIGINT; `sys_getsp` returns 319. -/
def sendInt : Request := .call 2 (.kill 4 SIGINT ⟨fun _ _ => 319, fun _ _ => false⟩)

end Minix.MM
