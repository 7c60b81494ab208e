import Minix.MM.Calls

/-!
# The end of a pause

A process that hangs on PAUSE goes on when a signal is passed on to its handler, and for no other
reason: neither the death of others nor what they call lets it go.
-/

namespace Minix.MM

open State

/-- How many signals have been passed on to the handlers of the process in a slot. -/
def handled (s : State) (q : Proc) : Nat :=
  s.hist.acts.countP fun a => a.deed = .sysSig ∧ a.proc = q

variable {s s' s₁ : State} {p q : Proc} {sigNr : Nat} {ans : Answers}

/-- What becomes of the process in slot `q`, if it has not terminated: it does not begin to pause,
and stops doing so just when a signal is passed on to it. -/
structure Pauses (q : Proc) (s s' : State) : Prop where
  live : (s'.mproc q).live = true → (s.mproc q).live = true
  paused : (s'.mproc q).live = true → (s'.mproc q).paused = true → (s.mproc q).paused = true
  handled : handled s q ≤ handled s' q
  ends : (s'.mproc q).live = true → (s.mproc q).paused = true →
    ((s'.mproc q).paused = false ↔ MM.handled s q < MM.handled s' q)

namespace Pauses

/-- Two steps one after the other. -/
theorem trans (h : Pauses q s s₁) (h' : Pauses q s₁ s') : Pauses q s s' where
  live hl := h.live (h'.live hl)
  paused hl hp := h.paused (h'.live hl) (h'.paused hl hp)
  handled := h.handled.trans h'.handled
  ends hl hp := by
    have hends := h.ends (h'.live hl) hp
    cases hp₁ : (s₁.mproc q).paused with
    | true =>
      have heq : MM.handled s q = MM.handled s₁ q :=
        h.handled.antisymm (not_lt.mp fun hlt => nomatch hp₁.symm.trans (hends.mpr hlt))
      rw [heq]
      exact h'.ends hl hp₁
    | false =>
      have hlt := (hends.mp hp₁).trans_le h'.handled
      refine ⟨fun _ => hlt, fun _ => Bool.eq_false_iff.mpr fun hp' => ?_⟩
      exact nomatch hp₁.symm.trans (h'.paused hl hp')

/-- A process that is left alone. -/
theorem of_flags (hu : (s'.mproc q).inUse = (s.mproc q).inUse)
    (hh : (s'.mproc q).hanging = (s.mproc q).hanging)
    (hp : (s'.mproc q).paused = (s.mproc q).paused) (ha : MM.handled s' q = MM.handled s q) :
    Pauses q s s' where
  live hl := by
    unfold Mproc.live at hl ⊢
    rwa [hu, hh] at hl
  paused _ hp' := hp ▸ hp'
  handled := ha.ge
  ends _ hp' := by
    rw [hp, hp', ha]
    exact ⟨fun h => (nomatch h), fun h => absurd h (lt_irrefl _)⟩

/-- The slots are as they were. -/
theorem of_mproc (hm : s'.mproc q = s.mproc q) (ha : s'.hist.acts = s.hist.acts) :
    Pauses q s s' :=
  .of_flags (hm ▸ rfl) (hm ▸ rfl) (hm ▸ rfl) (by rw [MM.handled, ha, MM.handled])

/-- A process that is dead. -/
theorem of_dead (hd : (s'.mproc q).live = false) (ha : MM.handled s q ≤ MM.handled s' q) :
    Pauses q s s' where
  live hl := nomatch hd.symm.trans hl
  paused hl _ := nomatch hd.symm.trans hl
  handled := ha
  ends hl _ := nomatch hd.symm.trans hl

/-- A write to another slot, or to other fields of this one. -/
theorem modify {f : Mproc → Mproc} (hf : (f (s.mproc p)).inUse = (s.mproc p).inUse ∧
    (f (s.mproc p)).hanging = (s.mproc p).hanging ∧ (f (s.mproc p)).paused = (s.mproc p).paused) :
    Pauses q s (s.modify p f) := by
  by_cases hq : q = p
  · subst hq
    refine .of_flags ?_ ?_ ?_ rfl <;> rw [modify_mproc, if_pos rfl]
    exacts [hf.1, hf.2.1, hf.2.2]
  · exact .of_mproc (by rw [modify_mproc, if_neg hq]) rfl

/-- A process that hangs is dead. -/
theorem hang (s : State) (p q : Proc) :
    Pauses q s (s.modify p fun m => { m with hanging := true }) := by
  by_cases hq : q = p
  · refine .of_dead ?_ le_rfl
    rw [modify_mproc, if_pos hq, Mproc.live, Bool.not_true, Bool.and_false]
  · exact .of_mproc (by rw [modify_mproc, if_neg hq]) rfl

/-- An act other than the call of a handler. -/
theorem act {d : Deed} (hd : d ≠ .sysSig ∨ q ≠ p) : Pauses q s (s.noteAct d p) := by
  refine .of_flags rfl rfl rfl ?_
  unfold MM.handled noteAct
  rw [List.countP_cons_of_neg]
  rw [decide_eq_true_eq]
  exact fun h => hd.elim (fun hd => hd h.1) fun hq => hq h.2.symm

/-- The release of a slot. -/
theorem release (he : release s p = some s') : Pauses q s s' := by
  obtain ⟨t, -, rfl⟩ := release_eq he
  by_cases hq : q = p
  · refine .of_dead (Bool.eq_false_iff.mpr fun hl => (released_live.mp hl).1 hq) le_rfl
  · refine .of_flags ?_ ?_ ?_ rfl <;> simp [released, unflag, hq]

/-- The slot of a dead process is released, and those of its orphans that hang, too. -/
theorem cleanup {n : Nat} (he : cleanup n s p = some s') : Pauses q s s' := by
  induction n generalizing s s' p with
  | zero => cases he
  | succ n ih =>
    obtain ⟨s₁, h₁, he⟩ := Option.bind_eq_some_iff.mp he
    obtain ⟨⟨s₂, b⟩, h₂, he⟩ := Option.bind_eq_some_iff.mp he
    obtain rfl := Option.some.inj he
    have hadopt : ∀ s c, Pauses q s (adopt s c) := fun s c => .modify ⟨rfl, rfl, rfl⟩
    have hloop : ∀ (l : List Proc) (r r' : State × Bool),
        l.foldlM (disinherit (MM.cleanup n) p) r = some r' → Pauses q r.1 r'.1 := by
      intro l
      induction l with
      | nil => exact fun r r' he => Option.some.inj he ▸ .of_mproc rfl rfl
      | cons c l ihl =>
        intro r r' he
        rw [List.foldlM_cons] at he
        obtain ⟨r₁, hone, he⟩ := Option.bind_eq_some_iff.mp he
        refine trans ?_ (ihl r₁ r' he)
        unfold disinherit at hone
        split at hone
        · split at hone
          · obtain ⟨s₃, h₃, rfl⟩ := Option.map_eq_some_iff.mp hone
            exact (hadopt _ _).trans (ih h₃)
          · exact Option.some.inj hone ▸ hadopt _ _
        · exact Option.some.inj hone ▸ .of_mproc rfl rfl
    exact (release h₁).trans (hloop _ _ _ h₂)

/-- An exit. -/
theorem mmExit {st : BitVec 8} (he : mmExit s p st = some s') : Pauses q s s' := by
  obtain ⟨s₁, h₁, rfl⟩ := Option.map_eq_some_iff.mp he
  have hset : Pauses q s (s.modify p fun m => { m with mpExitstatus := st }) :=
    .modify ⟨rfl, rfl, rfl⟩
  have hmark : Pauses q s ((s.modify p fun m => { m with mpExitstatus := st }).noteExit p) :=
    hset.trans (.of_mproc rfl rfl)
  have hgone : Pauses q s s₁ := by
    split at h₁
    · exact hmark.trans (.cleanup h₁)
    · exact Option.some.inj h₁ ▸ hmark.trans (.hang ..)
  exact hgone.trans (.modify ⟨rfl, rfl, rfl⟩)

/-- A signal that terminates a process. -/
theorem sigKill (he : sigKill s p sigNr ans = some s') : Pauses q s s' := by
  have hset : Pauses q s (s.modify p fun m =>
      { m with mpSigstatus := sigStatus m sigNr (ans.core sigNr p) }) :=
    .modify ⟨rfl, rfl, rfl⟩
  have hnote : Pauses q s ((s.modify p fun m =>
      { m with mpSigstatus := sigStatus m sigNr (ans.core sigNr p) }).noteAct .mmExit p) :=
    hset.trans (.act (Or.inl Deed.noConfusion))
  exact hnote.trans (.mmExit he)

/-- The attempt to catch a signal. -/
theorem catchSig (s : State) (p q : Proc) (sigNr newSp : Nat) :
    Pauses q s (catchSig s p sigNr newSp).2 := by
  have hset : Pauses q s (s.modify p fun m =>
      { m with mpCatch := m.mpCatch &&& ~~~sigMask sigNr }) :=
    .modify ⟨rfl, rfl, rfl⟩
  have hnote : Pauses q s ((s.modify p fun m =>
      { m with mpCatch := m.mpCatch &&& ~~~sigMask sigNr }).noteAct .adjust p) :=
    hset.trans (.act (Or.inl Deed.noConfusion))
  unfold MM.catchSig
  dsimp only
  refine hnote.trans (.modify ?_)
  rw [adjust_eq]
  exact ⟨rfl, rfl, rfl⟩

end Pauses

/-- A process that has not terminated does not pause any more. -/
theorem unpause_paused (hl : ((unpause s p).mproc p).live = true) :
    ((unpause s p).mproc p).paused = false := by
  obtain ⟨w, u, he, -⟩ := unpause_mproc s p p
  rw [he, Mproc.live_eq_true] at hl
  unfold unpause
  dsimp only
  split
  · rw [reply_mproc, modify_mproc, if_pos rfl]
  · rename_i hpa
    have hp : (s.mproc p).paused = false :=
      Bool.eq_false_iff.mpr fun hp => hpa ⟨hp, by rw [hl.2]; decide⟩
    split
    · rw [reply_mproc, modify_mproc, if_pos rfl]
      exact hp
    · exact hp

/-- A release from PAUSE or WAIT calls no handler. -/
theorem unpause_acts (s : State) (p : Proc) : (unpause s p).hist.acts = s.hist.acts := by
  unfold unpause
  dsimp only
  split
  · rw [reply_hist]
    rfl
  · split
    · rw [reply_hist]
      rfl
    · rfl

namespace Pauses

/-- The release of another process, or of a dead one. -/
theorem unpause (h : q ≠ p ∨ (s.mproc q).live = false) : Pauses q s (unpause s p) := by
  rcases h with hq | hd
  · exact .of_mproc (unpause_other hq) (unpause_acts s p)
  · obtain ⟨w, u, he, -⟩ := unpause_mproc s p q
    refine .of_dead ?_ ?_
    · rw [he]
      exact hd
    · unfold MM.handled
      rw [unpause_acts]

/-- A signal is passed on to a process, and it is released. -/
theorem called (s : State) (p : Proc) : Pauses p s (MM.unpause (s.noteAct .sysSig p) p) := by
  have hone : MM.handled (MM.unpause (s.noteAct .sysSig p) p) p = MM.handled s p + 1 := by
    rw [MM.handled, unpause_acts]
    exact List.countP_cons_of_pos (decide_eq_true ⟨rfl, rfl⟩)
  refine ⟨fun hl => ?_, fun hl hp => ?_, hone ▸ Nat.le_succ _, fun hl _ => ?_⟩
  · obtain ⟨w, u, he, -⟩ := unpause_mproc (s.noteAct .sysSig p) p p
    rw [he] at hl
    exact hl
  · exact nomatch (unpause_paused hl).symm.trans hp
  · rw [hone]
    exact ⟨fun _ => Nat.lt_succ_self _, fun _ => unpause_paused hl⟩

/-- A process that `check_sig` signals: it is dead after that, or its handler is called. -/
theorem signalled (hs : Sound [] s) (hp : INIT_PROC_NR ≤ p) (hu : (s.mproc p).inUse = true)
    (he : sigProc s p sigNr ans = some s₁) : Pauses q s (MM.unpause s₁ p) := by
  have hkill : ∀ s₂, Sound [] s₂ → (s₂.mproc p).inUse = true →
      MM.sigKill s₂ p sigNr ans = some s₁ → Pauses q s₂ (MM.unpause s₁ p) := by
    intro s₂ hs₂ hu₂ hk
    obtain ⟨-, -, hd, -⟩ := sigKill_cases (A := False) (B := False) (E := fun _ _ => True)
      (W := fun _ => True) hs₂ hp hu₂ False.elim False.elim hk
    refine (sigKill hk).trans (unpause ?_)
    by_cases hq : q = p
    · exact Or.inr (hq ▸ hd)
    · exact Or.inl hq
  unfold sigProc at he
  rw [if_neg (not_not.mpr hu)] at he
  dsimp only at he
  split at he
  · have hcatch := catchSig s p q sigNr (ans.sp sigNr p)
    split at he
    · obtain rfl := Option.some.inj he
      refine hcatch.trans ?_
      by_cases hq : q = p
      · exact hq ▸ called _ p
      · exact (act (Or.inr hq)).trans (unpause (Or.inl hq))
    · obtain ⟨hc, -, hf, -⟩ := catchSig_cases (A := False) (B := False) (E := fun _ _ => True)
        (W := fun _ => True) sigNr (ans.sp sigNr p) hp hu False.elim
      exact hcatch.trans (hkill _ (hs.effects hc) ((congrArg (·.1) hf).trans hu) he)
  · exact hkill s hs hu he

/-- A timer that is turned off. -/
theorem timerOff (s : State) (c : SigCall) (p q : Proc) : Pauses q s (timerOff s c p) := by
  unfold MM.timerOff
  split
  · exact .modify ⟨rfl, rfl, rfl⟩
  · exact .of_mproc rfl rfl

/-- The search for processes to signal. -/
theorem signalAll {c : SigCall} {l : List Proc} {n n' : Nat} (hs : Sound [] s)
    (hl : ∀ p ∈ l, INIT_PROC_NR < p) (h : signalAll c ans l (s, n) = some (s', n')) :
    Pauses q s s' := by
  induction l generalizing s n with
  | nil =>
    obtain ⟨rfl, -⟩ := Prod.mk.inj (Option.some.inj h)
    exact .of_mproc rfl rfl
  | cons p l ih =>
    have hp := (hl p (List.mem_cons_self ..)).le
    have hl' : ∀ q ∈ l, INIT_PROC_NR < q := fun q hq => hl q (List.mem_cons_of_mem _ hq)
    rw [MM.signalAll] at h
    split at h
    · exact ih hs hl' h
    · rename_i hu
      rw [not_not] at hu
      split at h
      · exact ih hs hl' h
      · obtain ⟨het, -⟩ := timerOff_cases (A := False) (B := False) (E := fun _ _ => True)
          (W := fun _ => True) s c p
        have hst := hs.effects het
        have hoff := timerOff s c p q
        split at h
        · exact hoff.trans (ih hst hl' h)
        · obtain ⟨s₁, hsig, h⟩ := Option.bind_eq_some_iff.mp h
          have hut := (congrArg (·.1) (timerOff_flow s c p p)).trans hu
          have hgo := hoff.trans (signalled (q := q) hst hp hut hsig)
          obtain ⟨hes, -⟩ := sigProc_cases (A := False) (B := False) (E := fun _ _ => True)
            (W := fun _ => True) hst hp False.elim False.elim hsig
          dsimp only at h
          split at h
          · obtain ⟨rfl, -⟩ := Prod.mk.inj (Option.some.inj h)
            exact hgo
          · exact hgo.trans (ih (hst.effects (hes.tail (.unpause p))) hl' h)

/-- A call of `check_sig`. -/
theorem checkSig {c : SigCall} {r : Int} (hs : Sound [] s)
    (h : checkSig s c ans = some (r, s')) : Pauses q s s' := by
  unfold MM.checkSig at h
  split at h
  · obtain ⟨-, rfl⟩ := Prod.mk.inj (Option.some.inj h)
    exact .of_mproc rfl rfl
  · obtain ⟨⟨s₁, n⟩, ha, he⟩ := Option.map_eq_some_iff.mp h
    obtain ⟨-, rfl⟩ := Prod.mk.inj he
    have hall : Pauses q s s₁ := signalAll hs (fun p hp => (mem_aboveInit p).mp hp) ha
    dsimp only
    split
    · exact hall
    · exact hall.trans (.of_mproc rfl rfl)

/-- The loop over the bit map of a kernel signal. -/
theorem ksigBits {sigMap : BitVec 16} {procId : Nat} {l : List Nat} (hs : Sound [] s)
    (h : l.foldlM (ksigBit sigMap procId ans) s = some s') : Pauses q s s' := by
  induction l generalizing s with
  | nil => exact Option.some.inj h ▸ .of_mproc rfl rfl
  | cons i l ih =>
    rw [List.foldlM_cons] at h
    obtain ⟨s₁, hbit, h⟩ := Option.bind_eq_some_iff.mp h
    unfold ksigBit at hbit
    split at hbit
    · obtain ⟨⟨r, s₂⟩, hc, rfl⟩ := Option.map_eq_some_iff.mp hbit
      obtain ⟨he, -⟩ := checkSig_effects (A := False) (B := False) (E := fun _ _ => True)
        (W := fun _ => True) (u := q) trivial hs (fun p hp => ⟨False.elim, False.elim⟩) hc
      exact (checkSig hs hc).trans (ih (hs.effects he) h)
    · obtain rfl := Option.some.inj hbit
      exact ih hs h

/-- A stack fault: the stack grows, or the process is killed. -/
theorem stackFault (h : stackFault s p ans = some s') : Pauses q s s' := by
  unfold MM.stackFault at h
  dsimp only at h
  have hadj : Pauses q s (s.modify p fun _ =>
      (adjust (s.mproc p) (s.mproc p).segD.memLen (ans.sp STACK_FAULT p)).2) := by
    refine .modify ?_
    rw [adjust_eq]
    exact ⟨rfl, rfl, rfl⟩
  split at h
  · exact Option.some.inj h ▸ hadj
  · have hquiet : Pauses q s ((s.modify p fun _ =>
        (adjust (s.mproc p) (s.mproc p).segD.memLen (ans.sp STACK_FAULT p)).2).modify p
          fun m => { m with mpCatch := 0 }) :=
      hadj.trans (.modify ⟨rfl, rfl, rfl⟩)
    refine hquiet.trans ?_
    unfold sigProc at h
    split at h
    · exact Option.some.inj h ▸ .of_mproc rfl rfl
    · rw [if_neg] at h
      · exact sigKill h
      · rw [modify_mproc, if_pos rfl]
        exact fun h => h BitVec.zero_and

/-- The signals of a message from the kernel or the file system. -/
theorem doKsig {who : Option Proc} {sigMap : BitVec 16} {r : Int} (hs : Sound [] s)
    (h : doKsig s who p sigMap ans = some (r, s')) : Pauses q s s' := by
  unfold MM.doKsig at h
  dsimp only at h
  split at h
  · obtain ⟨-, rfl⟩ := Prod.mk.inj (Option.some.inj h)
    exact .of_mproc rfl rfl
  · split at h
    · obtain ⟨-, rfl⟩ := Prod.mk.inj (Option.some.inj h)
      exact .of_mproc rfl rfl
    · have hmp : Pauses q s { s with mp := MM_PROC_NR } := .of_mproc rfl rfl
      split at h
      · obtain ⟨s₁, hf, he⟩ := Option.map_eq_some_iff.mp h
        obtain ⟨-, rfl⟩ := Prod.mk.inj he
        exact hmp.trans (stackFault hf)
      · obtain ⟨s₁, hk, he⟩ := Option.map_eq_some_iff.mp h
        obtain ⟨-, rfl⟩ := Prod.mk.inj he
        have hs' : Sound [] { s with mp := MM_PROC_NR } := hs.congr fun _ => rfl
        exact (hmp.trans (ksigBits hs' hk)).trans (.of_mproc rfl rfl)

/-- The same table. -/
theorem of_same (h : SameTable s s') : Pauses q s s' :=
  .of_mproc (by rw [h.mproc]) (congrArg (·.acts) h.hist)

variable {who : Proc} {r : Int}

/-- FORK by another process. -/
theorem doFork (hlq : (s.mproc q).live = true) (h : doFork s who = some (r, s')) :
    Pauses q s s' := by
  unfold MM.doFork at h
  dsimp only at h
  split at h
  · obtain ⟨-, rfl⟩ := Prod.mk.inj (Option.some.inj h)
    exact .of_mproc rfl rfl
  · split at h
    · obtain ⟨-, rfl⟩ := Prod.mk.inj (Option.some.inj h)
      exact .of_mproc rfl rfl
    · obtain ⟨⟨base, t⟩, -, h⟩ := Option.bind_eq_some_iff.mp h
      dsimp only at h
      split at h
      · obtain ⟨-, rfl⟩ := Prod.mk.inj (Option.some.inj h)
        exact .of_mproc rfl rfl
      · obtain ⟨child, hc, h⟩ := Option.bind_eq_some_iff.mp h
        obtain ⟨s₁, hpid, h⟩ := Option.bind_eq_some_iff.mp h
        obtain ⟨-, rfl⟩ := Prod.mk.inj (Option.some.inj h)
        obtain ⟨pid, hm, -, -, -, -, hh⟩ := forkedState_mproc hpid
        -- the child gets a slot that is free
        have hq : q ≠ child := by
          rintro rfl
          have hfree := List.find?_some hc
          rw [(Mproc.live_eq_true.mp hlq).1] at hfree
          cases hfree
        have hplaced : Pauses q s s₁ := .of_mproc ((hm q).trans (if_neg hq)) (by rw [hh]; rfl)
        exact hplaced.trans (.of_same (reply_same ..))

/-- EXEC by another process. -/
theorem doExec {a : ExecCall} (hq : q ≠ who) (h : doExec s who a = some (r, s')) :
    Pauses q s s' := by
  unfold MM.doExec at h
  split at h
  · obtain ⟨-, rfl⟩ := Prod.mk.inj (Option.some.inj h)
    exact .of_mproc rfl rfl
  · rename_i im _
    obtain ⟨⟨n, s₁⟩, hm, h⟩ := Option.bind_eq_some_iff.mp h
    have hnew : Pauses q s s₁ := by
      obtain ⟨e, -, hm⟩ := Option.bind_eq_some_iff.mp hm
      split at hm
      · obtain ⟨-, rfl⟩ := Prod.mk.inj (Option.some.inj hm)
        exact .of_mproc rfl rfl
      · obtain ⟨s₂, hfree, hm⟩ := Option.bind_eq_some_iff.mp hm
        obtain ⟨t', -, rfl⟩ := Option.map_eq_some_iff.mp hfree
        obtain ⟨⟨base, t⟩, -, hm⟩ := Option.bind_eq_some_iff.mp hm
        dsimp only at hm
        split at hm
        · cases hm
        · obtain ⟨-, rfl⟩ := Prod.mk.inj (Option.some.inj hm)
          exact .of_mproc ((modify_mproc ..).trans (if_neg hq)) rfl
    dsimp only at h
    split at h
    · obtain ⟨-, rfl⟩ := Prod.mk.inj (Option.some.inj h)
      exact hnew
    · obtain ⟨-, rfl⟩ := Prod.mk.inj (Option.some.inj h)
      exact hnew.trans (.of_mproc ((modify_mproc ..).trans (if_neg hq)) rfl)

/-- WAIT. -/
theorem doWait (h : doWait s who = some (r, s')) : Pauses q s s' := by
  unfold MM.doWait at h
  dsimp only at h
  split at h
  · obtain ⟨s₁, hc, h⟩ := Option.map_eq_some_iff.mp h
    obtain ⟨-, rfl⟩ := Prod.mk.inj h
    exact (cleanup hc).trans (.of_mproc rfl rfl)
  · split at h
    · obtain ⟨-, rfl⟩ := Prod.mk.inj (Option.some.inj h)
      have hset : Pauses q s (s.modify who fun m => { m with waiting := true }) :=
        .modify ⟨rfl, rfl, rfl⟩
      exact hset.trans (.of_mproc rfl rfl)
    · obtain ⟨-, rfl⟩ := Prod.mk.inj (Option.some.inj h)
      exact .of_mproc rfl rfl

/-- A call of another process. -/
theorem perform {c : MMCall} (hs : Sound [] s) (hq : q ≠ who) (hlq : (s.mproc q).live = true)
    (h : perform s who c = some (r, s')) : Pauses q s s' := by
  have hother : ∀ f : Mproc → Mproc, Pauses q s (s.modify who f) := fun f =>
    .of_mproc ((modify_mproc ..).trans (if_neg hq)) rfl
  cases c with
  | fork => exact doFork hlq h
  | exec a => exact doExec hq h
  | brk addr sp =>
    obtain ⟨-, rfl⟩ := Prod.mk.inj (Option.some.inj h)
    exact hother _
  | exit status =>
    obtain ⟨s₁, hx, he⟩ := Option.map_eq_some_iff.mp h
    obtain ⟨-, rfl⟩ := Prod.mk.inj he
    exact (mmExit hx).trans (.of_mproc rfl rfl)
  | wait => exact doWait h
  | kill pid killSig ans => exact checkSig hs h
  | signal sig f =>
    obtain rfl : (doSignal s who sig f).2 = s' := congrArg Prod.snd (Option.some.inj h)
    unfold doSignal
    split
    · exact .of_mproc rfl rfl
    · split
      · exact .of_mproc rfl rfl
      · exact hother _
  | alarm sec left =>
    obtain ⟨-, rfl⟩ := Prod.mk.inj (Option.some.inj h)
    exact hother _
  | pause =>
    obtain ⟨-, rfl⟩ := Prod.mk.inj (Option.some.inj h)
    exact (hother fun m => { m with paused := true }).trans (.of_mproc rfl rfl)
  | getset c =>
    obtain rfl : (doGetset s who c).2 = s' := congrArg Prod.snd (Option.some.inj h)
    unfold doGetset
    cases c with
    | setuid usrId =>
      dsimp only
      split
      · exact .of_mproc rfl rfl
      · exact hother fun m => { m with mpRealuid := usrId, mpEffuid := usrId }
    | setgid grpid =>
      dsimp only
      split
      · exact .of_mproc rfl rfl
      · exact hother fun m => { m with mpRealgid := grpid, mpEffgid := grpid }
    | _ => exact .of_mproc rfl rfl
  | ksig procNr sigMap ans => exact doKsig hs h
  | other nr =>
    obtain ⟨-, rfl⟩ := Prod.mk.inj (Option.some.inj h)
    exact .of_mproc rfl rfl

/-- A turn of the main loop, for a process that hangs on PAUSE. -/
theorem serve {rq : Request} (hs : Sound [] s) (hi : AsIssued s rq)
    (hlq : (s.mproc q).live = true) (hpq : (s.mproc q).paused = true)
    (h : serve s rq = some s') : Pauses q s s' := by
  cases rq with
  | call who c =>
    obtain ⟨⟨e, s₂⟩, hc, h⟩ := Option.bind_eq_some_iff.mp h
    obtain rfl := Option.some.inj h
    refine trans ?_ (.of_same (answer_same ..))
    rcases hi with ⟨hp, -, hn⟩ | ⟨rfl, hi⟩
    · have hne : who ≠ FS_PROC_NR := fun he => absurd (he ▸ hp) (by decide)
      rw [if_neg hne] at hc
      -- the caller runs
      have hq : q ≠ who := by
        rintro rfl
        exact nomatch hpq.symm.trans (Mproc.suspended_eq_false.mp hn).2
      have hsame : SameTable s
          (({ s with mp := who, dontReply := false } : State).setOwed who true) :=
        ⟨rfl, rfl, rfl, rfl, rfl⟩
      exact (of_same hsame).trans (perform (hs.same hsame) hq hlq hc)
    · rw [if_pos rfl] at hc
      have hsame : SameTable s { s with mp := FS_PROC_NR, dontReply := false } :=
        ⟨rfl, rfl, rfl, rfl, rfl⟩
      cases c with
      | ksig procNr sigMap ans => exact (of_same hsame).trans (doKsig (hs.same hsame) hc)
      | _ => exact hi.elim
  | hardware procNr sigMap ans below =>
    obtain ⟨⟨e, s₂⟩, hc, h⟩ := Option.bind_eq_some_iff.mp h
    obtain rfl := Option.some.inj h
    have hsame : SameTable s { s with dontReply := false } := ⟨rfl, rfl, rfl, rfl, rfl⟩
    have hk := (of_same hsame).trans (doKsig (q := q) (hs.same hsame) hc)
    exact hk.trans (.of_same (answerHardware_same ..))

end Pauses

end Minix.MM
