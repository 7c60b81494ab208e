import Minix.MM.Calls

/-!
# The timers

Only ALARM turns the timer of a process on. A child starts with its parent's, and everything
else leaves the timers as they are or turns them off.
-/

namespace Minix.MM

open State

/-- What becomes of a slot when neither its memory is changed nor its timer turned on. -/
structure Mproc.Fades (m m' : Mproc) : Prop where
  segT : m'.segT = m.segT
  segD : m'.segD = m.segD
  segS : m'.segS = m.segS
  live : m'.live = true → m.live = true
  alarm : m'.alarmOn = true → m.alarmOn = true

/-- A slot that stays as it is. -/
theorem Mproc.Fades.refl (m : Mproc) : m.Fades m := ⟨rfl, rfl, rfl, id, id⟩

/-- Two changes one after the other. -/
theorem Mproc.Fades.trans {m₁ m₂ m₃ : Mproc} (h : m₁.Fades m₂) (h' : m₂.Fades m₃) : m₁.Fades m₃ :=
  ⟨h'.segT.trans h.segT, h'.segD.trans h.segD, h'.segS.trans h.segS, fun hl => h.live (h'.live hl),
    fun ha => h.alarm (h'.alarm ha)⟩

/-- The same for the whole table. -/
def Fade (s s' : State) : Prop := ∀ q, (s.mproc q).Fades (s'.mproc q)

section Fade

variable {s s' s₁ : State} {p : Proc}

/-- A table that stays as it is. -/
theorem Fade.refl (s : State) : Fade s s := fun q => .refl (s.mproc q)

/-- Two changes of the table one after the other. -/
theorem Fade.trans (h : Fade s s₁) (h' : Fade s₁ s') : Fade s s' := fun q => (h q).trans (h' q)

/-- What does not write to the table changes no slot. -/
theorem Fade.of_mproc (he : s'.mproc = s.mproc) : Fade s s' := fun q => he ▸ .refl (s.mproc q)

/-- One slot is written. -/
theorem Fade.modify {f : Mproc → Mproc} (hf : (s.mproc p).Fades (f (s.mproc p))) :
    Fade s (s.modify p f) := by
  intro q
  rw [modify_mproc]
  split
  · rename_i hq
    exact hq ▸ hf
  · exact .refl _

/-- An answer does not write to the table. -/
theorem Fade.reply (s : State) (p : Proc) (r x : Int) : Fade s (s.reply p r x) :=
  .of_mproc (reply_mproc s p r x)

/-- Only the slot that is released changes, and it is no longer live. -/
theorem Fade.release (he : release s p = some s') : Fade s s' := by
  obtain ⟨t, -, rfl⟩ := release_eq he
  exact fun q => ⟨rfl, rfl, rfl, fun hl => (released_live.mp hl).2, id⟩

/-- An orphan gets another parent. -/
theorem Fade.adopt (s : State) (p : Proc) : Fade s (adopt s p) :=
  .modify ⟨rfl, rfl, rfl, id, id⟩

/-- The slot of a dead process is released, and those of its orphans that hang on it, too. -/
theorem Fade.cleanup {n : Nat} (he : cleanup n s p = some s') : Fade s s' := by
  induction n generalizing s s' p with
  | zero => cases he
  | succ n ih =>
    obtain ⟨s₁, h₁, he⟩ := Option.bind_eq_some_iff.mp he
    obtain ⟨⟨s₂, b⟩, h₂, he⟩ := Option.bind_eq_some_iff.mp he
    obtain rfl := Option.some.inj he
    have hloop : ∀ (l : List Proc) (r r' : State × Bool),
        l.foldlM (disinherit (MM.cleanup n) p) r = some r' → Fade r.1 r'.1 := by
      intro l
      induction l with
      | nil => exact fun r r' he => Option.some.inj he ▸ .refl _
      | cons q l ihl =>
        intro r r' he
        rw [List.foldlM_cons] at he
        obtain ⟨r₁, hone, he⟩ := Option.bind_eq_some_iff.mp he
        refine Fade.trans ?_ (ihl r₁ r' he)
        unfold disinherit at hone
        split at hone
        · split at hone
          · obtain ⟨s₃, h₃, rfl⟩ := Option.map_eq_some_iff.mp hone
            exact (Fade.adopt _ _).trans (ih h₃)
          · exact Option.some.inj hone ▸ .adopt _ _
        · exact Option.some.inj hone ▸ .refl _
    exact (Fade.release h₁).trans (hloop _ _ _ h₂)

/-- A process that hangs is not live. -/
theorem Mproc.Fades.hang (m : Mproc) : m.Fades { m with hanging := true } :=
  ⟨rfl, rfl, rfl, fun hl => (Bool.noConfusion (Mproc.live_eq_true.mp hl).2 : _), id⟩

/-- An exit turns the timer off. -/
theorem Fade.mmExit {st : BitVec 8} (he : mmExit s p st = some s') : Fade s s' := by
  obtain ⟨s₁, h₁, rfl⟩ := Option.map_eq_some_iff.mp he
  have hset : Fade s (s.modify p fun m => { m with mpExitstatus := st }) :=
    .modify ⟨rfl, rfl, rfl, id, id⟩
  have hmark : Fade s ((s.modify p fun m => { m with mpExitstatus := st }).noteExit p) :=
    hset.trans (.of_mproc rfl)
  have hgone : Fade s s₁ := by
    split at h₁
    · exact hmark.trans (.cleanup h₁)
    · exact Option.some.inj h₁ ▸ hmark.trans (.modify (.hang _))
  exact hgone.trans (.modify ⟨rfl, rfl, rfl, id, fun h => Bool.noConfusion h⟩)

/-- A process that a signal terminates exits. -/
theorem Fade.sigKill {sigNr : Nat} {ans : Answers} (he : sigKill s p sigNr ans = some s') :
    Fade s s' := by
  have hset : Fade s (s.modify p fun m =>
      { m with mpSigstatus := sigStatus m sigNr (ans.core sigNr p) }) :=
    .modify ⟨rfl, rfl, rfl, id, id⟩
  have hnote : Fade s ((s.modify p fun m =>
      { m with mpSigstatus := sigStatus m sigNr (ans.core sigNr p) }).noteAct .mmExit p) :=
    hset.trans (.of_mproc rfl)
  exact hnote.trans (.mmExit he)

/-- A release from PAUSE or WAIT touches neither memory nor timers. -/
theorem Fade.unpause (s : State) (p : Proc) : Fade s (unpause s p) := by
  unfold MM.unpause
  dsimp only
  split
  · have hoff : Fade s (s.modify p fun m => { m with paused := false }) :=
      .modify ⟨rfl, rfl, rfl, id, id⟩
    exact hoff.trans (.reply _ p EINTR 0)
  · split
    · have hoff : Fade s (s.modify p fun m => { m with waiting := false }) :=
        .modify ⟨rfl, rfl, rfl, id, id⟩
      exact hoff.trans (.reply _ p EINTR 0)
    · exact .refl s

/-- SIGALRM turns timers off. -/
theorem Fade.timerOff (s : State) (c : SigCall) (p : Proc) : Fade s (timerOff s c p) := by
  unfold MM.timerOff
  split
  · exact .modify ⟨rfl, rfl, rfl, id, fun h => Bool.noConfusion h⟩
  · exact .refl s

/-- A WAIT cleans up after a child, or hangs. -/
theorem Fade.doWait {who : Proc} {r : Int} (he : doWait s who = some (r, s')) : Fade s s' := by
  unfold MM.doWait at he
  dsimp only at he
  split at he
  · obtain ⟨s₁, h₁, he⟩ := Option.map_eq_some_iff.mp he
    exact (Prod.mk.inj he).2 ▸ (Fade.cleanup h₁).trans (.of_mproc rfl)
  · split at he
    · rw [← (Prod.mk.inj (Option.some.inj he)).2]
      have hwait : Fade s (s.modify who fun m => { m with waiting := true }) :=
        .modify ⟨rfl, rfl, rfl, id, id⟩
      exact hwait.trans (.of_mproc rfl)
    · exact (Prod.mk.inj (Option.some.inj he)).2 ▸ .refl s

/-- The signal maps have nothing to do with timers. -/
theorem SigFunc.set_fades (f : SigFunc) (mask : BitVec 16) (m : Mproc) : m.Fades (f.set mask m) := by
  cases f <;> exact ⟨rfl, rfl, rfl, id, id⟩

/-- SIGNAL changes the signal maps of the caller. -/
theorem Fade.doSignal (s : State) (who : Proc) (sig : Nat) (f : SigFunc) :
    Fade s (doSignal s who sig f).2 := by
  unfold MM.doSignal
  split
  · exact .refl s
  · split
    · exact .refl s
    · exact .modify (f.set_fades _ _)

/-- PAUSE makes the caller hang. -/
theorem Fade.doPause (s : State) (who : Proc) : Fade s (doPause s who).2 := by
  have hpause : Fade s (s.modify who fun m => { m with paused := true }) :=
    .modify ⟨rfl, rfl, rfl, id, id⟩
  exact hpause.trans (.of_mproc rfl)

/-- These calls change the ids and the group of the caller. -/
theorem Fade.doGetset (s : State) (who : Proc) (c : GetSet) : Fade s (doGetset s who c).2 := by
  cases c with
  | getuid => exact .of_mproc rfl
  | getgid => exact .of_mproc rfl
  | getpid => exact .of_mproc rfl
  | setuid usrId =>
    unfold MM.doGetset
    dsimp only
    have hset : Fade s (s.modify who fun m =>
        { m with mpRealuid := usrId, mpEffuid := usrId }) := .modify ⟨rfl, rfl, rfl, id, id⟩
    split
    · exact .refl s
    · exact hset
  | setgid grpid =>
    unfold MM.doGetset
    dsimp only
    have hset : Fade s (s.modify who fun m =>
        { m with mpRealgid := grpid, mpEffgid := grpid }) := .modify ⟨rfl, rfl, rfl, id, id⟩
    split
    · exact .refl s
    · exact hset

end Fade

/-- No timer is on. -/
def Unarmed (s : State) : Prop := ∀ p, (s.mproc p).alarmOn = false

section Unarmed

variable {s s' : State} {p q : Proc}

/-- No timer is turned on by what turns none on. -/
theorem Unarmed.fade (h : Unarmed s) (hf : Fade s s') : Unarmed s' := by
  intro q
  by_contra ha
  have hon := (hf q).alarm (Bool.eq_true_of_not_eq_false ha)
  rw [h q] at hon
  cases hon

/-- The timers of a table that stays. -/
theorem Unarmed.congr (h : Unarmed s) (he : s'.mproc = s.mproc) : Unarmed s' :=
  h.fade (.of_mproc he)

/-- A slot is written, and its timer is not turned on. -/
theorem Unarmed.modify (h : Unarmed s) {f : Mproc → Mproc}
    (hf : ∀ m, m.alarmOn = false → (f m).alarmOn = false) : Unarmed (s.modify p f) := by
  intro q
  rw [modify_mproc]
  split
  · exact hf _ (h p)
  · exact h q

/-- Memory that is given back concerns the hole list. -/
theorem Unarmed.freeCore (h : Unarmed s) (he : s.freeCore p = some s') : Unarmed s' := by
  obtain ⟨t, -, rfl⟩ := Option.map_eq_some_iff.mp he
  exact fun q => h q

/-- A new pid for the child. -/
theorem Unarmed.assignPid {n : Nat} (h : Unarmed s) (he : assignPid p n s = some s') :
    Unarmed s' := by
  induction n generalizing s with
  | zero => cases he
  | succ n ih =>
    unfold MM.assignPid at he
    dsimp only at he
    have hput : Unarmed ({ s with nextPid := pidAfter s.nextPid }.modify p
        fun m => { m with mpPid := pidAfter s.nextPid }) :=
      Unarmed.modify (s := { s with nextPid := pidAfter s.nextPid }) h fun _ => id
    split at he
    · exact ih hput he
    · exact Option.some.inj he ▸ hput

/-- A child starts with the timer of its parent, which is live. -/
theorem Unarmed.doFork {r : Int} (h : Unarmed s) (he : doFork s p = some (r, s')) :
    Unarmed s' := by
  unfold MM.doFork at he
  dsimp only at he
  split at he
  · exact (Prod.mk.inj (Option.some.inj he)).2 ▸ h
  · split at he
    · exact (Prod.mk.inj (Option.some.inj he)).2 ▸ h
    · obtain ⟨⟨base, t⟩, -, he⟩ := Option.bind_eq_some_iff.mp he
      dsimp only at he
      split at he
      · exact (Prod.mk.inj (Option.some.inj he)).2 ▸ h.congr rfl
      · obtain ⟨child, -, he⟩ := Option.bind_eq_some_iff.mp he
        obtain ⟨s₁, h₁, he⟩ := Option.bind_eq_some_iff.mp he
        have hplace : Unarmed (placeChild s p child t base) := by
          have hcopy : Unarmed ((s.grant child t ⟨base, progClicks (s.mproc p)⟩).modify child
              fun _ => forked (s.mproc p) p base) :=
            Unarmed.modify (s := s.grant child t ⟨base, progClicks (s.mproc p)⟩) h fun _ _ => h p
          exact hcopy.congr rfl
        exact (Prod.mk.inj (Option.some.inj he)).2 ▸ (hplace.assignPid h₁).fade (.reply _ _ 0 0)

/-- EXEC leaves the timer of the caller on. -/
theorem Unarmed.doExec {a : ExecCall} {r : Int} (h : Unarmed s)
    (he : doExec s p a = some (r, s')) : Unarmed s' := by
  unfold MM.doExec at he
  split at he
  · exact (Prod.mk.inj (Option.some.inj he)).2 ▸ h
  · rename_i im _
    obtain ⟨⟨r₁, s₁⟩, h₁, he⟩ := Option.bind_eq_some_iff.mp he
    have hmem : Unarmed s₁ := by
      obtain ⟨ok, -, h₁⟩ := Option.bind_eq_some_iff.mp h₁
      split at h₁
      · exact (Prod.mk.inj (Option.some.inj h₁)).2 ▸ h
      · obtain ⟨s₂, h₂, h₁⟩ := Option.bind_eq_some_iff.mp h₁
        obtain ⟨⟨base, t⟩, -, h₁⟩ := Option.bind_eq_some_iff.mp h₁
        dsimp only at h₁
        split at h₁
        · cases h₁
        · have hgrant : Unarmed (s₂.grant p t ⟨base, im.clicks⟩) := fun q => h.freeCore h₂ q
          exact (Prod.mk.inj (Option.some.inj h₁)).2 ▸ hgrant.modify fun _ => id
    dsimp only at he
    split at he
    · exact (Prod.mk.inj (Option.some.inj he)).2 ▸ hmem
    · exact (Prod.mk.inj (Option.some.inj he)).2 ▸ hmem.modify fun _ => id

/-- Segments that grow leave the timer alone. -/
theorem adjust_alarmOn (m : Mproc) (d sp : Nat) : (adjust m d sp).2.alarmOn = m.alarmOn := by
  rcases adjust_cases m d sp with h | ⟨-, h⟩
  · rw [h]
  · rw [h]
    unfold growStack
    split
    · rfl
    · rfl

/-- A signal that is caught may grow the stack. -/
theorem Unarmed.catchSig (h : Unarmed s) (sigNr sp : Nat) : Unarmed (catchSig s p sigNr sp).2 := by
  have hmask : Unarmed (s.modify p fun m => { m with mpCatch := m.mpCatch &&& ~~~sigMask sigNr }) :=
    h.modify fun _ => id
  have hnote : Unarmed ((s.modify p fun m =>
      { m with mpCatch := m.mpCatch &&& ~~~sigMask sigNr }).noteAct .adjust p) := hmask.congr rfl
  exact hnote.modify fun _ _ => (adjust_alarmOn _ _ _).trans (hmask p)

/-- A signal is caught or terminates its process. -/
theorem Unarmed.sigProc {sigNr : Nat} {ans : Answers} (h : Unarmed s)
    (he : sigProc s p sigNr ans = some s') : Unarmed s' := by
  unfold MM.sigProc at he
  dsimp only at he
  split at he
  · exact Option.some.inj he ▸ h
  · split at he
    · split at he
      · exact Option.some.inj he ▸ (h.catchSig _ _).congr rfl
      · exact (h.catchSig _ _).fade (.sigKill he)
    · exact h.fade (.sigKill he)

/-- Every process that is signalled in the loop. -/
theorem Unarmed.signalAll {c : SigCall} {ans : Answers} {l : List Proc} {n n' : Nat}
    (h : Unarmed s) (he : signalAll c ans l (s, n) = some (s', n')) : Unarmed s' := by
  induction l generalizing s n with
  | nil => exact (Prod.mk.inj (Option.some.inj he)).1 ▸ h
  | cons q l ih =>
    unfold MM.signalAll at he
    split at he
    · exact ih h he
    · split at he
      · exact ih h he
      · split at he
        · exact ih (h.fade (.timerOff s c q)) he
        · obtain ⟨s₁, h₁, he⟩ := Option.bind_eq_some_iff.mp he
          have hsig : Unarmed (MM.unpause s₁ q) :=
            ((h.fade (.timerOff s c q)).sigProc h₁).fade (.unpause s₁ q)
          dsimp only at he
          split at he
          · exact (Prod.mk.inj (Option.some.inj he)).1 ▸ hsig
          · exact ih hsig he

/-- The search of the table for processes to signal. -/
theorem Unarmed.checkSig {c : SigCall} {ans : Answers} {r : Int} (h : Unarmed s)
    (he : checkSig s c ans = some (r, s')) : Unarmed s' := by
  unfold MM.checkSig at he
  split at he
  · exact (Prod.mk.inj (Option.some.inj he)).2 ▸ h
  · obtain ⟨⟨s₁, n⟩, h₁, he⟩ := Option.map_eq_some_iff.mp he
    have hall : Unarmed s₁ := h.signalAll h₁
    rw [← (Prod.mk.inj he).2]
    dsimp only
    split
    · exact hall
    · exact hall.congr rfl

/-- A stack fault grows the stack or terminates the process. -/
theorem Unarmed.stackFault {ans : Answers} (h : Unarmed s)
    (he : stackFault s p ans = some s') : Unarmed s' := by
  unfold MM.stackFault at he
  dsimp only at he
  have hadj : Unarmed (s.modify p fun _ =>
      (adjust (s.mproc p) (s.mproc p).segD.memLen (ans.sp STACK_FAULT p)).2) :=
    h.modify fun _ _ => (adjust_alarmOn _ _ _).trans (h p)
  split at he
  · exact Option.some.inj he ▸ hadj
  · have hcatch : Unarmed ((s.modify p fun _ =>
        (adjust (s.mproc p) (s.mproc p).segD.memLen (ans.sp STACK_FAULT p)).2).modify p
        fun m => { m with mpCatch := 0 }) := hadj.modify fun _ => id
    exact hcatch.sigProc he

/-- One signal after the other of a map from the kernel. -/
theorem Unarmed.ksigBits {sigMap : BitVec 16} {procId : Nat} {ans : Answers} {l : List Nat}
    (h : Unarmed s) (he : l.foldlM (ksigBit sigMap procId ans) s = some s') : Unarmed s' := by
  induction l generalizing s with
  | nil => exact Option.some.inj he ▸ h
  | cons i l ih =>
    rw [List.foldlM_cons] at he
    obtain ⟨s₁, h₁, he⟩ := Option.bind_eq_some_iff.mp he
    refine ih ?_ he
    unfold ksigBit at h₁
    split at h₁
    · obtain ⟨⟨r, s₂⟩, h₂, rfl⟩ := Option.map_eq_some_iff.mp h₁
      exact h.checkSig h₂
    · exact Option.some.inj h₁ ▸ h

/-- All the signals of one message from the kernel. -/
theorem Unarmed.doKsig {who : Option Proc} {sigMap : BitVec 16} {ans : Answers} {r : Int}
    (h : Unarmed s) (he : doKsig s who p sigMap ans = some (r, s')) : Unarmed s' := by
  unfold MM.doKsig at he
  split at he
  · exact (Prod.mk.inj (Option.some.inj he)).2 ▸ h
  · split at he
    · exact (Prod.mk.inj (Option.some.inj he)).2 ▸ h
    · have hmp : Unarmed { s with mp := MM_PROC_NR } := h
      dsimp only at he
      split at he
      · obtain ⟨s₁, h₁, he⟩ := Option.map_eq_some_iff.mp he
        exact (Prod.mk.inj he).2 ▸ hmp.stackFault h₁
      · obtain ⟨s₁, h₁, he⟩ := Option.map_eq_some_iff.mp he
        exact (Prod.mk.inj he).2 ▸ (hmp.ksigBits h₁).congr rfl

/-- A call other than ALARM with a time leaves all timers off. -/
theorem Unarmed.perform {who : Proc} {c : MMCall} {r : Int} (h : Unarmed s)
    (hc : ∀ sec left, c = .alarm sec left → sec = 0) (he : perform s who c = some (r, s')) :
    Unarmed s' := by
  cases c with
  | fork => exact h.doFork he
  | exec a => exact h.doExec he
  | brk addr sp =>
    rw [← (Prod.mk.inj (Option.some.inj he)).2]
    exact h.modify fun _ _ => (adjust_alarmOn _ _ _).trans (h who)
  | exit status =>
    obtain ⟨s₁, h₁, he⟩ := Option.map_eq_some_iff.mp he
    exact (Prod.mk.inj he).2 ▸ (h.fade (.mmExit h₁)).congr rfl
  | wait => exact h.fade (.doWait he)
  | kill pid killSig ans => exact h.checkSig he
  | signal sig f => exact (Prod.mk.inj (Option.some.inj he)).2 ▸ h.fade (.doSignal s who sig f)
  | alarm sec left =>
    obtain rfl := hc sec left rfl
    rw [← (Prod.mk.inj (Option.some.inj he)).2]
    exact h.modify fun _ _ => rfl
  | pause => exact (Prod.mk.inj (Option.some.inj he)).2 ▸ h.fade (.doPause s who)
  | getset c => exact (Prod.mk.inj (Option.some.inj he)).2 ▸ h.fade (.doGetset s who c)
  | ksig procNr sigMap ans => exact h.doKsig he
  | other nr =>
    rw [← (Prod.mk.inj (Option.some.inj he)).2]
    exact h

/-- A turn of the main loop for a call. -/
theorem serve_performs {who : Proc} {c : MMCall} (he : serve s (.call who c) = some s') :
    ∃ error s₁ s₂, s₁.mproc = s.mproc ∧ perform s₁ who c = some (error, s₂) ∧
      s' = answer s₂ who c.isExec error := by
  obtain ⟨⟨error, s₂⟩, h₂, he⟩ := Option.bind_eq_some_iff.mp he
  refine ⟨error, _, s₂, ?_, h₂, (Option.some.inj he).symm⟩
  split
  · rfl
  · rfl

/-- A turn of the main loop leaves all timers off, if it is not ALARM with a time. -/
theorem Unarmed.serve {r : Request} (h : Unarmed s)
    (hr : ∀ who sec left, r = .call who (.alarm sec left) → sec = 0)
    (he : serve s r = some s') : Unarmed s' := by
  cases r with
  | call who c =>
    obtain ⟨error, s₁, s₂, hs, h₂, rfl⟩ := serve_performs he
    have hcall : Unarmed s₂ :=
      (h.congr hs).perform (fun sec left hc => hr who sec left (hc ▸ rfl)) h₂
    exact hcall.congr (answer_same s₂ who c.isExec error).mproc
  | hardware procNr sigMap ans below =>
    obtain ⟨⟨error, s₁⟩, h₁, he⟩ := Option.bind_eq_some_iff.mp he
    obtain rfl := Option.some.inj he
    have hsig : Unarmed s₁ := Unarmed.doKsig (s := { s with dontReply := false }) h h₁
    have hsame := answerHardware_same s₁ below error
    exact hsig.congr hsame.mproc

/-- No timer is on at the start. -/
theorem Unarmed.boot {t : HoleTable} {totMem : Nat} {b : Boot} (h : boot t totMem b = some s) :
    Unarmed s := by
  obtain ⟨⟨base, t'⟩, -, h⟩ := Option.bind_eq_some_iff.mp h
  dsimp only at h
  split at h
  · cases h
  · have hinit : Unarmed { mmInit t totMem with table := t' } := fun _ => rfl
    exact Option.some.inj h ▸ hinit.modify fun _ => id

end Unarmed

end Minix.MM
