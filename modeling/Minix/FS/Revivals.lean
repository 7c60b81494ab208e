import Minix.FS.Counters

/-!
# Suspend and revive

Over whole runs `reviving` and `susp_count` are right as long as `release` never finds a
process again that is being revived already, and an exiting process does not release itself.
-/

namespace Minix.FS.Pipes

open Function Relation Transition

section Leave

variable {s : State} {p rp : Proc}

/-- The data of a process that leaves its suspended call. -/
def left (d : Fproc) : Fproc :=
  if d.fpSuspended then
    { d with
      fpSuspended := false, fpNbytes := if d.fpTask = XPIPE then d.fpNbytes else EINTR }
  else d

/-- What leaving off does: the process is awake, and counted out if it was hanging. -/
theorem leaveSuspended_eq (s : State) (p : Proc) : leaveSuspended s p =
    { setFproc s p (left (s.fproc p)) with
      suspCount := s.suspCount - if isHung (s.fproc p) = true then 1 else 0 } := by
  have hneg : -(s.fproc p).fpTask ≠ XPIPE ↔ (s.fproc p).fpTask ≠ XPIPE := by
    unfold XPIPE
    omega
  unfold leaveSuspended left
  cases hs : (s.fproc p).fpSuspended with
  | false =>
    have hnot : isHung (s.fproc p) = false := by
      unfold isHung
      rw [hs, Bool.false_and]
    rw [if_neg Bool.false_ne_true, if_neg Bool.false_ne_true, hnot, if_neg Bool.false_ne_true]
    unfold setFproc
    rw [update_eq_self, sub_zero]
  | true =>
    rw [if_pos rfl, if_pos rfl]
    by_cases ht : (s.fproc p).fpTask = XPIPE
    · have hhung : isHung (s.fproc p) = true := isHung_iff.mpr ⟨hs, ht⟩
      have hun : doUnpause { s with suspCount := s.suspCount - 1 } p =
          { s with suspCount := s.suspCount - 1 } := by
        unfold doUnpause
        rw [if_neg (by rw [hs]; exact Bool.noConfusion), if_neg (by rw [hneg]; exact not_not.mpr ht)]
      rw [if_pos ht, if_pos ht, hhung, if_pos rfl]
      dsimp only
      rw [hun]
      rfl
    · have hnot : ¬isHung (s.fproc p) = true := fun hc => ht (isHung_iff.mp hc).2
      have hun : doUnpause s p = setFproc s p
          { s.fproc p with fpSuspended := false, fpNbytes := EINTR } := by
        unfold doUnpause revive
        dsimp only
        rw [hs, if_neg Bool.noConfusion, if_pos (hneg.mpr ht), if_neg Bool.noConfusion, if_neg ht]
      rw [if_neg ht, if_neg ht, if_neg hnot]
      dsimp only
      rw [hun, sub_zero]
      unfold setFproc
      dsimp only
      rw [update_self, update_idem]

/-- It changes the entry of that process only. -/
theorem leaveSuspended_fproc (s : State) (p : Proc) :
    (leaveSuspended s p).fproc = update s.fproc p (left (s.fproc p)) := by
  rw [leaveSuspended_eq]
  rfl

/-- Who has left off is not suspended. -/
theorem left_susp (d : Fproc) : (left d).fpSuspended = false := by
  unfold left
  split
  · rfl
  · rename_i hs
    exact Bool.eq_false_iff.mpr hs

/-- Leaving off does not touch the revived flag. -/
theorem left_revived (d : Fproc) : (left d).fpRevived = d.fpRevived := by
  unfold left
  split
  · rfl
  · rfl

/-- Releasing somebody else. -/
theorem releaseOne_self (hne : rp ≠ p) : (releaseOne s rp).fproc p = s.fproc p := by
  unfold releaseOne revive setFproc
  dsimp only
  split
  · rfl
  · split
    · exact update_of_ne (Ne.symm hne) ..
    · exact update_of_ne (Ne.symm hne) ..

/-- Leaving off and the release of another process can be done in either order. -/
theorem leave_releaseOne (hne : rp ≠ p) :
    leaveSuspended (releaseOne s rp) p = releaseOne (leaveSuspended s p) rp := by
  have hp := releaseOne_self (s := s) hne
  rw [leaveSuspended_eq, leaveSuspended_eq, hp]
  unfold releaseOne revive setFproc
  dsimp only
  rw [update_of_ne hne]
  split
  · dsimp only
    rw [sub_right_comm]
  · split
    · dsimp only
      rw [sub_right_comm, update_comm hne]
    · dsimp only
      rw [sub_right_comm, update_comm hne]

/-- Only the process that leaves hangs less. -/
theorem hangsOn_leave (nil : Option InodePtr) (ip : InodePtr) (call : RwFlag) (q : Proc) :
    hangsOn (leaveSuspended s p) nil ip call q =
      if q = p then false else hangsOn s nil ip call q := by
  have hfiles := (SameFiles.leaveSuspended s p).files
  unfold hangsOn
  rw [hfiles, leaveSuspended_fproc]
  by_cases he : q = p
  · subst he
    rw [update_self, left_susp, if_pos rfl, Bool.false_and, Bool.false_and]
  · rw [update_of_ne he, if_neg he]

/-- The release of one process does not change what another hangs on. -/
theorem hangsOn_releaseOne_self (hne : rp ≠ p) (nil : Option InodePtr) (ip : InodePtr)
    (call : RwFlag) : hangsOn (releaseOne s rp) nil ip call p = hangsOn s nil ip call p := by
  have hfiles := (SameFiles.releaseOne s rp).files
  have hp := releaseOne_self (s := s) hne
  unfold hangsOn
  rw [hfiles, hp]

/-- Leaving off and a whole round of releases can be done in either order. -/
theorem leave_releaseLoop {nil : Option InodePtr} {ip : InodePtr} {call : RwFlag}
    (hp : hangsOn s nil ip call p = false) (l : List Proc) (count : Nat) :
    leaveSuspended (releaseLoop nil ip call l count s) p =
      releaseLoop nil ip call l count (leaveSuspended s p) := by
  induction l generalizing count s with
  | nil => rfl
  | cons rp l ih =>
    unfold releaseLoop
    rw [hangsOn_leave]
    by_cases he : rp = p
    · subst he
      rw [hp, if_pos rfl, if_neg Bool.false_ne_true, if_neg Bool.false_ne_true]
      exact ih hp count
    · rw [if_neg he]
      split
      · split
        · exact leave_releaseOne he
        · rw [← leave_releaseOne he]
          exact ih ((hangsOn_releaseOne_self he nil ip call).trans hp) (count - 1)
      · exact ih hp count

/-- An exiting process that does not release itself might as well have left its call before. -/
theorem leave_closeFilp {nil : Option InodePtr} {k : Fd} {f : FilpPtr}
    (hp : (s.inode (s.files.filp f).filpIno).iPipe = true →
      hangsOn s nil (s.files.filp f).filpIno (releasedBy (s.files.filp f).filpMode) p = false) :
    leaveSuspended (closeFilp s nil p k f) p = closeFilp (leaveSuspended s p) nil p k f := by
  have hs := SameFiles.leaveSuspended s p
  have hrel : leaveSuspended (if (s.inode (s.files.filp f).filpIno).iPipe then
      release s nil (s.files.filp f).filpIno (releasedBy (s.files.filp f).filpMode) NR_PROCS
        else s) p =
      if (s.inode (s.files.filp f).filpIno).iPipe then release (leaveSuspended s p) nil
        (s.files.filp f).filpIno (releasedBy (s.files.filp f).filpMode) NR_PROCS
      else leaveSuspended s p := by
    split
    · exact leave_releaseLoop (hp ‹_›) _ NR_PROCS
    · rfl
  have hclosed : ∀ t : State, leaveSuspended (closed t p k f) p =
      closed (leaveSuspended t p) p k f := by
    intro t
    have ht := SameFiles.leaveSuspended t p
    have hcalm := Calm.closed t p k f
    rw [leaveSuspended_eq, hcalm.fproc, hcalm.suspCount]
    rw [leaveSuspended_eq]
    unfold closed setFproc
    dsimp only
    split
    · rfl
    · rfl
  rw [closeFilp_eq, closeFilp_eq, hclosed, hs.files, hs.inode]
  exact congrArg (fun t => closed t p k f) hrel

/-- A round of releases leaves alone a process that does not hang on this. -/
theorem releaseLoop_self {nil : Option InodePtr} {ip : InodePtr} {call : RwFlag}
    (hp : hangsOn s nil ip call p = false) (l : List Proc) (count : Nat) :
    (releaseLoop nil ip call l count s).fproc p = s.fproc p := by
  induction l generalizing count s with
  | nil => rfl
  | cons rp l ih =>
    unfold releaseLoop
    split
    · rename_i hrp
      have hne : rp ≠ p := by
        rintro rfl
        rw [hp] at hrp
        cases hrp
      have hself := releaseOne_self (s := s) hne
      split
      · exact hself
      · exact (ih ((hangsOn_releaseOne_self hne nil ip call).trans hp) _).trans hself
    · exact ih hp count

/-- Closing a descriptor when the process itself is not found. -/
theorem leave_doClose {nil : Option InodePtr} {k : Fd}
    (hp : ∀ f, s.files.fpFilp p k = some f → (s.inode (s.files.filp f).filpIno).iPipe = true →
      hangsOn s nil (s.files.filp f).filpIno (releasedBy (s.files.filp f).filpMode) p = false) :
    leaveSuspended (doClose s nil p k.val) p = doClose (leaveSuspended s p) nil p k.val ∧
    (doClose s nil p k.val).fproc p = s.fproc p := by
  have hs := SameFiles.leaveSuspended s p
  unfold doClose
  rw [hs.files]
  cases hf : getFilp s.files p k.val with
  | none => exact ⟨rfl, rfl⟩
  | some kf =>
    obtain ⟨k', f⟩ := kf
    obtain rfl : k = k' := Fin.ext (by have := getFilp_fd hf; omega)
    have hk := getFilp_some hf
    refine ⟨leave_closeFilp (hp f hk), ?_⟩
    dsimp only
    rw [closeFilp_eq, (Calm.closed _ p k f).fproc]
    split
    · exact releaseLoop_self (hp f hk ‹_›) _ NR_PROCS
    · rfl

/-- An exiting process that is suspended does not find itself while it closes its descriptors: as
long as its own is open, none for the other end is closed, and afterwards what `NIL_FILP` leads to
is no such pipe. -/
def LeavesAlone (s : State) (p : Proc) (nil : Option InodePtr) : Prop :=
  (s.fproc p).fpSuspended = true → ∀ k f, s.files.fpFilp p k = some f →
    (s.inode (s.files.filp f).filpIno).iPipe = true →
    (s.fproc p).fpCall = some (releasedBy (s.files.filp f).filpMode) →
    (k < (s.fproc p).fpFd →
      inoOf s.files none p (s.fproc p).fpFd ≠ some (s.files.filp f).filpIno) ∧
    ((s.fproc p).fpFd < k → nil ≠ some (s.files.filp f).filpIno)

/-- Leaving off before the descriptors are closed is the same as afterwards. -/
theorem leave_closeAll {nil : Option InodePtr} {l : List Fd} (hl : l.Pairwise (· < ·))
    (hclear : (s.fproc p).fpSuspended = true → ∀ k ∈ l, ∀ f, s.files.fpFilp p k = some f →
      (s.inode (s.files.filp f).filpIno).iPipe = true →
      (s.fproc p).fpCall = some (releasedBy (s.files.filp f).filpMode) →
      (if (s.fproc p).fpFd ∈ l ∧ (s.fproc p).fpFd < k then nil
        else inoOf s.files nil p (s.fproc p).fpFd) ≠ some (s.files.filp f).filpIno) :
    leaveSuspended (closeAll nil p l s) p = closeAll nil p l (leaveSuspended s p) := by
  induction l generalizing s with
  | nil => rfl
  | cons k l ih =>
    obtain ⟨hhead, hl⟩ := List.pairwise_cons.mp hl
    obtain ⟨hcomm, hself⟩ : leaveSuspended (doClose s nil p k.val) p =
          doClose (leaveSuspended s p) nil p k.val ∧
        (doClose s nil p k.val).fproc p = s.fproc p := by
      refine leave_doClose fun f hk hip => ?_
      unfold hangsOn
      cases hs : (s.fproc p).fpSuspended with
      | false => rw [Bool.false_and, Bool.false_and]
      | true =>
        rw [Bool.true_and, Bool.and_eq_false_iff, beq_eq_false_iff_ne, beq_eq_false_iff_ne]
        by_cases hcall : (s.fproc p).fpCall = some (releasedBy (s.files.filp f).filpMode)
        · right
          have hc := hclear hs k List.mem_cons_self f hk hip hcall
          rw [if_neg] at hc
          · exact hc
          · rintro ⟨hmem, hlt⟩
            rcases List.mem_cons.mp hmem with he | hin
            · exact absurd he (ne_of_lt hlt)
            · exact lt_asymm hlt (hhead _ hin)
        · exact .inl hcall
    unfold closeAll
    rw [← hcomm]
    refine ih hl fun hs i hi f hk hip hcall => ?_
    rw [hself] at hs hcall ⊢
    obtain ⟨hfilp, hinode⟩ := doClose_filp s nil p k.val
    have hfd := doClose_fd s nil p k
    have hik : i ≠ k := ne_of_gt (hhead i hi)
    rw [hfd, update_self, update_of_ne hik] at hk
    rw [(hfilp f).1] at hcall
    rw [(hfilp f).2.1] at hip ⊢
    have hc := hclear hs i (List.mem_cons_of_mem _ hi) f hk (hinode _ hip).1 hcall
    by_cases hown : (s.fproc p).fpFd = k
    · rw [hown] at hc ⊢
      rw [if_pos ⟨List.mem_cons_self, hhead i hi⟩] at hc
      have hclosed : inoOf (doClose s nil p k.val).files nil p k = nil := by
        unfold inoOf
        rw [hfd, update_self, update_self]
      rw [hclosed, ite_self]
      exact hc
    · have hopen : inoOf (doClose s nil p k.val).files nil p (s.fproc p).fpFd =
          inoOf s.files nil p (s.fproc p).fpFd := by
        unfold inoOf
        rw [hfd, update_self, update_of_ne hown]
        split
        · rw [(hfilp _).2.1]
        · rfl
      rw [hopen]
      have hiff : ((s.fproc p).fpFd ∈ k :: l ∧ (s.fproc p).fpFd < i) ↔
          ((s.fproc p).fpFd ∈ l ∧ (s.fproc p).fpFd < i) := by
        rw [List.mem_cons, or_iff_right hown]
      by_cases hcond : (s.fproc p).fpFd ∈ l ∧ (s.fproc p).fpFd < i
      · rw [if_pos hcond]
        rwa [if_pos (hiff.mpr hcond)] at hc
      · rw [if_neg hcond]
        rwa [if_neg fun h => hcond (hiff.mp h)] at hc

end Leave

section Requests

variable {s s' : State} {p : Proc}

/-- No process that hangs on a pipe is found twice when the descriptors of another are closed. -/
def EachOnce (s : State) (p : Proc) : Prop :=
  ∀ ip, (s.inode ip).iPipe = true → ∀ q, q ≠ p → ∀ call, hangsOn s none ip call q = true →
    ∀ k, closesEnd s p ip call k = true → ∀ k', closesEnd s p ip call k' = true → k = k'

/-- Leaving the suspended call. -/
theorem Waiting.leaves (h : Waiting s) (hr : (s.fproc p).fpRevived = false) :
    Waiting (leaveSuspended s p) ∧ total (leaveSuspended s p) = total s ∧
    drift (leaveSuspended s p) = drift s := by
  have hs := SameFiles.leaveSuspended s p
  have hf := leaveSuspended_fproc s p
  have hc : (leaveSuspended s p).suspCount =
      s.suspCount - if isHung (s.fproc p) = true then 1 else 0 := by
    rw [leaveSuspended_eq]
  have hv : (leaveSuspended s p).reviving = s.reviving := by
    rw [leaveSuspended_eq]
    rfl
  have hnot : isHung (left (s.fproc p)) = false := by
    unfold isHung
    rw [left_susp, Bool.false_and]
  refine ⟨?_, ?_, ?_⟩
  · refine h.setFproc hs hf (fun hc => ?_) fun hc => ?_
    · rw [left_susp] at hc
      cases hc
    · rw [left_revived, hr] at hc
      cases hc
  · unfold total
    rw [hf, hc, hv]
    cases hh : isHung (s.fproc p) with
    | true =>
      have hless := number_less hh hnot
      rw [if_pos rfl]
      omega
    | false =>
      rw [number_same (hnot.trans hh.symm), if_neg Bool.false_ne_true, sub_zero]
  · unfold drift
    rw [hf, hv, number_same (left_revived _)]

/-- A process that does not find itself might as well leave its call before it closes its
descriptors. -/
theorem Waiting.leave_closeAll (ht : Tidy s) (h : Waiting s) {nil : Option InodePtr}
    (hclear : LeavesAlone s p nil) :
    leaveSuspended (closeAll nil p (List.finRange NR_FDS) s) p =
      closeAll nil p (List.finRange NR_FDS) (leaveSuspended s p) := by
  refine Pipes.leave_closeAll (List.pairwise_lt_finRange _) fun hsus k _ f hk hip hcall => ?_
  obtain ⟨hbefore, hafter⟩ := hclear hsus k f hk hip hcall
  by_cases hlt : (s.fproc p).fpFd < k
  · rw [if_pos ⟨List.mem_finRange _, hlt⟩]
    exact hafter hlt
  · rw [if_neg fun hc => hlt hc.2]
    obtain ⟨-, f₀, hk₀, hw₀⟩ := h.onFile p hsus
    rcases lt_or_eq_of_le (not_lt.mp hlt) with hgt | rfl
    · have hino := hbefore hgt
      unfold inoOf at hino ⊢
      rw [hk₀] at hino ⊢
      exact hino
    · -- its own descriptor leads to its own end
      obtain rfl := Option.some.inj (hk.symm.trans hk₀)
      have htask : (s.fproc p).fpTask = XPIPE := by
        by_contra hne
        rw [hw₀.task hne] at hip
        cases hip
      obtain ⟨-, flag, hflag, hb, -⟩ := hw₀.pipe htask
      obtain rfl := Option.some.inj (hflag.symm.trans hcall)
      have hmode := (ht.ends _ hip).mode f (ht.counted.mem_users hk)
      unfold releasedBy at hb
      cases hm : (s.files.filp f).filpMode.r with
      | true =>
        rw [hm, if_pos rfl] at hb
        have hb : (s.files.filp f).filpMode.w = true := hb
        rw [hmode, hm] at hb
        cases hb
      | false =>
        rw [hm, if_neg Bool.false_ne_true] at hb
        have hb : (s.files.filp f).filpMode.r = true := hb
        rw [hm] at hb
        cases hb

/-- EXIT, of a process that does not find itself. -/
theorem Waiting.exited (ht : Tidy s) (h : Waiting s) (hr : ∀ q, (s.fproc q).fpRevived = false)
    {nil : Option InodePtr} (hclear : LeavesAlone s p nil) :
    Waiting (doExit s nil p) ∧ total (doExit s nil p) = total s ∧
    drift s ≤ drift (doExit s nil p) ∧ (EachOnce s p → drift (doExit s nil p) = drift s) := by
  have hs := SameFiles.leaveSuspended s p
  obtain ⟨hw, htot, hd⟩ := h.leaves (hr p)
  have hcomm := h.leave_closeAll ht hclear
  have hsus : ((leaveSuspended s p).fproc p).fpSuspended = false := by
    rw [leaveSuspended_fproc, update_self, left_susp]
  obtain ⟨hw', htot', hd', hexact, hsus'⟩ :=
    hw.closedAll (ht.congr hs) hsus nil (List.finRange NR_FDS) (List.nodup_finRange _)
  have hdone : doExit s nil p = { closeAll nil p (List.finRange NR_FDS) (leaveSuspended s p) with
      live := update (closeAll nil p (List.finRange NR_FDS) (leaveSuspended s p)).live p false } := by
    unfold doExit
    dsimp only
    rw [hcomm]
  rw [hdone]
  generalize closeAll nil p (List.finRange NR_FDS) (leaveSuspended s p) = s₂ at *
  have hcalm : Calm s₂ { s₂ with live := update s₂.live p false } := ⟨rfl, rfl, rfl⟩
  refine ⟨hw'.stays rfl fun q hq => ⟨?_, fun f hf => ⟨hf, rfl, rfl, rfl, fun _ => rfl⟩⟩,
    hcalm.total.trans (htot'.trans htot), hcalm.drift ▸ hd ▸ hd', fun hone => ?_⟩
  · change update s₂.live p false q = true
    rw [update_of_ne]
    · exact (hw'.onFile q hq).1
    · rintro rfl
      rw [hsus'] at hq
      cases hq
  · refine hcalm.drift.trans ((hexact fun ip call q hip hq => ⟨?_, fun hrq => ?_⟩).trans hd)
    · rw [hangsOn_leave] at hq
      have hne : q ≠ p := by
        rintro rfl
        rw [if_pos rfl] at hq
        cases hq
      rw [if_neg hne] at hq
      rw [hs.inode] at hip
      have hcloses : ∀ k, closesEnd (leaveSuspended s p) p ip call k = closesEnd s p ip call k := by
        intro k
        unfold closesEnd
        rw [hs.files]
      intro k _ k' _ hk hk'
      rw [hcloses] at hk hk'
      exact hone ip hip q hne call hq k hk k' hk'
    · rw [leaveSuspended_fproc] at hrq
      by_cases he : q = p
      · subst he
        rw [update_self, left_revived, hr q] at hrq
        cases hrq
      · rw [update_of_ne he, hr q] at hrq
        cases hrq

/-- FORK, into a slot that nobody uses. -/
theorem Waiting.forks (ht : Tidy s) (h : Waiting s) {parent child : Proc}
    (hs : (s.fproc parent).fpSuspended = false) (hc : s.live child = false) :
    Waiting (doFork s parent child) ∧ total (doFork s parent child) = total s ∧
    drift (doFork s parent child) = drift s := by
  have hcs : (s.fproc child).fpSuspended = false := by
    by_contra hn
    have := (h.onFile child (Bool.eq_true_of_not_eq_false hn)).1
    rw [hc] at this
    cases this
  have hframe := Frame.forked s parent child
  have hfiles : Waiting { s with
      files := forkFiles s.files parent child, live := update s.live child true } := by
    refine h.stays rfl fun q hq => ?_
    have hne : q ≠ child := by
      rintro rfl
      rw [hcs] at hq
      cases hq
    exact hframe.stays ht hne (h.onFile q hq).1
  have hhung : ∀ q, (s.fproc q).fpSuspended = false → isHung (s.fproc q) = false := by
    intro q hq
    unfold isHung
    rw [hq, Bool.false_and]
  refine ⟨?_, ?_, ?_⟩
  · refine hfiles.setFproc (p := child) (d := s.fproc parent) ⟨rfl, rfl, rfl, rfl, rfl⟩ rfl
      (fun hc => ?_) fun hc => ?_
    · rw [hs] at hc
      cases hc
    · rw [h.not_revived hs] at hc
      cases hc
  · unfold total
    exact congrArg (fun n : Nat => s.suspCount + s.reviving - n)
      (number_same ((hhung parent hs).trans (hhung child hcs).symm))
  · unfold drift
    exact congrArg (fun n : Nat => s.reviving - n)
      (number_same ((h.not_revived hs).trans (h.not_revived hcs).symm))

/-- A task revives a process that it has suspended. -/
theorem Waiting.taskRevives (h : Waiting s)
    (hp : (s.fproc p).fpSuspended = true → (s.fproc p).fpTask ≠ XPIPE) (bytes : Int) :
    Waiting (revive s p bytes) ∧ total (revive s p bytes) = total s ∧
    drift (revive s p bytes) = drift s := by
  unfold revive
  dsimp only
  cases hs : (s.fproc p).fpSuspended with
  | false => exact ⟨h, rfl, rfl⟩
  | true =>
    have ht := hp hs
    rw [if_neg Bool.noConfusion, if_neg ht]
    have hnot : isHung (s.fproc p) = false := by
      rw [Bool.eq_false_iff]
      exact fun hc => ht (isHung_iff.mp hc).2
    refine ⟨?_, ?_, ?_⟩
    · refine h.setFproc ⟨rfl, rfl, rfl, rfl, rfl⟩ rfl (fun hc => Bool.noConfusion hc) fun hc => ?_
      rw [h.revived p hc] at hnot
      cases hnot
    · have hnew : isHung { s.fproc p with fpSuspended := false, fpNbytes := bytes } =
          isHung (s.fproc p) := by
        rw [hnot]
        rfl
      unfold total
      exact congrArg (fun n : Nat => s.suspCount + s.reviving - n) (number_same hnew)
    · unfold drift
      exact congrArg (fun n : Nat => s.reviving - n) (number_same rfl)

/-- `do_unpause` keeps the counters right. -/
theorem Waiting.unpaused (h : Waiting s) (p : Proc) :
    Waiting (doUnpause s p) ∧ total (doUnpause s p) = total s ∧
    drift (doUnpause s p) = drift s := by
  unfold doUnpause
  split
  · exact ⟨h, rfl, rfl⟩
  · split
    · rename_i ht
      refine h.taskRevives (fun _ he => ht ?_) EINTR
      rw [he]
      rfl
    · exact ⟨h, rfl, rfl⟩

/-- The process that is revived no longer hangs. -/
theorem Waiting.unhangs (h : Waiting s) (hr : (s.fproc p).fpRevived = true) :
    Waiting (unhang s p) ∧ total (unhang s p) = total s ∧ drift (unhang s p) = drift s := by
  have hless : number isHung (unhang s p).fproc + 1 = number isHung s.fproc :=
    number_less (h.revived p hr) rfl
  have hless' : number Fproc.fpRevived (unhang s p).fproc + 1 =
    number Fproc.fpRevived s.fproc := number_less hr rfl
  refine ⟨?_, ?_, ?_⟩
  · exact h.setFproc (unhang_same s p) rfl (fun hc => Bool.noConfusion hc)
      fun hc => Bool.noConfusion hc
  · change s.suspCount + (s.reviving - 1) - number isHung (unhang s p).fproc = _
    unfold total
    omega
  · change s.reviving - 1 - number Fproc.fpRevived (unhang s p).fproc = _
    unfold drift
    omega

/-- The process that `get_work` picks has been revived. -/
theorem toRevive_some (h : toRevive s = some p) : (s.fproc p).fpRevived = true :=
  List.find?_some (p := fun rp => (s.fproc rp).fpRevived) h

/-- What `get_work` does with the first process that is being revived. -/
theorem Waiting.works (h : Waiting s) (hp : toRevive s = some p) (io : Io) :
    ∃ flag f, (s.fproc p).fpCall = some flag ∧
      s.files.fpFilp p (s.fproc p).fpFd = some f ∧
      (s.inode (s.files.filp f).filpIno).iPipe = true ∧
      bitOf flag (s.files.filp f).filpMode = true ∧ 0 < (s.fproc p).fpNbytes ∧
      getWork s io = some (pipeIo (unhang s p) p (s.fproc p).fpFd f flag (s.fproc p).fpBuffer
        (s.fproc p).fpNbytes io) := by
  obtain ⟨hs, htask⟩ := isHung_iff.mp (h.revived p (toRevive_some hp))
  obtain ⟨-, f, hk, hw⟩ := h.onFile p hs
  obtain ⟨hip, flag, hcall, hb, hn, -⟩ := hw.pipe htask
  refine ⟨flag, f, hcall, hk, hip, hb, hn, ?_⟩
  unfold getWork
  rw [hp]
  dsimp only
  rw [hcall, Option.map_some]
  unfold readWrite
  have hfd : getFilp (unhang s p).files p (s.fproc p).fpFd.val = some ((s.fproc p).fpFd, f) :=
    getFilp_of hk
  rw [if_neg (by omega), hfd]
  dsimp only
  have hb' : bitOf flag ((unhang s p).files.filp f).filpMode = true := hb
  have hip' : ((unhang s p).inode ((unhang s p).files.filp f).filpIno).iPipe = true := hip
  rw [hb', hip', if_neg Bool.noConfusion, if_pos rfl]

/-- For whom the revived call looks, if it looks for somebody. -/
theorem sought_ne {flag call : RwFlag} {rip : InodePtr} {bytes : Int} {position : Nat}
    (h : sought (pipeVerdict s rip flag bytes position) = some call) : flag ≠ call := by
  rintro rfl
  cases hv : pipeVerdict s rip flag bytes position with
  | empty writer =>
    rw [hv] at h
    cases writer with
    | false => cases h
    | true =>
      cases h
      unfold pipeVerdict at hv
      dsimp only at hv
      split at hv
      · cases hv
      · split at hv
        · cases hv
        · split at hv
          · cases hv
          · cases hv
  | go wake =>
    rw [hv] at h
    cases wake with
    | false => cases h
    | true =>
      cases h
      exact Bool.noConfusion (pipeVerdict_go_reading hv).2
  | tooBig => rw [hv] at h; cases h
  | broken => rw [hv] at h; cases h
  | full => rw [hv] at h; cases h

/-- A process that has been woken once is not found again by the call that is revived. -/
def FindsSleeper (s : State) : Prop :=
  ∀ rp, toRevive s = some rp → ∀ flag, (s.fproc rp).fpCall = some flag →
    ∀ f, s.files.fpFilp rp (s.fproc rp).fpFd = some f →
    ∀ call, sought (pipeVerdict s (s.files.filp f).filpIno flag (s.fproc rp).fpNbytes
      (s.files.filp f).filpPos) = some call →
    ∀ q, firstHanging s (s.files.filp f).filpIno call = some q → (s.fproc q).fpRevived = false

/-- `get_work` keeps the counters right, and exactly so when it finds a sleeper. -/
theorem Waiting.worked (ht : Tidy s) (h : Waiting s) {io : Io} (he : getWork s io = some s') :
    Waiting s' ∧ total s' = total s ∧ drift s ≤ drift s' ∧
    (FindsSleeper s → drift s' = drift s) := by
  cases hp : toRevive s with
  | none =>
    unfold getWork at he
    rw [hp] at he
    cases he
  | some p =>
    obtain ⟨flag, f, hcall, hk, hip, hb, hn, hwork⟩ := h.works hp io
    obtain rfl := Option.some.inj (hwork.symm.trans he)
    obtain ⟨hw, htot, hd⟩ := h.unhangs (toRevive_some hp)
    have hs : ((unhang s p).fproc p).fpSuspended = false := by
      unfold unhang Pipes.setFproc
      dsimp only
      rw [update_self]
    have hlive := (h.onFile p (isHung_iff.mp (h.revived p (toRevive_some hp))).1).1
    have hother : ∀ q, q ≠ p → (unhang s p).fproc q = s.fproc q := fun q hq => update_of_ne hq ..
    obtain ⟨hw', htot', hd', hexact⟩ := hw.pipeIoDone (ht.congr (unhang_same s p)) hlive hs hk rfl
      hip hb hn (s.fproc p).fpBuffer io
    refine ⟨hw', htot'.trans htot, hd ▸ hd', fun hfinds => (hexact fun call hc q hq => ?_).trans hd⟩
    have hne : q ≠ p := by
      rintro rfl
      have hh := firstHanging_some hq
      unfold hangsOn at hh
      rw [hs, Bool.false_and, Bool.false_and] at hh
      cases hh
    rw [hother q hne]
    refine hfinds p hp flag hcall f hk call hc q ?_
    have hsame : hangsOn (unhang s p) none (s.files.filp f).filpIno call =
        hangsOn s none (s.files.filp f).filpIno call := by
      funext r
      by_cases hr : r = p
      · subst hr
        unfold hangsOn
        rw [hs, hcall]
        have hbne : (some flag == some call) = false := by
          rw [beq_eq_false_iff_ne]
          exact fun hc' => sought_ne hc (Option.some.inj hc')
        rw [hbne, Bool.false_and, Bool.false_and, Bool.and_false, Bool.false_and]
      · unfold hangsOn
        rw [hother r hr]
        rfl
    unfold firstHanging at hq ⊢
    rw [← hsame]
    exact hq

/-- Changes to the descriptors of somebody who is not waiting. -/
theorem Waiting.framed {who : Proc} (ht : Tidy s) (h : Waiting s)
    (hs : (s.fproc who).fpSuspended = false) (hf : Frame who s s') (hc : Calm s s') :
    Waiting s' := by
  refine h.stays hc.fproc fun q hq => ?_
  have hne : q ≠ who := by
    rintro rfl
    rw [hs] at hq
    cases hq
  exact hf.stays ht hne (h.onFile q hq).1

/-- A task suspends the caller, whose position does not matter then. -/
theorem otherIo_suspends {who : Proc} {k : Fd} {f : FilpPtr} {flag : RwFlag} {buffer : Nat}
    {nbytes : Int} {io : Io} {task : Int} (htask : io.suspendOn = some task) :
    otherIo s who k f flag buffer nbytes io =
      suspend { s with files := setPos s.files f io.newPos } who task k (some flag) buffer
        nbytes := by
  unfold otherIo suspend Pipes.setFproc
  rw [htask]
  dsimp only
  split
  · rfl
  · rfl

/-- Input and output that is no pipe's keeps them right. -/
theorem Waiting.otherIoDone {who : Proc} {k : Fd} {f : FilpPtr} {io : Io} (ht : Tidy s)
    (h : Waiting s) (hlive : s.live who = true) (hs : (s.fproc who).fpSuspended = false)
    (hk : s.files.fpFilp who k = some f)
    (hp : (s.inode (s.files.filp f).filpIno).iPipe = false) (hio : io.suspendOn ≠ some XPIPE)
    (flag : RwFlag) (buffer : Nat) (nbytes : Int) :
    Waiting (otherIo s who k f flag buffer nbytes io) ∧
    total (otherIo s who k f flag buffer nbytes io) = total s ∧
    drift (otherIo s who k f flag buffer nbytes io) = drift s := by
  have hpos : ∀ t : State, Tidy t → Waiting t →
      (t.inode (t.files.filp f).filpIno).iPipe = false →
      Waiting { t with files := setPos t.files f io.newPos } ∧
      total { t with files := setPos t.files f io.newPos } = total t ∧
      drift { t with files := setPos t.files f io.newPos } = drift t := by
    intro t htt hw hpt
    have hcalm : Calm t { t with files := setPos t.files f io.newPos } := ⟨rfl, rfl, rfl⟩
    have hgrow : Grows MM t { t with files := setPos t.files f io.newPos } :=
      otherIo_grows hpt k flag buffer nbytes ⟨io.chunk, none, io.newPos⟩
    have hframe := hgrow.frame htt
    refine ⟨hw.stays rfl fun q hq => ⟨(hw.onFile q hq).1, fun g hg => ?_⟩, hcalm.total, hcalm.drift⟩
    have hc := htt.inUse hg
    obtain ⟨-, hm, hi⟩ := hframe.inUse g hc
    exact ⟨hg, hm, hi, rfl, fun _ => rfl⟩
  unfold otherIo
  cases htask : io.suspendOn with
  | none => exact hpos s ht h hp
  | some task =>
    rw [htask] at hio
    have hsame := SameFiles.suspend s who task k (some flag) buffer nbytes
    have hsus : Waiting (suspend s who task k (some flag) buffer nbytes) ∧
        total (suspend s who task k (some flag) buffer nbytes) = total s ∧
        drift (suspend s who task k (some flag) buffer nbytes) = drift s :=
      h.suspended hlive hs hk buffer (fun he => absurd (congrArg some he) hio) fun _ => hp
    obtain ⟨hw, htot, hd⟩ := hsus
    obtain ⟨hw', htot', hd'⟩ := hpos _ (ht.congr hsame) hw (by rw [hsame.files, hsame.inode]; exact hp)
    exact ⟨hw', htot'.trans htot, hd'.trans hd⟩

/-- A call, while nobody is being revived. -/
theorem Waiting.performed {who : Proc} {c : Call} (ht : Tidy s) (h : Waiting s)
    (hg : AsIssued s (.call who c)) (hr : ∀ q, (s.fproc q).fpRevived = false) :
    Waiting (perform s who c) ∧ total (perform s who c) = total s ∧
    drift (perform s who c) = drift s := by
  obtain ⟨hlive, hs, hc⟩ := hg
  cases c with
  | pipe dev =>
    have hcalm := Calm.doPipe s who dev
    exact ⟨h.framed ht hs (frame_of_grows ht (doPipe_grows hlive hc dev)) hcalm, hcalm.total,
      hcalm.drift⟩
  | «open» bits rip =>
    have hcalm := Calm.doOpen s who bits rip
    exact ⟨h.framed ht hs (frame_of_grows ht (doOpen_grows hlive bits hc)) hcalm, hcalm.total,
      hcalm.drift⟩
  | close fd =>
    obtain ⟨hw, htot, -, hd, -⟩ := h.doClosed ht hs none fd
    exact ⟨hw, htot, hd fun _ _ q _ _ _ _ _ => hr q⟩
  | dup fd fd2 =>
    change Waiting (doDup s who fd fd2) ∧ total (doDup s who fd fd2) = total s ∧
      drift (doDup s who fd fd2) = drift s
    rcases doDup_cases s who fd fd2 with he | ⟨s₁, j, k, f, hj, hk, he, hs₁⟩
    · rw [he]
      exact ⟨h, rfl, rfl⟩
    · rw [he]
      have hkept : Tidy s₁ ∧ Waiting s₁ ∧ total s₁ = total s ∧ drift s₁ = drift s ∧
          (s₁.fproc who).fpSuspended = false := by
        rcases hs₁ with ⟨g, hg, rfl⟩ | ⟨n, rfl⟩
        · have hfill : Grows who s { s with files := fillIn s.files g ⟨false, false⟩ } :=
            .fillIn hg ⟨false, false⟩
          have hcalm : Calm s { s with files := fillIn s.files g ⟨false, false⟩ } := ⟨rfl, rfl, rfl⟩
          have hchange : Change (fun _ => True) s
            { s with files := fillIn s.files g ⟨false, false⟩ } := .grows hfill
          exact ⟨ht.change hchange, h.framed ht hs (hfill.frame ht) hcalm, hcalm.total, hcalm.drift,
            hs⟩
        · obtain ⟨hw, htot, -, hd, hfp⟩ := h.doClosed ht hs none n
          have hchain : ReflTransGen (Change fun _ => True) s (doClose s none who n) :=
            doClose_changes s none who n
          obtain ⟨b, hb, -⟩ := hfp who
          refine ⟨ht.changes hchain, hw, htot, hd fun _ _ q _ _ _ _ _ => hr q, ?_⟩
          rw [hb]
          exact hs
      obtain ⟨ht₁, hw₁, htot₁, hd₁, hsus₁⟩ := hkept
      have hcalm : Calm s₁ { s₁ with files := shareFilp s₁.files who k f } := ⟨rfl, rfl, rfl⟩
      exact ⟨hw₁.framed ht₁ hsus₁ Frame.shared hcalm, hcalm.total.trans htot₁,
        hcalm.drift.trans hd₁⟩
  | ioctl fd suspendOn =>
    change Waiting (doIoctl s who fd suspendOn) ∧ total (doIoctl s who fd suspendOn) = total s ∧
      drift (doIoctl s who fd suspendOn) = drift s
    unfold doIoctl
    split
    · rename_i k f task hf
      refine h.suspended hlive hs (getFilp_some hf) 0 (fun he => absurd (congrArg some he) hc.1)
        fun _ => hc.2 k f hf (Option.some_ne_none _)
    · exact ⟨h, rfl, rfl⟩
  | readWrite flag fd buffer nbytes io =>
    change Waiting (readWrite s who flag fd buffer nbytes io) ∧
      total (readWrite s who flag fd buffer nbytes io) = total s ∧
      drift (readWrite s who flag fd buffer nbytes io) = drift s
    rcases readWrite_cases ht who flag fd buffer nbytes io with he | ⟨k, f, hf, hb, hne, hcase⟩
    · rw [he]
      exact ⟨h, rfl, rfl⟩
    · rcases hcase with ⟨hp, -, hn, he⟩ | ⟨hp, he⟩
      · rw [he]
        obtain ⟨hw, htot, -, hd⟩ := h.pipeIoDone ht hlive hs (getFilp_some hf) rfl hp hb
          (by omega : 0 < nbytes) buffer io
        exact ⟨hw, htot, hd fun _ _ q _ => hr q⟩
      · rw [he]
        exact h.otherIoDone ht hlive hs (getFilp_some hf) hp hc flag buffer nbytes

/-- An exiting process does not release itself. -/
def NotItself (s : State) : Request → Prop
  | .exit p nil => LeavesAlone s p nil
  | _ => True

/-- Nobody is released who is being revived already. -/
def NoneTwice (s : State) : Request → Prop
  | .exit p _ => EachOnce s p
  | .work _ => FindsSleeper s
  | _ => True

/-- When `reviving` is 0, no process has its revived flag set. -/
theorem nobody_revived (hd : 0 ≤ drift s) (hz : s.reviving = 0) :
    ∀ q, (s.fproc q).fpRevived = false := by
  unfold drift at hd
  exact number_eq_zero.mp (by omega)

/-- What a request does to those who wait and to the counters. -/
theorem Waiting.served {r : Request} (ht : Tidy s) (h : Waiting s) (hd : 0 ≤ drift s)
    (hg : AsIssued s r) (hself : NotItself s r) (he : serve s r = some s') :
    Waiting s' ∧ total s' = total s ∧ drift s ≤ drift s' ∧
    (NoneTwice s r → drift s' = drift s) := by
  unfold serve at he
  cases r with
  | store p a b =>
    cases he
    have hcalm : Calm s { s with mem := update s.mem p (update (s.mem p) a b) } := ⟨rfl, rfl, rfl⟩
    have hs : SameFiles s { s with mem := update s.mem p (update (s.mem p) a b) } :=
      ⟨rfl, rfl, rfl, rfl, rfl⟩
    exact ⟨h.stays rfl fun q hq => hs.stays (h.onFile q hq).1, hcalm.total, hcalm.drift.ge,
      fun _ => hcalm.drift⟩
  | work io =>
    dsimp only at he
    split at he
    · cases he
    · exact h.worked ht he
  | call who c =>
    obtain ⟨hz, he⟩ := Option.ite_none_right_eq_some.mp he
    cases he
    obtain ⟨hw, htot, hd'⟩ := h.performed ht hg (nobody_revived hd hz)
    exact ⟨hw, htot, hd'.ge, fun _ => hd'⟩
  | other rip n =>
    obtain ⟨-, he⟩ := Option.ite_none_right_eq_some.mp he
    cases he
    have hcalm : Calm s (setInode s rip { s.inode rip with iCount := n }) := ⟨rfl, rfl, rfl⟩
    refine ⟨h.stays rfl fun q hq => ⟨(h.onFile q hq).1, fun f hf => ⟨hf, rfl, rfl, ?_⟩⟩,
      hcalm.total, hcalm.drift.ge, fun _ => hcalm.drift⟩
    change (update s.inode rip _ _).iPipe = _ ∧ (_ → (update s.inode rip _ _).sMaxSize = _)
    by_cases hi : (s.files.filp f).filpIno = rip
    · rw [hi, update_self]
      exact ⟨rfl, fun _ => rfl⟩
    · rw [update_of_ne hi]
      exact ⟨rfl, fun _ => rfl⟩
  | fork parent child =>
    obtain ⟨-, he⟩ := Option.ite_none_right_eq_some.mp he
    cases he
    obtain ⟨hw, htot, hd'⟩ := h.forks ht hg.2.1 hg.2.2.1
    exact ⟨hw, htot, hd'.ge, fun _ => hd'⟩
  | exit p nil =>
    obtain ⟨hz, he⟩ := Option.ite_none_right_eq_some.mp he
    cases he
    exact h.exited ht (nobody_revived hd hz) hself
  | unpause p =>
    obtain ⟨-, he⟩ := Option.ite_none_right_eq_some.mp he
    cases he
    obtain ⟨hw, htot, hd'⟩ := h.unpaused p
    exact ⟨hw, htot, hd'.ge, fun _ => hd'⟩
  | revive p status =>
    obtain ⟨-, he⟩ := Option.ite_none_right_eq_some.mp he
    cases he
    obtain ⟨hw, htot, hd'⟩ := h.taskRevives hg status
    exact ⟨hw, htot, hd'.ge, fun _ => hd'⟩

end Requests

/-- The file system when it has just been initialized: no descriptors, no pipes, nobody waiting. -/
structure Started (s : State) : Prop where
  noFds : ∀ p k, s.files.fpFilp p k = none
  noFilps : ∀ f, (s.files.filp f).filpCount = 0
  noPipes : ∀ rip, (s.inode rip).iPipe = false
  nobody : ∀ p, (s.fproc p).fpSuspended = false ∧ (s.fproc p).fpRevived = false
  suspCount : s.suspCount = 0
  reviving : s.reviving = 0
  nothing : ∀ rip, s.writes rip = [] ∧ s.reads rip = []

section Runs

variable {s s' : State}

/-- At the start the tables are in order. -/
theorem Tidy.started (h : Started s) : Tidy s := by
  have hempty : ∀ rip, users s.files rip = ∅ := by
    intro rip
    refine Finset.eq_empty_of_forall_notMem fun f hf => ?_
    exact (mem_users.mp hf).1 (h.noFilps f)
  refine ⟨fun f => ?_, fun rip => ?_, fun p _ => h.noFds p, fun k f hk => ?_, fun rip hp => ?_⟩
  · rw [h.noFilps f]
    refine (Finset.sum_eq_zero fun p _ => ?_).symm
    exact fdCount_none (h.noFds p) f
  · rw [hempty rip]
    exact Nat.zero_le _
  · rw [h.noFds] at hk
    cases hk
  · rw [h.noPipes] at hp
    cases hp

/-- At the start both counters are right. -/
theorem Waiting.started (h : Started s) : Waiting s ∧ total s = 0 ∧ drift s = 0 := by
  have hhung : number isHung s.fproc = 0 := by
    refine number_eq_zero.mpr fun p => ?_
    unfold isHung
    rw [(h.nobody p).1, Bool.false_and]
  have hrev : number Fproc.fpRevived s.fproc = 0 := number_eq_zero.mpr fun p => (h.nobody p).2
  refine ⟨⟨fun p hp => ?_, fun p hp => ?_⟩, ?_, ?_⟩
  · rw [(h.nobody p).1] at hp
    cases hp
  · rw [(h.nobody p).2] at hp
    cases hp
  · unfold total
    rw [hhung, h.suspCount, h.reviving]
    rfl
  · unfold drift
    rw [hrev, h.reviving]
    rfl

/-- The processes that hang on a pipe and have not been woken. -/
def sleepers (s : State) : Finset Proc :=
  Finset.univ.filter fun p => s.live p = true ∧ (s.fproc p).fpSuspended = true ∧
    (s.fproc p).fpTask = XPIPE ∧ (s.fproc p).fpRevived = false

/-- Who hangs on a pipe is being revived or asleep. -/
theorem Waiting.card_sleepers (h : Waiting s) :
    number isHung s.fproc = (sleepers s).card + number Fproc.fpRevived s.fproc := by
  unfold number
  rw [← Finset.card_filter_add_card_filter_not (fun p => (s.fproc p).fpRevived = true),
    Finset.filter_filter, Finset.filter_filter, add_comm]
  congr 1
  · congr 1
    ext p
    unfold sleepers
    rw [Finset.mem_filter, Finset.mem_filter, isHung_iff, Bool.not_eq_true]
    constructor
    · rintro ⟨hu, ⟨hs, ht⟩, hr⟩
      exact ⟨hu, (h.onFile p hs).1, hs, ht, hr⟩
    · rintro ⟨hu, -, hs, ht, hr⟩
      exact ⟨hu, ⟨hs, ht⟩, hr⟩
  · congr 1
    ext p
    rw [Finset.mem_filter, Finset.mem_filter]
    exact and_congr_right fun _ => ⟨fun hc => hc.2, fun hc => ⟨h.revived p hc, hc⟩⟩

/-- What is asked for, when no process releases itself or another one twice. -/
def IssuedOnce (s : State) (r : Request) : Prop := AsIssued s r ∧ NotItself s r ∧ NoneTwice s r

/-- In every run in which no exiting process releases itself and nobody is released who is being
revived already, `reviving` is the number of processes that are being revived, `susp_count` the
number of live processes that hang on a pipe otherwise, no dead process is being revived, and
`get_work` finds somebody to revive. -/
theorem suspend_revive_counters (hr : Reach serve IssuedOnce Started s) :
    s.reviving = (Finset.univ.filter fun p => (s.fproc p).fpRevived = true).card ∧
    s.suspCount = (sleepers s).card ∧
    (∀ p, s.live p = false → (s.fproc p).fpRevived = false) ∧
    (s.reviving ≠ 0 → ∀ io, (getWork s io).isSome) := by
  have hinv : Tidy s ∧ Waiting s ∧ total s = 0 ∧ drift s = 0 := by
    refine hr.invariant (fun s => Tidy s ∧ Waiting s ∧ total s = 0 ∧ drift s = 0)
      (fun s h => ⟨Tidy.started h, Waiting.started h⟩) ?_
    rintro s r s' ⟨ht, hw, htot, hd⟩ ⟨hg, hself, htwice⟩ he
    obtain ⟨hw', htot', -, hd'⟩ := hw.served ht hd.ge hg hself he
    exact ⟨ht.serve hg he, hw', htot'.trans htot, (hd' htwice).trans hd⟩
  obtain ⟨-, hw, htot, hd⟩ := hinv
  have hcard := hw.card_sleepers
  have hrev : s.reviving = number Fproc.fpRevived s.fproc := by
    unfold drift at hd
    omega
  refine ⟨hrev, ?_, fun p hp => ?_, fun hne io => ?_⟩
  · unfold total at htot
    omega
  · by_contra hn
    have hs := (isHung_iff.mp (hw.revived p (Bool.eq_true_of_not_eq_false hn))).1
    rw [(hw.onFile p hs).1] at hp
    cases hp
  · have hpos : 0 < number Fproc.fpRevived s.fproc := by omega
    obtain ⟨p, hp⟩ := number_pos.mp hpos
    cases hfirst : toRevive s with
    | none =>
      have := List.find?_eq_none.mp hfirst p (List.mem_finRange p)
      exact absurd hp this
    | some rp =>
      obtain ⟨flag, f, -, -, -, -, -, hwork⟩ := hw.works hfirst io
      rw [hwork]
      rfl

section Example

instance (s : State) (who : Proc) : (c : Call) → Decidable (CallIssued s who c)
  | .pipe _ => inferInstanceAs (Decidable (who ≠ MM))
  | .open _ rip =>
    inferInstanceAs (Decidable (∀ ip, rip = some ip → (s.inode ip).iPipe = false))
  | .readWrite _ _ _ _ io => inferInstanceAs (Decidable (io.suspendOn ≠ some XPIPE))
  | .ioctl fd suspendOn => inferInstanceAs (Decidable (suspendOn ≠ some XPIPE ∧
      ∀ k f, getFilp s.files who fd = some (k, f) → suspendOn ≠ none →
        (s.inode (s.files.filp f).filpIno).iPipe = false))
  | .close _ => .isTrue trivial
  | .dup _ _ => .isTrue trivial

instance (s : State) : (r : Request) → Decidable (AsIssued s r)
  | .call who c => inferInstanceAs (Decidable (s.live who = true ∧
      (s.fproc who).fpSuspended = false ∧ CallIssued s who c))
  | .other rip iCount => inferInstanceAs (Decidable ((s.inode rip).iPipe = false ∧
      (users s.files rip).card ≤ iCount))
  | .fork parent child => inferInstanceAs (Decidable (s.live parent = true ∧
      (s.fproc parent).fpSuspended = false ∧ s.live child = false ∧ child ≠ MM))
  | .exit p _ => inferInstanceAs (Decidable (s.live p = true))
  | .revive p _ =>
    inferInstanceAs (Decidable ((s.fproc p).fpSuspended = true → (s.fproc p).fpTask ≠ XPIPE))
  | .unpause _ => .isTrue trivial
  | .work _ => .isTrue trivial
  | .store _ _ _ => .isTrue trivial

instance (s : State) (p : Proc) (nil : Option InodePtr) : Decidable (LeavesAlone s p nil) := by
  unfold LeavesAlone
  infer_instance

instance (s : State) : (r : Request) → Decidable (NotItself s r)
  | .exit p nil => inferInstanceAs (Decidable (LeavesAlone s p nil))
  | .call _ _ => .isTrue trivial
  | .other _ _ => .isTrue trivial
  | .fork _ _ => .isTrue trivial
  | .revive _ _ => .isTrue trivial
  | .unpause _ => .isTrue trivial
  | .work _ => .isTrue trivial
  | .store _ _ _ => .isTrue trivial

instance : Fintype RwFlag := ⟨{.READING, .WRITING}, fun x => by cases x <;> decide⟩

instance (s : State) (p : Proc) : Decidable (EachOnce s p) := by
  unfold EachOnce
  infer_instance

instance (s : State) : Decidable (FindsSleeper s) := by
  unfold FindsSleeper
  infer_instance

instance (s : State) : (r : Request) → Decidable (NoneTwice s r)
  | .exit p _ => inferInstanceAs (Decidable (EachOnce s p))
  | .work _ => inferInstanceAs (Decidable (FindsSleeper s))
  | .call _ _ => .isTrue trivial
  | .other _ _ => .isTrue trivial
  | .fork _ _ => .isTrue trivial
  | .revive _ _ => .isTrue trivial
  | .unpause _ => .isTrue trivial
  | .store _ _ _ => .isTrue trivial

instance (s : State) (r : Request) : Decidable (IssuedOnce s r) :=
  inferInstanceAs (Decidable (AsIssued s r ∧ NotItself s r ∧ NoneTwice s r))

/-- The file system before MM (0) and INIT (2) have opened anything. -/
def exampleStart : State where
  files := ⟨fun _ => ⟨⟨false, false⟩, 0, 0, 0⟩, fun _ _ => none⟩
  inode _ := ⟨false, 0, 0, fun _ => none, 0, 0⟩
  fproc _ := ⟨0, none, 0, 0, false, false, 0⟩
  suspCount := 0
  reviving := 0
  mem _ a := a.toUInt8
  live p := decide (p = 0 ∨ p = 2)
  writes _ := []
  reads _ := []

/-- The example starts as the file system does. -/
theorem exampleStart_started : Started exampleStart :=
  ⟨fun _ _ => rfl, fun _ => rfl, fun _ => rfl, fun _ => ⟨rfl, rfl⟩, rfl, rfl, fun _ => ⟨rfl, rfl⟩⟩

/-- No faults. -/
def quietIo : Io := ⟨fun _ => ⟨none, zeroBlock, fun _ => zeroBlock⟩, none, 0⟩

/-- INIT makes a pipe and forks; the child waits for data, gets them, and both exit. -/
def passData : List Request :=
  [.call 2 (.pipe (some (0, 100000))), .fork 2 3, .call 3 (.readWrite .READING 0 50 10 quietIo),
    .call 2 (.readWrite .WRITING 1 70 4 quietIo), .work quietIo]

/-- A run in which a reader is suspended, revived and answered with the byte. -/
theorem suspend_revive_counters_example : ∃ s, run serve IssuedOnce exampleStart passData = some s ∧
    s.mem 3 53 = 73 ∧
    s.reviving = (Finset.univ.filter fun p => (s.fproc p).fpRevived = true).card ∧
    s.suspCount = (sleepers s).card ∧
    (∀ p, s.live p = false → (s.fproc p).fpRevived = false) ∧
    (s.reviving ≠ 0 → ∀ io, (getWork s io).isSome) := by
  have hrun : (run serve IssuedOnce exampleStart passData).any (fun s => s.mem 3 53 = 73) = true := by
    decide +kernel
  obtain ⟨s, hs, hm⟩ := (Option.any_eq_true _ _).mp hrun
  exact ⟨s, hs, of_decide_eq_true hm,
    suspend_revive_counters (.of_run (.init exampleStart_started) hs)⟩

/-- A process with two descriptors for the writing end exits while its child waits for data: the
child is counted twice. -/
theorem suspend_revive_counters_twice : ¬∀ s, Reach serve AsIssued Started s →
    s.reviving = (Finset.univ.filter fun p => (s.fproc p).fpRevived = true).card ∧
    s.suspCount = (sleepers s).card ∧
    (∀ p, s.live p = false → (s.fproc p).fpRevived = false) ∧
    (s.reviving ≠ 0 → ∀ io, (getWork s io).isSome) := by
  intro hall
  have hrun : (run serve AsIssued exampleStart [.call 2 (.pipe (some (0, 100000))),
      .call 2 (.dup 1 0), .fork 2 3, .call 3 (.readWrite .READING 0 50 10 quietIo),
      .exit 2 none]).any (fun s => s.reviving = 2 ∧
        (Finset.univ.filter fun p => (s.fproc p).fpRevived = true).card = 1) = true := by
    decide +kernel
  obtain ⟨s, hs, hm⟩ := (Option.any_eq_true _ _).mp hrun
  obtain ⟨h₂, h₁⟩ := of_decide_eq_true hm
  have h := (hall s (.of_run (.init exampleStart_started) hs)).1
  rw [h₂, h₁] at h
  cases h

end Example

end Runs

end Minix.FS.Pipes
