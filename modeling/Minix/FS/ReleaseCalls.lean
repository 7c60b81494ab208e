import Minix.FS.Revivals

/-!
# The calls of `release`

`release` follows the saved descriptor of everybody who is suspended in the call it looks for,
also of those who hang elsewhere. Nobody else loses the descriptor of its call, but an exiting
process closes its own before it leaves the call.
-/

namespace Minix.FS.Pipes

open Function Relation Transition

/-- A call of `release`, with the state in which it is made. -/
structure ReleaseCall where
  state : State
  ip : InodePtr
  callNr : RwFlag

/-- Every slot that is suspended in that call has its saved descriptor open. -/
def ReleaseCall.Follows (c : ReleaseCall) : Prop :=
  ∀ rp, (c.state.fproc rp).fpSuspended = true → (c.state.fproc rp).fpCall = some c.callNr →
    c.state.files.fpFilp rp (c.state.fproc rp).fpFd ≠ none

section Releases

/-- The calls of `release` in `pipe_check`. -/
def checkReleases (s : State) (who : Proc) (fd : Fd) (rip : InodePtr) (flag : RwFlag)
    (buffer : Nat) (bytes : Int) (position : Nat) : List ReleaseCall :=
  match pipeVerdict s rip flag bytes position with
  | .empty true =>
    let s := suspend s who XPIPE fd (some flag) buffer bytes
    if s.suspCount > 0 then [⟨s, rip, .WRITING⟩] else []
  | .go true => [⟨s, rip, .READING⟩]
  | _ => []

/-- The calls of `release` in READ and WRITE. -/
def rwReleases (s : State) (who : Proc) (flag : RwFlag) (fd : Int) (buffer : Nat) (nbytes : Int) :
    List ReleaseCall :=
  if nbytes = 0 ∨ who ≠ MM ∧ nbytes < 0 then []
  else match getFilp s.files who fd with
    | none => []
    | some (k, f) =>
      let rip := (s.files.filp f).filpIno
      let position := (s.files.filp f).filpPos
      if bitOf flag (s.files.filp f).filpMode = false ∨ (s.inode rip).iPipe = false ∨
        flag = .WRITING ∧ position > (s.inode rip).sMaxSize - nbytes then []
      else checkReleases (if flag = .WRITING ∧ position > (s.inode rip).iSize then
          setInode s rip (clearZone (s.inode rip) (s.inode rip).iSize false) else s)
        who k rip flag buffer nbytes position

/-- The calls of `release` in `do_close`. -/
def closeReleases (s : State) (fp : Proc) (fd : Int) : List ReleaseCall :=
  match getFilp s.files fp fd with
  | none => []
  | some (_, f) =>
    if (s.inode (s.files.filp f).filpIno).iPipe then
      [⟨s, (s.files.filp f).filpIno, if (s.files.filp f).filpMode.r then .WRITING else .READING⟩]
    else []

/-- The calls of `release` in `do_dup`. -/
def dupReleases (s : State) (who : Proc) (fd fd2 : Int) : List ReleaseCall :=
  let rfd := if fd / 64 % 2 = 1 then fd - 64 else fd
  if (getFilp s.files who rfd).isNone ∨ fd = rfd ∨ (fdOf fd2).isNone ∨ rfd = fd2 then []
  else closeReleases s who fd2

/-- The calls of `release` while descriptors are closed one after another. -/
def closeAllReleases (nil : Option InodePtr) (p : Proc) : List Fd → State → List ReleaseCall
  | [], _ => []
  | fd :: l, s => closeReleases s p fd.val ++ closeAllReleases nil p l (doClose s nil p fd.val)

/-- The calls of `release` that a request leads to. -/
def releases (s : State) : Request → List ReleaseCall
  | .call who (.readWrite flag fd buffer nbytes _) => rwReleases s who flag fd buffer nbytes
  | .call who (.close fd) => closeReleases s who fd
  | .call who (.dup fd fd2) => dupReleases s who fd fd2
  | .exit p nil => closeAllReleases nil p (List.finRange NR_FDS) s
  | .work _ =>
    match toRevive s with
    | none => []
    | some rp =>
      match (s.fproc rp).fpCall with
      | none => []
      | some flag => rwReleases (unhang s rp) rp flag (s.fproc rp).fpFd.val (s.fproc rp).fpBuffer
          (s.fproc rp).fpNbytes
  | _ => []

end Releases

/-- Who is suspended is alive and has the descriptor of its call, which is not for a pipe if a task
has suspended it. -/
def Anchored (s : State) (p : Proc) : Prop :=
  (s.fproc p).fpSuspended = true → s.live p = true ∧ ∃ f,
    s.files.fpFilp p (s.fproc p).fpFd = some f ∧
    ((s.fproc p).fpTask ≠ XPIPE → (s.inode (s.files.filp f).filpIno).iPipe = false)

/-- Who is suspended has been in the same call before. -/
def Keeps (s s' : State) (p : Proc) : Prop :=
  (s'.fproc p).fpSuspended = true → ∃ b, s'.fproc p = { s.fproc p with fpRevived := b }

section Keeps

variable {s s' s₁ : State} {who p q : Proc}

theorem Keeps.of_eq (h : s'.fproc p = s.fproc p) : Keeps s s' p := fun _ => ⟨_, h⟩

theorem Keeps.trans (h : Keeps s s₁ p) (h' : Keeps s₁ s' p) : Keeps s s' p := by
  intro hs
  obtain ⟨b, hb⟩ := h' hs
  rw [hb] at hs ⊢
  obtain ⟨b', hb'⟩ := h hs
  rw [hb']
  exact ⟨b, rfl⟩

theorem Keeps.setFproc {d : Fproc} (hf : s'.fproc = update s.fproc p d)
    (hd : d.fpSuspended = true → ∃ b, d = { s.fproc p with fpRevived := b }) (q : Proc) :
    Keeps s s' q := by
  unfold Keeps
  rw [hf]
  by_cases he : q = p
  · subst he
    rw [update_self]
    exact hd
  · rw [update_of_ne he]
    exact fun _ => ⟨_, rfl⟩

theorem Keeps.revive (s : State) (p : Proc) (bytes : Int) (q : Proc) :
    Keeps s (revive s p bytes) q := by
  unfold Pipes.revive
  dsimp only
  split
  · exact .of_eq rfl
  · split
    · exact .setFproc rfl (fun _ => ⟨_, rfl⟩) q
    · exact .setFproc rfl (fun h => Bool.noConfusion h) q

theorem Keeps.releaseLoop (nil : Option InodePtr) (ip : InodePtr) (call : RwFlag) (l : List Proc)
    (count : Nat) (s : State) (q : Proc) : Keeps s (releaseLoop nil ip call l count s) q := by
  induction l generalizing count s with
  | nil => exact .of_eq rfl
  | cons rp l ih =>
    have hone : Keeps s (releaseOne s rp) q := Keeps.revive s rp 0 q
    unfold Pipes.releaseLoop
    split
    · split
      · exact hone
      · exact hone.trans (ih (count - 1) (releaseOne s rp))
    · exact ih count s

theorem Keeps.release (s : State) (nil : Option InodePtr) (ip : InodePtr) (call : RwFlag)
    (count : Nat) (q : Proc) : Keeps s (release s nil ip call count) q :=
  .releaseLoop nil ip call _ count s q

theorem Keeps.doClose (s : State) (nil : Option InodePtr) (fp : Proc) (fd : Int) (q : Proc) :
    Keeps s (doClose s nil fp fd) q := by
  unfold Pipes.doClose
  split
  · exact .of_eq rfl
  · rw [closeFilp_eq]
    refine Keeps.trans ?_ (.of_eq (congrFun (Calm.closed _ fp _ _).fproc q))
    split
    · exact .release s nil _ _ NR_PROCS q
    · exact .of_eq rfl

theorem Keeps.doUnpause (s : State) (p q : Proc) : Keeps s (doUnpause s p) q := by
  unfold Pipes.doUnpause
  split
  · exact .of_eq rfl
  · split
    · exact .revive s p EINTR q
    · exact .of_eq rfl

theorem Anchored.keep (h : Anchored s p) (hk : Keeps s s' p)
    (hs : (s.fproc p).fpSuspended = true → s.live p = true → Stays s s' p) : Anchored s' p := by
  intro hsus
  obtain ⟨b, hb⟩ := hk hsus
  rw [hb] at hsus ⊢
  obtain ⟨hlive, f, hf, htask⟩ := h hsus
  obtain ⟨hlive', hfile⟩ := hs hsus hlive
  obtain ⟨hf', -, hi, hpipe, -⟩ := hfile f hf
  refine ⟨hlive', f, hf', fun hne => ?_⟩
  rw [hi, hpipe]
  exact htask hne

end Keeps

section Requests

variable {s s' : State} {who p q : Proc}

/-- Changes to the descriptors of somebody else, or of somebody who is not waiting. -/
theorem Anchored.framed (ht : Tidy s) (h : Anchored s q)
    (hs : (s.fproc who).fpSuspended = false) (hf : Frame who s s') (hc : s'.fproc = s.fproc) :
    Anchored s' q := by
  refine h.keep (.of_eq (congrFun hc q)) fun hsus hlive => hf.stays ht ?_ hlive
  rintro rfl
  rw [hs] at hsus
  cases hsus

theorem Anchored.same (h : Anchored s q) (hs : SameFiles s s') (hk : Keeps s s' q) :
    Anchored s' q :=
  h.keep hk fun _ hlive => hs.stays hlive

theorem Anchored.of_idle (hs : (s.fproc q).fpSuspended = false) : Anchored s q := by
  intro hsus
  rw [hs] at hsus
  cases hsus

/-- The caller is suspended in a call with a descriptor that it has. -/
theorem Anchored.suspended {task : Int} {k : Fd} {f : FilpPtr} (h : Anchored s q)
    (hlive : s.live who = true) (hk : s.files.fpFilp who k = some f)
    (hp : task ≠ XPIPE → (s.inode (s.files.filp f).filpIno).iPipe = false)
    (call : Option RwFlag) (buffer : Nat) (nbytes : Int) :
    Anchored (suspend s who task k call buffer nbytes) q := by
  have hsame := SameFiles.suspend s who task k call buffer nbytes
  have hf := (suspend_fproc s who task k call buffer nbytes).1
  by_cases he : q = who
  · subst he
    intro _
    rw [hf, update_self, hsame.files, hsame.inode, hsame.live]
    refine ⟨hlive, f, hk, fun hne => hp fun hx => hne ?_⟩
    rw [hx]
    rfl
  · refine h.same hsame (.of_eq ?_)
    rw [hf, update_of_ne he]

theorem Anchored.transferred {f : FilpPtr} {rip : InodePtr} {flag : RwFlag}
    {fSize start buffer n : Nat} {io : Io} (h : Anchored s q) :
    Anchored (transfer s who f rip flag fSize start buffer n io) q := by
  have hc := Calm.transfer s who f rip flag fSize start buffer n io
  refine h.keep (.of_eq (congrFun hc.fproc q)) fun _ hlive => ⟨?_, fun g hg => ?_⟩
  · cases flag with
    | READING => exact hlive
    | WRITING => exact hlive
  · obtain ⟨-, hm, hi⟩ := transfer_filp s who f rip flag fSize start buffer n io g
    obtain ⟨hp, hx, -⟩ := transfer_inode s who f rip flag fSize start buffer n io
      (s.files.filp g).filpIno
    rw [transfer_fd]
    exact ⟨hg, hm, hi, hp, fun _ => hx⟩

/-- READ and WRITE, by somebody who is not waiting. -/
theorem Anchored.readWrote {flag : RwFlag} {fd : Int} {buffer : Nat} {nbytes : Int} {io : Io}
    (ht : Tidy s) (h : Anchored s q) (hs : (s.fproc who).fpSuspended = false) :
    Anchored (readWrite s who flag fd buffer nbytes io) q := by
  rcases readWrite_cases ht who flag fd buffer nbytes io with he | ⟨k, f, hf, hb, -, hcase⟩
  · rw [he]
    exact h
  · have hk := getFilp_some hf
    have hlive : s.live who = true := by
      by_contra hn
      rw [ht.idle who (Bool.eq_false_iff.mpr hn)] at hk
      cases hk
    rcases hcase with ⟨hp, -, -, he⟩ | ⟨hp, he⟩
    · rw [he]
      obtain ⟨-, hclear⟩ := ht.no_hole hk rfl hp hb
      have hsus := h.suspended hlive hk (fun hne => absurd rfl hne) (some flag) buffer nbytes
      by_cases hbig : flag = .WRITING ∧ (s.files.filp f).filpPos >
          (s.inode (s.files.filp f).filpIno).sMaxSize - nbytes
      · unfold pipeIo
        rw [if_pos hbig]
        exact h
      · rw [pipeIo_eq rfl hbig hclear]
        split
        · split
          · exact hsus.same (.release _ none _ .WRITING 1) (.release _ none _ .WRITING 1 q)
          · exact hsus
        · exact hsus
        · refine Anchored.transferred ?_
          split
          · exact h.same (.release s none _ .READING 1) (.release s none _ .READING 1 q)
          · exact h
        · exact h
    · have hgrow : Grows who s { s with files := setPos s.files f io.newPos } :=
        otherIo_grows hp k flag buffer nbytes ⟨io.chunk, none, io.newPos⟩
      have hframe := hgrow.frame ht
      have hpos := h.framed ht hs hframe rfl
      rw [he]
      cases htask : io.suspendOn with
      | none =>
        unfold otherIo
        rw [htask]
        exact hpos
      | some task =>
        rw [otherIo_suspends htask]
        refine hpos.suspended hlive hk (fun _ => ?_) (some flag) buffer nbytes
        rw [(hframe.inUse f (ht.inUse hk)).2.2]
        exact hp

/-- Closing a descriptor of somebody else, or of somebody who is not waiting. -/
theorem Anchored.closedEnd (ht : Tidy s) (h : Anchored s q)
    (hs : q = who → (s.fproc q).fpSuspended = false) (nil : Option InodePtr) (n : Int) :
    Anchored (doClose s nil who n) q := by
  have hstep : ∀ s₁ k f, SameFiles s s₁ → Keeps s s₁ q → s.files.fpFilp who k = some f →
      Anchored (closed s₁ who k f) q := by
    intro s₁ k f hsame hkeeps hk
    have h₁ := h.same hsame hkeeps
    refine h₁.keep (.of_eq (congrFun (Calm.closed s₁ who k f).fproc q)) fun hsus hlive => ?_
    refine closed_stays (ht.congr hsame) (hsame.files ▸ hk) (fun he => ?_) hlive
    obtain ⟨b, hb⟩ := hkeeps hsus
    rw [hb] at hsus
    rw [hs he] at hsus
    cases hsus
  unfold doClose
  split
  · exact h
  · rename_i k f hf
    rw [closeFilp_eq]
    refine hstep _ k f ?_ ?_ (getFilp_some hf)
    · split
      · exact .release s nil _ _ NR_PROCS
      · exact .refl s
    · split
      · exact .release s nil _ _ NR_PROCS q
      · exact .of_eq rfl

theorem Anchored.closedAll (ht : Tidy s) (h : Anchored s q) (hne : q ≠ p) (nil : Option InodePtr)
    (l : List Fd) : Anchored (closeAll nil p l s) q := by
  induction l generalizing s with
  | nil => exact h
  | cons k l ih =>
    have hchain : ReflTransGen (Change fun _ => True) s (doClose s nil p k.val) :=
      doClose_changes s nil p k.val
    exact ih (ht.changes hchain) (h.closedEnd ht (fun he => absurd he hne) nil k.val)

/-- A call, while its caller is not waiting. -/
theorem Anchored.performed {c : Call} (ht : Tidy s) (h : Anchored s q)
    (hg : AsIssued s (.call who c)) : Anchored (perform s who c) q := by
  obtain ⟨hlive, hs, hc⟩ := hg
  have hidle : q = who → (s.fproc q).fpSuspended = false := fun he => he ▸ hs
  cases c with
  | pipe dev =>
    exact h.framed ht hs (frame_of_grows ht (doPipe_grows hlive hc dev)) (Calm.doPipe s who dev).fproc
  | «open» bits rip =>
    exact h.framed ht hs (frame_of_grows ht (doOpen_grows hlive bits hc))
      (Calm.doOpen s who bits rip).fproc
  | close fd => exact h.closedEnd ht hidle none fd
  | readWrite flag fd buffer nbytes io => exact h.readWrote ht hs
  | dup fd fd2 =>
    change Anchored (doDup s who fd fd2) q
    rcases doDup_cases s who fd fd2 with he | ⟨s₁, j, k, f, hj, hk, he, hs₁⟩
    · rw [he]
      exact h
    · rw [he]
      have hkept : Tidy s₁ ∧ Anchored s₁ q ∧ (s₁.fproc who).fpSuspended = false := by
        rcases hs₁ with ⟨g, hg, rfl⟩ | ⟨n, rfl⟩
        · have hfill : Grows who s { s with files := fillIn s.files g ⟨false, false⟩ } :=
            .fillIn hg ⟨false, false⟩
          have hchange : Change (fun _ => True) s
            { s with files := fillIn s.files g ⟨false, false⟩ } := .grows hfill
          exact ⟨ht.change hchange, h.framed ht hs (hfill.frame ht) rfl, hs⟩
        · have hchain : ReflTransGen (Change fun _ => True) s (doClose s none who n) :=
            doClose_changes s none who n
          refine ⟨ht.changes hchain, h.closedEnd ht hidle none n, ?_⟩
          by_contra hsus
          have hsus := Bool.eq_true_of_not_eq_false hsus
          obtain ⟨b, hb⟩ := Keeps.doClose s none who n who hsus
          rw [hb] at hsus
          rw [hs] at hsus
          cases hsus
      obtain ⟨ht₁, h₁, hs₁⟩ := hkept
      exact h₁.framed ht₁ hs₁ Frame.shared rfl
  | ioctl fd suspendOn =>
    change Anchored (doIoctl s who fd suspendOn) q
    unfold doIoctl
    split
    · rename_i k f task hf
      exact h.suspended hlive (getFilp_some hf)
        (fun _ => hc.2 k f hf (Option.some_ne_none _)) none 0 0
    · exact h

/-- Whoever is suspended stays in its call as long as it is suspended. -/
theorem Anchored.served {r : Request} (ht : Tidy s) (h : ∀ q, Anchored s q)
    (hg : AsIssued s r) (he : serve s r = some s') (q : Proc) : Anchored s' q := by
  unfold serve at he
  cases r with
  | store p a b =>
    cases he
    exact (h q).same ⟨rfl, rfl, rfl, rfl, rfl⟩ (.of_eq rfl)
  | work io =>
    dsimp only at he
    split at he
    · cases he
    · unfold getWork at he
      split at he
      · cases he
      · rename_i rp hrp
        obtain ⟨flag, -, rfl⟩ := Option.map_eq_some_iff.mp he
        have hsame := unhang_same s rp
        have hq : Anchored (unhang s rp) q :=
          (h q).same hsame (.setFproc rfl (fun hc => Bool.noConfusion hc) q)
        have hidle : ((unhang s rp).fproc rp).fpSuspended = false := by
          unfold unhang Pipes.setFproc
          dsimp only
          rw [update_self]
        exact hq.readWrote (ht.congr hsame) hidle
  | call who c =>
    obtain ⟨-, he⟩ := Option.ite_none_right_eq_some.mp he
    cases he
    exact (h q).performed ht hg
  | other rip n =>
    obtain ⟨-, he⟩ := Option.ite_none_right_eq_some.mp he
    cases he
    refine (h q).keep (.of_eq rfl) fun _ hlive => ⟨hlive, fun f hf => ⟨hf, rfl, rfl, ?_⟩⟩
    change (update s.inode rip _ _).iPipe = _ ∧ (_ → (update s.inode rip _ _).sMaxSize = _)
    by_cases hi : (s.files.filp f).filpIno = rip
    · rw [hi, update_self]
      exact ⟨rfl, fun _ => rfl⟩
    · rw [update_of_ne hi]
      exact ⟨rfl, fun _ => rfl⟩
  | fork parent child =>
    obtain ⟨-, he⟩ := Option.ite_none_right_eq_some.mp he
    cases he
    obtain ⟨hlive, hs, hc, -⟩ := hg
    by_cases hq : q = child
    · subst hq
      refine .of_idle ?_
      change (update s.fproc q (s.fproc parent) q).fpSuspended = false
      rw [update_self]
      exact hs
    · refine (h q).keep (.of_eq (update_of_ne hq ..)) fun _ hlive => ?_
      have hframe : Frame child s (doFork s parent child) :=
        (Frame.forked s parent child).congr ⟨rfl, rfl, rfl, rfl, rfl⟩
      exact hframe.stays ht hq hlive
  | exit p nil =>
    obtain ⟨-, he⟩ := Option.ite_none_right_eq_some.mp he
    cases he
    have hleft : ∀ t : State, Keeps t (leaveSuspended t p) q := fun t =>
      .setFproc (leaveSuspended_fproc t p) (fun hc => by rw [left_susp] at hc; cases hc) q
    by_cases hq : q = p
    · subst hq
      refine .of_idle ?_
      change ((leaveSuspended _ q).fproc q).fpSuspended = false
      rw [leaveSuspended_fproc, update_self, left_susp]
    · have hclosed := (h q).closedAll ht hq nil (List.finRange NR_FDS)
      have hleave := hclosed.same (.leaveSuspended _ p) (hleft _)
      intro hsus
      obtain ⟨hlive, hfile⟩ := hleave hsus
      refine ⟨?_, hfile⟩
      change (update _ p false : Proc → Bool) q = true
      rw [update_of_ne hq]
      exact hlive
  | unpause p =>
    obtain ⟨-, he⟩ := Option.ite_none_right_eq_some.mp he
    cases he
    exact (h q).same (.doUnpause s p) (.doUnpause s p q)
  | revive p status =>
    obtain ⟨-, he⟩ := Option.ite_none_right_eq_some.mp he
    cases he
    exact (h q).same (.revive s p status) (.revive s p status q)

end Requests

section Exit

variable {s s' : State} {p q : Proc}

theorem Anchored.open (h : Anchored s q) (hs : (s.fproc q).fpSuspended = true) :
    s.files.fpFilp q (s.fproc q).fpFd ≠ none := by
  obtain ⟨-, f, hf, -⟩ := h hs
  rw [hf]
  exact Option.some_ne_none f

/-- The calls in READ and WRITE find only open descriptors, the one of the caller among them. -/
theorem follows_readWrite (h : ∀ q, Anchored s q) (who : Proc) (flag : RwFlag) (fd : Int)
    (buffer : Nat) (nbytes : Int) :
    ∀ c ∈ rwReleases s who flag fd buffer nbytes, c.Follows := by
  intro c hc
  unfold rwReleases at hc
  split at hc
  · cases hc
  · split at hc
    · cases hc
    · rename_i k f hf
      dsimp only at hc
      split at hc
      · cases hc
      · have hchecked : ∀ t : State, t.files = s.files → t.fproc = s.fproc → ∀ position : Nat,
            c ∈ checkReleases t who k (s.files.filp f).filpIno flag buffer nbytes position →
            c.Follows := by
          intro t hfiles hfproc position hc
          unfold checkReleases at hc
          split at hc
          · dsimp only at hc
            split at hc
            · obtain rfl := List.mem_singleton.mp hc
              intro rp hs _
              change (suspend t who XPIPE k (some flag) buffer nbytes).files.fpFilp rp _ ≠ none
              rw [(SameFiles.suspend t who XPIPE k (some flag) buffer nbytes).files, hfiles]
              dsimp only at hs ⊢
              rw [(suspend_fproc t who XPIPE k (some flag) buffer nbytes).1, hfproc] at hs ⊢
              by_cases he : rp = who
              · subst he
                rw [update_self, getFilp_some hf]
                exact Option.some_ne_none f
              · rw [update_of_ne he] at hs ⊢
                exact (h rp).open hs
            · cases hc
          · obtain rfl := List.mem_singleton.mp hc
            intro rp hs _
            dsimp only at hs ⊢
            rw [hfproc] at hs ⊢
            rw [hfiles]
            exact (h rp).open hs
          · cases hc
        refine hchecked _ ?_ ?_ _ hc
        · split
          · rfl
          · rfl
        · split
          · rfl
          · rfl

/-- A descriptor of a process is closed: everybody else is found with an open one. -/
theorem follows_close (h : ∀ q, q ≠ p → Anchored s q) (fd : Int) :
    (∀ c ∈ closeReleases s p fd, c.Follows) ↔ ∀ k f, getFilp s.files p fd = some (k, f) →
      (s.inode (s.files.filp f).filpIno).iPipe = true → (s.fproc p).fpSuspended = true →
      (s.fproc p).fpCall = some (releasedBy (s.files.filp f).filpMode) →
      s.files.fpFilp p (s.fproc p).fpFd ≠ none := by
  unfold closeReleases
  cases hf : getFilp s.files p fd with
  | none => exact iff_of_true (fun c hc => by cases hc) fun k f he => by cases he
  | some kf =>
    obtain ⟨k, f⟩ := kf
    dsimp only
    cases hp : (s.inode (s.files.filp f).filpIno).iPipe with
    | false =>
      refine iff_of_true (fun c hc => by cases hc) fun k' f' he hp' => ?_
      obtain ⟨rfl, rfl⟩ := Prod.mk.inj (Option.some.inj he)
      rw [hp] at hp'
      cases hp'
    | true =>
      rw [if_pos rfl, List.forall_mem_singleton]
      constructor
      · intro hfollows k' f' he _ hs hcall
        obtain ⟨rfl, rfl⟩ := Prod.mk.inj (Option.some.inj he)
        exact hfollows p hs hcall
      · intro hp' rp hs hcall
        by_cases he : rp = p
        · subst he
          exact hp' k f rfl hp hs hcall
        · exact (h rp he).open hs

/-- A process that hangs on a pipe is only marked by `release`. -/
theorem releaseLoop_marks {nil : Option InodePtr} {ip : InodePtr} {call : RwFlag}
    (h : hangsOn s nil ip call p = true → (s.fproc p).fpTask = XPIPE) (l : List Proc) (count : Nat) :
    ∃ b, (releaseLoop nil ip call l count s).fproc p = { s.fproc p with fpRevived := b } := by
  induction l generalizing count s with
  | nil => exact ⟨_, rfl⟩
  | cons rp l ih =>
    unfold releaseLoop
    split
    · rename_i hrp
      have hone : ∃ b, (releaseOne s rp).fproc p = { s.fproc p with fpRevived := b } := by
        by_cases he : rp = p
        · subst he
          have hs : (s.fproc rp).fpSuspended = true := by
            unfold hangsOn at hrp
            rw [Bool.and_eq_true, Bool.and_eq_true] at hrp
            exact hrp.1.1
          have hf := (releaseOne_hung (isHung_iff.mpr ⟨hs, h hrp⟩)).1
          rw [hf, update_self]
          exact ⟨_, rfl⟩
        · exact ⟨_, releaseOne_self he⟩
      have hkept : hangsOn (releaseOne s rp) nil ip call p = true →
          ((releaseOne s rp).fproc p).fpTask = XPIPE := by
        obtain ⟨b, hb⟩ := hone
        intro hh
        rw [hb]
        refine h ?_
        unfold hangsOn at hh ⊢
        rw [hb, (SameFiles.releaseOne s rp).files] at hh
        exact hh
      split
      · exact hone
      · obtain ⟨b, hb⟩ := hone
        obtain ⟨b', hb'⟩ := ih hkept (count - 1)
        exact ⟨b', by rw [hb', hb]⟩
    · exact ih h count

/-- What a process that a task has suspended hangs on is not a pipe, as long as its descriptor is
there. -/
def OnTask (s : State) (p : Proc) : Prop :=
  (s.fproc p).fpSuspended = true → ∀ g, s.files.fpFilp p (s.fproc p).fpFd = some g → (s.fproc p).fpTask ≠ XPIPE →
    (s.inode (s.files.filp g).filpIno).iPipe = false

/-- Closing a descriptor marks its process at most, if it is found with an open descriptor. -/
theorem doClose_marks {nil : Option InodePtr} {fd : Int} (hown : OnTask s p)
    (hopen : ∀ k f, getFilp s.files p fd = some (k, f) →
      (s.inode (s.files.filp f).filpIno).iPipe = true → (s.fproc p).fpSuspended = true →
      (s.fproc p).fpCall = some (releasedBy (s.files.filp f).filpMode) →
      s.files.fpFilp p (s.fproc p).fpFd ≠ none) :
    ∃ b, (doClose s nil p fd).fproc p = { s.fproc p with fpRevived := b } := by
  unfold doClose
  cases hf : getFilp s.files p fd with
  | none => exact ⟨_, rfl⟩
  | some kf =>
    obtain ⟨k, f⟩ := kf
    dsimp only
    rw [closeFilp_eq, (Calm.closed _ p k f).fproc]
    split
    · rename_i hip
      refine releaseLoop_marks (fun hh => ?_) _ NR_PROCS
      unfold hangsOn inoOf at hh
      rw [Bool.and_eq_true, Bool.and_eq_true, beq_iff_eq, beq_iff_eq] at hh
      obtain ⟨⟨hs, hcall⟩, hino⟩ := hh
      obtain ⟨g, hg⟩ := Option.ne_none_iff_exists'.mp (hopen k f hf hip hs hcall)
      rw [hg] at hino
      have hino : (s.files.filp g).filpIno = (s.files.filp f).filpIno := Option.some.inj hino
      by_contra hne
      rw [← hino, hown hs g hg hne] at hip
      cases hip
    · exact ⟨_, rfl⟩

/-- A pipe that a descriptor leads to is not freed when another one is closed. -/
theorem doClose_pipe {who : Proc} {nil : Option InodePtr} {n : Int} {i : Fd} {g : FilpPtr}
    (ht : Tidy s) (hg : (doClose s nil who n).files.fpFilp q i = some g) :
    ((doClose s nil who n).inode (s.files.filp g).filpIno).iPipe =
      (s.inode (s.files.filp g).filpIno).iPipe := by
  have hstep : ∀ s₁ k f, SameFiles s s₁ → s.files.fpFilp who k = some f →
      (closed s₁ who k f).files.fpFilp q i = some g →
      ((closed s₁ who k f).inode (s.files.filp g).filpIno).iPipe =
        (s.inode (s.files.filp g).filpIno).iPipe := by
    intro s₁ k f hsame hk hg
    have hkept := (closed_pipe (ht.congr hsame) (hsame.files ▸ hk) hg).1
    rwa [hsame.files, hsame.inode] at hkept
  unfold doClose at hg ⊢
  split
  · rfl
  · rename_i k f hf
    rw [hf] at hg
    dsimp only at hg
    rw [closeFilp_eq] at hg ⊢
    refine hstep _ k f ?_ (getFilp_some hf) hg
    split
    · exact .release s nil _ _ NR_PROCS
    · exact .refl s

/-- The descriptors of a process for the opposite end of a pipe are not above its own, if it is
suspended. -/
def ClosesInOrder (s : State) (p : Proc) : Prop :=
  (s.fproc p).fpSuspended = true → ∀ k f, s.files.fpFilp p k = some f →
    (s.inode (s.files.filp f).filpIno).iPipe = true →
    (s.fproc p).fpCall = some (releasedBy (s.files.filp f).filpMode) → k ≤ (s.fproc p).fpFd

/-- While the descriptors of a list are closed, the process is found with its own open as long as
none for the opposite end of a pipe follows. -/
theorem follows_closeAll (ht : Tidy s) (h : ∀ q, q ≠ p → Anchored s q) (hown : OnTask s p)
    (nil : Option InodePtr) {l : List Fd} (hl : l.Pairwise (· < ·))
    (hmem : ∀ k, s.files.fpFilp p k ≠ none → k ∈ l) :
    (∀ c ∈ closeAllReleases nil p l s, c.Follows) ↔
      ((s.fproc p).fpSuspended = true → ∀ k f, s.files.fpFilp p k = some f →
        (s.inode (s.files.filp f).filpIno).iPipe = true →
        (s.fproc p).fpCall = some (releasedBy (s.files.filp f).filpMode) →
        s.files.fpFilp p (s.fproc p).fpFd ≠ none ∧ k ≤ (s.fproc p).fpFd) := by
  induction l generalizing s with
  | nil =>
    refine iff_of_true (fun c hc => by cases hc) fun _ k f hk _ _ => ?_
    have := hmem k (by rw [hk]; exact Option.some_ne_none f)
    cases this
  | cons k l ih =>
    obtain ⟨hhead, hl⟩ := List.pairwise_cons.mp hl
    unfold closeAllReleases
    rw [List.forall_mem_append, follows_close h]
    have hget : ∀ f, s.files.fpFilp p k = some f → getFilp s.files p k.val = some (k, f) :=
      fun f => getFilp_of
    by_cases hopen : ∀ k' f, getFilp s.files p k.val = some (k', f) →
        (s.inode (s.files.filp f).filpIno).iPipe = true → (s.fproc p).fpSuspended = true →
        (s.fproc p).fpCall = some (releasedBy (s.files.filp f).filpMode) →
        s.files.fpFilp p (s.fproc p).fpFd ≠ none
    · rw [and_iff_right hopen]
      -- the process is as suspended as before, and only this descriptor is gone
      obtain ⟨b, hb⟩ : ∃ b, (doClose s nil p k.val).fproc p = { s.fproc p with fpRevived := b } :=
        doClose_marks hown hopen
      have hfd := doClose_fd s nil p k
      obtain ⟨hfilp, hinode⟩ := doClose_filp s nil p k.val
      have hchain : ReflTransGen (Change fun _ => True) s (doClose s nil p k.val) :=
        doClose_changes s nil p k.val
      have hpipe : ∀ i g, (doClose s nil p k.val).files.fpFilp p i = some g →
          ((doClose s nil p k.val).inode (s.files.filp g).filpIno).iPipe =
            (s.inode (s.files.filp g).filpIno).iPipe := fun i g => doClose_pipe ht
      have hfds : ∀ i, i ≠ k → (doClose s nil p k.val).files.fpFilp p i = s.files.fpFilp p i := by
        intro i hi
        rw [hfd, update_self, update_of_ne hi]
      have hgone : (doClose s nil p k.val).files.fpFilp p k = none := by
        rw [hfd, update_self, update_self]
      rw [ih (ht.changes hchain) (fun q hq => (h q hq).closedEnd ht (fun he => absurd he hq) nil k.val)
        ?_ hl ?_]
      · rw [hb]
        dsimp only
        refine forall_congr' fun hs => ⟨fun hall i g hi hip hcall => ?_,
          fun hall i g hi hip hcall => ?_⟩
        · by_cases he : i = k
          · subst he
            have hown' := hopen i g (hget g hi) hip hs hcall
            refine ⟨hown', ?_⟩
            rcases List.mem_cons.mp (hmem _ hown') with heq | hin
            · exact heq.ge
            · exact (hhead _ hin).le
          · have hi' := (hfds i he).trans hi
            obtain ⟨hown', hle⟩ := hall i g hi' (by rw [(hfilp g).2.1, hpipe i g hi']; exact hip)
              (by rw [(hfilp g).1]; exact hcall)
            refine ⟨fun hn => hown' ?_, hle⟩
            by_cases hek : (s.fproc p).fpFd = k
            · rw [hek]
              exact hgone
            · rw [hfds _ hek]
              exact hn
        · have hik : i ≠ k := by
            rintro rfl
            rw [hgone] at hi
            cases hi
          have hi₀ := (hfds i hik).symm.trans hi
          rw [(hfilp g).2.1, hpipe i g hi] at hip
          rw [(hfilp g).1] at hcall
          obtain ⟨hown', hle⟩ := hall i g hi₀ hip hcall
          have hin : i ∈ l := by
            rcases List.mem_cons.mp (hmem i (by rw [hi₀]; exact Option.some_ne_none g)) with heq | hin
            · exact absurd heq hik
            · exact hin
          have hne : (s.fproc p).fpFd ≠ k := ne_of_gt ((hhead i hin).trans_le hle)
          rw [hfds _ hne]
          exact ⟨hown', hle⟩
      · intro hs g hg htask
        rw [hb] at hs hg htask
        rw [(hfilp g).2.1, hpipe _ g hg]
        have hne : (s.fproc p).fpFd ≠ k := by
          intro he
          rw [he, hgone] at hg
          cases hg
        exact hown hs g ((hfds _ hne).symm.trans hg) htask
      · intro i hi
        have hne : i ≠ k := by
          rintro rfl
          exact hi hgone
        rw [hfds i hne] at hi
        rcases List.mem_cons.mp (hmem i hi) with heq | hin
        · exact absurd heq hne
        · exact hin
    · refine iff_of_false (fun hc => hopen hc.1) fun hall => hopen ?_
      intro k' f hf hip hs hcall
      exact (hall hs k' f (getFilp_some hf) hip hcall).1

end Exit

/-- An exiting process that is suspended closes its own descriptor after those for the opposite end
of a pipe. -/
def Request.InOrder (s : State) : Request → Prop
  | .exit p _ => ClosesInOrder s p
  | _ => True

/-- In every reachable state, `release` finds the saved descriptor open of everybody who is
suspended in the call it looks for, in all its calls for a request, exactly if this is not the EXIT
of a process that is suspended and has a descriptor above its own for the opposite end of a pipe. -/
theorem release_follows_open {s : State} (hr : Reach serve AsIssued Started s) (r : Request) :
    (∀ c ∈ releases s r, c.Follows) ↔ r.InOrder s := by
  obtain ⟨ht, ha⟩ : Tidy s ∧ ∀ q, Anchored s q := by
    refine hr.invariant (fun s => Tidy s ∧ ∀ q, Anchored s q) (fun s h => ?_) ?_
    · exact ⟨Tidy.started h, fun q => .of_idle (h.nobody q).1⟩
    · rintro s r s' ⟨ht, ha⟩ hg he
      exact ⟨ht.serve hg he, Anchored.served ht ha hg he⟩
  have hclose : ∀ who fd, ∀ c ∈ closeReleases s who fd, c.Follows := fun who fd =>
    (follows_close (fun q _ => ha q) fd).mpr fun _ _ _ _ hs _ => (ha who).open hs
  have hnone : (∀ c ∈ ([] : List ReleaseCall), c.Follows) ↔ True :=
    iff_of_true (fun c hc => by cases hc) trivial
  unfold releases
  cases r with
  | call who c =>
    cases c with
    | readWrite flag fd buffer nbytes io =>
      exact iff_of_true (follows_readWrite ha who flag fd buffer nbytes) trivial
    | close fd => exact iff_of_true (hclose who fd) trivial
    | dup fd fd2 =>
      refine iff_of_true ?_ trivial
      dsimp only
      unfold dupReleases
      dsimp only
      generalize (if fd / 64 % 2 = 1 then fd - 64 else fd) = rfd
      split
      · exact fun c hc => by cases hc
      · exact hclose who fd2
    | pipe dev => exact hnone
    | «open» bits rip => exact hnone
    | ioctl fd suspendOn => exact hnone
  | exit p nil =>
    have hown : OnTask s p := by
      intro hs g hg htask
      obtain ⟨-, f, hf, hp⟩ := ha p hs
      obtain rfl := Option.some.inj (hf.symm.trans hg)
      exact hp htask
    refine (follows_closeAll ht (fun q _ => ha q) hown nil (List.pairwise_lt_finRange NR_FDS)
      fun k _ => List.mem_finRange k).trans ?_
    refine forall_congr' fun hs => forall_congr' fun k => forall_congr' fun f =>
      forall_congr' fun hk => forall_congr' fun hip => forall_congr' fun hcall => ?_
    exact and_iff_right ((ha p).open hs)
  | work io =>
    refine iff_of_true ?_ trivial
    dsimp only
    split
    · exact fun c hc => by cases hc
    · rename_i rp _
      split
      · exact fun c hc => by cases hc
      · rename_i flag _
        refine follows_readWrite (fun q => ?_) rp flag _ _ _
        exact (ha q).same (unhang_same s rp) (.setFproc rfl (fun hc => Bool.noConfusion hc) q)
  | other rip n => exact hnone
  | fork parent child => exact hnone
  | unpause p => exact hnone
  | revive p status => exact hnone
  | store p a b => exact hnone

section Example

instance (c : ReleaseCall) : Decidable c.Follows := by
  unfold ReleaseCall.Follows
  infer_instance

instance (s : State) (p : Proc) : Decidable (ClosesInOrder s p) := by
  unfold ClosesInOrder
  infer_instance

instance (s : State) : (r : Request) → Decidable (r.InOrder s)
  | .exit p _ => inferInstanceAs (Decidable (ClosesInOrder s p))
  | .call _ _ => .isTrue trivial
  | .other _ _ => .isTrue trivial
  | .fork _ _ => .isTrue trivial
  | .revive _ _ => .isTrue trivial
  | .unpause _ => .isTrue trivial
  | .work _ => .isTrue trivial
  | .store _ _ _ => .isTrue trivial

/-- INIT makes a pipe and forks, and the child waits for data that only it could write. -/
def waitForItself : List Request :=
  [.call 2 (.pipe (some (0, 100000))), .fork 2 3, .call 2 (.close 0), .call 2 (.close 1),
    .call 3 (.readWrite .READING 0 50 10 quietIo)]

/-- INIT closes its ends, and a child waits for data of the other; when that one exits, the slot of
the reader is followed. -/
theorem release_follows_open_example : ∃ s,
    run serve AsIssued exampleStart [.call 2 (.pipe (some (0, 100000))), .fork 2 3, .fork 2 4,
      .call 3 (.close 1), .call 3 (.readWrite .READING 0 50 10 quietIo)] = some s ∧
    (releases s (.exit 4 none)).length = 2 ∧ ∀ c ∈ releases s (.exit 4 none), c.Follows := by
  have hrun : (run serve AsIssued exampleStart [.call 2 (.pipe (some (0, 100000))), .fork 2 3,
      .fork 2 4, .call 3 (.close 1), .call 3 (.readWrite .READING 0 50 10 quietIo)]).any (fun s =>
        (releases s (.exit 4 none)).length = 2 ∧ Request.InOrder s (.exit 4 none)) = true := by
    decide +kernel
  obtain ⟨s, hs, hm⟩ := (Option.any_eq_true _ _).mp hrun
  obtain ⟨hlen, horder⟩ := of_decide_eq_true hm
  exact ⟨s, hs, hlen,
    (release_follows_open (.of_run (.init exampleStart_started) hs) (.exit 4 none)).mpr horder⟩

/-- A process that reads from a pipe whose writing end it has itself is killed: it has closed the
descriptor of its call when the writing end is closed. -/
theorem release_follows_closed : ¬∀ s r, Reach serve AsIssued Started s → AsIssued s r →
    ∀ c ∈ releases s r, c.Follows := by
  intro hall
  have hrun : (run serve AsIssued exampleStart waitForItself).any (fun s =>
      AsIssued s (.exit 3 none) ∧ ¬∀ c ∈ releases s (.exit 3 none), c.Follows) = true := by
    decide +kernel
  obtain ⟨s, hs, hm⟩ := (Option.any_eq_true _ _).mp hrun
  obtain ⟨hg, hnot⟩ := of_decide_eq_true hm
  exact hnot (hall s _ (.of_run (.init exampleStart_started) hs) hg)

end Example

end Minix.FS.Pipes
