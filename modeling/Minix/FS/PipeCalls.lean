import Minix.FS.Ends
import Minix.Lib.Run

/-!
# Requests as changes

Every request that concerns descriptors is a chain of changes to descriptors, slots and
inodes, also when it fails halfway.
-/

namespace Minix.FS.Pipes

open Function Relation

section Grows

variable {s s' : State} {who : Proc}

/-- Nothing but free slots, positions in other files, and what slots do not hold. -/
theorem Grows.of_files (hinode : s'.inode = s.inode) (hlive : s'.live = s.live)
    (hw : s'.writes = s.writes) (hr : s'.reads = s.reads)
    (hfd : s'.files.fpFilp = s.files.fpFilp)
    (hfilp : ∀ f, (s'.files.filp f).filpCount = (s.files.filp f).filpCount ∧
      ((s.files.filp f).filpCount ≠ 0 → s'.files.filp f = s.files.filp f)) : Grows who s s' := by
  refine .rest hfd (fun f => ⟨(hfilp f).1, fun hf => ?_⟩) (fun rip => .inl (by rw [hinode]))
    hlive hw hr
  rw [(hfilp f).2 hf]
  exact ⟨rfl, rfl, fun _ => rfl⟩

/-- The same files are no fewer. -/
theorem Grows.of_same (h : SameFiles s s') : Grows who s s' :=
  .of_files h.inode h.live h.writes h.reads (by rw [h.files]) fun f => by
    rw [h.files]
    exact ⟨rfl, fun _ => rfl⟩

/-- A free slot is filled in. -/
theorem Grows.fillIn {f : FilpPtr} (hf : (s.files.filp f).filpCount = 0) (bits : Bits) :
    Grows who s { s with files := FS.fillIn s.files f bits } := by
  refine .of_files rfl rfl rfl rfl rfl fun g => ?_
  unfold FS.fillIn
  dsimp only
  by_cases hg : g = f
  · subst hg
    rw [update_self]
    exact ⟨rfl, fun hne => absurd hf hne⟩
  · rw [update_of_ne hg]
    exact ⟨rfl, fun _ => rfl⟩

/-- OPEN adds a descriptor or does nothing. -/
theorem doOpen_grows (hlive : s.live who = true) (bits : Bits) {rip : Option InodePtr}
    (hrip : ∀ ip, rip = some ip → (s.inode ip).iPipe = false) :
    ReflTransGen (Grows who) s (doOpen s who bits rip) := by
  unfold doOpen
  cases hfd : getFd s.files who bits with
  | error e => exact .refl
  | ok r =>
    obtain ⟨k, f, t⟩ := r
    obtain ⟨hk, hf, rfl⟩ := getFd_ok hfd
    cases rip with
    | none => exact .single (.fillIn hf bits)
    | some ip => exact .single (.opened hlive hk hf (hrip ip rfl) (.refl _))

/-- A claimed slot that is given back. -/
theorem drop_claim_fd {t : Files} {k : Fd} (hk : t.fpFilp who k = none) (f : FilpPtr)
    (rip : InodePtr) : (dropFd (claim t who k f rip) who k f).fpFilp = t.fpFilp := by
  unfold dropFd claim
  dsimp only
  have h : update (t.fpFilp who) k none = t.fpFilp who := update_eq_self_iff.mpr hk.symm
  rw [update_self, update_idem, update_idem, h, update_eq_self]

section TwoSlots

variable {t : Files} {k₀ k₁ : Fd} {f₀ f₁ : FilpPtr}

/-- The two claims of `do_pipe`, before there is an inode. -/
def claimBoth (t : Files) (who : Proc) (k₀ : Fd) (f₀ : FilpPtr) (i₀ : InodePtr) (k₁ : Fd)
    (f₁ : FilpPtr) (i₁ : InodePtr) : Files :=
  openFiles (openFiles t who k₀ f₀ ⟨true, false⟩ i₀) who k₁ f₁ ⟨false, true⟩ i₁

/-- The two slots of a new pipe, once they name its inode. -/
theorem setIno_claimBoth (hf : f₁ ≠ f₀) (who : Proc) (k₀ k₁ : Fd) (i₀ i₁ rip : InodePtr) :
    setIno (setIno (claimBoth t who k₀ f₀ i₀ k₁ f₁ i₁) f₀ rip) f₁ rip =
      pipeFiles t who k₀ f₀ k₁ f₁ rip := by
  have hfilp : (setIno (setIno (claimBoth t who k₀ f₀ i₀ k₁ f₁ i₁) f₀ rip) f₁ rip).filp =
      (pipeFiles t who k₀ f₀ k₁ f₁ rip).filp := by
    unfold setIno claimBoth pipeFiles
    funext g
    dsimp only
    by_cases h₁ : g = f₁
    · subst h₁
      rw [update_self, update_of_ne hf, openFiles_self, openFiles_self]
    · rw [update_of_ne h₁, openFiles_ne _ _ _ _ _ h₁]
      by_cases h₀ : g = f₀
      · subst h₀
        rw [update_self, openFiles_ne _ _ _ _ _ h₁, openFiles_self, openFiles_self]
      · rw [update_of_ne h₀, openFiles_ne _ _ _ _ _ h₁]
        rw [openFiles_ne _ _ _ _ _ h₀, openFiles_ne _ _ _ _ _ h₀]
  exact congrArg (fun x => Files.mk x _) hfilp

/-- And the tables as before, when both are dropped again. -/
theorem drop_claimBoth (hk₀ : t.fpFilp who k₀ = none) (hk₁ : t.fpFilp who k₁ = none)
    (hk : k₁ ≠ k₀) (hf₀ : (t.filp f₀).filpCount = 0) (hf₁ : (t.filp f₁).filpCount = 0)
    (hf : f₁ ≠ f₀) (i₀ i₁ : InodePtr) :
    (dropFd (dropFd (claimBoth t who k₀ f₀ i₀ k₁ f₁ i₁) who k₀ f₀) who k₁ f₁).fpFilp =
        t.fpFilp ∧
    ∀ g, ((dropFd (dropFd (claimBoth t who k₀ f₀ i₀ k₁ f₁ i₁) who k₀ f₀) who k₁ f₁).filp
        g).filpCount = (t.filp g).filpCount ∧ ((t.filp g).filpCount ≠ 0 →
      (dropFd (dropFd (claimBoth t who k₀ f₀ i₀ k₁ f₁ i₁) who k₀ f₀) who k₁ f₁).filp g =
        t.filp g) := by
  constructor
  · unfold dropFd claimBoth
    dsimp only
    rw [openFiles_fd, openFiles_fd]
    have h₀ : update (t.fpFilp who) k₀ none = t.fpFilp who := update_eq_self_iff.mpr hk₀.symm
    have h₁ : update (t.fpFilp who) k₁ none = t.fpFilp who := update_eq_self_iff.mpr hk₁.symm
    simp only [update_self, update_idem]
    rw [update_comm hk]
    simp only [update_idem]
    rw [h₀, h₁, update_eq_self]
  · intro g
    unfold dropFd claimBoth
    dsimp only
    by_cases h₁ : g = f₁
    · subst h₁
      rw [update_self, update_of_ne hf, openFiles_self, hf₁]
      exact ⟨rfl, fun hne => absurd rfl hne⟩
    · rw [update_of_ne h₁]
      by_cases h₀ : g = f₀
      · subst h₀
        rw [update_self, openFiles_ne _ _ _ _ _ h₁, openFiles_self, hf₀]
        exact ⟨rfl, fun hne => absurd rfl hne⟩
      · rw [update_of_ne h₀, openFiles_ne _ _ _ _ _ h₁, openFiles_ne _ _ _ _ _ h₀]
        exact ⟨rfl, fun _ => rfl⟩

/-- The first claim alone, given back. -/
theorem drop_claimFirst (hk₀ : t.fpFilp who k₀ = none) (hf₀ : (t.filp f₀).filpCount = 0)
    (bits : Bits) (i₀ : InodePtr) :
    (dropFd (openFiles t who k₀ f₀ bits i₀) who k₀ f₀).fpFilp = t.fpFilp ∧
    ∀ g, ((dropFd (openFiles t who k₀ f₀ bits i₀) who k₀ f₀).filp g).filpCount =
        (t.filp g).filpCount ∧ ((t.filp g).filpCount ≠ 0 →
      (dropFd (openFiles t who k₀ f₀ bits i₀) who k₀ f₀).filp g = t.filp g) := by
  refine ⟨drop_claim_fd hk₀ f₀ i₀, fun g => ?_⟩
  unfold dropFd
  dsimp only
  by_cases hg : g = f₀
  · subst hg
    rw [update_self, openFiles_self, hf₀]
    exact ⟨rfl, fun hne => absurd rfl hne⟩
  · rw [update_of_ne hg, openFiles_ne _ _ _ _ _ hg]
    exact ⟨rfl, fun _ => rfl⟩

/-- The second descriptor and slot that are found are not the first ones. -/
theorem getFd_second {t₁ : Files} {i₀ : InodePtr}
    (h : getFd (openFiles t who k₀ f₀ ⟨true, false⟩ i₀) who ⟨false, true⟩ = .ok (k₁, f₁, t₁)) :
    t.fpFilp who k₁ = none ∧ (t.filp f₁).filpCount = 0 ∧ k₁ ≠ k₀ ∧ f₁ ≠ f₀ ∧
      ∀ i₁, claim t₁ who k₁ f₁ i₁ = claimBoth t who k₀ f₀ i₀ k₁ f₁ i₁ := by
  obtain ⟨hk₁, hf₁, rfl⟩ := getFd_ok h
  have hf : f₁ ≠ f₀ := by
    rintro rfl
    rw [openFiles_self] at hf₁
    cases hf₁
  have hk : k₁ ≠ k₀ := by
    rintro rfl
    rw [openFiles_fd, update_self, update_self] at hk₁
    cases hk₁
  rw [openFiles_ne _ _ _ _ _ hf] at hf₁
  rw [openFiles_fd, update_self, update_of_ne hk] at hk₁
  exact ⟨hk₁, hf₁, hk, hf, fun _ => rfl⟩

end TwoSlots

/-- PIPE adds two descriptors or does nothing. -/
theorem doPipe_grows (hlive : s.live who = true) (hmm : who ≠ MM)
    (dev : Option (Nat × Int)) : ReflTransGen (Grows who) s (doPipe s who dev) := by
  unfold doPipe
  cases hfd₀ : getFd s.files who ⟨true, false⟩ with
  | error e => exact .refl
  | ok r₀ =>
    obtain ⟨k₀, f₀, t₀⟩ := r₀
    obtain ⟨hk₀, hf₀, rfl⟩ := getFd_ok hfd₀
    dsimp only
    generalize ((fillIn s.files f₀ ⟨true, false⟩).filp f₀).filpIno = ino₀
    have hopen : claim (fillIn s.files f₀ ⟨true, false⟩) who k₀ f₀ ino₀ =
        openFiles s.files who k₀ f₀ ⟨true, false⟩ ino₀ := rfl
    rw [hopen]
    cases hfd₁ : getFd (openFiles s.files who k₀ f₀ ⟨true, false⟩ ino₀) who ⟨false, true⟩ with
    | error e =>
      obtain ⟨hfd, hfilp⟩ := drop_claimFirst hk₀ hf₀ ⟨true, false⟩ ino₀
      exact .single (.of_files rfl rfl rfl rfl hfd hfilp)
    | ok r₁ =>
      obtain ⟨k₁, f₁, t₁⟩ := r₁
      obtain ⟨hk₁, hf₁, hk, hf, hclaim⟩ := getFd_second hfd₁
      dsimp only
      rw [hclaim]
      generalize (t₁.filp f₁).filpIno = ino₁
      obtain ⟨hfd, hfilp⟩ := drop_claimBoth hk₀ hk₁ hk hf₀ hf₁ hf ino₀ ino₁
      cases dev with
      | none => exact .single (.of_files rfl rfl rfl rfl hfd hfilp)
      | some d =>
        cases hfree : freeInode s with
        | none => exact .single (.of_files rfl rfl rfl rfl hfd hfilp)
        | some rip =>
          have hi : (s.inode rip).iCount = 0 := by
            have := List.find?_some hfree
            rwa [decide_eq_true_eq] at this
          refine .single (.piped hlive hmm hk₀ hk₁ hk hf₀ hf₁ hf hi ⟨?_, rfl, rfl, rfl, rfl⟩)
          exact setIno_claimBoth hf who k₀ k₁ ino₀ ino₁ rip

/-- The caller may be suspended, and the position moves. -/
theorem otherIo_grows {f : FilpPtr} (hp : (s.inode (s.files.filp f).filpIno).iPipe = false)
    (fd : Fd) (flag : RwFlag) (buffer : Nat) (nbytes : Int) (io : Io) :
    Grows who s (otherIo s who fd f flag buffer nbytes io) := by
  obtain ⟨t, hs, he⟩ : ∃ t, SameFiles s t ∧ otherIo s who fd f flag buffer nbytes io =
      { t with files := setPos t.files f io.newPos } := by
    unfold otherIo
    cases io.suspendOn with
    | none => exact ⟨s, .refl s, rfl⟩
    | some task => exact ⟨_, .suspend s who task fd (some flag) buffer nbytes, rfl⟩
  have hfiles : (otherIo s who fd f flag buffer nbytes io).files = setPos s.files f io.newPos := by
    rw [he]
    exact congrArg (fun t => setPos t f io.newPos) hs.files
  have hfilp := fun g => setPos_filp s.files f g io.newPos
  refine .rest ?_ (fun g => ?_) (fun rip => .inl ?_) (he ▸ hs.live) (he ▸ hs.writes)
    (he ▸ hs.reads)
  · rw [hfiles]
    rfl
  · rw [hfiles]
    refine ⟨(hfilp g).1, fun _ => ⟨(hfilp g).2.1, (hfilp g).2.2.1, fun hpipe => ?_⟩⟩
    refine (hfilp g).2.2.2.trans (if_neg ?_)
    rintro rfl
    rw [hp] at hpipe
    cases hpipe
  · rw [he]
    exact congrFun hs.inode rip

/-- IOCTL leaves the files alone. -/
theorem doIoctl_same (s : State) (who : Proc) (fd : Int) (suspendOn : Option Int) :
    SameFiles s (doIoctl s who fd suspendOn) := by
  unfold doIoctl
  split
  · exact .suspend s who _ _ none 0 0
  · exact .refl s

/-- A duplicate is one more descriptor. -/
theorem shareFilp_grows {k j : Fd} {f : FilpPtr} (hj : s.files.fpFilp who j = some f)
    (hk : s.files.fpFilp who k = none) :
    Grows who s { s with files := shareFilp s.files who k f } :=
  .shared hj hk (.refl _)

end Grows

section Change

variable {s s' : State} {who : Proc} {ok : Io → Prop}

/-- New files, as a run of changes. -/
theorem changes_of_grows (h : ReflTransGen (Grows who) s s') : ReflTransGen (Change ok) s s' :=
  ReflTransGen.mono (fun _ _ hg => Change.grows hg) s s' h

/-- The same files, as a run of changes. -/
theorem changes_of_same (h : SameFiles s s') : ReflTransGen (Change ok) s s' :=
  .single (.grows (show Grows MM s s' from .of_same h))

/-- `do_close` once it has a slot, with what `release` does before. -/
theorem closeFilp_eq (s : State) (nil : Option InodePtr) (fp : Proc) (k : Fd) (f : FilpPtr) :
    closeFilp s nil fp k f =
      closed (if (s.inode (s.files.filp f).filpIno).iPipe then
        release s nil (s.files.filp f).filpIno
          (if (s.files.filp f).filpMode.r then .WRITING else .READING) NR_PROCS else s) fp k f := by
  have hfiles : (if (s.inode (s.files.filp f).filpIno).iPipe then
      release s nil (s.files.filp f).filpIno
        (if (s.files.filp f).filpMode.r then .WRITING else .READING) NR_PROCS else s).files =
      s.files := by
    split
    · exact (SameFiles.release s nil _ _ _).files
    · rfl
  unfold closed closeFilp
  dsimp only
  rw [hfiles]
  split
  · exact congrArg (fun t => { putInode _ _ with files := dropFd t fp k f }) hfiles
  · exact congrArg (fun t => { (_ : State) with files := dropFd t fp k f }) hfiles

/-- Closing a descriptor, as a run of changes. -/
theorem closeFilp_changes (nil : Option InodePtr) {k : Fd} {f : FilpPtr}
    (hk : s.files.fpFilp who k = some f) :
    ReflTransGen (Change ok) s (closeFilp s nil who k f) := by
  have hs : SameFiles s (if (s.inode (s.files.filp f).filpIno).iPipe then
      release s nil (s.files.filp f).filpIno
        (if (s.files.filp f).filpMode.r then .WRITING else .READING) NR_PROCS else s) := by
    split
    · exact .release s nil _ _ _
    · exact .refl s
  rw [closeFilp_eq]
  refine (changes_of_same hs).tail (.closed ?_ (.refl _))
  rw [hs.files]
  exact hk

/-- CLOSE, as a run of changes. -/
theorem doClose_changes (s : State) (nil : Option InodePtr) (who : Proc) (fd : Int) :
    ReflTransGen (Change ok) s (doClose s nil who fd) := by
  unfold doClose
  split
  · exact .refl
  · exact closeFilp_changes nil (getFilp_some ‹_›)

/-- It clears that descriptor. -/
theorem closeFilp_fd (s : State) (nil : Option InodePtr) (fp : Proc) (k : Fd) (f : FilpPtr) :
    (closeFilp s nil fp k f).files.fpFilp =
      update s.files.fpFilp fp (update (s.files.fpFilp fp) k none) := by
  have hfiles : ∀ c : Bool, (if c then release s nil (s.files.filp f).filpIno
        (if (s.files.filp f).filpMode.r then .WRITING else .READING) NR_PROCS else s).files =
      s.files := by
    intro c
    split
    · exact (SameFiles.release s nil _ _ _).files
    · rfl
  rw [closeFilp_eq, closed_files, hfiles]
  rfl

/-- After `do_close` the descriptor leads nowhere, and the others are as before. -/
theorem doClose_fd (s : State) (nil : Option InodePtr) (p : Proc) (k : Fd) :
    (doClose s nil p (k.val : Int)).files.fpFilp =
      update s.files.fpFilp p (update (s.files.fpFilp p) k none) := by
  have hfd : fdOf (k.val : Int) = some k := by
    unfold fdOf
    have hk := k.isLt
    rw [dif_pos ⟨by omega, by omega⟩]
    rfl
  unfold doClose getFilp
  rw [hfd, Option.bind_some]
  cases hf : s.files.fpFilp p k with
  | none =>
    have h : update (s.files.fpFilp p) k none = s.files.fpFilp p := update_eq_self_iff.mpr hf.symm
    rw [h, update_eq_self]
    rfl
  | some f => exact closeFilp_fd s nil p k f

/-- Slots keep their mode, inode and position, and pipes can only become free. -/
theorem doClose_filp (s : State) (nil : Option InodePtr) (p : Proc) (fd : Int) :
    (∀ g, ((doClose s nil p fd).files.filp g).filpMode = (s.files.filp g).filpMode ∧
      ((doClose s nil p fd).files.filp g).filpIno = (s.files.filp g).filpIno ∧
      ((doClose s nil p fd).files.filp g).filpPos = (s.files.filp g).filpPos) ∧
    ∀ ip, ((doClose s nil p fd).inode ip).iPipe = true →
      (s.inode ip).iPipe = true ∧ ((doClose s nil p fd).inode ip).iSize = (s.inode ip).iSize := by
  unfold doClose
  split
  · exact ⟨fun _ => ⟨rfl, rfl, rfl⟩, fun _ hp => ⟨hp, rfl⟩⟩
  · rename_i k f _
    have hs : SameFiles s (if (s.inode (s.files.filp f).filpIno).iPipe then
        release s nil (s.files.filp f).filpIno
          (if (s.files.filp f).filpMode.r then .WRITING else .READING) NR_PROCS else s) := by
      split
      · exact .release s nil _ _ _
      · exact .refl s
    rw [closeFilp_eq]
    generalize (if (s.inode (s.files.filp f).filpIno).iPipe then
        release s nil (s.files.filp f).filpIno
          (if (s.files.filp f).filpMode.r then .WRITING else .READING) NR_PROCS else s) = s₁ at hs
    rw [← hs.files, ← hs.inode]
    refine ⟨dropFd_filp s₁.files p k f, fun ip hp => ?_⟩
    rw [closed_inode] at hp ⊢
    by_cases hz : (s₁.files.filp f).filpCount - 1 = 0
    · rw [if_pos hz] at hp ⊢
      exact (putInode_inode s₁ _ ip).2 hp
    · rw [if_neg hz] at hp ⊢
      exact ⟨hp, rfl⟩

/-- Closing a list of descriptors, as a run of changes. -/
theorem closeAll_changes (nil : Option InodePtr) (p : Proc) (l : List Fd) (s : State) :
    ReflTransGen (Change ok) s (closeAll nil p l s) := by
  induction l generalizing s with
  | nil => exact .refl
  | cons k l ih => exact (doClose_changes s nil p k.val).trans (ih _)

/-- It clears all of them and no others. -/
theorem closeAll_fd (nil : Option InodePtr) (p : Proc) (l : List Fd) (s : State) (k : Fd) :
    (closeAll nil p l s).files.fpFilp p k = if k ∈ l then none else s.files.fpFilp p k := by
  induction l generalizing s with
  | nil => rfl
  | cons i l ih =>
    unfold closeAll
    rw [ih, doClose_fd, update_self]
    by_cases hl : k ∈ l
    · rw [if_pos hl, if_pos (List.mem_cons_of_mem _ hl)]
    · rw [if_neg hl]
      by_cases hi : k = i
      · subst hi
        rw [update_self, if_pos List.mem_cons_self]
      · rw [update_of_ne hi, if_neg]
        rw [List.mem_cons]
        exact not_or.mpr ⟨hi, hl⟩

/-- EXIT, as a run of changes. -/
theorem doExit_changes (s : State) (nil : Option InodePtr) (p : Proc) :
    ReflTransGen (Change ok) s (doExit s nil p) := by
  have hleave := SameFiles.leaveSuspended (closeAll nil p (List.finRange NR_FDS) s) p
  refine ((closeAll_changes nil p _ s).trans (changes_of_same hleave)).tail
    (.died (p := p) (fun k => ?_) (.refl _))
  rw [hleave.files, closeAll_fd, if_pos (List.mem_finRange k)]

/-- DUP makes another descriptor for a slot, after it has found or closed one. -/
theorem doDup_cases (s : State) (who : Proc) (fd fd2 : Int) : doDup s who fd fd2 = s ∨
    ∃ s₁ j k f, s₁.files.fpFilp who j = some f ∧ s₁.files.fpFilp who k = none ∧
      doDup s who fd fd2 = { s₁ with files := shareFilp s₁.files who k f } ∧
      ((∃ g, (s.files.filp g).filpCount = 0 ∧
        s₁ = { s with files := fillIn s.files g ⟨false, false⟩ }) ∨
      ∃ n, s₁ = doClose s none who n) := by
  unfold doDup
  dsimp only
  generalize (if fd / 64 % 2 = 1 then fd - 64 else fd) = rfd
  split
  · exact .inl rfl
  · rename_i j f hj
    have hj' := getFilp_some hj
    split
    · cases hfd : getFd s.files who ⟨false, false⟩ with
      | error e => exact .inl rfl
      | ok r =>
        obtain ⟨k, g, t⟩ := r
        obtain ⟨hk, hg, rfl⟩ := getFd_ok hfd
        exact .inr ⟨{ s with files := fillIn s.files g ⟨false, false⟩ }, j, k, f, hj', hk, rfl,
          .inl ⟨g, hg, rfl⟩⟩
    · split
      · exact .inl rfl
      · rename_i k₂ hk₂
        split
        · exact .inl rfl
        · rename_i hne
          obtain rfl := fdOf_some hk₂
          have hjk : j ≠ k₂ := by
            rintro rfl
            exact hne (getFilp_fd hj)
          have hfd := doClose_fd s none who k₂
          refine .inr ⟨doClose s none who k₂.val, j, k₂, f, ?_, ?_, rfl, .inr ⟨k₂.val, rfl⟩⟩
          · rw [hfd, update_self, update_of_ne hjk]
            exact hj'
          · rw [hfd, update_self, update_self]

/-- DUP, as a run of changes. -/
theorem doDup_changes (s : State) (who : Proc) (fd fd2 : Int) :
    ReflTransGen (Change ok) s (doDup s who fd fd2) := by
  rcases doDup_cases s who fd fd2 with he | ⟨s₁, j, k, f, hj, hk, he, hs₁⟩
  · rw [he]
  · rw [he]
    have hshare : Change ok s₁ { s₁ with files := shareFilp s₁.files who k f } :=
      .grows (shareFilp_grows hj hk)
    rcases hs₁ with ⟨g, hg, rfl⟩ | ⟨n, rfl⟩
    · have hfill : Grows who s { s with files := fillIn s.files g ⟨false, false⟩ } :=
        .fillIn hg ⟨false, false⟩
      exact (changes_of_grows (.single hfill)).tail hshare
    · exact (doClose_changes s none who n).tail hshare

/-- READ and WRITE on a pipe, by what `pipe_check` finds. -/
theorem pipeIo_eq {fd : Fd} {f : FilpPtr} {rip : InodePtr} {flag : RwFlag} {buffer : Nat}
    {nbytes : Int} {io : Io} (hr : (s.files.filp f).filpIno = rip)
    (hbig : ¬(flag = .WRITING ∧ (s.files.filp f).filpPos > (s.inode rip).sMaxSize - nbytes))
    (hclear : ¬(flag = .WRITING ∧ (s.files.filp f).filpPos > (s.inode rip).iSize)) :
    pipeIo s who fd f flag buffer nbytes io =
      match pipeVerdict s rip flag nbytes (s.files.filp f).filpPos with
      | .empty true =>
        if (suspend s who XPIPE fd (some flag) buffer nbytes).suspCount > 0 then
          release (suspend s who XPIPE fd (some flag) buffer nbytes) none rip .WRITING 1
        else suspend s who XPIPE fd (some flag) buffer nbytes
      | .full => suspend s who XPIPE fd (some flag) buffer nbytes
      | .go wake => transfer (if wake then release s none rip .READING 1 else s) who f rip flag
          (s.inode rip).iSize (s.files.filp f).filpPos buffer (nbytes % 65536).toNat io
      | _ => s := by
  subst hr
  unfold pipeIo
  dsimp only
  rw [if_neg hbig, if_neg hclear]
  unfold pipeCheck
  cases pipeVerdict s (s.files.filp f).filpIno flag nbytes (s.files.filp f).filpPos with
  | empty writer => cases writer <;> rfl
  | tooBig => rfl
  | broken => rfl
  | full => rfl
  | go wake => rfl

/-- A write that goes on fits into the pipe. -/
theorem pipeVerdict_go_writing {rip : InodePtr} {bytes : Int} {position : Nat} {wake : Bool}
    (h : pipeVerdict s rip .WRITING bytes position = .go wake) :
    position + bytes ≤ PIPE_SIZE ∧ (findFilp s.files rip Bits.r).isSome = true ∧
      (wake = true ↔ position = 0) := by
  unfold pipeVerdict at h
  dsimp only at h
  split at h
  · cases h
  · split at h
    · cases h
    · rename_i hr
      split at h
      · cases h
      · rename_i hfit
        cases h
        rw [Bool.not_eq_true, ← Option.not_isSome, Bool.not_eq_false'] at hr
        exact ⟨Int.not_lt.mp hfit, hr, decide_eq_true_iff⟩

/-- A read that goes on finds data. -/
theorem pipeVerdict_go_reading {rip : InodePtr} {bytes : Int} {position : Nat} {wake : Bool}
    (h : pipeVerdict s rip .READING bytes position = .go wake) :
    position < (s.inode rip).iSize ∧ wake = false := by
  unfold pipeVerdict at h
  dsimp only at h
  split at h
  · cases h
  · rename_i hlt
    cases h
    exact ⟨Nat.lt_of_not_le hlt, rfl⟩

/-- Only a read from an empty pipe finds it empty. -/
theorem pipeVerdict_empty {rip : InodePtr} {flag : RwFlag} {bytes : Int} {position : Nat}
    {writer : Bool} (h : pipeVerdict s rip flag bytes position = .empty writer) :
    flag = .READING ∧ (s.inode rip).iSize ≤ position ∧
      writer = (findFilp s.files rip Bits.w).isSome := by
  unfold pipeVerdict at h
  cases flag with
  | READING =>
    dsimp only at h
    split at h
    · cases h
      exact ⟨rfl, ‹_›, rfl⟩
    · cases h
  | WRITING =>
    dsimp only at h
    split at h
    · cases h
    · split at h
      · cases h
      · split at h
        · cases h
        · cases h

/-- Only a write that fits a pipe, but not now, finds it full. -/
theorem pipeVerdict_full {rip : InodePtr} {flag : RwFlag} {bytes : Int} {position : Nat}
    (h : pipeVerdict s rip flag bytes position = .full) :
    flag = .WRITING ∧ bytes ≤ PIPE_SIZE ∧ PIPE_SIZE < position + bytes ∧
      (findFilp s.files rip Bits.r).isSome = true := by
  unfold pipeVerdict at h
  cases flag with
  | READING =>
    dsimp only at h
    split at h
    · cases h
    · cases h
  | WRITING =>
    dsimp only at h
    split at h
    · cases h
    · split at h
      · cases h
      · rename_i hb hr
        split at h
        · rw [Bool.not_eq_true, ← Option.not_isSome, Bool.not_eq_false'] at hr
          exact ⟨rfl, Int.not_lt.mp hb, ‹_›, hr⟩
        · cases h

/-- A read is never too big, and a write of at most a pipe is not. -/
theorem pipeVerdict_tooBig {rip : InodePtr} {flag : RwFlag} {bytes : Int} {position : Nat}
    (h : pipeVerdict s rip flag bytes position = .tooBig) :
    flag = .WRITING ∧ PIPE_SIZE < bytes := by
  unfold pipeVerdict at h
  cases flag with
  | READING =>
    dsimp only at h
    split at h
    · cases h
    · cases h
  | WRITING =>
    dsimp only at h
    split at h
    · exact ⟨rfl, ‹_›⟩
    · split at h
      · cases h
      · split at h
        · cases h
        · cases h

/-- Only a write to a pipe that nobody can read is broken. -/
theorem pipeVerdict_broken {rip : InodePtr} {flag : RwFlag} {bytes : Int} {position : Nat}
    (h : pipeVerdict s rip flag bytes position = .broken) :
    (findFilp s.files rip Bits.r).isSome = false := by
  unfold pipeVerdict at h
  cases flag with
  | READING =>
    dsimp only at h
    split at h
    · cases h
    · cases h
  | WRITING =>
    dsimp only at h
    split at h
    · cases h
    · split at h
      · rename_i hnone
        rw [← Option.not_isNone, hnone]
        rfl
      · split at h
        · cases h
        · cases h

/-- The position of a writer is the size of the pipe, so there is no hole. -/
theorem Tidy.no_hole (h : Tidy s) {k : Fd} {f : FilpPtr} {rip : InodePtr} {flag : RwFlag}
    (hk : s.files.fpFilp who k = some f) (hr : (s.files.filp f).filpIno = rip)
    (hp : (s.inode rip).iPipe = true) (hb : bitOf flag (s.files.filp f).filpMode = true) :
    ((s.files.filp f).filpMode.r = true ↔ flag = .READING) ∧
    ¬(flag = .WRITING ∧ (s.files.filp f).filpPos > (s.inode rip).iSize) := by
  have hmem : f ∈ users s.files rip := hr ▸ h.counted.mem_users hk
  have hend := h.ends rip hp
  have hmode := hend.mode f hmem
  cases flag with
  | READING => exact ⟨iff_of_true hb rfl, fun hc => RwFlag.noConfusion hc.1⟩
  | WRITING =>
    have hw : (s.files.filp f).filpMode.w = true := hb
    rw [hw] at hmode
    have hr' : (s.files.filp f).filpMode.r = false := by simpa using hmode.symm
    rw [hr']
    refine ⟨by simp, fun hc => ?_⟩
    rw [hend.writer f hmem hr'] at hc
    exact Nat.lt_irrefl _ hc.2

/-- Reading or writing a pipe, as a run of changes. -/
theorem pipeIo_changes (h : Tidy s) {k : Fd} {f : FilpPtr} {rip : InodePtr} {flag : RwFlag}
    (hk : s.files.fpFilp who k = some f) (hr : (s.files.filp f).filpIno = rip)
    (hp : (s.inode rip).iPipe = true) (hb : bitOf flag (s.files.filp f).filpMode = true)
    {nbytes : Int} (hn : 0 ≤ nbytes) (buffer : Nat) {io : Io} (hio : ok io) :
    ReflTransGen (Change ok) s (pipeIo s who k f flag buffer nbytes io) := by
  obtain ⟨hmode, hclear⟩ := h.no_hole hk hr hp hb
  by_cases hbig : flag = .WRITING ∧ (s.files.filp f).filpPos > (s.inode rip).sMaxSize - nbytes
  · unfold pipeIo
    subst hr
    rw [if_pos hbig]
  rw [pipeIo_eq hr hbig hclear]
  have hsusp := SameFiles.suspend s who XPIPE k (some flag) buffer nbytes
  cases hv : pipeVerdict s rip flag nbytes (s.files.filp f).filpPos with
  | empty writer =>
    cases writer with
    | true =>
      dsimp only
      split
      · exact changes_of_same (hsusp.trans (.release _ none rip .WRITING 1))
      · exact changes_of_same hsusp
    | false => exact .refl
  | tooBig => exact .refl
  | broken => exact .refl
  | full => exact changes_of_same hsusp
  | go wake =>
    have hsame : SameFiles s (if wake then release s none rip .READING 1 else s) := by
      split
      · exact .release s none rip .READING 1
      · exact .refl s
    dsimp only
    generalize (if wake then release s none rip .READING 1 else s) = s₁ at hsame
    refine (changes_of_same hsame).trans (.single ?_)
    rw [← hsame.files] at hk hr hv hmode ⊢
    rw [← hsame.inode] at hp ⊢
    cases flag with
    | READING =>
      have hgo := pipeVerdict_go_reading hv
      rw [← hsame.inode] at hgo
      exact .read hk hr hp (hmode.mpr rfl) hgo.1 hio (.refl _)
    | WRITING =>
      have hgo := pipeVerdict_go_writing hv
      have hm : (s₁.files.filp f).filpMode.r = false := by
        rw [← Bool.not_eq_true, hmode]
        exact RwFlag.noConfusion
      refine .wrote hk hr hp hm ?_ hio (.refl _)
      have hfit := hgo.1
      omega

/-- READ and WRITE by anybody, also when a call is revived. -/
theorem readWrite_cases (h : Tidy s) (who : Proc) (flag : RwFlag) (fd : Int) (buffer : Nat)
    (nbytes : Int) (io : Io) :
    readWrite s who flag fd buffer nbytes io = s ∨
    ∃ k f, getFilp s.files who fd = some (k, f) ∧
      bitOf flag (s.files.filp f).filpMode = true ∧ nbytes ≠ 0 ∧
      ((s.inode (s.files.filp f).filpIno).iPipe = true ∧ who ≠ MM ∧ 0 ≤ nbytes ∧
        readWrite s who flag fd buffer nbytes io = pipeIo s who k f flag buffer nbytes io ∨
      (s.inode (s.files.filp f).filpIno).iPipe = false ∧
        readWrite s who flag fd buffer nbytes io = otherIo s who k f flag buffer nbytes io) := by
  unfold readWrite
  split
  · exact .inl rfl
  rename_i hn
  rw [not_or, not_and_or, Int.not_lt, not_not] at hn
  cases hf : getFilp s.files who fd with
  | none => exact .inl rfl
  | some kf =>
    obtain ⟨k, f⟩ := kf
    dsimp only
    split
    · exact .inl rfl
    rename_i hb
    rw [Bool.not_eq_false] at hb
    refine .inr ⟨k, f, rfl, hb, hn.1, ?_⟩
    split
    · rename_i hp
      have hmm : who ≠ MM := by
        rintro rfl
        rw [h.mm k f (getFilp_some hf)] at hp
        cases hp
      exact .inl ⟨hp, hmm, hn.2.resolve_left hmm, rfl⟩
    · rename_i hp
      exact .inr ⟨Bool.not_eq_true _ ▸ hp, rfl⟩

/-- READ and WRITE, as a run of changes. -/
theorem readWrite_changes (h : Tidy s) (who : Proc) (flag : RwFlag) (fd : Int) (buffer : Nat)
    (nbytes : Int) {io : Io} (hio : ok io) :
    ReflTransGen (Change ok) s (readWrite s who flag fd buffer nbytes io) := by
  rcases readWrite_cases h who flag fd buffer nbytes io with he | ⟨k, f, hf, hb, -, hcase⟩
  · rw [he]
  · rcases hcase with ⟨hp, -, hn, he⟩ | ⟨hp, he⟩
    · rw [he]
      exact pipeIo_changes h (getFilp_some hf) rfl hp hb hn buffer hio
    · rw [he]
      exact changes_of_grows (.single (otherIo_grows hp k flag buffer nbytes io))

end Change

section Requests

variable {s s' : State} {ok : Io → Prop}

/-- Calls come from processes that are not waiting for the file system. A pipe has no path, MM
makes no pipes, and a task that suspends its caller is not `XPIPE`. -/
def CallIssued (s : State) (who : Proc) : Call → Prop
  | .pipe _ => who ≠ MM
  | .open _ rip => ∀ ip, rip = some ip → (s.inode ip).iPipe = false
  | .readWrite _ _ _ _ io => io.suspendOn ≠ some XPIPE
  | .ioctl fd suspendOn => suspendOn ≠ some XPIPE ∧ ∀ k f, getFilp s.files who fd = some (k, f) →
      suspendOn ≠ none → (s.inode (s.files.filp f).filpIno).iPipe = false
  | _ => True

/-- What the processes, MM and the tasks ask for. The other calls take and put inodes that are not
pipes, and never more than they have taken; MM forks a process that is not waiting, into a free
slot, and lets live processes exit; a task only revives those that it has suspended. -/
def AsIssued (s : State) : Request → Prop
  | .call who c => s.live who = true ∧ (s.fproc who).fpSuspended = false ∧ CallIssued s who c
  | .other rip iCount => (s.inode rip).iPipe = false ∧ (users s.files rip).card ≤ iCount
  | .fork parent child => s.live parent = true ∧ (s.fproc parent).fpSuspended = false ∧
      s.live child = false ∧ child ≠ MM
  | .exit p _ => s.live p = true
  | .revive p _ => (s.fproc p).fpSuspended = true → (s.fproc p).fpTask ≠ XPIPE
  | _ => True

/-- What comes from outside with a request. -/
def Request.uses : Request → Io → Prop
  | .call _ (.readWrite _ _ _ _ io'), io => io' = io
  | .work io', io => io' = io
  | _, _ => False

/-- Every call, as a run of changes. -/
theorem perform_changes (h : Tidy s) {who : Proc} {c : Call} (hg : AsIssued s (.call who c))
    (hok : ∀ io, (Request.call who c).uses io → ok io) :
    ReflTransGen (Change ok) s (perform s who c) := by
  obtain ⟨hlive, -, hc⟩ := hg
  cases c with
  | pipe dev => exact changes_of_grows (doPipe_grows hlive hc dev)
  | readWrite flag fd buffer nbytes io =>
    exact readWrite_changes h who flag fd buffer nbytes (hok io rfl)
  | close fd => exact doClose_changes s none who fd
  | dup fd fd2 => exact doDup_changes s who fd fd2
  | «open» bits rip => exact changes_of_grows (doOpen_grows hlive bits hc)
  | ioctl fd suspendOn => exact changes_of_same (doIoctl_same s who fd suspendOn)

/-- Taking a revived process up leaves the files alone. -/
theorem unhang_same (s : State) (rp : Proc) : SameFiles s (unhang s rp) := ⟨rfl, rfl, rfl, rfl, rfl⟩

/-- So `get_work` is a run of changes as well. -/
theorem getWork_changes (h : Tidy s) {io : Io} (hio : ok io) (he : getWork s io = some s') :
    ReflTransGen (Change ok) s s' := by
  unfold getWork at he
  split at he
  · cases he
  · rename_i rp _
    obtain ⟨flag, -, rfl⟩ := Option.map_eq_some_iff.mp he
    exact (changes_of_same (unhang_same s rp)).trans
      (readWrite_changes (h.congr (unhang_same s rp)) rp flag _ _ _ hio)

/-- What a request does to descriptors, slots and inodes. -/
theorem serve_changes (h : Tidy s) {r : Request} (hg : AsIssued s r)
    (hok : ∀ io, r.uses io → ok io) (he : serve s r = some s') :
    ReflTransGen (Change ok) s s' := by
  unfold serve at he
  cases r with
  | store p a b =>
    cases he
    exact changes_of_same ⟨rfl, rfl, rfl, rfl, rfl⟩
  | work io =>
    dsimp only at he
    split at he
    · cases he
    · exact getWork_changes h (hok io rfl) he
  | call who c =>
    obtain ⟨-, he⟩ := Option.ite_none_right_eq_some.mp he
    cases he
    exact perform_changes h hg hok
  | other rip n =>
    obtain ⟨-, he⟩ := Option.ite_none_right_eq_some.mp he
    cases he
    have hgrow : Grows MM s (setInode s rip { s.inode rip with iCount := n }) := by
      refine .rest rfl (fun f => ⟨rfl, fun _ => ⟨rfl, rfl, fun _ => rfl⟩⟩) (fun ip => ?_) rfl rfl rfl
      change update s.inode rip _ ip = s.inode ip ∨ _ ∧ (update s.inode rip _ ip).iPipe = false ∧
        _ ≤ (update s.inode rip _ ip).iCount
      by_cases he : ip = rip
      · subst he
        rw [update_self]
        exact .inr ⟨hg.1, hg.1, hg.2⟩
      · rw [update_of_ne he]
        exact .inl rfl
    exact .single (.grows hgrow)
  | fork parent child =>
    obtain ⟨-, he⟩ := Option.ite_none_right_eq_some.mp he
    cases he
    have hfork : SameFiles { s with
      files := forkFiles s.files parent child, live := update s.live child true }
      (doFork s parent child) := ⟨rfl, rfl, rfl, rfl, rfl⟩
    exact .single (.grows (.forked (h.idle child hg.2.2.1) hg.2.2.2 hfork))
  | exit p nil =>
    obtain ⟨-, he⟩ := Option.ite_none_right_eq_some.mp he
    cases he
    exact doExit_changes s nil p
  | unpause p =>
    obtain ⟨-, he⟩ := Option.ite_none_right_eq_some.mp he
    cases he
    exact changes_of_same (.doUnpause s p)
  | revive p status =>
    obtain ⟨-, he⟩ := Option.ite_none_right_eq_some.mp he
    cases he
    exact changes_of_same (.revive s p status)

/-- The tables stay in order under every request. -/
theorem Tidy.serve (h : Tidy s) {r : Request} (hg : AsIssued s r) (he : serve s r = some s') :
    Tidy s' := by
  have hc : ReflTransGen (Change fun _ => True) s s' := serve_changes h hg (fun _ _ => trivial) he
  exact h.changes hc

end Requests

end Minix.FS.Pipes
