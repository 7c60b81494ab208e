import Minix.FS.Transfer

/-!
# The ends of a pipe

What descriptors, slots and inodes have in common between any two requests, whatever was
suspended or revived: a pipe has one slot for reading and one for writing at most, the
writer's position is the size of the pipe, and the reader's position stays below it unless
the pipe is empty.
-/

namespace Minix.FS.Pipes

open Function

/-- The slots that refer to a pipe. -/
structure EndsOf (t : Files) (rip : InodePtr) (ip : Inode) : Prop where
  mode : ∀ f ∈ users t rip, (t.filp f).filpMode.w = !(t.filp f).filpMode.r
  unique : ∀ f ∈ users t rip, ∀ g ∈ users t rip,
    (t.filp f).filpMode.r = (t.filp g).filpMode.r → f = g
  writer : ∀ f ∈ users t rip, (t.filp f).filpMode.r = false → (t.filp f).filpPos = ip.iSize
  reader : ∀ f ∈ users t rip, (t.filp f).filpMode.r = true →
    (t.filp f).filpPos < ip.iSize ∨ (t.filp f).filpPos = 0 ∧ ip.iSize = 0
  size : ip.iSize ≤ PIPE_SIZE

/-- Descriptors, slots and inodes agree. MM has no descriptors for pipes. -/
structure Tidy (s : State) : Prop where
  counted : Counted s.files
  counts : ∀ rip, (users s.files rip).card ≤ (s.inode rip).iCount
  idle : ∀ p, s.live p = false → ∀ k, s.files.fpFilp p k = none
  mm : ∀ k f, s.files.fpFilp MM k = some f → (s.inode (s.files.filp f).filpIno).iPipe = false
  ends : ∀ rip, (s.inode rip).iPipe = true → EndsOf s.files rip (s.inode rip)

/-- Nothing is different in descriptors, slots, inodes and what went through the pipes. -/
structure SameFiles (s s' : State) : Prop where
  files : s'.files = s.files
  inode : s'.inode = s.inode
  live : s'.live = s.live
  writes : s'.writes = s.writes
  reads : s'.reads = s.reads

section SameFiles

variable {s s' s₁ : State}

/-- A state that stays as it is. -/
theorem SameFiles.refl (s : State) : SameFiles s s := ⟨rfl, rfl, rfl, rfl, rfl⟩

/-- Two such changes one after the other. -/
theorem SameFiles.trans (h : SameFiles s s₁) (h' : SameFiles s₁ s') : SameFiles s s' :=
  ⟨h'.1.trans h.1, h'.2.trans h.2, h'.3.trans h.3, h'.4.trans h.4, h'.5.trans h.5⟩

/-- The files before are those after. -/
theorem SameFiles.symm (h : SameFiles s s') : SameFiles s' s :=
  ⟨h.1.symm, h.2.symm, h.3.symm, h.4.symm, h.5.symm⟩

/-- `suspend` notes the call of a process. -/
theorem SameFiles.suspend (s : State) (fp : Proc) (task : Int) (fd : Fd) (call : Option RwFlag)
    (buffer : Nat) (nbytes : Int) : SameFiles s (suspend s fp task fd call buffer nbytes) := by
  unfold Pipes.suspend
  dsimp only
  split
  · exact ⟨rfl, rfl, rfl, rfl, rfl⟩
  · exact ⟨rfl, rfl, rfl, rfl, rfl⟩

/-- `revive` marks a process. -/
theorem SameFiles.revive (s : State) (p : Proc) (bytes : Int) : SameFiles s (revive s p bytes) := by
  unfold Pipes.revive
  dsimp only
  split
  · exact .refl s
  · split
    · exact ⟨rfl, rfl, rfl, rfl, rfl⟩
    · exact ⟨rfl, rfl, rfl, rfl, rfl⟩

/-- A process that waits for a pipe is revived. -/
theorem SameFiles.releaseOne (s : State) (rp : Proc) : SameFiles s (releaseOne s rp) := by
  have h := SameFiles.revive s rp 0
  exact ⟨h.1, h.2, h.3, h.4, h.5⟩

/-- So are the processes of the loop. -/
theorem SameFiles.releaseLoop (nil : Option InodePtr) (ip : InodePtr) (call : RwFlag)
    (l : List Proc) (count : Nat) (s : State) :
    SameFiles s (releaseLoop nil ip call l count s) := by
  induction l generalizing count s with
  | nil => exact .refl s
  | cons rp l ih =>
    unfold Pipes.releaseLoop
    split
    · split
      · exact .releaseOne s rp
      · exact (SameFiles.releaseOne s rp).trans (ih _ _)
    · exact ih _ _

/-- `release` only revives processes. -/
theorem SameFiles.release (s : State) (nil : Option InodePtr) (ip : InodePtr) (call : RwFlag)
    (count : Nat) : SameFiles s (release s nil ip call count) :=
  .releaseLoop nil ip call _ count s

/-- `do_unpause` ends the call of a process. -/
theorem SameFiles.doUnpause (s : State) (p : Proc) : SameFiles s (doUnpause s p) := by
  unfold Pipes.doUnpause
  split
  · exact .refl s
  · split
    · exact .revive s p EINTR
    · exact .refl s

/-- A process that is no longer suspended. -/
theorem SameFiles.leaveSuspended (s : State) (p : Proc) : SameFiles s (leaveSuspended s p) := by
  unfold Pipes.leaveSuspended
  split
  · have hcount : SameFiles s
        (if (s.fproc p).fpTask = XPIPE then { s with suspCount := s.suspCount - 1 } else s) := by
      split
      · exact ⟨rfl, rfl, rfl, rfl, rfl⟩
      · exact .refl s
    have h := hcount.trans (.doUnpause _ p)
    exact ⟨h.1, h.2, h.3, h.4, h.5⟩
  · exact .refl s

/-- `pipe_check` suspends and releases processes only. -/
theorem SameFiles.pipeCheck (s : State) (who : Proc) (fd : Fd) (rip : InodePtr) (flag : RwFlag)
    (buffer : Nat) (bytes : Int) (position : Nat) :
    SameFiles s (pipeCheck s who fd rip flag buffer bytes position).2 := by
  have hsusp := SameFiles.suspend s who XPIPE fd (some flag) buffer bytes
  unfold Pipes.pipeCheck
  cases pipeVerdict s rip flag bytes position with
  | empty writer =>
    cases writer with
    | true =>
      dsimp only
      split
      · exact hsusp.trans (.release _ none rip .WRITING 1)
      · exact hsusp
    | false => exact .refl s
  | tooBig => exact .refl s
  | broken => exact .refl s
  | full => exact hsusp
  | go wake =>
    cases wake with
    | true => exact .release s none rip .READING 1
    | false => exact .refl s

end SameFiles

/-- Both slots of a new pipe. -/
def pipeFiles (t : Files) (who : Proc) (k₀ : Fd) (f₀ : FilpPtr) (k₁ : Fd) (f₁ : FilpPtr)
    (rip : InodePtr) : Files :=
  openFiles (openFiles t who k₀ f₀ ⟨true, false⟩ rip) who k₁ f₁ ⟨false, true⟩ rip

/-- Nobody but a process, the caller or a new child, gets other descriptors, and no slot in use
comes to nothing. -/
inductive Grows (who : Proc) (s s' : State) : Prop
  /-- free slots, positions in other files, and counts of other inodes -/
  | rest (hfd : s'.files.fpFilp = s.files.fpFilp)
      (hfilp : ∀ f, (s'.files.filp f).filpCount = (s.files.filp f).filpCount ∧
        ((s.files.filp f).filpCount ≠ 0 →
          (s'.files.filp f).filpMode = (s.files.filp f).filpMode ∧
          (s'.files.filp f).filpIno = (s.files.filp f).filpIno ∧
          ((s.inode (s.files.filp f).filpIno).iPipe = true →
            (s'.files.filp f).filpPos = (s.files.filp f).filpPos)))
      (hinode : ∀ rip, s'.inode rip = s.inode rip ∨ (s.inode rip).iPipe = false ∧
        (s'.inode rip).iPipe = false ∧ (users s.files rip).card ≤ (s'.inode rip).iCount)
      (hlive : s'.live = s.live) (hw : s'.writes = s.writes) (hr : s'.reads = s.reads)
  | opened {k : Fd} {f : FilpPtr} {bits : Bits} {rip : InodePtr} (hlive : s.live who = true)
      (hk : s.files.fpFilp who k = none) (hf : (s.files.filp f).filpCount = 0)
      (hp : (s.inode rip).iPipe = false)
      (h : SameFiles { setInode s rip { s.inode rip with iCount := (s.inode rip).iCount + 1 } with
        files := openFiles s.files who k f bits rip } s')
  | shared {k j : Fd} {f : FilpPtr} (hj : s.files.fpFilp who j = some f)
      (hk : s.files.fpFilp who k = none)
      (h : SameFiles { s with files := shareFilp s.files who k f } s')
  | forked {parent : Proc} (hc : ∀ k, s.files.fpFilp who k = none) (hmm : who ≠ MM)
      (h : SameFiles { s with
        files := forkFiles s.files parent who, live := update s.live who true } s')
  | piped {k₀ k₁ : Fd} {f₀ f₁ : FilpPtr} {rip : InodePtr} {scale : Nat} {sMaxSize : Int}
      (hlive : s.live who = true) (hmm : who ≠ MM) (hk₀ : s.files.fpFilp who k₀ = none)
      (hk₁ : s.files.fpFilp who k₁ = none) (hk : k₁ ≠ k₀) (hf₀ : (s.files.filp f₀).filpCount = 0)
      (hf₁ : (s.files.filp f₁).filpCount = 0) (hf : f₁ ≠ f₀) (hi : (s.inode rip).iCount = 0)
      (h : SameFiles { newPipe s rip scale sMaxSize with
        files := pipeFiles s.files who k₀ f₀ k₁ f₁ rip } s')

/-- A descriptor is given up, and with the last one for a slot also the inode. -/
def closed (s : State) (fp : Proc) (k : Fd) (f : FilpPtr) : State :=
  { (if (s.files.filp f).filpCount - 1 = 0 then putInode s (s.files.filp f).filpIno else s) with
    files := dropFd s.files fp k f }

/-- What can happen to descriptors, slots and inodes. -/
inductive Change (ok : Io → Prop) (s s' : State) : Prop
  | grows {who : Proc} (h : Grows who s s')
  | closed {who : Proc} {k : Fd} {f : FilpPtr} (hk : s.files.fpFilp who k = some f)
      (h : SameFiles (closed s who k f) s')
  | died {p : Proc} (hp : ∀ k, s.files.fpFilp p k = none)
      (h : SameFiles { s with live := update s.live p false } s')
  | wrote {who : Proc} {k : Fd} {f : FilpPtr} {rip : InodePtr} {buffer n : Nat} {io : Io}
      (hk : s.files.fpFilp who k = some f) (hr : (s.files.filp f).filpIno = rip)
      (hp : (s.inode rip).iPipe = true) (hm : (s.files.filp f).filpMode.r = false)
      (hn : (s.files.filp f).filpPos + n ≤ PIPE_SIZE) (hio : ok io)
      (h : SameFiles (transfer s who f rip .WRITING (s.inode rip).iSize (s.files.filp f).filpPos
        buffer n io) s')
  | read {who : Proc} {k : Fd} {f : FilpPtr} {rip : InodePtr} {buffer n : Nat} {io : Io}
      (hk : s.files.fpFilp who k = some f) (hr : (s.files.filp f).filpIno = rip)
      (hp : (s.inode rip).iPipe = true) (hm : (s.files.filp f).filpMode.r = true)
      (hpos : (s.files.filp f).filpPos < (s.inode rip).iSize) (hio : ok io)
      (h : SameFiles (transfer s who f rip .READING (s.inode rip).iSize (s.files.filp f).filpPos
        buffer n io) s')

section Tidy

variable {s s' : State} {who p : Proc} {k : Fd} {f : FilpPtr} {rip : InodePtr}

/-- What is said of files holds of a state with the same files. -/
theorem Tidy.congr (h : Tidy s) (hs : SameFiles s s') : Tidy s' := by
  obtain ⟨hf, hi, hl, -, -⟩ := hs
  constructor
  · rw [hf]
    exact h.counted
  · rw [hf, hi]
    exact h.counts
  · rw [hf, hl]
    exact h.idle
  · rw [hf, hi]
    exact h.mm
  · rw [hf, hi]
    exact h.ends

/-- Slots that stay as they are keep the ends of a pipe. -/
theorem EndsOf.mono {t t' : Files} {ip ip' : Inode} (h : EndsOf t rip ip)
    (hsub : ∀ f ∈ users t' rip, f ∈ users t rip ∧
      (t'.filp f).filpMode = (t.filp f).filpMode ∧ (t'.filp f).filpPos = (t.filp f).filpPos)
    (hsize : ip'.iSize = ip.iSize) : EndsOf t' rip ip' := by
  refine ⟨fun f hf => ?_, fun f hf g hg he => ?_, fun f hf hm => ?_, fun f hf hm => ?_, ?_⟩
  · obtain ⟨hf, hm, -⟩ := hsub f hf
    rw [hm]
    exact h.mode f hf
  · obtain ⟨hf, hmf, -⟩ := hsub f hf
    obtain ⟨hg, hmg, -⟩ := hsub g hg
    rw [hmf, hmg] at he
    exact h.unique f hf g hg he
  · obtain ⟨hf, hmf, hpos⟩ := hsub f hf
    rw [hmf] at hm
    rw [hpos, hsize]
    exact h.writer f hf hm
  · obtain ⟨hf, hmf, hpos⟩ := hsub f hf
    rw [hmf] at hm
    rw [hpos, hsize]
    exact h.reader f hf hm
  · rw [hsize]
    exact h.size

/-- A slot that a descriptor leads to is in use. -/
theorem Tidy.inUse (h : Tidy s) (hk : s.files.fpFilp p k = some f) :
    (s.files.filp f).filpCount ≠ 0 := Nat.ne_of_gt (h.counted.pos hk)

/-- An inode that nobody uses has no slots. -/
theorem Tidy.no_users (h : Tidy s) (hi : (s.inode rip).iCount = 0) : users s.files rip = ∅ :=
  Finset.card_eq_zero.mp (Nat.le_zero.mp (hi ▸ h.counts rip))

/-- Slots that keep their count, mode and inode, and pipes that keep their ends. -/
theorem Tidy.rest (h : Tidy s) (hfd : s'.files.fpFilp = s.files.fpFilp)
    (hfilp : ∀ f, (s'.files.filp f).filpCount = (s.files.filp f).filpCount ∧
      ((s.files.filp f).filpCount ≠ 0 →
        (s'.files.filp f).filpMode = (s.files.filp f).filpMode ∧
        (s'.files.filp f).filpIno = (s.files.filp f).filpIno ∧
        ((s.inode (s.files.filp f).filpIno).iPipe = true →
          (s'.files.filp f).filpPos = (s.files.filp f).filpPos)))
    (hinode : ∀ rip, s'.inode rip = s.inode rip ∨ (s.inode rip).iPipe = false ∧
      (s'.inode rip).iPipe = false ∧ (users s.files rip).card ≤ (s'.inode rip).iCount)
    (hlive : s'.live = s.live) : Tidy s' := by
  have husers : ∀ rip, users s'.files rip = users s.files rip :=
    users_congr (fun f => by rw [(hfilp f).1]) fun f hf => ((hfilp f).2 hf).2.1
  constructor
  · intro f
    rw [(hfilp f).1, hfd]
    exact h.counted f
  · intro rip
    rw [husers]
    rcases hinode rip with he | ⟨-, -, hc⟩
    · rw [he]
      exact h.counts rip
    · exact hc
  · rw [hlive, hfd]
    exact h.idle
  · intro k f hk
    rw [hfd] at hk
    rw [((hfilp f).2 (h.inUse hk)).2.1]
    rcases hinode (s.files.filp f).filpIno with he | ⟨-, hp, -⟩
    · rw [he]
      exact h.mm k f hk
    · exact hp
  · intro rip hp
    rcases hinode rip with he | ⟨-, hp', -⟩
    · rw [he] at hp ⊢
      refine (h.ends rip hp).mono (fun f hf => ?_) rfl
      rw [husers] at hf
      obtain ⟨hc, hi⟩ := mem_users.mp hf
      obtain ⟨hm, -, hpos⟩ := (hfilp f).2 hc
      exact ⟨hf, hm, hpos (hi ▸ hp)⟩
    · rw [hp'] at hp
      cases hp

/-- A file that is not a pipe is opened. -/
theorem Tidy.opened {bits : Bits} (h : Tidy s) (hlive : s.live who = true)
    (hk : s.files.fpFilp who k = none) (hf : (s.files.filp f).filpCount = 0)
    (hp : (s.inode rip).iPipe = false) :
    Tidy { setInode s rip { s.inode rip with iCount := (s.inode rip).iCount + 1 } with
      files := openFiles s.files who k f bits rip } := by
  have hpipe : ∀ ip, (update s.inode rip { s.inode rip with
      iCount := (s.inode rip).iCount + 1 } ip).iPipe = (s.inode ip).iPipe := by
    intro ip
    by_cases he : ip = rip
    · subst he
      rw [update_self]
    · rw [update_of_ne he]
  have hfd : ∀ q i g, (openFiles s.files who k f bits rip).fpFilp q i = some g →
      s.files.fpFilp q i = some g ∨ q = who ∧ g = f := by
    intro q i g hg
    rw [openFiles_fd] at hg
    by_cases hq : q = who
    · subst hq
      rw [update_self] at hg
      by_cases hi : i = k
      · subst hi
        rw [update_self] at hg
        exact .inr ⟨rfl, (Option.some.inj hg).symm⟩
      · rw [update_of_ne hi] at hg
        exact .inl hg
    · rw [update_of_ne hq] at hg
      exact .inl hg
  constructor
  · exact h.counted.openFiles hk hf bits rip
  · intro ip
    have hcard := h.counts ip
    change (users (openFiles s.files who k f bits rip) ip).card ≤ (update s.inode rip _ ip).iCount
    rw [users_openFiles hf]
    by_cases he : ip = rip
    · subst he
      rw [if_pos rfl, update_self]
      exact (Finset.card_insert_le _ _).trans (Nat.succ_le_succ hcard)
    · rw [if_neg he, update_of_ne he]
      exact hcard
  · intro q hq i
    change (openFiles s.files who k f bits rip).fpFilp q i = none
    rw [openFiles_fd]
    rw [update_of_ne]
    · exact h.idle q hq i
    · rintro rfl
      exact absurd (hlive.symm.trans hq) Bool.noConfusion
  · intro i g hg
    change (update s.inode rip _ ((openFiles s.files who k f bits rip).filp g).filpIno).iPipe = false
    rw [hpipe]
    by_cases hgf : g = f
    · subst hgf
      rw [openFiles_self]
      exact hp
    · rw [openFiles_ne _ _ _ _ _ hgf]
      exact h.mm i g ((hfd MM i g hg).resolve_right fun hc => hgf hc.2)
  · intro ip hip
    have hip' : (s.inode ip).iPipe = true := (hpipe ip).symm.trans hip
    have hne : ip ≠ rip := by
      intro he
      rw [he, hp] at hip'
      cases hip'
    change EndsOf (openFiles s.files who k f bits rip) ip (update s.inode rip _ ip)
    rw [update_of_ne hne]
    refine (h.ends ip hip').mono (fun g hg => ?_) rfl
    rw [users_openFiles hf, if_neg hne] at hg
    have hgf : g ≠ f := by
      rintro rfl
      exact (mem_users.mp hg).1 hf
    rw [openFiles_ne _ _ _ _ _ hgf]
    exact ⟨hg, rfl, rfl⟩

/-- Only counts are different, and slots and pipes may have become free. -/
theorem Tidy.recount (h : Tidy s) (hsame : ∀ g,
      (s'.files.filp g).filpMode = (s.files.filp g).filpMode ∧
      (s'.files.filp g).filpIno = (s.files.filp g).filpIno ∧
      (s'.files.filp g).filpPos = (s.files.filp g).filpPos)
    (hcounted : Counted s'.files) (hsub : ∀ ip, users s'.files ip ⊆ users s.files ip)
    (hcounts : ∀ ip, (users s'.files ip).card ≤ (s'.inode ip).iCount)
    (hidle : ∀ p, s'.live p = false → ∀ k, s'.files.fpFilp p k = none)
    (hmm : ∀ k f, s'.files.fpFilp MM k = some f → ∃ j, s.files.fpFilp MM j = some f)
    (hinode : ∀ ip, (s'.inode ip).iPipe = true →
      (s.inode ip).iPipe = true ∧ (s'.inode ip).iSize = (s.inode ip).iSize) : Tidy s' := by
  refine ⟨hcounted, hcounts, hidle, fun k f hk => ?_, fun ip hp => ?_⟩
  · obtain ⟨j, hj⟩ := hmm k f hk
    have hnot := h.mm j f hj
    rw [(hsame f).2.1]
    by_contra hp
    rw [(hinode _ (Bool.eq_true_of_not_eq_false hp)).1] at hnot
    cases hnot
  · obtain ⟨hp', hsize⟩ := hinode ip hp
    exact (h.ends ip hp').mono (fun g hg => ⟨hsub ip hg, (hsame g).1, (hsame g).2.2⟩) hsize

/-- One more descriptor for an open file. -/
theorem Tidy.shared {j : Fd} (h : Tidy s) (hj : s.files.fpFilp who j = some f)
    (hk : s.files.fpFilp who k = none) : Tidy { s with files := shareFilp s.files who k f } := by
  have husers : ∀ ip, users (shareFilp s.files who k f) ip = users s.files ip :=
    users_share (h.inUse hj) who k
  have hfd : ∀ q i g, (shareFilp s.files who k f).fpFilp q i = some g →
      ∃ i, s.files.fpFilp q i = some g := by
    intro q i g hg
    unfold shareFilp at hg
    dsimp only at hg
    by_cases hq : q = who
    · subst hq
      rw [update_self] at hg
      by_cases hi : i = k
      · subst hi
        rw [update_self] at hg
        exact ⟨j, hj.trans hg⟩
      · rw [update_of_ne hi] at hg
        exact ⟨i, hg⟩
    · rw [update_of_ne hq] at hg
      exact ⟨i, hg⟩
  refine h.recount (fun g => ?_) (h.counted.share hk f) (fun ip => (husers ip).le)
    (fun ip => ?_) (fun q hq i => ?_) (fun i g hg => hfd MM i g hg) fun ip hp => ⟨hp, rfl⟩
  · unfold shareFilp
    dsimp only
    by_cases hg : g = f
    · subst hg
      rw [update_self]
      exact ⟨rfl, rfl, rfl⟩
    · rw [update_of_ne hg]
      exact ⟨rfl, rfl, rfl⟩
  · rw [husers]
    exact h.counts ip
  · by_contra hne
    obtain ⟨g, hg⟩ := Option.ne_none_iff_exists'.mp hne
    obtain ⟨i', hi'⟩ := hfd q i g hg
    rw [h.idle q hq i'] at hi'
    cases hi'

/-- A child shares all the files of its parent. -/
theorem Tidy.forked (h : Tidy s) (parent : Proc) {child : Proc}
    (hc : ∀ k, s.files.fpFilp child k = none) (hmm : child ≠ MM) :
    Tidy { s with
      files := forkFiles s.files parent child, live := update s.live child true } := by
  have husers : ∀ ip, users (forkFiles s.files parent child) ip = users s.files ip :=
    h.counted.users_fork parent child
  refine h.recount (fun g => ⟨rfl, rfl, rfl⟩) (h.counted.fork parent hc) (fun ip => (husers ip).le)
    (fun ip => ?_) (fun q hq i => ?_) (fun i g hg => ⟨i, ?_⟩) fun ip hp => ⟨hp, rfl⟩
  · rw [husers]
    exact h.counts ip
  · change update s.live child true q = false at hq
    have hne : q ≠ child := by
      rintro rfl
      rw [update_self] at hq
      cases hq
    rw [update_of_ne hne] at hq
    change update s.files.fpFilp child _ q i = none
    rw [update_of_ne hne]
    exact h.idle q hq i
  · change update s.files.fpFilp child _ MM i = some g at hg
    rwa [update_of_ne (Ne.symm hmm)] at hg

/-- A process without descriptors goes away. -/
theorem Tidy.died (h : Tidy s) (hp : ∀ k, s.files.fpFilp p k = none) :
    Tidy { s with live := update s.live p false } := by
  refine ⟨h.counted, h.counts, fun q hq => ?_, h.mm, h.ends⟩
  change update s.live p false q = false at hq
  by_cases hne : q = p
  · subst hne
    exact hp
  · rw [update_of_ne hne] at hq
    exact h.idle q hq

/-- `put_inode` takes one user away, and what remains a pipe is as it was. -/
theorem putInode_inode (s : State) (rip ip : InodePtr) :
    ((putInode s rip).inode ip).iCount = (s.inode ip).iCount - (if ip = rip then 1 else 0) ∧
    (((putInode s rip).inode ip).iPipe = true →
      (s.inode ip).iPipe = true ∧ ((putInode s rip).inode ip).iSize = (s.inode ip).iSize) := by
  unfold putInode setInode
  dsimp only
  by_cases he : ip = rip
  · subst he
    rw [update_self, if_pos rfl]
    split
    · rename_i hc
      exact ⟨hc.1.symm, fun hp => Bool.noConfusion hp⟩
    · exact ⟨rfl, fun hp => ⟨hp, rfl⟩⟩
  · rw [update_of_ne he, if_neg he]
    exact ⟨rfl, fun hp => ⟨hp, rfl⟩⟩

/-- Closing takes the descriptor away. -/
theorem closed_files (s : State) (fp : Proc) (k : Fd) (f : FilpPtr) :
    (closed s fp k f).files = dropFd s.files fp k f := rfl

/-- The inode loses a user with the last descriptor of the slot. -/
theorem closed_inode (s : State) (fp : Proc) (k : Fd) (f : FilpPtr) : (closed s fp k f).inode =
    if (s.files.filp f).filpCount - 1 = 0 then (putInode s (s.files.filp f).filpIno).inode
    else s.inode := by
  unfold closed
  split
  · rfl
  · rfl

/-- The other descriptors were there before. -/
theorem dropFd_fd {t : Files} {q : Proc} {i : Fd} {g : FilpPtr}
    (hg : (dropFd t p k f).fpFilp q i = some g) : t.fpFilp q i = some g := by
  unfold dropFd at hg
  dsimp only at hg
  by_cases hq : q = p
  · subst hq
    rw [update_self] at hg
    by_cases hi : i = k
    · subst hi
      rw [update_self] at hg
      cases hg
    · rwa [update_of_ne hi] at hg
  · rwa [update_of_ne hq] at hg

/-- The slots keep their mode, inode and position. -/
theorem dropFd_filp (t : Files) (p : Proc) (k : Fd) (f g : FilpPtr) :
    ((dropFd t p k f).filp g).filpMode = (t.filp g).filpMode ∧
    ((dropFd t p k f).filp g).filpIno = (t.filp g).filpIno ∧
    ((dropFd t p k f).filp g).filpPos = (t.filp g).filpPos := by
  unfold dropFd
  dsimp only
  by_cases hg : g = f
  · subst hg
    rw [update_self]
    exact ⟨rfl, rfl, rfl⟩
  · rw [update_of_ne hg]
    exact ⟨rfl, rfl, rfl⟩

/-- A descriptor is closed. -/
theorem Tidy.closed (h : Tidy s) (hk : s.files.fpFilp who k = some f) :
    Tidy (closed s who k f) := by
  have hfree := h.counted.mem_users hk
  have hlive : (Pipes.closed s who k f).live = s.live := by
    unfold Pipes.closed putInode setInode
    split
    · rfl
    · rfl
  refine h.recount (dropFd_filp s.files who k f) (h.counted.drop hk) (fun ip => ?_) (fun ip => ?_)
    (fun q hq i => ?_) (fun i g hg => ⟨i, dropFd_fd hg⟩) fun ip hp => ?_
  · rw [closed_files, users_drop]
    split
    · exact Finset.erase_subset _ _
    · exact subset_rfl
  · have hcard := h.counts ip
    rw [closed_files, users_drop, closed_inode]
    split
    · rw [(putInode_inode s _ ip).1]
      by_cases he : ip = (s.files.filp f).filpIno
      · subst he
        rw [if_pos rfl, Finset.card_erase_of_mem hfree]
        exact Nat.sub_le_sub_right hcard 1
      · rw [if_neg he]
        exact (Finset.card_erase_le).trans hcard
    · exact hcard
  · rw [hlive] at hq
    by_contra hne
    obtain ⟨g, hg⟩ := Option.ne_none_iff_exists'.mp hne
    have hg' := dropFd_fd hg
    rw [h.idle q hq i] at hg'
    cases hg'
  · rw [closed_inode] at hp ⊢
    by_cases hz : (s.files.filp f).filpCount - 1 = 0
    · rw [if_pos hz] at hp ⊢
      exact (putInode_inode s _ ip).2 hp
    · rw [if_neg hz] at hp ⊢
      exact ⟨hp, rfl⟩

/-- A pipe is made, with an end for reading and one for writing. -/
theorem Tidy.piped {k₀ k₁ : Fd} {f₀ f₁ : FilpPtr} (h : Tidy s) (hlive : s.live who = true)
    (hmm : who ≠ MM) (hk₀ : s.files.fpFilp who k₀ = none) (hk₁ : s.files.fpFilp who k₁ = none)
    (hk : k₁ ≠ k₀) (hf₀ : (s.files.filp f₀).filpCount = 0) (hf₁ : (s.files.filp f₁).filpCount = 0)
    (hf : f₁ ≠ f₀) (hi : (s.inode rip).iCount = 0) (scale : Nat) (sMaxSize : Int) :
    Tidy { newPipe s rip scale sMaxSize with
      files := pipeFiles s.files who k₀ f₀ k₁ f₁ rip } := by
  have hempty := h.no_users hi
  have hk₁' : (openFiles s.files who k₀ f₀ ⟨true, false⟩ rip).fpFilp who k₁ = none := by
    rw [openFiles_fd, update_self, update_of_ne hk]
    exact hk₁
  have hf₁' : ((openFiles s.files who k₀ f₀ ⟨true, false⟩ rip).filp f₁).filpCount = 0 := by
    rw [openFiles_ne _ _ _ _ _ hf]
    exact hf₁
  have husers : ∀ ip, users (pipeFiles s.files who k₀ f₀ k₁ f₁ rip) ip =
      if ip = rip then {f₁, f₀} else users s.files ip := by
    intro ip
    unfold pipeFiles
    rw [users_openFiles hf₁', users_openFiles hf₀]
    by_cases he : ip = rip
    · rw [if_pos he, if_pos he, if_pos he, he, hempty]
      rfl
    · rw [if_neg he, if_neg he, if_neg he]
  have hfilp₁ : (pipeFiles s.files who k₀ f₀ k₁ f₁ rip).filp f₁ = ⟨⟨false, true⟩, 1, rip, 0⟩ :=
    openFiles_self ..
  have hfilp₀ : (pipeFiles s.files who k₀ f₀ k₁ f₁ rip).filp f₀ = ⟨⟨true, false⟩, 1, rip, 0⟩ := by
    unfold pipeFiles
    rw [openFiles_ne _ _ _ _ _ (Ne.symm hf)]
    exact openFiles_self ..
  have hfilp : ∀ g, g ≠ f₁ → g ≠ f₀ →
      (pipeFiles s.files who k₀ f₀ k₁ f₁ rip).filp g = s.files.filp g := by
    intro g h₁ h₀
    unfold pipeFiles
    rw [openFiles_ne _ _ _ _ _ h₁, openFiles_ne _ _ _ _ _ h₀]
  have hfd : ∀ q, q ≠ who →
      (pipeFiles s.files who k₀ f₀ k₁ f₁ rip).fpFilp q = s.files.fpFilp q := by
    intro q hq
    unfold pipeFiles
    rw [openFiles_fd, update_of_ne hq, openFiles_fd, update_of_ne hq]
  have hfree : ∀ g, (s.files.filp g).filpCount ≠ 0 → g ≠ f₁ ∧ g ≠ f₀ := by
    intro g hg
    constructor
    · rintro rfl
      exact hg hf₁
    · rintro rfl
      exact hg hf₀
  constructor
  · exact (h.counted.openFiles hk₀ hf₀ ⟨true, false⟩ rip).openFiles hk₁' hf₁' ⟨false, true⟩ rip
  · intro ip
    change (users (pipeFiles s.files who k₀ f₀ k₁ f₁ rip) ip).card ≤ (update s.inode rip _ ip).iCount
    rw [husers]
    by_cases he : ip = rip
    · subst he
      rw [if_pos rfl, update_self]
      exact Finset.card_le_two
    · rw [if_neg he, update_of_ne he]
      exact h.counts ip
  · intro q hq i
    have hne : q ≠ who := by
      rintro rfl
      exact absurd (hlive.symm.trans hq) Bool.noConfusion
    change (pipeFiles s.files who k₀ f₀ k₁ f₁ rip).fpFilp q i = none
    rw [hfd q hne]
    exact h.idle q hq i
  · intro i g hg
    change (pipeFiles s.files who k₀ f₀ k₁ f₁ rip).fpFilp MM i = some g at hg
    rw [hfd MM (Ne.symm hmm)] at hg
    have hg' := h.inUse hg
    change (update s.inode rip _
      ((pipeFiles s.files who k₀ f₀ k₁ f₁ rip).filp g).filpIno).iPipe = false
    rw [hfilp g (hfree g hg').1 (hfree g hg').2, update_of_ne]
    · exact h.mm i g hg
    · intro he
      have hmem := h.counted.mem_users hg
      rw [he, hempty] at hmem
      cases hmem
  · intro ip hip
    change EndsOf (pipeFiles s.files who k₀ f₀ k₁ f₁ rip) ip (update s.inode rip _ ip)
    change (update s.inode rip _ ip).iPipe = true at hip
    by_cases he : ip = rip
    · subst he
      rw [update_self]
      have hcases : ∀ g ∈ users (pipeFiles s.files who k₀ f₀ k₁ f₁ ip) ip, g = f₁ ∨ g = f₀ := by
        intro g hg
        rw [husers, if_pos rfl, Finset.mem_insert, Finset.mem_singleton] at hg
        exact hg
      refine ⟨fun g hg => ?_, fun g hg g' hg' hm => ?_, fun g hg _ => ?_, fun g hg _ => ?_,
        Nat.zero_le _⟩
      · rcases hcases g hg with rfl | rfl
        · rw [hfilp₁]
          rfl
        · rw [hfilp₀]
          rfl
      · rcases hcases g hg with rfl | rfl
        · rcases hcases g' hg' with rfl | rfl
          · rfl
          · rw [hfilp₁, hfilp₀] at hm
            cases hm
        · rcases hcases g' hg' with rfl | rfl
          · rw [hfilp₁, hfilp₀] at hm
            cases hm
          · rfl
      · rcases hcases g hg with rfl | rfl
        · rw [hfilp₁]
        · rw [hfilp₀]
      · rcases hcases g hg with rfl | rfl
        · rw [hfilp₁]
          exact .inr ⟨rfl, rfl⟩
        · rw [hfilp₀]
          exact .inr ⟨rfl, rfl⟩
    · rw [update_of_ne he] at hip ⊢
      refine (h.ends ip hip).mono (fun g hg => ?_) rfl
      rw [husers, if_neg he] at hg
      have hg' := hfree g (mem_users.mp hg).1
      rw [hfilp g hg'.1 hg'.2]
      exact ⟨hg, rfl, rfl⟩

/-- Only positions and the size of one pipe are different. -/
theorem Tidy.repos (h : Tidy s) (hp : (s.inode rip).iPipe = true)
    (hfd : s'.files.fpFilp = s.files.fpFilp)
    (hfilp : ∀ g, (s'.files.filp g).filpCount = (s.files.filp g).filpCount ∧
      (s'.files.filp g).filpMode = (s.files.filp g).filpMode ∧
      (s'.files.filp g).filpIno = (s.files.filp g).filpIno ∧
      ((s.files.filp g).filpIno ≠ rip → (s'.files.filp g).filpPos = (s.files.filp g).filpPos))
    (hinode : ∀ ip, ip ≠ rip → s'.inode ip = s.inode ip)
    (hpipe : (s'.inode rip).iPipe = true ∧ (s'.inode rip).iCount = (s.inode rip).iCount)
    (hlive : s'.live = s.live) (hends : EndsOf s'.files rip (s'.inode rip)) : Tidy s' := by
  have husers : ∀ ip, users s'.files ip = users s.files ip :=
    users_congr (fun g => by rw [(hfilp g).1]) fun g _ => (hfilp g).2.2.1
  constructor
  · intro g
    rw [(hfilp g).1, hfd]
    exact h.counted g
  · intro ip
    rw [husers]
    by_cases he : ip = rip
    · subst he
      rw [hpipe.2]
      exact h.counts ip
    · rw [hinode ip he]
      exact h.counts ip
  · rw [hlive, hfd]
    exact h.idle
  · intro k g hg
    rw [hfd] at hg
    have hnot := h.mm k g hg
    rw [(hfilp g).2.2.1, hinode]
    · exact hnot
    · intro he
      rw [he, hp] at hnot
      cases hnot
  · intro ip hip
    by_cases he : ip = rip
    · subst he
      exact hends
    · rw [hinode ip he] at hip ⊢
      refine (h.ends ip hip).mono (fun g hg => ?_) rfl
      rw [husers] at hg
      have hne : (s.files.filp g).filpIno ≠ rip := by
        rw [(mem_users.mp hg).2]
        exact he
      exact ⟨hg, (hfilp g).2.1, (hfilp g).2.2.2 hne⟩

/-- Only the position of one slot changes. -/
theorem setPos_filp (t : Files) (f g : FilpPtr) (position : Nat) :
    ((setPos t f position).filp g).filpCount = (t.filp g).filpCount ∧
    ((setPos t f position).filp g).filpMode = (t.filp g).filpMode ∧
    ((setPos t f position).filp g).filpIno = (t.filp g).filpIno ∧
    ((setPos t f position).filp g).filpPos = if g = f then position else (t.filp g).filpPos := by
  unfold setPos
  dsimp only
  by_cases hg : g = f
  · subst hg
    rw [update_self, if_pos rfl]
    exact ⟨rfl, rfl, rfl, rfl⟩
  · rw [update_of_ne hg, if_neg hg]
    exact ⟨rfl, rfl, rfl, rfl⟩

/-- Positions have nothing to do with users. -/
theorem users_setPos (t : Files) (f : FilpPtr) (position : Nat) (ip : InodePtr) :
    users (setPos t f position) ip = users t ip :=
  users_congr (fun g => by rw [(setPos_filp t f g position).1])
    (fun g _ => (setPos_filp t f g position).2.2.1) ip

/-- The end of a write, wherever it stopped: the size and the writer's position stay together. -/
theorem Tidy.wrote {x : Transfer} {n : Nat} (h : Tidy s) (hk : s.files.fpFilp who k = some f)
    (hr : (s.files.filp f).filpIno = rip) (hp : (s.inode rip).iPipe = true)
    (hm : (s.files.filp f).filpMode.r = false) (hn : (s.files.filp f).filpPos + n ≤ PIPE_SIZE)
    (hip : ∃ z, x.ip = { s.inode rip with iZone := z })
    (hpos : (s.files.filp f).filpPos ≤ x.position ∧
      x.position ≤ (s.files.filp f).filpPos + n) (buffer : Nat) :
    Tidy (endWrite s rip f (s.inode rip).iSize (s.files.filp f).filpPos buffer x) := by
  have hend := h.ends rip hp
  have hmem : f ∈ users s.files rip := hr ▸ h.counted.mem_users hk
  have hsize : (s.files.filp f).filpPos = (s.inode rip).iSize := hend.writer f hmem hm
  obtain ⟨z, hz⟩ := hip
  have hfilp := fun g => setPos_filp s.files f g x.position
  have hself : (endWrite s rip f (s.inode rip).iSize (s.files.filp f).filpPos buffer x).inode rip =
      { s.inode rip with iZone := z, iSize := x.position } := by
    unfold endWrite setInode
    dsimp only
    rw [update_self, hz]
    split
    · rfl
    · rw [show x.position = (s.inode rip).iSize by omega]
  refine h.repos hp rfl (fun g => ⟨(hfilp g).1, (hfilp g).2.1, (hfilp g).2.2.1, fun hne => ?_⟩)
    (fun ip hne => update_of_ne hne ..) ?_ rfl ?_
  · refine (hfilp g).2.2.2.trans (if_neg ?_)
    rintro rfl
    exact hne hr
  · rw [hself]
    exact ⟨hp, rfl⟩
  · rw [hself]
    change EndsOf (setPos s.files f x.position) rip _
    have hreader : ∀ g ∈ users s.files rip, (s.files.filp g).filpMode.r = true → g ≠ f := by
      intro g _ hmode he
      rw [he, hm] at hmode
      cases hmode
    refine ⟨fun g hg => ?_, fun g hg g' hg' he => ?_, fun g hg hmode => ?_, fun g hg hmode => ?_,
      hpos.2.trans hn⟩
    · rw [users_setPos] at hg
      rw [(hfilp g).2.1]
      exact hend.mode g hg
    · rw [users_setPos] at hg hg'
      rw [(hfilp g).2.1, (hfilp g').2.1] at he
      exact hend.unique g hg g' hg' he
    · rw [users_setPos] at hg
      rw [(hfilp g).2.1] at hmode
      have he : g = f := hend.unique g hg f hmem (hmode.trans hm.symm)
      exact (hfilp g).2.2.2.trans (if_pos he)
    · rw [users_setPos] at hg
      rw [(hfilp g).2.1] at hmode
      rw [(hfilp g).2.2.2, if_neg (hreader g hg hmode)]
      rcases hend.reader g hg hmode with hlt | ⟨h₀, hs⟩
      · exact .inl (by change _ < x.position; omega)
      · rw [h₀]
        change 0 < x.position ∨ 0 = 0 ∧ x.position = 0
        omega

/-- The positions after the last byte has been read. -/
def rewind (t : Files) (rip : InodePtr) (f : FilpPtr) : Files :=
  setPos (match findFilp t rip Bits.w with
    | some wf => setPos t wf 0
    | none => t) f 0

/-- The positions of a pipe are set back, its descriptors stay. -/
theorem rewind_fd (t : Files) (rip : InodePtr) (f : FilpPtr) :
    (rewind t rip f).fpFilp = t.fpFilp := by
  unfold rewind
  split
  · rfl
  · rfl

/-- Both ends start again, and other slots are left alone. -/
theorem rewind_filp {t : Files} {ip : Inode} (h : EndsOf t rip ip) (hmem : f ∈ users t rip)
    (hm : (t.filp f).filpMode.r = true) (g : FilpPtr) :
    ((rewind t rip f).filp g).filpCount = (t.filp g).filpCount ∧
    ((rewind t rip f).filp g).filpMode = (t.filp g).filpMode ∧
    ((rewind t rip f).filp g).filpIno = (t.filp g).filpIno ∧
    ((t.filp g).filpIno ≠ rip → ((rewind t rip f).filp g).filpPos = (t.filp g).filpPos) ∧
    (g ∈ users t rip → ((rewind t rip f).filp g).filpPos = 0) := by
  have hr := (mem_users.mp hmem).2
  unfold rewind
  cases hw : findFilp t rip Bits.w with
  | none =>
    obtain ⟨h₁, h₂, h₃, h₄⟩ := setPos_filp t f g 0
    refine ⟨h₁, h₂, h₃, fun hne => ?_, fun hg => ?_⟩
    · refine h₄.trans (if_neg ?_)
      rintro rfl
      exact hne hr
    · have hmode := h.mode g hg
      rw [findFilp_none hw (mem_users.mp hg).1 (mem_users.mp hg).2] at hmode
      have he : g = f := h.unique g hg f hmem (by rw [hm]; simpa using hmode)
      exact h₄.trans (if_pos he)
  | some wf =>
    obtain ⟨hwc, hwi, hwm⟩ := findFilp_some hw
    obtain ⟨h₁, h₂, h₃, h₄⟩ := setPos_filp (setPos t wf 0) f g 0
    obtain ⟨w₁, w₂, w₃, w₄⟩ := setPos_filp t wf g 0
    refine ⟨h₁.trans w₁, h₂.trans w₂, h₃.trans w₃, fun hne => ?_, fun hg => ?_⟩
    · rw [h₄, if_neg, w₄, if_neg]
      · rintro rfl
        exact hne hwi
      · rintro rfl
        exact hne hr
    · have hwmem : wf ∈ users t rip := mem_users.mpr ⟨hwc, hwi⟩
      have hwr : (t.filp wf).filpMode.r = false := by
        have := h.mode wf hwmem
        rw [hwm] at this
        simpa using this.symm
      rw [h₄]
      cases hmode : (t.filp g).filpMode.r with
      | true => rw [if_pos (h.unique g hg f hmem (hmode.trans hm.symm))]
      | false =>
        rw [w₄, if_pos (h.unique g hg wf hwmem (hmode.trans hwr.symm))]
        exact ite_self 0

/-- After a read, a pipe that is empty is set back, otherwise the position moves on. -/
theorem endRead_files (s : State) (who : Proc) (rip : InodePtr) (f : FilpPtr) (start buffer : Nat)
    (x : Transfer) : (endRead s who rip f start buffer x).files =
      if x.position ≥ x.ip.iSize then rewind s.files rip f else setPos s.files f x.position := by
  unfold endRead
  dsimp only
  split
  · rfl
  · rfl

/-- A pipe that has been read to its end is empty. -/
theorem endRead_inode (s : State) (who : Proc) (rip : InodePtr) (f : FilpPtr) (start buffer : Nat)
    (x : Transfer) : (endRead s who rip f start buffer x).inode =
      update s.inode rip (if x.position ≥ x.ip.iSize then { x.ip with iSize := 0 } else x.ip) := rfl

/-- The end of a read: the pipe is reset when there is no data left. -/
theorem Tidy.read {x : Transfer} (h : Tidy s) (hk : s.files.fpFilp who k = some f)
    (hr : (s.files.filp f).filpIno = rip) (hp : (s.inode rip).iPipe = true)
    (hm : (s.files.filp f).filpMode.r = true)
    (hip : ∃ z, x.ip = { s.inode rip with iZone := z }) (start buffer : Nat) :
    Tidy (endRead s who rip f start buffer x) := by
  have hend := h.ends rip hp
  have hmem : f ∈ users s.files rip := hr ▸ h.counted.mem_users hk
  obtain ⟨z, hz⟩ := hip
  have hsize : x.ip.iSize = (s.inode rip).iSize := by rw [hz]
  by_cases hd : x.position ≥ x.ip.iSize
  · have hfiles := endRead_files s who rip f start buffer x
    have hself : (endRead s who rip f start buffer x).inode rip =
        { s.inode rip with iZone := z, iSize := 0 } := by
      rw [endRead_inode, update_self, if_pos hd, hz]
    rw [if_pos hd] at hfiles
    have hfilp := rewind_filp hend hmem hm
    have husers : ∀ ip, users (rewind s.files rip f) ip = users s.files ip :=
      users_congr (fun g => by rw [(hfilp g).1]) fun g _ => (hfilp g).2.2.1
    refine h.repos hp ?_ (fun g => ?_) (fun ip hne => update_of_ne hne ..) ?_ rfl ?_
    · rw [hfiles, rewind_fd]
    · rw [hfiles]
      exact ⟨(hfilp g).1, (hfilp g).2.1, (hfilp g).2.2.1, (hfilp g).2.2.2.1⟩
    · rw [hself]
      exact ⟨hp, rfl⟩
    · rw [hself, hfiles]
      refine ⟨fun g hg => ?_, fun g hg g' hg' he => ?_, fun g hg _ => ?_, fun g hg _ => ?_,
        Nat.zero_le _⟩
      · rw [husers] at hg
        rw [(hfilp g).2.1]
        exact hend.mode g hg
      · rw [husers] at hg hg'
        rw [(hfilp g).2.1, (hfilp g').2.1] at he
        exact hend.unique g hg g' hg' he
      · rw [husers] at hg
        exact (hfilp g).2.2.2.2 hg
      · rw [husers] at hg
        exact .inr ⟨(hfilp g).2.2.2.2 hg, rfl⟩
  · have hfiles := endRead_files s who rip f start buffer x
    have hself : (endRead s who rip f start buffer x).inode rip =
        { s.inode rip with iZone := z } := by
      rw [endRead_inode, update_self, if_neg hd, hz]
    rw [if_neg hd] at hfiles
    have hfilp := fun g => setPos_filp s.files f g x.position
    refine h.repos hp ?_ (fun g => ?_) (fun ip hne => update_of_ne hne ..) ?_ rfl ?_
    · rw [hfiles]
      rfl
    · rw [hfiles]
      refine ⟨(hfilp g).1, (hfilp g).2.1, (hfilp g).2.2.1, fun hne => ?_⟩
      refine (hfilp g).2.2.2.trans (if_neg ?_)
      rintro rfl
      exact hne hr
    · rw [hself]
      exact ⟨hp, rfl⟩
    · rw [hself, hfiles]
      refine ⟨fun g hg => ?_, fun g hg g' hg' he => ?_, fun g hg hmode => ?_, fun g hg hmode => ?_,
        hend.size⟩
      · rw [users_setPos] at hg
        rw [(hfilp g).2.1]
        exact hend.mode g hg
      · rw [users_setPos] at hg hg'
        rw [(hfilp g).2.1, (hfilp g').2.1] at he
        exact hend.unique g hg g' hg' he
      · rw [users_setPos] at hg
        rw [(hfilp g).2.1] at hmode
        have hne : g ≠ f := by
          rintro rfl
          rw [hm] at hmode
          cases hmode
        rw [(hfilp g).2.2.2, if_neg hne]
        exact hend.writer g hg hmode
      · rw [users_setPos] at hg
        rw [(hfilp g).2.1] at hmode
        have he : g = f := hend.unique g hg f hmem (hmode.trans hm.symm)
        rw [(hfilp g).2.2.2, if_pos he]
        rw [hsize] at hd
        exact .inl (Nat.lt_of_not_le hd)

/-- Whatever happens keeps things tidy. -/
theorem Tidy.change {ok : Io → Prop} (h : Tidy s) (hc : Change ok s s') : Tidy s' := by
  cases hc with
  | grows hg =>
    cases hg with
    | rest hfd hfilp hinode hlive _ _ => exact h.rest hfd hfilp hinode hlive
    | opened hlive hk hf hp hs => exact (h.opened hlive hk hf hp).congr hs
    | shared hj hk hs => exact (h.shared hj hk).congr hs
    | forked hc hmm hs => exact (h.forked _ hc hmm).congr hs
    | piped hlive hmm hk₀ hk₁ hk hf₀ hf₁ hf hi hs =>
      exact (h.piped hlive hmm hk₀ hk₁ hk hf₀ hf₁ hf hi _ _).congr hs
  | closed hk hs => exact (h.closed hk).congr hs
  | died hp hs => exact (h.died hp).congr hs
  | wrote hk hr hp hm hn _ hs =>
    exact (h.wrote hk hr hp hm hn (rwLoop_ip ..) (rwLoop_position ..) _).congr hs
  | read hk hr hp hm _ _ hs => exact (h.read hk hr hp hm (rwLoop_ip ..) _ _).congr hs

/-- So does a chain of changes. -/
theorem Tidy.changes {ok : Io → Prop} (h : Tidy s)
    (hc : Relation.ReflTransGen (Change ok) s s') : Tidy s' := by
  induction hc with
  | refl => exact h
  | tail _ hc ih => exact ih.change hc

end Tidy

end Minix.FS.Pipes
