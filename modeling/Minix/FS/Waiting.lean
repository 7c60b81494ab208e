import Mathlib.Algebra.BigOperators.Group.Finset.Piecewise
import Minix.FS.PipeCalls

/-!
# Suspended processes

A process that is suspended keeps the descriptor of its call, and what is saved of the call
fits the file: a pipe if it waits for `XPIPE`, something else if a task has suspended it.
The two counters are compared with the processes: `total` and `drift` are zero as long as
`susp_count` and `reviving` are what they should be.
-/

namespace Minix.FS.Pipes

open Function Relation

/-- Suspended on a pipe, also while being revived. -/
def isHung (d : Fproc) : Bool := d.fpSuspended && decide (d.fpTask = XPIPE)

/-- How many processes are in a given way. -/
def number (P : Fproc → Bool) (t : Proc → Fproc) : Nat :=
  (Finset.univ.filter fun p => P (t p) = true).card

/-- What both counters together are off. -/
def total (s : State) : Int := s.suspCount + s.reviving - number isHung s.fproc

/-- How far `reviving` is off. -/
def drift (s : State) : Int := s.reviving - number Fproc.fpRevived s.fproc

/-- What is saved of a call fits the file. -/
structure Waits (s : State) (d : Fproc) (f : FilpPtr) : Prop where
  pipe : d.fpTask = XPIPE → (s.inode (s.files.filp f).filpIno).iPipe = true ∧
    ∃ flag, d.fpCall = some flag ∧ bitOf flag (s.files.filp f).filpMode = true ∧ 0 < d.fpNbytes ∧
      (flag = .WRITING → d.fpNbytes ≤ PIPE_SIZE ∧
        d.fpNbytes ≤ (s.inode (s.files.filp f).filpIno).sMaxSize)
  task : d.fpTask ≠ XPIPE → (s.inode (s.files.filp f).filpIno).iPipe = false

/-- Who is suspended is alive, has the descriptor of its call, and waits for the file. Who is being
revived is suspended on a pipe. -/
structure Waiting (s : State) : Prop where
  onFile : ∀ p, (s.fproc p).fpSuspended = true → s.live p = true ∧
    ∃ f, s.files.fpFilp p (s.fproc p).fpFd = some f ∧ Waits s (s.fproc p) f
  revived : ∀ p, (s.fproc p).fpRevived = true → isHung (s.fproc p) = true

section Number

variable {P : Fproc → Bool} {t : Proc → Fproc} {p : Proc} {d : Fproc}

/-- The number as a sum over the processes. -/
theorem number_eq_sum (P : Fproc → Bool) (t : Proc → Fproc) :
    number P t = ∑ q, if P (t q) = true then 1 else 0 := Finset.card_filter ..

/-- Other data for one process. -/
theorem number_update (P : Fproc → Bool) (t : Proc → Fproc) (p : Proc) (d : Fproc) :
    number P (update t p d) + (if P (t p) = true then 1 else 0) =
      number P t + if P d = true then 1 else 0 := by
  rw [number_eq_sum, number_eq_sum, ← Finset.add_sum_erase _ _ (Finset.mem_univ p),
    ← Finset.add_sum_erase (a := p) _ (fun q => if P (t q) = true then 1 else 0)
      (Finset.mem_univ p), update_self]
  have hrest : (∑ q ∈ Finset.univ.erase p, if P (update t p d q) = true then 1 else 0) =
      ∑ q ∈ Finset.univ.erase p, if P (t q) = true then 1 else 0 := by
    refine Finset.sum_congr rfl fun q hq => ?_
    rw [update_of_ne (Finset.ne_of_mem_erase hq)]
  rw [hrest]
  omega

/-- A slot that counts as before. -/
theorem number_same (hd : P d = P (t p)) : number P (update t p d) = number P t := by
  have h := number_update P t p d
  rw [hd] at h
  omega

/-- A slot that counts from now on. -/
theorem number_more (hp : P (t p) = false) (hd : P d = true) :
    number P (update t p d) = number P t + 1 := by
  have h := number_update P t p d
  rwa [hp, hd, if_neg Bool.false_ne_true, if_pos rfl, add_zero] at h

/-- A slot that no longer counts. -/
theorem number_less (hp : P (t p) = true) (hd : P d = false) :
    number P (update t p d) + 1 = number P t := by
  have h := number_update P t p d
  rwa [hp, hd, if_neg Bool.false_ne_true, if_pos rfl, add_zero] at h

/-- Nothing is counted when no process has the property. -/
theorem number_eq_zero : number P t = 0 ↔ ∀ p, P (t p) = false := by
  unfold number
  rw [Finset.card_eq_zero, Finset.filter_eq_empty_iff]
  constructor
  · intro h p
    exact Bool.eq_false_iff.mpr (h (Finset.mem_univ p))
  · intro h p _
    exact Bool.eq_false_iff.mp (h p)

/-- Something is counted when some process has it. -/
theorem number_pos : 0 < number P t ↔ ∃ p, P (t p) = true := by
  rw [Nat.pos_iff_ne_zero, ne_eq, number_eq_zero, not_forall]
  exact exists_congr fun p => by rw [Bool.not_eq_false]

end Number

/-- The processes and the counters are as they were. -/
structure Calm (s s' : State) : Prop where
  fproc : s'.fproc = s.fproc
  suspCount : s'.suspCount = s.suspCount
  reviving : s'.reviving = s.reviving

section Calm

variable {s s' s₁ : State} {who p : Proc}

/-- A state that stays as it is. -/
theorem Calm.refl (s : State) : Calm s s := ⟨rfl, rfl, rfl⟩

/-- Two calm changes one after the other. -/
theorem Calm.trans (h : Calm s s₁) (h' : Calm s₁ s') : Calm s s' :=
  ⟨h'.1.trans h.1, h'.2.trans h.2, h'.3.trans h.3⟩

/-- The number of suspended processes stays. -/
theorem Calm.total (h : Calm s s') : total s' = total s := by
  unfold Pipes.total
  rw [h.fproc, h.suspCount, h.reviving]

/-- So does what `susp_count` and `reviving` are off by. -/
theorem Calm.drift (h : Calm s s') : drift s' = drift s := by
  unfold Pipes.drift
  rw [h.fproc, h.reviving]

/-- A descriptor that is closed suspends and revives nobody by itself. -/
theorem Calm.closed (s : State) (fp : Proc) (k : Fd) (f : FilpPtr) : Calm s (closed s fp k f) := by
  unfold Pipes.closed
  split
  · exact ⟨rfl, rfl, rfl⟩
  · exact ⟨rfl, rfl, rfl⟩

/-- Neither do the bytes that are moved. -/
theorem Calm.transfer (s : State) (who : Proc) (f : FilpPtr) (rip : InodePtr) (flag : RwFlag)
    (fSize start buffer n : Nat) (io : Io) :
    Calm s (transfer s who f rip flag fSize start buffer n io) := by
  cases flag with
  | READING => exact ⟨rfl, rfl, rfl⟩
  | WRITING => exact ⟨rfl, rfl, rfl⟩

/-- Neither does an open that gets its slot. -/
theorem Calm.doOpen (s : State) (who : Proc) (bits : Bits) (rip : Option InodePtr) :
    Calm s (doOpen s who bits rip) := by
  unfold Pipes.doOpen
  split
  · exact .refl s
  · split
    · exact ⟨rfl, rfl, rfl⟩
    · exact ⟨rfl, rfl, rfl⟩

/-- Neither does a new pipe. -/
theorem Calm.doPipe (s : State) (who : Proc) (dev : Option (Nat × Int)) :
    Calm s (doPipe s who dev) := by
  unfold Pipes.doPipe
  split
  · exact .refl s
  · dsimp only
    split
    · exact ⟨rfl, rfl, rfl⟩
    · split
      · exact ⟨rfl, rfl, rfl⟩
      · exact ⟨rfl, rfl, rfl⟩

end Calm

/-- Nobody but a process gets other descriptors, and a slot in use leads where it did. -/
structure Frame (who : Proc) (s s' : State) : Prop where
  fds : ∀ p, p ≠ who → s'.files.fpFilp p = s.files.fpFilp p
  live : ∀ p, s.live p = true → s'.live p = true
  inUse : ∀ f, (s.files.filp f).filpCount ≠ 0 → (s'.files.filp f).filpCount ≠ 0 ∧
    (s'.files.filp f).filpMode = (s.files.filp f).filpMode ∧
    (s'.files.filp f).filpIno = (s.files.filp f).filpIno
  pipe : ∀ f, (s.files.filp f).filpCount ≠ 0 →
    (s.inode (s.files.filp f).filpIno).iPipe = true →
    s'.inode (s.files.filp f).filpIno = s.inode (s.files.filp f).filpIno ∧
    (s'.files.filp f).filpPos = (s.files.filp f).filpPos
  other : ∀ f, (s.files.filp f).filpCount ≠ 0 →
    (s.inode (s.files.filp f).filpIno).iPipe = false →
    (s'.inode (s.files.filp f).filpIno).iPipe = false

section Frame

variable {s s' s₁ : State} {who p : Proc}

/-- A state that stays as it is. -/
theorem Frame.refl (who : Proc) (s : State) : Frame who s s :=
  ⟨fun _ _ => rfl, fun _ h => h, fun _ h => ⟨h, rfl, rfl⟩, fun _ _ _ => ⟨rfl, rfl⟩, fun _ _ h => h⟩

/-- Two changes of the descriptors of one process one after the other. -/
theorem Frame.trans (h : Frame who s s₁) (h' : Frame who s₁ s') : Frame who s s' := by
  refine ⟨fun p hp => (h'.fds p hp).trans (h.fds p hp), fun p hp => h'.live p (h.live p hp),
    fun f hf => ?_, fun f hf hp => ?_, fun f hf hp => ?_⟩
  · obtain ⟨h₁, h₂, h₃⟩ := h.inUse f hf
    obtain ⟨h₁', h₂', h₃'⟩ := h'.inUse f h₁
    exact ⟨h₁', h₂'.trans h₂, h₃'.trans h₃⟩
  · obtain ⟨h₁, h₂, h₃⟩ := h.inUse f hf
    obtain ⟨hi, hpos⟩ := h.pipe f hf hp
    have h₁' := h'.pipe f h₁
    rw [h₃, hi] at h₁'
    exact ⟨(h₁' hp).1, (h₁' hp).2.trans hpos⟩
  · obtain ⟨h₁, h₂, h₃⟩ := h.inUse f hf
    have h₁' := h'.other f h₁
    rw [h₃] at h₁'
    exact h₁' (h.other f hf hp)

/-- The frame of a state with the same files. -/
theorem Frame.congr (h : Frame who s s₁) (hs : SameFiles s₁ s') : Frame who s s' := by
  refine ⟨fun p hp => ?_, fun p hp => ?_, fun f hf => ?_, fun f hf hp => ?_, fun f hf hp => ?_⟩
  · rw [hs.files]
    exact h.fds p hp
  · rw [hs.live]
    exact h.live p hp
  · rw [hs.files]
    exact h.inUse f hf
  · rw [hs.files, hs.inode]
    exact h.pipe f hf hp
  · rw [hs.inode]
    exact h.other f hf hp

/-- A slot that was free is taken, and the counts of inodes that are not pipes may change. -/
theorem Frame.openFiles {k : Fd} {f : FilpPtr} {bits : Bits} {rip : InodePtr}
    (hfiles : s'.files = FS.openFiles s.files who k f bits rip)
    (hf : (s.files.filp f).filpCount = 0) (hlive : s'.live = s.live)
    (hinode : ∀ g, (s.files.filp g).filpCount ≠ 0 →
      s'.inode (s.files.filp g).filpIno = s.inode (s.files.filp g).filpIno ∨
      (s.inode (s.files.filp g).filpIno).iPipe = false ∧
        (s'.inode (s.files.filp g).filpIno).iPipe = false) : Frame who s s' := by
  have hfilp : ∀ g, (s.files.filp g).filpCount ≠ 0 → s'.files.filp g = s.files.filp g := by
    intro g hg
    rw [hfiles]
    refine openFiles_ne _ _ _ _ _ ?_
    rintro rfl
    exact hg hf
  refine ⟨fun p hp => ?_, fun p hp => ?_, fun g hg => ?_, fun g hg hp => ?_, fun g hg hp => ?_⟩
  · rw [hfiles, openFiles_fd, update_of_ne hp]
  · rw [hlive]
    exact hp
  · rw [hfilp g hg]
    exact ⟨hg, rfl, rfl⟩
  · rw [hfilp g hg]
    rcases hinode g hg with he | ⟨hn, -⟩
    · exact ⟨he, rfl⟩
    · rw [hp] at hn
      cases hn
  · rcases hinode g hg with he | ⟨-, hn⟩
    · rw [he]
      exact hp
    · exact hn

/-- A descriptor that shares a slot belongs to the process that gets it. -/
theorem Frame.shared {k : Fd} {f : FilpPtr} :
    Frame who s { s with files := shareFilp s.files who k f } := by
  refine ⟨fun p hp => update_of_ne hp .., fun _ h => h, fun g hg => ?_, fun g _ _ => ⟨rfl, ?_⟩,
    fun _ _ h => h⟩
  · unfold shareFilp
    dsimp only
    by_cases he : g = f
    · subst he
      rw [update_self]
      exact ⟨Nat.succ_ne_zero _, rfl, rfl⟩
    · rw [update_of_ne he]
      exact ⟨hg, rfl, rfl⟩
  · unfold shareFilp
    dsimp only
    by_cases he : g = f
    · subst he
      rw [update_self]
    · rw [update_of_ne he]

/-- The descriptors of a child are copies. -/
theorem Frame.forked (s : State) (parent child : Proc) : Frame child s { s with
    files := forkFiles s.files parent child, live := update s.live child true } := by
  refine ⟨fun p hp => update_of_ne hp .., fun p hp => ?_, fun g hg => ⟨?_, rfl, rfl⟩,
    fun _ _ _ => ⟨rfl, rfl⟩, fun _ _ h => h⟩
  · change update s.live child true p = true
    by_cases he : p = child
    · subst he
      rw [update_self]
    · rw [update_of_ne he]
      exact hp
  · change (s.files.filp g).filpCount + fdCount (s.files.fpFilp parent) g ≠ 0
    omega

/-- Nobody has a slot for the inode of a new pipe. -/
theorem Frame.newPipe (h : Tidy s) {rip : InodePtr} (hi : (s.inode rip).iCount = 0) (scale : Nat)
    (sMaxSize : Int) : Frame who s (newPipe s rip scale sMaxSize) := by
  have hne : ∀ g, (s.files.filp g).filpCount ≠ 0 → (s.files.filp g).filpIno ≠ rip := by
    intro g hg he
    have hmem : g ∈ users s.files rip := mem_users.mpr ⟨hg, he⟩
    rw [h.no_users hi] at hmem
    cases hmem
  refine ⟨fun _ _ => rfl, fun _ h => h, fun _ h => ⟨h, rfl, rfl⟩,
    fun g hg _ => ⟨update_of_ne (hne g hg) .., rfl⟩, fun g hg hp => ?_⟩
  change (update s.inode rip _ _).iPipe = false
  rw [update_of_ne (hne g hg)]
  exact hp

/-- A piece of `close`, `open` or `fork` is framed. -/
theorem Grows.frame (h : Tidy s) (hg : Grows who s s') : Frame who s s' := by
  cases hg with
  | rest hfd hfilp hinode hlive _ _ =>
    refine ⟨fun p _ => congrFun hfd p, fun p hp => ?_, fun f hf => ?_, fun f hf hp => ?_,
      fun f hf hp => ?_⟩
    · rw [hlive]
      exact hp
    · obtain ⟨hm, hi, -⟩ := (hfilp f).2 hf
      exact ⟨(hfilp f).1 ▸ hf, hm, hi⟩
    · refine ⟨?_, ((hfilp f).2 hf).2.2 hp⟩
      rcases hinode (s.files.filp f).filpIno with he | ⟨hn, -, -⟩
      · exact he
      · rw [hp] at hn
        cases hn
    · rcases hinode (s.files.filp f).filpIno with he | ⟨-, hn, -⟩
      · rw [he]
        exact hp
      · exact hn
  | @opened k f bits rip hlive hk hf hp hs =>
    have hopen : Frame who s { setInode s rip
        { s.inode rip with iCount := (s.inode rip).iCount + 1 } with
          files := FS.openFiles s.files who k f bits rip } := by
      refine .openFiles rfl hf rfl fun g _ => ?_
      change update s.inode rip _ _ = _ ∨ _ ∧ (update s.inode rip _ _).iPipe = false
      by_cases he : (s.files.filp g).filpIno = rip
      · rw [he, update_self]
        exact .inr ⟨hp, hp⟩
      · rw [update_of_ne he]
        exact .inl rfl
    exact hopen.congr hs
  | shared hj hk hs => exact Frame.shared.congr hs
  | forked hc hmm hs => exact (Frame.forked s _ who).congr hs
  | @piped k₀ k₁ f₀ f₁ rip scale sMaxSize hlive hmm hk₀ hk₁ hk hf₀ hf₁ hf hi hs =>
    have hfirst : Frame who (newPipe s rip scale sMaxSize)
        { newPipe s rip scale sMaxSize with
          files := FS.openFiles s.files who k₀ f₀ ⟨true, false⟩ rip } :=
      .openFiles rfl hf₀ rfl fun _ _ => .inl rfl
    have hf₁' : ((FS.openFiles s.files who k₀ f₀ ⟨true, false⟩ rip).filp f₁).filpCount = 0 := by
      rw [openFiles_ne _ _ _ _ _ hf]
      exact hf₁
    have hsecond : Frame who { newPipe s rip scale sMaxSize with
          files := FS.openFiles s.files who k₀ f₀ ⟨true, false⟩ rip }
        { newPipe s rip scale sMaxSize with files := pipeFiles s.files who k₀ f₀ k₁ f₁ rip } :=
      .openFiles rfl hf₁' rfl fun _ _ => .inl rfl
    exact (((Frame.newPipe h hi scale sMaxSize).trans hfirst).trans hsecond).congr hs

/-- So is any number of them. -/
theorem frame_of_grows (h : Tidy s) (hg : ReflTransGen (Grows who) s s') : Frame who s s' := by
  have hboth : Tidy s' ∧ Frame who s s' := by
    induction hg with
    | refl => exact ⟨h, .refl who s⟩
    | @tail s₁ s₂ _ hstep ih =>
      have hc : Change (fun _ => True) s₁ s₂ := .grows hstep
      exact ⟨ih.1.change hc, ih.2.trans (hstep.frame ih.1)⟩
  exact hboth.2

end Frame

/-- The descriptor of a suspended call leads where it did. -/
structure Stays (s s' : State) (p : Proc) : Prop where
  live : s'.live p = true
  file : ∀ f, s.files.fpFilp p (s.fproc p).fpFd = some f →
    s'.files.fpFilp p (s.fproc p).fpFd = some f ∧
    (s'.files.filp f).filpMode = (s.files.filp f).filpMode ∧
    (s'.files.filp f).filpIno = (s.files.filp f).filpIno ∧
    (s'.inode (s.files.filp f).filpIno).iPipe = (s.inode (s.files.filp f).filpIno).iPipe ∧
    ((s.inode (s.files.filp f).filpIno).iPipe = true →
      (s'.inode (s.files.filp f).filpIno).sMaxSize = (s.inode (s.files.filp f).filpIno).sMaxSize)

section Stays

variable {s s' s₁ : State} {who p : Proc}

/-- What another process waits for stays. -/
theorem Frame.stays (h : Tidy s) (hf : Frame who s s') (hp : p ≠ who) (hlive : s.live p = true) :
    Stays s s' p := by
  refine ⟨hf.live p hlive, fun f hk => ?_⟩
  have hc := h.inUse hk
  obtain ⟨-, hm, hi⟩ := hf.inUse f hc
  rw [hf.fds p hp]
  cases hpipe : (s.inode (s.files.filp f).filpIno).iPipe with
  | true =>
    have he := (hf.pipe f hc hpipe).1
    exact ⟨hk, hm, hi, he ▸ hpipe, fun _ => by rw [he]⟩
  | false => exact ⟨hk, hm, hi, hf.other f hc hpipe, fun hc => Bool.noConfusion hc⟩

/-- It stays when the files do. -/
theorem SameFiles.stays (hs : SameFiles s s') (hlive : s.live p = true) : Stays s s' p := by
  refine ⟨hs.live ▸ hlive, fun f hk => ?_⟩
  rw [hs.files, hs.inode]
  exact ⟨hk, rfl, rfl, rfl, fun _ => rfl⟩

/-- Closing a descriptor does not free a pipe that another one leads to. -/
theorem closed_pipe (h : Tidy s) {k i : Fd} {f g : FilpPtr} (hk : s.files.fpFilp who k = some f)
    (hg : (closed s who k f).files.fpFilp p i = some g) :
    ((closed s who k f).inode (s.files.filp g).filpIno).iPipe =
      (s.inode (s.files.filp g).filpIno).iPipe ∧
    ((s.inode (s.files.filp g).filpIno).iPipe = true →
      ((closed s who k f).inode (s.files.filp g).filpIno).sMaxSize =
        (s.inode (s.files.filp g).filpIno).sMaxSize) := by
  obtain ⟨-, hi, -⟩ := dropFd_filp s.files who k f g
  -- the slot is still in use, so the inode is
  have hmem := (h.closed hk).counted.mem_users hg
  have hcount := (Finset.card_pos.mpr ⟨g, hmem⟩).trans_le ((h.closed hk).counts _)
  rw [closed_files, hi, closed_inode] at hcount
  rw [closed_inode]
  by_cases hz : (s.files.filp f).filpCount - 1 = 0
  · rw [if_pos hz] at hcount ⊢
    unfold putInode setInode at hcount ⊢
    dsimp only at hcount ⊢
    by_cases he : (s.files.filp g).filpIno = (s.files.filp f).filpIno
    · rw [he, update_self] at hcount ⊢
      split at hcount
      · exact absurd hcount (Nat.lt_irrefl 0)
      · rename_i hc
        rw [if_neg hc]
        exact ⟨rfl, fun _ => rfl⟩
    · rw [update_of_ne he]
      exact ⟨rfl, fun _ => rfl⟩
  · rw [if_neg hz]
    exact ⟨rfl, fun _ => rfl⟩

/-- Closing a descriptor is nothing to the others. -/
theorem closed_stays (h : Tidy s) {k : Fd} {f : FilpPtr} (hk : s.files.fpFilp who k = some f)
    (hp : p ≠ who) (hlive : s.live p = true) : Stays s (closed s who k f) p := by
  have hlive' : (closed s who k f).live = s.live := by
    unfold closed putInode setInode
    split
    · rfl
    · rfl
  refine ⟨hlive' ▸ hlive, fun g hg => ?_⟩
  have hfd : (closed s who k f).files.fpFilp p (s.fproc p).fpFd = some g := by
    change update s.files.fpFilp who _ p _ = some g
    rw [update_of_ne hp]
    exact hg
  obtain ⟨hm, hi, -⟩ := dropFd_filp s.files who k f g
  exact ⟨hfd, hm, hi, closed_pipe h hk hfd⟩

end Stays

end Minix.FS.Pipes
