import Minix.FS.Waiting

/-!
# The counters of suspended processes

`reviving` counts the processes that are being revived, and `susp_count` the others that hang
on a pipe. Both together are always right; `reviving` is too high once `release` has found a
process again that is being revived already.
-/

namespace Minix.FS.Pipes

open Function Relation

section Operations

variable {s s' : State} {p who : Proc} {d : Fproc}

theorem Waits.stays {f : FilpPtr} (h : Waits s d f)
    (hm : (s'.files.filp f).filpMode = (s.files.filp f).filpMode)
    (hi : (s'.files.filp f).filpIno = (s.files.filp f).filpIno)
    (hp : (s'.inode (s.files.filp f).filpIno).iPipe = (s.inode (s.files.filp f).filpIno).iPipe)
    (hx : (s.inode (s.files.filp f).filpIno).iPipe = true →
      (s'.inode (s.files.filp f).filpIno).sMaxSize =
        (s.inode (s.files.filp f).filpIno).sMaxSize) : Waits s' d f := by
  constructor
  · intro ht
    obtain ⟨hpipe, hcall⟩ := h.pipe ht
    rw [hi, hm, hp, hx hpipe]
    exact ⟨hpipe, hcall⟩
  · intro ht
    rw [hi, hp]
    exact h.task ht

/-- Whose descriptors stay keeps waiting. -/
theorem Waiting.stays (h : Waiting s) (hf : s'.fproc = s.fproc)
    (hs : ∀ p, (s.fproc p).fpSuspended = true → Stays s s' p) : Waiting s' := by
  constructor
  · intro p hp
    rw [hf] at hp ⊢
    obtain ⟨-, f, hk, hw⟩ := h.onFile p hp
    obtain ⟨hlive, hfile⟩ := hs p hp
    obtain ⟨hk', hm, hi, hpipe, hx⟩ := hfile f hk
    exact ⟨hlive, f, hk', hw.stays hm hi hpipe hx⟩
  · intro p
    rw [hf]
    exact h.revived p

/-- One process gets other data. -/
theorem Waiting.setFproc (h : Waiting s) (hs : SameFiles s s')
    (hf : s'.fproc = update s.fproc p d)
    (hd : d.fpSuspended = true → s.live p = true ∧
      ∃ f, s.files.fpFilp p d.fpFd = some f ∧ Waits s d f)
    (hr : d.fpRevived = true → isHung d = true) : Waiting s' := by
  have hwaits : ∀ d f, Waits s d f → Waits s' d f := by
    intro d f hw
    refine hw.stays ?_ ?_ ?_ fun _ => ?_
    · rw [hs.files]
    · rw [hs.files]
    · rw [hs.inode]
    · rw [hs.inode]
  constructor
  · intro q hq
    rw [hf] at hq ⊢
    rw [hs.live, hs.files]
    by_cases he : q = p
    · subst he
      rw [update_self] at hq ⊢
      obtain ⟨hlive, f, hk, hw⟩ := hd hq
      exact ⟨hlive, f, hk, hwaits _ f hw⟩
    · rw [update_of_ne he] at hq ⊢
      obtain ⟨hlive, f, hk, hw⟩ := h.onFile q hq
      exact ⟨hlive, f, hk, hwaits _ f hw⟩
  · intro q hq
    rw [hf] at hq ⊢
    by_cases he : q = p
    · subst he
      rw [update_self] at hq ⊢
      exact hr hq
    · rw [update_of_ne he] at hq ⊢
      exact h.revived q hq

theorem isHung_iff : isHung d = true ↔ d.fpSuspended = true ∧ d.fpTask = XPIPE := by
  unfold isHung
  rw [Bool.and_eq_true, decide_eq_true_eq]

theorem Waiting.not_revived (h : Waiting s) (hp : (s.fproc p).fpSuspended = false) :
    (s.fproc p).fpRevived = false := by
  by_contra hr
  have := (isHung_iff.mp (h.revived p (Bool.eq_true_of_not_eq_false hr))).1
  rw [hp] at this
  cases this

/-- What `suspend` does to the processes and the counters. -/
theorem suspend_fproc (s : State) (fp : Proc) (task : Int) (fd : Fd) (call : Option RwFlag)
    (buffer : Nat) (nbytes : Int) :
    (suspend s fp task fd call buffer nbytes).fproc = update s.fproc fp { s.fproc fp with
      fpSuspended := true, fpFd := fd, fpCall := call, fpBuffer := buffer, fpNbytes := nbytes
      fpTask := -task } ∧
    (suspend s fp task fd call buffer nbytes).suspCount =
      s.suspCount + (if task = XPIPE then 1 else 0) ∧
    (suspend s fp task fd call buffer nbytes).reviving = s.reviving := by
  unfold suspend setFproc
  dsimp only
  split
  · exact ⟨rfl, rfl, rfl⟩
  · exact ⟨rfl, (add_zero _).symm, rfl⟩

theorem Waiting.suspended {task : Int} {fd : Fd} {call : Option RwFlag} {nbytes : Int} {f : FilpPtr}
    (h : Waiting s) (hlive : s.live who = true) (hs : (s.fproc who).fpSuspended = false)
    (hk : s.files.fpFilp who fd = some f) (buffer : Nat)
    (hpipe : task = XPIPE → (s.inode (s.files.filp f).filpIno).iPipe = true ∧
      ∃ flag, call = some flag ∧ bitOf flag (s.files.filp f).filpMode = true ∧ 0 < nbytes ∧
        (flag = .WRITING → nbytes ≤ PIPE_SIZE ∧
          nbytes ≤ (s.inode (s.files.filp f).filpIno).sMaxSize))
    (htask : task ≠ XPIPE → (s.inode (s.files.filp f).filpIno).iPipe = false) :
    Waiting (suspend s who task fd call buffer nbytes) ∧
    total (suspend s who task fd call buffer nbytes) = total s ∧
    drift (suspend s who task fd call buffer nbytes) = drift s := by
  obtain ⟨hf, hc, hv⟩ := suspend_fproc s who task fd call buffer nbytes
  have hrev := h.not_revived hs
  have hneg : -task = XPIPE ↔ task = XPIPE := by
    unfold XPIPE
    omega
  refine ⟨?_, ?_, ?_⟩
  · refine h.setFproc (.suspend s who task fd call buffer nbytes) hf (fun _ => ?_) fun hr => ?_
    · refine ⟨hlive, f, hk, fun ht => hpipe (hneg.mp ht), fun ht => htask ?_⟩
      exact fun he => ht (hneg.mpr he)
    · rw [hrev] at hr
      cases hr
  · have hold : isHung (s.fproc who) = false := by
      unfold isHung
      rw [hs, Bool.false_and]
    unfold total
    rw [hf, hc, hv]
    by_cases ht : task = XPIPE
    · rw [if_pos ht, number_more hold (isHung_iff.mpr ⟨rfl, hneg.mpr ht⟩)]
      push_cast
      omega
    · have hnew : isHung { s.fproc who with
          fpSuspended := true, fpFd := fd, fpCall := call, fpBuffer := buffer, fpNbytes := nbytes
          fpTask := -task } = isHung (s.fproc who) := by
        rw [hold, Bool.eq_false_iff]
        exact fun he => ht (hneg.mp (isHung_iff.mp he).2)
      rw [if_neg ht, number_same hnew, add_zero]
  · unfold drift
    rw [hf, hv]
    exact congrArg (fun n : Nat => s.reviving - n) (number_same rfl)

end Operations

section Release

variable {s : State} {p : Proc} {nil : Option InodePtr} {ip : InodePtr} {call : RwFlag}

theorem releaseOne_hung (h : isHung (s.fproc p) = true) :
    (releaseOne s p).fproc = update s.fproc p { s.fproc p with fpRevived := true } ∧
    (releaseOne s p).suspCount = s.suspCount - 1 ∧
    (releaseOne s p).reviving = s.reviving + 1 := by
  obtain ⟨hs, ht⟩ := isHung_iff.mp h
  unfold releaseOne revive setFproc
  dsimp only
  rw [if_neg (by rw [hs]; exact Bool.noConfusion), if_pos ht]
  exact ⟨rfl, rfl, rfl⟩

/-- A process that is being revived already is counted twice. -/
theorem Waiting.releasedOne (h : Waiting s) (hp : isHung (s.fproc p) = true) :
    Waiting (releaseOne s p) ∧ total (releaseOne s p) = total s ∧
    drift (releaseOne s p) = drift s + if (s.fproc p).fpRevived = true then 1 else 0 := by
  obtain ⟨hf, hc, hv⟩ := releaseOne_hung hp
  refine ⟨?_, ?_, ?_⟩
  · obtain ⟨hlive, f, hk, hw⟩ := h.onFile p (isHung_iff.mp hp).1
    exact h.setFproc (.releaseOne s p) hf (fun _ => ⟨hlive, f, hk, hw.1, hw.2⟩) fun _ => hp
  · have hsame : isHung { s.fproc p with fpRevived := true } = isHung (s.fproc p) := rfl
    unfold total
    rw [hf, hc, hv, number_same hsame]
    omega
  · unfold drift
    rw [hf, hv]
    cases hr : (s.fproc p).fpRevived with
    | true =>
      have hsame : Fproc.fpRevived { s.fproc p with fpRevived := true } =
        Fproc.fpRevived (s.fproc p) := hr.symm
      rw [number_same hsame, if_pos rfl]
      omega
    | false =>
      have hnew : Fproc.fpRevived { s.fproc p with fpRevived := true } = true := rfl
      rw [number_more hr hnew, if_neg Bool.false_ne_true]
      push_cast
      omega

/-- Who hangs on a pipe is suspended on it, in the call that it was trying to perform. -/
theorem Waiting.of_hangsOn (h : Waiting s) (hip : (s.inode ip).iPipe = true)
    (hh : hangsOn s nil ip call p = true) : isHung (s.fproc p) = true ∧
    (s.fproc p).fpCall = some call ∧ ∃ f, s.files.fpFilp p (s.fproc p).fpFd = some f ∧
      (s.files.filp f).filpIno = ip ∧ Waits s (s.fproc p) f := by
  unfold hangsOn inoOf at hh
  rw [Bool.and_eq_true, Bool.and_eq_true, beq_iff_eq, beq_iff_eq] at hh
  obtain ⟨⟨hs, hcall⟩, hino⟩ := hh
  obtain ⟨-, f, hk, hw⟩ := h.onFile p hs
  rw [hk] at hino
  have hino : (s.files.filp f).filpIno = ip := Option.some.inj hino
  refine ⟨isHung_iff.mpr ⟨hs, ?_⟩, hcall, f, hk, hino, hw⟩
  by_contra ht
  have := hw.task ht
  rw [hino, hip] at this
  cases this

/-- Being revived makes no difference to `release`. -/
theorem hangsOn_releaseOne (hp : isHung (s.fproc p) = true) (q : Proc) :
    hangsOn (releaseOne s p) nil ip call q = hangsOn s nil ip call q := by
  have hfiles := (SameFiles.releaseOne s p).files
  unfold hangsOn
  rw [(releaseOne_hung hp).1, hfiles]
  by_cases he : q = p
  · subst he
    rw [update_self]
  · rw [update_of_ne he]

/-- With a limit of one, `release` takes the first process in the table. -/
theorem release_one (s : State) (nil : Option InodePtr) (ip : InodePtr) (call : RwFlag) :
    release s nil ip call 1 =
      match (List.finRange NR_PROCS).find? (hangsOn s nil ip call) with
      | some rp => releaseOne s rp
      | none => s := by
  unfold release
  induction List.finRange NR_PROCS with
  | nil => rfl
  | cons rp l ih =>
    unfold releaseLoop
    cases hh : hangsOn s nil ip call rp with
    | true => rw [List.find?_cons_of_pos hh, if_pos rfl, if_pos rfl]
    | false =>
      rw [List.find?_cons_of_neg (by rw [hh]; exact Bool.false_ne_true),
        if_neg Bool.false_ne_true]
      exact ih

/-- With a limit that is not reached, it takes all of them. -/
theorem Waiting.releasedLoop (h : Waiting s) (hip : (s.inode ip).iPipe = true)
    (nil : Option InodePtr) (call : RwFlag) (l : List Proc) (hl : l.Nodup) (count : Nat) (hcount : l.length ≤ count) :
    Waiting (releaseLoop nil ip call l count s) ∧
    total (releaseLoop nil ip call l count s) = total s ∧
    drift s ≤ drift (releaseLoop nil ip call l count s) ∧
    ((∀ q ∈ l, hangsOn s nil ip call q = true → (s.fproc q).fpRevived = false) →
      drift (releaseLoop nil ip call l count s) = drift s) ∧
    ∀ q, (releaseLoop nil ip call l count s).fproc q =
      if q ∈ l ∧ hangsOn s nil ip call q = true then { s.fproc q with fpRevived := true }
      else s.fproc q := by
  induction l generalizing s count with
  | nil => exact ⟨h, rfl, le_rfl, fun _ => rfl, fun q => rfl⟩
  | cons rp l ih =>
    obtain ⟨hnot, hl⟩ := List.nodup_cons.mp hl
    have hlen : l.length + 1 ≤ count := hcount
    unfold releaseLoop
    cases hh : hangsOn s nil ip call rp with
    | false =>
      rw [if_neg Bool.false_ne_true]
      obtain ⟨hw, ht, hd, hd', hf⟩ := ih h hip hl count (by omega)
      refine ⟨hw, ht, hd, fun hall => hd' fun q hq => hall q (List.mem_cons_of_mem _ hq),
        fun q => ?_⟩
      rw [hf q]
      by_cases he : q = rp
      · subst he
        simp [hh]
      · simp [he]
    | true =>
      rw [if_pos rfl]
      have hrp := (h.of_hangsOn hip hh).1
      obtain ⟨hw₁, ht₁, hd₁⟩ := h.releasedOne hrp
      have hip₁ : ((releaseOne s rp).inode ip).iPipe = true := by
        rw [(SameFiles.releaseOne s rp).inode]
        exact hip
      have hfirst : ∀ q, (releaseOne s rp).fproc q =
          if q = rp then { s.fproc q with fpRevived := true } else s.fproc q := by
        intro q
        rw [(releaseOne_hung hrp).1]
        by_cases he : q = rp
        · subst he
          rw [update_self, if_pos rfl]
        · rw [update_of_ne he, if_neg he]
      have hstep : drift s ≤ drift (releaseOne s rp) := by
        rw [hd₁]
        split
        · omega
        · omega
      have hexact : (s.fproc rp).fpRevived = false → drift (releaseOne s rp) = drift s := by
        intro hr
        rw [hd₁, hr, if_neg Bool.false_ne_true, add_zero]
      by_cases hone : count = 1
      · rw [if_pos hone]
        have hnil : l = [] := List.length_eq_zero_iff.mp (by omega)
        subst hnil
        refine ⟨hw₁, ht₁, hstep, fun hall => hexact (hall rp List.mem_cons_self hh), fun q => ?_⟩
        rw [hfirst q]
        by_cases he : q = rp
        · subst he
          simp [hh]
        · simp [he]
      · rw [if_neg hone]
        obtain ⟨hw, ht, hd, hd', hf⟩ := ih hw₁ hip₁ hl (count - 1) (by omega)
        refine ⟨hw, ht.trans ht₁, hstep.trans hd, fun hall => ?_, fun q => ?_⟩
        · refine (hd' fun q hq hhq => ?_).trans (hexact (hall rp List.mem_cons_self hh))
          have hne : q ≠ rp := by
            rintro rfl
            exact hnot hq
          rw [hangsOn_releaseOne hrp] at hhq
          rw [hfirst q, if_neg hne]
          exact hall q (List.mem_cons_of_mem _ hq) hhq
        · rw [hf q, hangsOn_releaseOne hrp, hfirst q]
          by_cases he : q = rp
          · subst he
            simp [hnot, hh]
          · simp [he]

theorem Waiting.releasedAll (h : Waiting s) (hip : (s.inode ip).iPipe = true)
    (nil : Option InodePtr) (call : RwFlag) :
    Waiting (release s nil ip call NR_PROCS) ∧
    total (release s nil ip call NR_PROCS) = total s ∧
    drift s ≤ drift (release s nil ip call NR_PROCS) ∧
    ((∀ q, hangsOn s nil ip call q = true → (s.fproc q).fpRevived = false) →
      drift (release s nil ip call NR_PROCS) = drift s) ∧
    ∀ q, (release s nil ip call NR_PROCS).fproc q =
      if hangsOn s nil ip call q = true then { s.fproc q with fpRevived := true }
      else s.fproc q := by
  obtain ⟨hw, ht, hd, hd', hf⟩ := h.releasedLoop hip nil call
    (List.finRange NR_PROCS) (List.nodup_finRange _) NR_PROCS (by rw [List.length_finRange])
  refine ⟨hw, ht, hd, fun hall => hd' fun q _ => hall q, fun q => ?_⟩
  refine (hf q).trans ?_
  by_cases hh : hangsOn s nil ip call q = true
  · rw [if_pos hh, if_pos ⟨List.mem_finRange q, hh⟩]
  · rw [if_neg hh, if_neg fun hc => hh hc.2]

/-- The process that `release` with a limit of one finds. -/
def firstHanging (s : State) (ip : InodePtr) (call : RwFlag) : Option Proc :=
  (List.finRange NR_PROCS).find? (hangsOn s none ip call)

theorem firstHanging_some {q : Proc} (h : firstHanging s ip call = some q) :
    hangsOn s none ip call q = true := List.find?_some h

theorem Waiting.releasedFirst (h : Waiting s) (hip : (s.inode ip).iPipe = true) (call : RwFlag) :
    Waiting (release s none ip call 1) ∧ total (release s none ip call 1) = total s ∧
    drift s ≤ drift (release s none ip call 1) ∧
    (drift (release s none ip call 1) = drift s ↔
      ∀ q, firstHanging s ip call = some q → (s.fproc q).fpRevived = false) := by
  rw [release_one]
  change _ ∧ _ ∧ _ ∧ (_ ↔ ∀ q, (List.finRange NR_PROCS).find? (hangsOn s none ip call) = some q → _)
  cases hq : (List.finRange NR_PROCS).find? (hangsOn s none ip call) with
  | none => exact ⟨h, rfl, le_rfl, iff_of_true rfl fun _ hc => by cases hc⟩
  | some rp =>
    obtain ⟨hw, ht, hd⟩ := h.releasedOne (h.of_hangsOn hip (firstHanging_some hq)).1
    refine ⟨hw, ht, ?_, ?_⟩
    · dsimp only
      rw [hd]
      split
      · omega
      · omega
    · dsimp only
      rw [hd]
      constructor
      · rintro he q ⟨⟩
        by_contra hr
        rw [if_pos (Bool.eq_true_of_not_eq_false hr)] at he
        omega
      · intro hall
        rw [hall rp rfl, if_neg Bool.false_ne_true, add_zero]

end Release

section Requests

variable {s s' : State} {who p : Proc} {k : Fd} {f : FilpPtr} {rip : InodePtr} {flag : RwFlag}

theorem transfer_fd (s : State) (who : Proc) (f : FilpPtr) (rip : InodePtr) (flag : RwFlag)
    (fSize start buffer n : Nat) (io : Io) :
    (transfer s who f rip flag fSize start buffer n io).files.fpFilp = s.files.fpFilp := by
  cases flag with
  | WRITING => rfl
  | READING =>
    unfold transfer
    dsimp only
    rw [endRead_files]
    split
    · exact rewind_fd ..
    · rfl

theorem rewind_mode (t : Files) (rip : InodePtr) (f g : FilpPtr) :
    ((rewind t rip f).filp g).filpCount = (t.filp g).filpCount ∧
    ((rewind t rip f).filp g).filpMode = (t.filp g).filpMode ∧
    ((rewind t rip f).filp g).filpIno = (t.filp g).filpIno := by
  unfold rewind
  split
  · rename_i wf _
    obtain ⟨h₁, h₂, h₃, -⟩ := setPos_filp (setPos t wf 0) f g 0
    obtain ⟨w₁, w₂, w₃, -⟩ := setPos_filp t wf g 0
    exact ⟨h₁.trans w₁, h₂.trans w₂, h₃.trans w₃⟩
  · obtain ⟨h₁, h₂, h₃, -⟩ := setPos_filp t f g 0
    exact ⟨h₁, h₂, h₃⟩

/-- A transfer moves positions only. -/
theorem transfer_filp (s : State) (who : Proc) (f : FilpPtr) (rip : InodePtr) (flag : RwFlag)
    (fSize start buffer n : Nat) (io : Io) (g : FilpPtr) :
    ((transfer s who f rip flag fSize start buffer n io).files.filp g).filpCount =
      (s.files.filp g).filpCount ∧
    ((transfer s who f rip flag fSize start buffer n io).files.filp g).filpMode =
      (s.files.filp g).filpMode ∧
    ((transfer s who f rip flag fSize start buffer n io).files.filp g).filpIno =
      (s.files.filp g).filpIno := by
  cases flag with
  | WRITING =>
    obtain ⟨h₁, h₂, h₃, -⟩ := setPos_filp s.files f g
      (rwLoop .WRITING io.chunk fSize n 0 (s.inode rip) (s.mem who) start buffer n).position
    exact ⟨h₁, h₂, h₃⟩
  | READING =>
    unfold transfer
    dsimp only
    rw [endRead_files]
    split
    · exact rewind_mode ..
    · obtain ⟨h₁, h₂, h₃, -⟩ := setPos_filp s.files f g
        (rwLoop .READING io.chunk fSize n 0 (s.inode rip) (s.mem who) start buffer n).position
      exact ⟨h₁, h₂, h₃⟩

/-- A transfer changes the size and the zones of the pipe at most. -/
theorem transfer_inode (s : State) (who : Proc) (f : FilpPtr) (rip : InodePtr) (flag : RwFlag)
    (fSize start buffer n : Nat) (io : Io) (ip : InodePtr) :
    ((transfer s who f rip flag fSize start buffer n io).inode ip).iPipe = (s.inode ip).iPipe ∧
    ((transfer s who f rip flag fSize start buffer n io).inode ip).sMaxSize =
      (s.inode ip).sMaxSize ∧
    (ip ≠ rip → (transfer s who f rip flag fSize start buffer n io).inode ip = s.inode ip) := by
  by_cases he : ip = rip
  · subst he
    refine ⟨?_, ?_, fun hne => absurd rfl hne⟩ <;>
    · obtain ⟨z, hz⟩ := rwLoop_ip flag io.chunk fSize n 0 (s.inode ip) (s.mem who) start buffer n
      cases flag with
      | WRITING =>
        unfold transfer endWrite setInode
        dsimp only
        rw [update_self, hz]
        split
        · rfl
        · rfl
      | READING =>
        unfold transfer
        dsimp only
        rw [endRead_inode, update_self, hz]
        split
        · rfl
        · rfl
  · have hsame : (transfer s who f rip flag fSize start buffer n io).inode ip = s.inode ip := by
      cases flag with
      | WRITING => exact update_of_ne he ..
      | READING => exact update_of_ne he ..
    rw [hsame]
    exact ⟨rfl, rfl, fun _ => rfl⟩

theorem transfer_live (s : State) (who : Proc) (f : FilpPtr) (rip : InodePtr) (flag : RwFlag)
    (fSize start buffer n : Nat) (io : Io) :
    (transfer s who f rip flag fSize start buffer n io).live = s.live := by
  cases flag with
  | WRITING => rfl
  | READING => rfl

theorem transfer_stays (s : State) (who : Proc) (f : FilpPtr) (rip : InodePtr) (flag : RwFlag)
    (fSize start buffer n : Nat) (io : Io) (hlive : s.live p = true) :
    Stays s (transfer s who f rip flag fSize start buffer n io) p := by
  refine ⟨(congrFun (transfer_live ..) p).trans hlive, fun g hg => ?_⟩
  obtain ⟨-, hm, hi⟩ := transfer_filp s who f rip flag fSize start buffer n io g
  obtain ⟨hp, hx, -⟩ :=
    transfer_inode s who f rip flag fSize start buffer n io (s.files.filp g).filpIno
  rw [transfer_fd]
  exact ⟨hg, hm, hi, hp, fun _ => hx⟩

/-- Whom the tests of `pipe_check` make it look for. -/
def sought : Verdict → Option RwFlag
  | .empty true => some .WRITING
  | .go true => some .READING
  | _ => none

/-- Somebody who is not waiting for the other kind of call is not looked at. -/
theorem hangsOn_suspend {call : RwFlag} (hs : (s.fproc who).fpSuspended = false)
    (hne : flag ≠ call) (task : Int) (fd : Fd) (buffer : Nat) (nbytes : Int) (ip : InodePtr)
    (q : Proc) : hangsOn (suspend s who task fd (some flag) buffer nbytes) none ip call q =
      hangsOn s none ip call q := by
  have hfiles := (SameFiles.suspend s who task fd (some flag) buffer nbytes).files
  unfold hangsOn
  rw [hfiles, (suspend_fproc s who task fd (some flag) buffer nbytes).1]
  by_cases he : q = who
  · subst he
    have hcall : (some flag == some call) = false := by
      rw [beq_eq_false_iff_ne]
      exact fun h => hne (Option.some.inj h)
    rw [update_self, hs]
    dsimp only
    rw [hcall, Bool.and_false, Bool.false_and, Bool.false_and]
    rfl
  · rw [update_of_ne he]

/-- Who is looked for is the same after somebody who makes the other call has been suspended. -/
theorem firstHanging_suspend {call : RwFlag} (hs : (s.fproc who).fpSuspended = false)
    (hne : flag ≠ call) (task : Int) (fd : Fd) (buffer : Nat) (nbytes : Int) (ip : InodePtr) :
    firstHanging (suspend s who task fd (some flag) buffer nbytes) ip call =
      firstHanging s ip call := by
  have hsame : hangsOn (suspend s who task fd (some flag) buffer nbytes) none ip call =
      hangsOn s none ip call := funext fun q => hangsOn_suspend hs hne _ _ _ _ _ q
  unfold firstHanging
  rw [hsame]

/-- A reader has been suspended in front of an empty pipe, and a writer is woken. -/
theorem Waiting.emptied (hs : (s.fproc who).fpSuspended = false) (hp : (s.inode rip).iPipe = true)
    (buffer : Nat) (nbytes : Int)
    (h : Waiting (suspend s who XPIPE k (some .READING) buffer nbytes)) :
    Waiting (release (suspend s who XPIPE k (some .READING) buffer nbytes) none rip .WRITING 1) ∧
    total (release (suspend s who XPIPE k (some .READING) buffer nbytes) none rip .WRITING 1) =
      total (suspend s who XPIPE k (some .READING) buffer nbytes) ∧
    drift (suspend s who XPIPE k (some .READING) buffer nbytes) ≤
      drift (release (suspend s who XPIPE k (some .READING) buffer nbytes) none rip .WRITING 1) ∧
    ((∀ q, firstHanging s rip .WRITING = some q → (s.fproc q).fpRevived = false) →
      drift (release (suspend s who XPIPE k (some .READING) buffer nbytes) none rip .WRITING 1) =
        drift (suspend s who XPIPE k (some .READING) buffer nbytes)) := by
  have hp' : ((suspend s who XPIPE k (some .READING) buffer nbytes).inode rip).iPipe = true := by
    rw [(SameFiles.suspend s who XPIPE k (some .READING) buffer nbytes).inode]
    exact hp
  obtain ⟨hw, htot, hd, hexact⟩ := h.releasedFirst hp' .WRITING
  refine ⟨hw, htot, hd, fun hall => hexact.mpr fun q hq => ?_⟩
  rw [firstHanging_suspend hs RwFlag.noConfusion] at hq
  have hne : q ≠ who := by
    rintro rfl
    have hh : hangsOn s none rip .WRITING q = true := List.find?_some hq
    unfold hangsOn at hh
    rw [hs] at hh
    cases hh
  rw [(suspend_fproc s who XPIPE k (some .READING) buffer nbytes).1, update_of_ne hne]
  exact hall q hq

/-- A call that goes on, after a reader has been woken if the pipe was empty. -/
theorem Waiting.wentOn (h : Waiting s) (hp : (s.inode rip).iPipe = true) (wake : Bool) :
    Waiting (if wake then release s none rip .READING 1 else s) ∧
    total (if wake then release s none rip .READING 1 else s) = total s ∧
    drift s ≤ drift (if wake then release s none rip .READING 1 else s) ∧
    ((∀ call, sought (.go wake) = some call →
        ∀ q, firstHanging s rip call = some q → (s.fproc q).fpRevived = false) →
      drift (if wake then release s none rip .READING 1 else s) = drift s) := by
  cases wake with
  | false => exact ⟨h, rfl, le_rfl, fun _ => rfl⟩
  | true =>
    obtain ⟨hw, htot, hd, hexact⟩ := h.releasedFirst hp .READING
    exact ⟨hw, htot, hd, fun hall => hexact.mpr (hall .READING rfl)⟩

/-- READ and WRITE on a pipe, by somebody who is not waiting. -/
theorem Waiting.pipeIoDone (ht : Tidy s) (h : Waiting s) (hlive : s.live who = true)
    (hs : (s.fproc who).fpSuspended = false) (hk : s.files.fpFilp who k = some f)
    (hr : (s.files.filp f).filpIno = rip) (hp : (s.inode rip).iPipe = true)
    (hb : bitOf flag (s.files.filp f).filpMode = true) {nbytes : Int} (hn : 0 < nbytes)
    (buffer : Nat) (io : Io) :
    Waiting (pipeIo s who k f flag buffer nbytes io) ∧
    total (pipeIo s who k f flag buffer nbytes io) = total s ∧
    drift s ≤ drift (pipeIo s who k f flag buffer nbytes io) ∧
    ((∀ call, sought (pipeVerdict s rip flag nbytes (s.files.filp f).filpPos) = some call →
        ∀ q, firstHanging s rip call = some q → (s.fproc q).fpRevived = false) →
      drift (pipeIo s who k f flag buffer nbytes io) = drift s) := by
  obtain ⟨-, hclear⟩ := ht.no_hole hk hr hp hb
  by_cases hbig : flag = .WRITING ∧ (s.files.filp f).filpPos > (s.inode rip).sMaxSize - nbytes
  · have he : pipeIo s who k f flag buffer nbytes io = s := by
      unfold pipeIo
      subst hr
      rw [if_pos hbig]
    rw [he]
    exact ⟨h, rfl, le_rfl, fun _ => rfl⟩
  rw [pipeIo_eq hr hbig hclear]
  have hsuspend : (flag = .WRITING → nbytes ≤ PIPE_SIZE) →
      Waiting (suspend s who XPIPE k (some flag) buffer nbytes) ∧
      total (suspend s who XPIPE k (some flag) buffer nbytes) = total s ∧
      drift (suspend s who XPIPE k (some flag) buffer nbytes) = drift s := by
    intro hsize
    refine h.suspended hlive hs hk buffer (fun _ => ?_) fun hne => absurd rfl hne
    rw [hr]
    refine ⟨hp, flag, rfl, hb, hn, fun hw => ⟨hsize hw, ?_⟩⟩
    rw [not_and] at hbig
    have := hbig hw
    omega
  cases hv : pipeVerdict s rip flag nbytes (s.files.filp f).filpPos with
  | empty writer =>
    cases writer with
    | false => exact ⟨h, rfl, le_rfl, fun _ => rfl⟩
    | true =>
      obtain ⟨rfl, -, -⟩ := pipeVerdict_empty hv
      obtain ⟨hw, htot, hd⟩ := hsuspend fun hc => RwFlag.noConfusion hc
      dsimp only
      split
      · obtain ⟨hw', htot', hd', hexact⟩ := hw.emptied hs hp
        exact ⟨hw', htot'.trans htot, hd ▸ hd', fun hall => (hexact (hall .WRITING rfl)).trans hd⟩
      · exact ⟨hw, htot, hd.ge, fun _ => hd⟩
  | tooBig => exact ⟨h, rfl, le_rfl, fun _ => rfl⟩
  | broken => exact ⟨h, rfl, le_rfl, fun _ => rfl⟩
  | full =>
    obtain ⟨hw, htot, hd⟩ := hsuspend fun _ => (pipeVerdict_full hv).2.1
    exact ⟨hw, htot, hd.ge, fun _ => hd⟩
  | go wake =>
    dsimp only
    obtain ⟨hw, htot, hd, hexact⟩ := h.wentOn hp wake
    generalize (if wake then release s none rip .READING 1 else s) = s₁ at *
    have hcalm := Calm.transfer s₁ who f rip flag (s.inode rip).iSize (s.files.filp f).filpPos
      buffer (nbytes % 65536).toNat io
    refine ⟨?_, hcalm.total.trans htot, hcalm.drift ▸ hd, fun hall => hcalm.drift.trans
      (hexact hall)⟩
    exact hw.stays hcalm.fproc fun q hq => transfer_stays _ _ _ _ _ _ _ _ _ _ (hw.onFile q hq).1

/-- The calls that are released when an end is closed: those at the other end. -/
def releasedBy (m : Bits) : RwFlag := if m.r then .WRITING else .READING

/-- Closing the descriptor releases who hangs on the pipe in that call. -/
def closesEnd (s : State) (p : Proc) (ip : InodePtr) (call : RwFlag) (k : Fd) : Bool :=
  (s.files.fpFilp p k).any fun f =>
    decide ((s.files.filp f).filpIno = ip ∧ releasedBy (s.files.filp f).filpMode = call)

theorem closesEnd_iff {ip : InodePtr} {call : RwFlag} : closesEnd s p ip call k = true ↔
    ∃ f, s.files.fpFilp p k = some f ∧ (s.files.filp f).filpIno = ip ∧
      releasedBy (s.files.filp f).filpMode = call := by
  unfold closesEnd
  rw [Option.any_eq_true]
  exact exists_congr fun f => and_congr_right fun _ => decide_eq_true_iff

/-- Who waits has its descriptor, so `NIL_FILP` is not looked at. -/
theorem Waiting.hangsOn_nil (h : Waiting s) (nil : Option InodePtr) (ip : InodePtr)
    (call : RwFlag) (q : Proc) : hangsOn s nil ip call q = hangsOn s none ip call q := by
  unfold hangsOn
  cases hs : (s.fproc q).fpSuspended with
  | false => rfl
  | true =>
    obtain ⟨-, f, hk, -⟩ := h.onFile q hs
    unfold inoOf
    rw [hk]

/-- Closing a descriptor, by somebody who is not waiting: whoever hangs on the other end is being
revived afterwards. -/
theorem Waiting.closedEnd (ht : Tidy s) (h : Waiting s) (hs : (s.fproc who).fpSuspended = false)
    (hk : s.files.fpFilp who k = some f) (nil : Option InodePtr) :
    Waiting (closeFilp s nil who k f) ∧ total (closeFilp s nil who k f) = total s ∧
    drift s ≤ drift (closeFilp s nil who k f) ∧
    ((∀ ip call q, (s.inode ip).iPipe = true → closesEnd s who ip call k = true →
        hangsOn s none ip call q = true → (s.fproc q).fpRevived = false) →
      drift (closeFilp s nil who k f) = drift s) ∧
    ∀ q, (closeFilp s nil who k f).fproc q =
      if (s.inode (s.files.filp f).filpIno).iPipe = true ∧
        hangsOn s none (s.files.filp f).filpIno (releasedBy (s.files.filp f).filpMode) q = true
      then { s.fproc q with fpRevived := true } else s.fproc q := by
  have hrel : ∃ s₁, (if (s.inode (s.files.filp f).filpIno).iPipe then
      release s nil (s.files.filp f).filpIno (releasedBy (s.files.filp f).filpMode) NR_PROCS
        else s) = s₁ ∧ SameFiles s s₁ ∧ Waiting s₁ ∧ total s₁ = total s ∧ drift s ≤ drift s₁ ∧
      ((∀ ip call q, (s.inode ip).iPipe = true → closesEnd s who ip call k = true →
          hangsOn s none ip call q = true → (s.fproc q).fpRevived = false) →
        drift s₁ = drift s) ∧
      ∀ q, s₁.fproc q = if (s.inode (s.files.filp f).filpIno).iPipe = true ∧
        hangsOn s none (s.files.filp f).filpIno (releasedBy (s.files.filp f).filpMode) q = true
        then { s.fproc q with fpRevived := true } else s.fproc q := by
    refine ⟨_, rfl, ?_⟩
    cases hip : (s.inode (s.files.filp f).filpIno).iPipe with
    | false =>
      rw [if_neg Bool.false_ne_true]
      exact ⟨.refl s, h, rfl, le_rfl, fun _ => rfl,
        fun q => (if_neg fun hc => Bool.false_ne_true hc.1).symm⟩
    | true =>
      rw [if_pos rfl]
      obtain ⟨hw, htot, hd, hexact, hf⟩ :=
        h.releasedAll hip nil (releasedBy (s.files.filp f).filpMode)
      refine ⟨.release s nil _ _ _, hw, htot, hd, fun hall => hexact fun q hq => ?_, fun q => ?_⟩
      · rw [h.hangsOn_nil] at hq
        exact hall _ _ q hip (closesEnd_iff.mpr ⟨f, hk, rfl, rfl⟩) hq
      · rw [hf q, h.hangsOn_nil]
        by_cases hh : hangsOn s none (s.files.filp f).filpIno
          (releasedBy (s.files.filp f).filpMode) q = true
        · rw [if_pos hh, if_pos ⟨rfl, hh⟩]
        · rw [if_neg hh, if_neg fun hc => hh hc.2]
  obtain ⟨s₁, he, hsame, hw, htot, hd, hexact, hf⟩ := hrel
  have hclose : closeFilp s nil who k f = closed s₁ who k f :=
    (closeFilp_eq s nil who k f).trans (congrArg (fun t => closed t who k f) he)
  rw [hclose]
  have hcalm := Calm.closed s₁ who k f
  refine ⟨?_, hcalm.total.trans htot, hcalm.drift ▸ hd,
    fun hall => hcalm.drift.trans (hexact hall), fun q => ?_⟩
  · refine hw.stays hcalm.fproc fun q hq => ?_
    have hne : q ≠ who := by
      rintro rfl
      rw [hf q] at hq
      split at hq
      · rw [hs] at hq
        cases hq
      · rw [hs] at hq
        cases hq
    exact closed_stays (ht.congr hsame) (hsame.files ▸ hk) hne (hw.onFile q hq).1
  · rw [hcalm.fproc]
    exact hf q

/-- The same for any descriptor number, whether it is in use or not. -/
theorem Waiting.doClosed (ht : Tidy s) (h : Waiting s) (hs : (s.fproc who).fpSuspended = false)
    (nil : Option InodePtr) (fd : Int) :
    Waiting (doClose s nil who fd) ∧ total (doClose s nil who fd) = total s ∧
    drift s ≤ drift (doClose s nil who fd) ∧
    ((∀ ip call q k, fd = k.val → (s.inode ip).iPipe = true →
        closesEnd s who ip call k = true → hangsOn s none ip call q = true →
        (s.fproc q).fpRevived = false) → drift (doClose s nil who fd) = drift s) ∧
    ∀ q, ∃ b, (doClose s nil who fd).fproc q = { s.fproc q with fpRevived := b } ∧
      (b = true ↔ (s.fproc q).fpRevived = true ∨ ∃ ip call k, fd = k.val ∧
        (s.inode ip).iPipe = true ∧ closesEnd s who ip call k = true ∧
        hangsOn s none ip call q = true) := by
  unfold doClose
  cases hf : getFilp s.files who fd with
  | none =>
    refine ⟨h, rfl, le_rfl, fun _ => rfl, fun q => ⟨_, rfl, ?_⟩⟩
    rw [iff_self_or]
    rintro ⟨ip, call, k, rfl, -, hc, -⟩
    obtain ⟨f, hk, -⟩ := closesEnd_iff.mp hc
    rw [getFilp_of hk] at hf
    cases hf
  | some kf =>
    obtain ⟨k, f⟩ := kf
    have hk := getFilp_some hf
    have hfd := getFilp_fd hf
    have honly : ∀ ip call k', fd = k'.val → closesEnd s who ip call k' = true →
        ip = (s.files.filp f).filpIno ∧ call = releasedBy (s.files.filp f).filpMode := by
      intro ip call k' hk' hc
      obtain rfl : k = k' := Fin.ext (by omega)
      obtain ⟨g, hg, hi, hm⟩ := closesEnd_iff.mp hc
      obtain rfl := Option.some.inj (hk.symm.trans hg)
      exact ⟨hi.symm, hm.symm⟩
    obtain ⟨hw, htot, hd, hexact, hfp⟩ := h.closedEnd ht hs hk nil
    refine ⟨hw, htot, hd, fun hall => hexact fun ip call q => hall ip call q k hfd, fun q => ?_⟩
    by_cases hh : (s.inode (s.files.filp f).filpIno).iPipe = true ∧
        hangsOn s none (s.files.filp f).filpIno (releasedBy (s.files.filp f).filpMode) q = true
    · refine ⟨true, (hfp q).trans (if_pos hh), iff_of_true rfl (.inr ?_)⟩
      exact ⟨_, _, k, hfd, hh.1, closesEnd_iff.mpr ⟨f, hk, rfl, rfl⟩, hh.2⟩
    · refine ⟨_, (hfp q).trans (if_neg hh), ?_⟩
      rw [iff_self_or]
      rintro ⟨ip, call, k', hk', hip, hc, hq⟩
      obtain ⟨rfl, rfl⟩ := honly ip call k' hk' hc
      exact absurd ⟨hip, hq⟩ hh

/-- Nobody is found again while these descriptors are closed. -/
def Once (s : State) (p : Proc) (l : List Fd) : Prop :=
  ∀ ip call q, (s.inode ip).iPipe = true → hangsOn s none ip call q = true →
    (∀ k ∈ l, ∀ k' ∈ l, closesEnd s p ip call k = true → closesEnd s p ip call k' = true →
      k = k') ∧
    ((s.fproc q).fpRevived = true → ∀ k ∈ l, closesEnd s p ip call k = false)

theorem hangsOn_eq_some {ip : InodePtr} {call : RwFlag} {q : Proc} :
    hangsOn s none ip call q = true ↔ (s.fproc q).fpSuspended = true ∧
      (s.fproc q).fpCall = some call ∧ ∃ f, s.files.fpFilp q (s.fproc q).fpFd = some f ∧
        (s.files.filp f).filpIno = ip := by
  unfold hangsOn inoOf
  rw [Bool.and_eq_true, Bool.and_eq_true, beq_iff_eq, beq_iff_eq, and_assoc]
  cases hk : s.files.fpFilp q (s.fproc q).fpFd with
  | none => simp
  | some f => simp

/-- Closing the next descriptor of an exiting process. -/
theorem Once.close (h : Waiting s) (ht : Tidy s) (hs : (s.fproc p).fpSuspended = false)
    {l : List Fd} (hl : (k :: l).Nodup) (ho : Once s p (k :: l)) (nil : Option InodePtr) :
    Once (doClose s nil p k.val) p l := by
  obtain ⟨-, -, -, -, hfp⟩ := h.doClosed ht hs nil k.val
  obtain ⟨hfilp, hinode⟩ := doClose_filp s nil p k.val
  have hfd := doClose_fd s nil p k
  have hnot : k ∉ l := (List.nodup_cons.mp hl).1
  have hcloses : ∀ ip call i, i ∈ l → closesEnd (doClose s nil p k.val) p ip call i = true →
      closesEnd s p ip call i = true := by
    intro ip call i hi hc
    obtain ⟨g, hg, hino, hm⟩ := closesEnd_iff.mp hc
    have hne : i ≠ k := by
      rintro rfl
      exact hnot hi
    rw [hfd, update_self, update_of_ne hne] at hg
    rw [(hfilp g).2.1] at hino
    rw [(hfilp g).1] at hm
    exact closesEnd_iff.mpr ⟨g, hg, hino, hm⟩
  have hhangs : ∀ ip call q, hangsOn (doClose s nil p k.val) none ip call q = true →
      hangsOn s none ip call q = true := by
    intro ip call q hq
    obtain ⟨hsus, hcall, f, hk, hino⟩ := hangsOn_eq_some.mp hq
    obtain ⟨b, hb, -⟩ := hfp q
    rw [hb] at hsus hcall hk
    have hne : q ≠ p := by
      rintro rfl
      exact absurd (hsus.symm.trans hs) Bool.noConfusion
    rw [hfd, update_of_ne hne] at hk
    rw [(hfilp f).2.1] at hino
    exact hangsOn_eq_some.mpr ⟨hsus, hcall, f, hk, hino⟩
  intro ip call q hip hq
  have hip' := (hinode ip hip).1
  have hq' := hhangs ip call q hq
  obtain ⟨hone, hrev⟩ := ho ip call q hip' hq'
  refine ⟨fun i hi j hj hci hcj => ?_, fun hr i hi => ?_⟩
  · exact hone i (List.mem_cons_of_mem _ hi) j (List.mem_cons_of_mem _ hj)
      (hcloses ip call i hi hci) (hcloses ip call j hj hcj)
  · by_contra hc
    have hc' := hcloses ip call i hi (Bool.eq_true_of_not_eq_false hc)
    obtain ⟨b, hb, hiff⟩ := hfp q
    rw [hb] at hr
    rcases hiff.mp hr with hold | ⟨ip', call', k', hk', hp', hc₁, hq₁⟩
    · rw [hrev hold i (List.mem_cons_of_mem _ hi)] at hc'
      cases hc'
    · obtain rfl : k = k' := Fin.ext (by omega)
      -- it was released now, so the descriptor just closed and this one are the same
      obtain ⟨-, hcall, f, hf, hino⟩ := hangsOn_eq_some.mp hq'
      obtain ⟨-, hcall', f', hf', hino'⟩ := hangsOn_eq_some.mp hq₁
      obtain rfl := Option.some.inj (hf.symm.trans hf')
      obtain rfl := Option.some.inj (hcall.symm.trans hcall')
      obtain rfl := hino.symm.trans hino'
      have he := hone k List.mem_cons_self i (List.mem_cons_of_mem _ hi) hc₁ hc'
      subst he
      exact hnot hi

/-- All descriptors are closed by a process that is not waiting. -/
theorem Waiting.closedAll (ht : Tidy s) (h : Waiting s) (hs : (s.fproc p).fpSuspended = false)
    (nil : Option InodePtr) (l : List Fd) (hl : l.Nodup) :
    Waiting (closeAll nil p l s) ∧ total (closeAll nil p l s) = total s ∧
    drift s ≤ drift (closeAll nil p l s) ∧
    (Once s p l → drift (closeAll nil p l s) = drift s) ∧
    ((closeAll nil p l s).fproc p).fpSuspended = false := by
  induction l generalizing s with
  | nil => exact ⟨h, rfl, le_rfl, fun _ => rfl, hs⟩
  | cons k l ih =>
    obtain ⟨hw, htot, hd, hexact, hfp⟩ := h.doClosed ht hs nil k.val
    have hchain : ReflTransGen (Change fun _ => True) s (doClose s nil p k.val) :=
      doClose_changes s nil p k.val
    obtain ⟨b, hb, -⟩ := hfp p
    have hs₁ : ((doClose s nil p k.val).fproc p).fpSuspended = false := by
      rw [hb]
      exact hs
    obtain ⟨hw', htot', hd', hexact', hs'⟩ :=
      ih (ht.changes hchain) hw hs₁ (List.nodup_cons.mp hl).2
    refine ⟨hw', htot'.trans htot, hd.trans hd', fun ho => ?_, hs'⟩
    refine (hexact' (ho.close h ht hs hl nil)).trans (hexact fun ip call q i hi hip hc hq => ?_)
    obtain rfl : k = i := Fin.ext (by omega)
    by_contra hr
    have := (ho ip call q hip hq).2 (Bool.eq_true_of_not_eq_false hr) k List.mem_cons_self
    rw [hc] at this
    cases this

end Requests

end Minix.FS.Pipes
