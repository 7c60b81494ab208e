import Minix.FS.Revivals

/-!
# Wake-ups

While nobody is being revived, nobody sleeps on a pipe that could go on: a reader sleeps on
an empty pipe with a writer, a writer on one with a reader, and not both on the same pipe.
This needs every reader to be woken by the first bytes in an empty pipe, but `pipe_check`
wakes only one.
-/

namespace Minix.FS.Pipes

open Function Relation Transition

/-- Hanging on a pipe, and not woken. -/
def Sleeps (s : State) (ip : InodePtr) (call : RwFlag) (p : Proc) : Prop :=
  hangsOn s none ip call p = true ∧ (s.fproc p).fpRevived = false

/-- Somebody has that end of the pipe open. -/
def EndOpen (s : State) (ip : InodePtr) (bit : Bits → Bool) : Prop :=
  ∃ f ∈ users s.files ip, bit (s.files.filp f).filpMode = true

/-- Who sleeps on a pipe cannot go on as it is. -/
structure Alert (s : State) (ip : InodePtr) : Prop where
  reader : ∀ p, Sleeps s ip .READING p → EndOpen s ip Bits.w ∧ (s.inode ip).iSize = 0
  writer : ∀ p, Sleeps s ip .WRITING p → EndOpen s ip Bits.r

/-- When readers and writers sleep on the same pipe, somebody has been woken who will see to it. -/
def Handled (s : State) (ip : InodePtr) : Prop :=
  ∀ p q, Sleeps s ip .READING p → Sleeps s ip .WRITING q →
    ∃ r call, (s.fproc r).fpRevived = true ∧ hangsOn s none ip call r = true

/-- No wake-up is missing. -/
def Awake (s : State) : Prop := ∀ ip, (s.inode ip).iPipe = true → Alert s ip ∧ Handled s ip

section Awake

variable {s s' : State} {ip rip : InodePtr} {who p : Proc} {k : Fd} {f : FilpPtr}

theorem findFilp_isSome {t : Files} {bit : Bits → Bool} : (findFilp t ip bit).isSome = true ↔
    ∃ f ∈ users t ip, bit (t.filp f).filpMode = true := by
  constructor
  · intro h
    obtain ⟨f, hf⟩ := Option.isSome_iff_exists.mp h
    obtain ⟨hc, hi, hb⟩ := findFilp_some hf
    exact ⟨f, mem_users.mpr ⟨hc, hi⟩, hb⟩
  · rintro ⟨f, hf, hb⟩
    by_contra h
    obtain ⟨hc, hi⟩ := mem_users.mp hf
    rw [findFilp_none (Option.not_isSome_iff_eq_none.mp h) hc hi] at hb
    cases hb

theorem Alert.mono (h : Alert s ip) (hsleep : ∀ call p, Sleeps s' ip call p → Sleeps s ip call p)
    (hends : ∀ f ∈ users s.files ip, f ∈ users s'.files ip ∧
      (s'.files.filp f).filpMode = (s.files.filp f).filpMode)
    (hsize : (s'.inode ip).iSize = (s.inode ip).iSize) : Alert s' ip := by
  have hopen : ∀ bit, EndOpen s ip bit → EndOpen s' ip bit := by
    rintro bit ⟨f, hf, hb⟩
    obtain ⟨hf', hm⟩ := hends f hf
    exact ⟨f, hf', hm ▸ hb⟩
  constructor
  · intro p hp
    obtain ⟨hw, hz⟩ := h.reader p (hsleep _ p hp)
    exact ⟨hopen _ hw, hsize.trans hz⟩
  · intro p hp
    exact hopen _ (h.writer p (hsleep _ p hp))

theorem Handled.mono (h : Handled s ip) (hsleep : ∀ call p, Sleeps s' ip call p → Sleeps s ip call p)
    (hrev : ∀ r call, (s.fproc r).fpRevived = true → hangsOn s none ip call r = true →
      (s'.fproc r).fpRevived = true ∧ hangsOn s' none ip call r = true) : Handled s' ip := by
  intro p q hp hq
  obtain ⟨r, call, hr, hh⟩ := h p q (hsleep _ p hp) (hsleep _ q hq)
  obtain ⟨hr', hh'⟩ := hrev r call hr hh
  exact ⟨r, call, hr', hh'⟩

/-- A reader that hangs on a pipe has its reading end open, and a writer its writing end. -/
theorem Waiting.endOpen (ht : Tidy s) (h : Waiting s) {call : RwFlag}
    (hip : (s.inode ip).iPipe = true) (hh : hangsOn s none ip call p = true) :
    EndOpen s ip (bitOf call) := by
  obtain ⟨hhung, hcall, f, hk, hi, hw⟩ := h.of_hangsOn hip hh
  obtain ⟨-, flag, hflag, hb, -⟩ := hw.pipe (isHung_iff.mp hhung).2
  obtain rfl := Option.some.inj (hcall.symm.trans hflag)
  exact ⟨f, hi ▸ ht.counted.mem_users hk, hb⟩

/-- Who is suspended hangs where it did, as long as its descriptor stays. -/
theorem hangsOn_framed (ht : Tidy s)
    (hs : (s.fproc who).fpSuspended = false) (hf : Frame who s s') (hc : s'.fproc = s.fproc)
    (call : RwFlag) (p : Proc) : hangsOn s' none ip call p = hangsOn s none ip call p := by
  rw [Bool.eq_iff_iff, hangsOn_eq_some, hangsOn_eq_some, hc]
  refine and_congr_right fun hsus => and_congr_right fun _ => ?_
  have hne : p ≠ who := by
    rintro rfl
    rw [hs] at hsus
    cases hsus
  rw [hf.fds p hne]
  refine exists_congr fun f => and_congr_right fun hk => ?_
  rw [(hf.inUse f (ht.inUse hk)).2.2]

/-- Changes to the descriptors of somebody who is not waiting. -/
theorem Awake.framed (ht : Tidy s) (ha : Awake s)
    (hs : (s.fproc who).fpSuspended = false) (hf : Frame who s s') (hc : Calm s s') :
    Awake s' := by
  have hhangs : ∀ ip call p, hangsOn s' none ip call p = hangsOn s none ip call p :=
    fun ip => hangsOn_framed ht hs hf hc.fproc
  have hsleep : ∀ ip call p, Sleeps s' ip call p → Sleeps s ip call p := by
    rintro ip call p ⟨hh, hr⟩
    rw [hhangs] at hh
    rw [hc.fproc] at hr
    exact ⟨hh, hr⟩
  intro ip hip
  -- nobody hangs on a pipe that has just been made
  have hold : ∀ call p, hangsOn s none ip call p = true → (s.inode ip).iPipe = true := by
    intro call p hh
    obtain ⟨-, -, f, hk, hi⟩ := hangsOn_eq_some.mp hh
    by_contra hn
    have := hf.other f (ht.inUse hk) (by rw [hi]; exact Bool.eq_false_iff.mpr hn)
    rw [hi, hip] at this
    cases this
  have hrev : ∀ r call, (s.fproc r).fpRevived = true → hangsOn s none ip call r = true →
      (s'.fproc r).fpRevived = true ∧ hangsOn s' none ip call r = true := by
    intro r call hr hh
    rw [hhangs, hc.fproc]
    exact ⟨hr, hh⟩
  have hends : ∀ f ∈ users s.files ip, f ∈ users s'.files ip ∧
      (s'.files.filp f).filpMode = (s.files.filp f).filpMode := by
    intro f hmem
    obtain ⟨hcount, hi⟩ := mem_users.mp hmem
    obtain ⟨hcount', hm, hi'⟩ := hf.inUse f hcount
    exact ⟨mem_users.mpr ⟨hcount', hi'.trans hi⟩, hm⟩
  by_cases hp : (s.inode ip).iPipe = true
  · obtain ⟨hal, hha⟩ := ha ip hp
    refine ⟨⟨fun q hq => ?_, fun q hq => ?_⟩, hha.mono (hsleep ip) hrev⟩
    · obtain ⟨⟨f, hmem, hb⟩, hz⟩ := hal.reader q (hsleep ip _ q hq)
      obtain ⟨hcount, hi⟩ := mem_users.mp hmem
      have hsame := (hf.pipe f hcount (hi ▸ hp)).1
      rw [hi] at hsame
      obtain ⟨hmem', hm⟩ := hends f hmem
      exact ⟨⟨f, hmem', hm ▸ hb⟩, hsame ▸ hz⟩
    · obtain ⟨f, hmem, hb⟩ := hal.writer q (hsleep ip _ q hq)
      obtain ⟨hmem', hm⟩ := hends f hmem
      exact ⟨f, hmem', hm ▸ hb⟩
  · have hnone : ∀ call q, ¬Sleeps s' ip call q := fun call q hq =>
      hp (hold call q (hsleep ip call q hq).1)
    exact ⟨⟨fun q hq => absurd hq (hnone _ q), fun q hq => absurd hq (hnone _ q)⟩,
      fun q _ hq => absurd hq (hnone _ q)⟩

/-- Closing an end: whoever waits at the other end is woken. -/
theorem Awake.closedEnd (ht : Tidy s) (h : Waiting s) (ha : Awake s)
    (hs : (s.fproc who).fpSuspended = false) (nil : Option InodePtr) (n : Int) :
    Awake (doClose s nil who n) := by
  unfold doClose
  cases hget : getFilp s.files who n with
  | none => exact ha
  | some kf =>
    obtain ⟨k, f⟩ := kf
    have hk := getFilp_some hget
    obtain ⟨-, -, -, -, hfp⟩ := h.closedEnd ht hs hk nil
    have hclose : closeFilp s nil who k f = doClose s nil who k.val := by
      unfold doClose
      rw [getFilp_of hk]
    have hfiles := doClose_filp s nil who k.val
    rw [← hclose] at hfiles
    obtain ⟨hfilp, hinode⟩ := hfiles
    have hfd := closeFilp_fd s nil who k f
    have hstep : ReflTransGen (Change fun _ => True) s (closeFilp s nil who k f) :=
      closeFilp_changes nil hk
    have ht' := ht.changes hstep
    dsimp only
    have hhangs : ∀ ip call p, hangsOn (closeFilp s nil who k f) none ip call p =
        hangsOn s none ip call p := by
      intro ip call p
      have hkept : ∃ b, (closeFilp s nil who k f).fproc p = { s.fproc p with fpRevived := b } := by
        rw [hfp p]
        split
        · exact ⟨_, rfl⟩
        · exact ⟨_, rfl⟩
      obtain ⟨b, hb⟩ := hkept
      rw [Bool.eq_iff_iff, hangsOn_eq_some, hangsOn_eq_some, hb]
      refine and_congr_right fun hsus => and_congr_right fun _ => ?_
      have hne : p ≠ who := by
        rintro rfl
        rw [hs] at hsus
        cases hsus
      rw [hfd, update_of_ne hne]
      exact exists_congr fun g => and_congr_right fun _ => by rw [(hfilp g).2.1]
    have hsleep : ∀ ip call p, Sleeps (closeFilp s nil who k f) ip call p →
        Sleeps s ip call p ∧ ((s.inode ip).iPipe = true → (s.files.filp f).filpIno = ip →
          releasedBy (s.files.filp f).filpMode ≠ call) := by
      rintro ip call p ⟨hh, hr⟩
      rw [hhangs] at hh
      rw [hfp p] at hr
      split at hr
      · cases hr
      · rename_i hnot
        refine ⟨⟨hh, hr⟩, ?_⟩
        rintro hip rfl rfl
        exact hnot ⟨hip, hh⟩
    have husers : ∀ ip, users (closeFilp s nil who k f).files ip =
        if (s.files.filp f).filpCount - 1 = 0 then (users s.files ip).erase f
        else users s.files ip := by
      intro ip
      have hcf : (closeFilp s nil who k f).files = dropFd s.files who k f := by
        rw [closeFilp_eq, closed_files]
        split
        · rw [(SameFiles.release s nil _ _ _).files]
        · rfl
      rw [hcf, users_drop]
    intro ip hip
    obtain ⟨hip', hsize⟩ := hinode ip hip
    obtain ⟨hal, hha⟩ := ha ip hip'
    -- an end that somebody at the other end waits for is not the one that is closed
    have hopen : ∀ call p bit, Sleeps (closeFilp s nil who k f) ip call p →
        (∀ g ∈ users s.files ip, bit (s.files.filp g).filpMode = true →
          releasedBy (s.files.filp g).filpMode = call) →
        EndOpen s ip bit → EndOpen (closeFilp s nil who k f) ip bit := by
      rintro call p bit hp hbit ⟨g, hg, hb⟩
      refine ⟨g, ?_, (hfilp g).1 ▸ hb⟩
      rw [husers]
      split
      · refine Finset.mem_erase.mpr ⟨?_, hg⟩
        rintro rfl
        exact (hsleep ip call p hp).2 hip' (mem_users.mp hg).2 (hbit g hg hb)
      · exact hg
    have hend := ht.ends ip hip'
    refine ⟨⟨fun p hp => ?_, fun p hp => ?_⟩, hha.mono (fun call p hp => (hsleep ip call p hp).1)
      fun r call hr hh => ⟨?_, (hhangs ip call r).trans hh⟩⟩
    · obtain ⟨hw, hz⟩ := hal.reader p (hsleep ip _ p hp).1
      refine ⟨hopen _ p _ hp (fun g hg hb => ?_) hw, hsize.trans hz⟩
      have hmode := hend.mode g hg
      rw [hb] at hmode
      unfold releasedBy
      rw [if_neg]
      intro hr
      rw [hr] at hmode
      cases hmode
    · refine hopen _ p _ hp (fun g _ hb => ?_) (hal.writer p (hsleep ip _ p hp).1)
      unfold releasedBy
      rw [if_pos hb]
    · rw [hfp r]
      split
      · rfl
      · exact hr

/-- What `release` with a limit of one does to those who sleep. -/
theorem Waiting.sleepsFirst (h : Waiting s) (hip : (s.inode rip).iPipe = true) (call : RwFlag)
    (hfresh : drift (release s none rip call 1) = drift s) :
    (∀ ip c p, hangsOn (release s none rip call 1) none ip c p = hangsOn s none ip c p) ∧
    (∀ ip c p, Sleeps (release s none rip call 1) ip c p → Sleeps s ip c p) ∧
    (∀ r, (s.fproc r).fpRevived = true → ((release s none rip call 1).fproc r).fpRevived = true) ∧
    ∀ p, Sleeps s rip call p → ∃ q, Sleeps s rip call q ∧
      ((release s none rip call 1).fproc q).fpRevived = true := by
  have hfirst := ((h.releasedFirst hip call).2.2.2.mp hfresh)
  rw [release_one] at *
  cases hq : (List.finRange NR_PROCS).find? (hangsOn s none rip call) with
  | none =>
    refine ⟨fun _ _ _ => rfl, fun _ _ _ hp => hp, fun _ hr => hr, fun p hp => ?_⟩
    exact absurd hp.1 (List.find?_eq_none.mp hq p (List.mem_finRange p))
  | some q =>
    have hh : hangsOn s none rip call q = true := List.find?_some hq
    have hhung := (h.of_hangsOn hip hh).1
    have hf := (releaseOne_hung hhung).1
    have hself : ((releaseOne s q).fproc q).fpRevived = true := by
      rw [hf, update_self]
    have hrev : ∀ r, (s.fproc r).fpRevived = true →
        ((releaseOne s q).fproc r).fpRevived = true := by
      intro r hr
      by_cases he : r = q
      · rw [he]
        exact hself
      · rw [hf, update_of_ne he]
        exact hr
    refine ⟨fun ip c p => hangsOn_releaseOne hhung p, ?_, hrev, fun p _ =>
      ⟨q, ⟨hh, hfirst q hq⟩, hself⟩⟩
    rintro ip c p ⟨hp, hr⟩
    dsimp only at hp hr
    rw [hangsOn_releaseOne hhung] at hp
    refine ⟨hp, ?_⟩
    by_contra hn
    rw [hrev p (Bool.eq_true_of_not_eq_false hn)] at hr
    cases hr

/-- The caller joins those who sleep. -/
theorem sleeps_suspend {flag call : RwFlag} (hs : (s.fproc who).fpSuspended = false)
    (hk : s.files.fpFilp who k = some f) (hi : (s.files.filp f).filpIno = rip) (buffer : Nat)
    (nbytes : Int) (hp : Sleeps (suspend s who XPIPE k (some flag) buffer nbytes) ip call p) :
    Sleeps s ip call p ∨ p = who ∧ ip = rip ∧ call = flag := by
  obtain ⟨hh, hr⟩ := hp
  have hfiles := (SameFiles.suspend s who XPIPE k (some flag) buffer nbytes).files
  have hf := (suspend_fproc s who XPIPE k (some flag) buffer nbytes).1
  rw [hangsOn_eq_some, hf, hfiles] at hh
  rw [hf] at hr
  by_cases he : p = who
  · subst he
    rw [update_self] at hh
    obtain ⟨-, hcall, g, hg, hi'⟩ := hh
    obtain rfl := Option.some.inj (hk.symm.trans hg)
    exact .inr ⟨rfl, hi'.symm.trans hi, (Option.some.inj hcall).symm⟩
  · rw [update_of_ne he] at hh hr
    exact .inl ⟨hangsOn_eq_some.mpr hh, hr⟩

/-- Nobody else is affected when the caller is suspended. -/
theorem hangsOn_suspended {flag call : RwFlag} (hs : (s.fproc who).fpSuspended = false)
    (buffer : Nat) (nbytes : Int) (hh : hangsOn s none ip call p = true) :
    hangsOn (suspend s who XPIPE k (some flag) buffer nbytes) none ip call p = true ∧
    ((suspend s who XPIPE k (some flag) buffer nbytes).fproc p) = s.fproc p := by
  have hfiles := (SameFiles.suspend s who XPIPE k (some flag) buffer nbytes).files
  have hf := (suspend_fproc s who XPIPE k (some flag) buffer nbytes).1
  have hne : p ≠ who := by
    rintro rfl
    rw [(hangsOn_eq_some.mp hh).1] at hs
    cases hs
  have hsame : (suspend s who XPIPE k (some flag) buffer nbytes).fproc p = s.fproc p := by
    rw [hf, update_of_ne hne]
  refine ⟨?_, hsame⟩
  rw [hangsOn_eq_some] at hh ⊢
  rw [hsame, hfiles]
  exact hh

/-- A transfer leaves all ends open. -/
theorem transfer_users (s : State) (who : Proc) (f : FilpPtr) (rip : InodePtr) (flag : RwFlag)
    (fSize start buffer n : Nat) (io : Io) (ip : InodePtr) :
    users (transfer s who f rip flag fSize start buffer n io).files ip = users s.files ip :=
  users_congr (fun g => by rw [(transfer_filp s who f rip flag fSize start buffer n io g).1])
    (fun g _ => (transfer_filp s who f rip flag fSize start buffer n io g).2.2) ip

theorem transfer_hangsOn (s : State) (who : Proc) (f : FilpPtr) (rip : InodePtr) (flag : RwFlag)
    (fSize start buffer n : Nat) (io : Io) (ip : InodePtr) (call : RwFlag) (p : Proc) :
    hangsOn (transfer s who f rip flag fSize start buffer n io) none ip call p =
      hangsOn s none ip call p := by
  have hf := (Calm.transfer s who f rip flag fSize start buffer n io).fproc
  rw [Bool.eq_iff_iff, hangsOn_eq_some, hangsOn_eq_some, hf, transfer_fd]
  refine and_congr_right fun _ => and_congr_right fun _ => exists_congr fun g =>
    and_congr_right fun _ => ?_
  rw [(transfer_filp s who f rip flag fSize start buffer n io g).2.2]

/-- After a transfer, pipes that are not emptied or filled are as before. -/
theorem Awake.transferred {flag : RwFlag} {fSize start buffer n : Nat} {io : Io}
    (ha : ∀ ip, (s.inode ip).iPipe = true → Alert s ip ∧ (ip ≠ rip → Handled s ip))
    (hrip : (∀ p, ¬Sleeps s rip .READING p) ∨
      ((transfer s who f rip flag fSize start buffer n io).inode rip).iSize =
        (s.inode rip).iSize ∧ Handled s rip) :
    Awake (transfer s who f rip flag fSize start buffer n io) := by
  have hf := (Calm.transfer s who f rip flag fSize start buffer n io).fproc
  have hsleep : ∀ ip call p, Sleeps (transfer s who f rip flag fSize start buffer n io) ip call p →
      Sleeps s ip call p := by
    rintro ip call p ⟨hh, hr⟩
    rw [transfer_hangsOn] at hh
    rw [hf] at hr
    exact ⟨hh, hr⟩
  have hrev : ∀ ip r call, (s.fproc r).fpRevived = true → hangsOn s none ip call r = true →
      ((transfer s who f rip flag fSize start buffer n io).fproc r).fpRevived = true ∧
      hangsOn (transfer s who f rip flag fSize start buffer n io) none ip call r = true := by
    intro ip r call hr hh
    rw [transfer_hangsOn, hf]
    exact ⟨hr, hh⟩
  have hends : ∀ ip, ∀ g ∈ users s.files ip,
      g ∈ users (transfer s who f rip flag fSize start buffer n io).files ip ∧
      ((transfer s who f rip flag fSize start buffer n io).files.filp g).filpMode =
        (s.files.filp g).filpMode := by
    intro ip g hg
    rw [transfer_users]
    exact ⟨hg, (transfer_filp s who f rip flag fSize start buffer n io g).2.1⟩
  intro ip hip
  obtain ⟨hpipe, -, hother⟩ := transfer_inode s who f rip flag fSize start buffer n io ip
  rw [hpipe] at hip
  obtain ⟨hal, hha⟩ := ha ip hip
  by_cases he : ip = rip
  · subst he
    rcases hrip with hnone | ⟨hsize, hha⟩
    · refine ⟨⟨fun p hp => absurd (hsleep ip _ p hp) (hnone p), fun p hp => ?_⟩,
        fun p _ hp => absurd (hsleep ip _ p hp) (hnone p)⟩
      obtain ⟨g, hg, hb⟩ := hal.writer p (hsleep ip _ p hp)
      obtain ⟨hg', hm⟩ := hends ip g hg
      exact ⟨g, hg', hm ▸ hb⟩
    · exact ⟨hal.mono (hsleep ip) (hends ip) hsize, hha.mono (hsleep ip) (hrev ip)⟩
  · have hsize : ((transfer s who f rip flag fSize start buffer n io).inode ip).iSize =
        (s.inode ip).iSize := by rw [hother he]
    exact ⟨hal.mono (hsleep ip) (hends ip) hsize, (hha he).mono (hsleep ip) (hrev ip)⟩

end Awake

/-- The readers that sleep on a pipe. -/
def readersAsleep (s : State) (rip : InodePtr) : Finset Proc :=
  Finset.univ.filter fun p =>
    hangsOn s none rip .READING p = true ∧ (s.fproc p).fpRevived = false

/-- A write that puts bytes into an empty pipe wakes everybody who sleeps there: there is one reader
at most. -/
def WakesReaders (s : State) (f : FilpPtr) (nbytes : Int) (io : Io) : Prop :=
  (s.files.filp f).filpMode.w = true → 0 < nbytes →
  nbytes ≤ (s.inode (s.files.filp f).filpIno).sMaxSize →
  pipeVerdict s (s.files.filp f).filpIno .WRITING nbytes (s.files.filp f).filpPos = .go true →
  ¬chunkFails (s.inode (s.files.filp f).filpIno) (s.files.filp f).filpPos (io.chunk 0) →
  (readersAsleep s (s.files.filp f).filpIno).card ≤ 1

section PipeIo

variable {s s' : State} {ip rip : InodePtr} {who p : Proc} {k : Fd} {f : FilpPtr} {flag : RwFlag}

theorem mem_readersAsleep : p ∈ readersAsleep s rip ↔ Sleeps s rip .READING p := by
  unfold readersAsleep
  rw [Finset.mem_filter, and_iff_right (Finset.mem_univ p)]
  rfl

/-- While there is data in a pipe nobody sleeps until there is some. -/
theorem Alert.no_reader (h : Alert s rip) (hz : 0 < (s.inode rip).iSize) (p : Proc) :
    ¬Sleeps s rip .READING p := fun hp => Nat.ne_of_gt hz (h.reader p hp).2

/-- A write that goes on, with who it has woken. -/
theorem Awake.written {wake : Bool} {nbytes : Int} {io : Io} (ht : Tidy s) (h : Waiting s)
    (hk : s.files.fpFilp who k = some f) (hr : (s.files.filp f).filpIno = rip)
    (hp : (s.inode rip).iPipe = true) (hb : (s.files.filp f).filpMode.w = true)
    (hn : 0 < nbytes) (hmax : nbytes ≤ (s.inode rip).sMaxSize) (buffer : Nat)
    (hv : pipeVerdict s rip .WRITING nbytes (s.files.filp f).filpPos = .go wake)
    (ha : ∀ ip, (s.inode ip).iPipe = true → Alert s ip ∧ (ip ≠ rip → Handled s ip))
    (hfresh : drift (if wake then release s none rip .READING 1 else s) = drift s)
    (hcrowd : WakesReaders s f nbytes io) :
    Awake (transfer (if wake then release s none rip .READING 1 else s) who f rip .WRITING
      (s.inode rip).iSize (s.files.filp f).filpPos buffer (nbytes % 65536).toNat io) := by
  have hend := ht.ends rip hp
  have hmem : f ∈ users s.files rip := hr ▸ ht.counted.mem_users hk
  have hmode := hend.mode f hmem
  rw [hb] at hmode
  have hsize := hend.writer f hmem (by simpa using hmode.symm)
  have hgo := pipeVerdict_go_writing hv
  obtain ⟨hal, -⟩ := ha rip hp
  cases wake with
  | false =>
    refine .transferred ha (.inl (hal.no_reader ?_))
    have hne : (s.files.filp f).filpPos ≠ 0 := fun he => Bool.noConfusion (hgo.2.2.mpr he)
    omega
  | true =>
    have hzero : (s.files.filp f).filpPos = 0 := hgo.2.2.mp rfl
    rw [if_pos rfl] at hfresh ⊢
    have hsame := SameFiles.release s none rip .READING 1
    obtain ⟨hhangs, hsleep, hrev, hwoken⟩ := h.sleepsFirst hp .READING hfresh
    have ha' : ∀ ip, ((release s none rip .READING 1).inode ip).iPipe = true →
        Alert (release s none rip .READING 1) ip ∧
        (ip ≠ rip → Handled (release s none rip .READING 1) ip) := by
      intro ip hip
      rw [hsame.inode] at hip
      obtain ⟨hal, hha⟩ := ha ip hip
      refine ⟨hal.mono (hsleep ip) (fun g hg => ?_) (by rw [hsame.inode]), fun hne =>
        (hha hne).mono (hsleep ip) fun r call hr hh => ⟨hrev r hr, (hhangs ip call r).trans hh⟩⟩
      rw [hsame.files]
      exact ⟨hg, rfl⟩
    refine .transferred ha' ?_
    by_cases hfail : chunkFails (s.inode rip) (s.files.filp f).filpPos (io.chunk 0)
    · -- nothing is written, and the reader that was woken will find that out
      right
      constructor
      · unfold transfer endWrite setInode
        dsimp only
        rw [update_self, hsame.inode, rwLoop_stuck hfail, hsize, if_neg (Nat.lt_irrefl _)]
        obtain ⟨z, hz⟩ := rwLoop_ip .WRITING io.chunk (s.inode rip).iSize (nbytes % 65536).toNat 0
          (s.inode rip) ((release s none rip .READING 1).mem who) (s.inode rip).iSize buffer
          (nbytes % 65536).toNat
        rw [hz]
      · intro p q hp hq
        obtain ⟨r, hr, hr'⟩ := hwoken p (hsleep rip _ p hp)
        exact ⟨r, .READING, hr', (hhangs rip .READING r).trans hr.1⟩
    · left
      intro p hp'
      obtain ⟨q, hq, hq'⟩ := hwoken p (hsleep rip _ p hp')
      subst hr
      have hcard := hcrowd hb hn hmax hv hfail
      have he := Finset.card_le_one.mp hcard p (mem_readersAsleep.mpr (hsleep _ _ p hp')) q
        (mem_readersAsleep.mpr hq)
      rw [he] at hp'
      rw [hp'.2] at hq'
      cases hq'

/-- `s₁` is `s` but for `who`, who lies down to wait for the pipe. -/
structure LiesDown (s s₁ : State) (who : Proc) (rip : InodePtr) (flag : RwFlag) : Prop where
  same : SameFiles s s₁
  sleeps : ∀ ip call p, Sleeps s₁ ip call p → Sleeps s ip call p ∨ p = who ∧ ip = rip ∧ call = flag
  woken : ∀ ip r call, (s.fproc r).fpRevived = true → hangsOn s none ip call r = true →
    (s₁.fproc r).fpRevived = true ∧ hangsOn s₁ none ip call r = true

/-- That is what `suspend` does. -/
theorem liesDown_suspend (hs : (s.fproc who).fpSuspended = false)
    (hk : s.files.fpFilp who k = some f) (hr : (s.files.filp f).filpIno = rip) (buffer : Nat)
    (nbytes : Int) :
    LiesDown s (suspend s who XPIPE k (some flag) buffer nbytes) who rip flag where
  same := .suspend s who XPIPE k (some flag) buffer nbytes
  sleeps _ _ _ := sleeps_suspend hs hk hr buffer nbytes
  woken _ _ _ hr hh := by
    obtain ⟨hh', hsame⟩ := hangsOn_suspended hs buffer nbytes hh
    exact ⟨hsame ▸ hr, hh'⟩

/-- The ends of a pipe are open in a state with the same files. -/
theorem EndOpen.same {bit : Bits → Bool} (h : EndOpen s ip bit) (hs : SameFiles s s') :
    EndOpen s' ip bit := by
  obtain ⟨g, hg, hbit⟩ := h
  unfold EndOpen
  rw [hs.files]
  exact ⟨g, hg, hbit⟩

/-- Nothing has happened, and there is nothing to see to: nobody waits for one of the ends, or it is
being seen to. -/
theorem awake_of_quiet
    (ha : ∀ ip, (s.inode ip).iPipe = true → Alert s ip ∧ (ip ≠ rip → Handled s ip))
    (hnone : (∀ q, ¬Sleeps s rip .READING q) ∨ (∀ q, ¬Sleeps s rip .WRITING q) ∨ Handled s rip) :
    Awake s := by
  intro ip hip
  obtain ⟨hal, hha⟩ := ha ip hip
  refine ⟨hal, ?_⟩
  by_cases he : ip = rip
  · subst he
    rcases hnone with hno | hno | hha
    · exact fun q _ hq => absurd hq (hno q)
    · exact fun _ q _ hq => absurd hq (hno q)
    · exact hha
  · exact hha he

/-- A writer lies down in front of a pipe that is full: nobody waits for its data. -/
theorem LiesDown.full {s₁ : State} (hl : LiesDown s s₁ who rip .WRITING)
    (ha : ∀ ip, (s.inode ip).iPipe = true → Alert s ip ∧ (ip ≠ rip → Handled s ip))
    (hnone : ∀ q, ¬Sleeps s rip .READING q) (hreader : EndOpen s rip Bits.r) : Awake s₁ := by
  intro ip hip
  rw [hl.same.inode] at hip
  obtain ⟨hal, hha⟩ := ha ip hip
  refine ⟨⟨fun p hp => ?_, fun p hp => ?_⟩, fun p q hp hq => ?_⟩
  · rw [hl.same.inode]
    rcases hl.sleeps ip _ p hp with hold | ⟨-, -, hc⟩
    · exact ⟨(hal.reader p hold).1.same hl.same, (hal.reader p hold).2⟩
    · cases hc
  · rcases hl.sleeps ip _ p hp with hold | ⟨-, rfl, -⟩
    · exact (hal.writer p hold).same hl.same
    · exact hreader.same hl.same
  · rcases hl.sleeps ip _ p hp with holdp | ⟨-, -, hc⟩
    · by_cases he : ip = rip
      · subst he
        exact absurd holdp (hnone p)
      · rcases hl.sleeps ip _ q hq with holdq | ⟨-, hc, -⟩
        · obtain ⟨r, call, hr', hh'⟩ := hha he p q holdp holdq
          exact ⟨r, call, hl.woken ip r call hr' hh'⟩
        · exact absurd hc he
    · cases hc

/-- A reader lies down in front of a pipe that is empty, and wakes a writer. -/
theorem LiesDown.empty {s₁ : State} (hl : LiesDown s s₁ who rip .READING) (hwait : Waiting s₁)
    (hp : (s.inode rip).iPipe = true) (hd : drift (release s₁ none rip .WRITING 1) = drift s₁)
    (ha : ∀ ip, (s.inode ip).iPipe = true → Alert s ip ∧ (ip ≠ rip → Handled s ip))
    (hwriter : EndOpen s rip Bits.w) (hzero : (s.inode rip).iSize = 0) :
    Awake (release s₁ none rip .WRITING 1) := by
  have hp₁ : (s₁.inode rip).iPipe = true := hl.same.inode ▸ hp
  obtain ⟨hhangs, hsleep, hrev, hwoken⟩ := hwait.sleepsFirst hp₁ .WRITING hd
  have hsame := hl.same.trans (.release s₁ none rip .WRITING 1)
  intro ip hip
  rw [hsame.inode] at hip
  obtain ⟨hal, hha⟩ := ha ip hip
  refine ⟨⟨fun p hp => ?_, fun p hp => ?_⟩, fun p q hp hq => ?_⟩
  · rw [hsame.inode]
    rcases hl.sleeps ip _ p (hsleep ip _ p hp) with hold | ⟨-, rfl, -⟩
    · exact ⟨(hal.reader p hold).1.same hsame, (hal.reader p hold).2⟩
    · exact ⟨hwriter.same hsame, hzero⟩
  · rcases hl.sleeps ip _ p (hsleep ip _ p hp) with hold | ⟨-, -, hc⟩
    · exact (hal.writer p hold).same hsame
    · cases hc
  · have hq₁ := hsleep ip _ q hq
    by_cases he : ip = rip
    · subst he
      obtain ⟨q', hq₂, hr'⟩ := hwoken q hq₁
      exact ⟨q', .WRITING, hr', (hhangs _ _ q').trans hq₂.1⟩
    · rcases hl.sleeps ip _ p (hsleep ip _ p hp) with holdp | ⟨-, hc, -⟩
      · rcases hl.sleeps ip _ q hq₁ with holdq | ⟨-, hc, -⟩
        · obtain ⟨r, call, hr', hh'⟩ := hha he p q holdp holdq
          obtain ⟨hr₁, hh₁⟩ := hl.woken ip r call hr' hh'
          exact ⟨r, call, hrev r hr₁, (hhangs ip call r).trans hh₁⟩
        · exact absurd hc he
      · exact absurd hc he

/-- READ and WRITE on a pipe wake whoever they have to, or are done by somebody who has just been
woken for that. -/
theorem Awake.pipeIoDone {nbytes : Int} {io : Io} (ht : Tidy s) (h : Waiting s)
    (hlive : s.live who = true) (hs : (s.fproc who).fpSuspended = false)
    (hk : s.files.fpFilp who k = some f) (hr : (s.files.filp f).filpIno = rip)
    (hp : (s.inode rip).iPipe = true) (hb : bitOf flag (s.files.filp f).filpMode = true)
    (hn : 0 < nbytes) (buffer : Nat) (htot : total s = 0) (hd : drift s = 0)
    (hd' : drift (pipeIo s who k f flag buffer nbytes io) = 0)
    (ha : ∀ ip, (s.inode ip).iPipe = true → Alert s ip ∧ (ip ≠ rip → Handled s ip))
    (hh : Handled s rip ∨
      (flag = .WRITING → nbytes ≤ PIPE_SIZE ∧ nbytes ≤ (s.inode rip).sMaxSize))
    (hcrowd : flag = .WRITING → WakesReaders s f nbytes io) :
    Awake (pipeIo s who k f flag buffer nbytes io) := by
  have hend := ht.ends rip hp
  have hmem : f ∈ users s.files rip := hr ▸ ht.counted.mem_users hk
  have hmode := hend.mode f hmem
  obtain ⟨hreads, hclear⟩ := ht.no_hole hk hr hp hb
  obtain ⟨hal, -⟩ := ha rip hp
  have hpos : flag = .WRITING → (s.files.filp f).filpPos = (s.inode rip).iSize := by
    intro hw
    refine hend.writer f hmem ?_
    rw [← Bool.not_eq_true, hreads, hw]
    exact RwFlag.noConfusion
  by_cases hbig : flag = .WRITING ∧ (s.files.filp f).filpPos > (s.inode rip).sMaxSize - nbytes
  · have he : pipeIo s who k f flag buffer nbytes io = s := by
      unfold pipeIo
      subst hr
      rw [if_pos hbig]
    rw [he]
    rcases hh with hha | hfits
    · exact awake_of_quiet ha (.inr (.inr hha))
    · refine awake_of_quiet ha (.inl (hal.no_reader ?_))
      have hw := hpos hbig.1
      have hfit := (hfits hbig.1).2
      have hlt := hbig.2
      omega
  rw [pipeIo_eq hr hbig hclear] at hd' ⊢
  cases hv : pipeVerdict s rip flag nbytes (s.files.filp f).filpPos with
  | empty writer =>
    obtain ⟨rfl, hle, hw⟩ := pipeVerdict_empty hv
    cases writer with
    | false =>
      refine awake_of_quiet ha (.inr (.inl fun q hq => ?_))
      have hwriter := findFilp_isSome.mpr (h.endOpen ht hp hq.1)
      exact Bool.noConfusion (hw.trans hwriter)
    | true =>
      have hzero : (s.inode rip).iSize = 0 := by
        rcases hend.reader f hmem (hreads.mpr rfl) with hlt | ⟨-, hz⟩
        · omega
        · exact hz
      have hsus : Waiting (suspend s who XPIPE k (some .READING) buffer nbytes) ∧
          total (suspend s who XPIPE k (some .READING) buffer nbytes) = total s ∧
          drift (suspend s who XPIPE k (some .READING) buffer nbytes) = drift s := by
        refine h.suspended hlive hs hk buffer (fun _ => ?_) fun hne => absurd rfl hne
        rw [hr]
        exact ⟨hp, .READING, rfl, hb, hn, fun hc => RwFlag.noConfusion hc⟩
      obtain ⟨hwait, -, hdrift⟩ := hsus
      have hcount : (suspend s who XPIPE k (some .READING) buffer nbytes).suspCount > 0 := by
        rw [(suspend_fproc s who XPIPE k (some .READING) buffer nbytes).2.1, if_pos rfl]
        have hcard := h.card_sleepers
        unfold total at htot
        unfold drift at hd
        omega
      rw [hv] at hd'
      dsimp only at hd' ⊢
      rw [if_pos hcount] at hd' ⊢
      exact (liesDown_suspend hs hk hr buffer nbytes).empty hwait hp
        (hd'.trans (hdrift.trans hd).symm) ha (findFilp_isSome.mp hw.symm) hzero
  | tooBig =>
    obtain ⟨hw, hlarge⟩ := pipeVerdict_tooBig hv
    rcases hh with hha | hfits
    · exact awake_of_quiet ha (.inr (.inr hha))
    · exact absurd (hfits hw).1 (Int.not_le.mpr hlarge)
  | broken =>
    refine awake_of_quiet ha (.inl fun q hq => ?_)
    have hreader := findFilp_isSome.mpr (h.endOpen ht hp hq.1)
    exact Bool.noConfusion ((pipeVerdict_broken hv).symm.trans hreader)
  | full =>
    obtain ⟨rfl, hsize, hfull, hreader⟩ := pipeVerdict_full hv
    have hw := hpos rfl
    exact (liesDown_suspend hs hk hr buffer nbytes).full ha (hal.no_reader (by omega))
      (findFilp_isSome.mp hreader)
  | go wake =>
    rw [hv] at hd'
    dsimp only at hd' ⊢
    cases flag with
    | READING =>
      obtain ⟨hlt, rfl⟩ := pipeVerdict_go_reading hv
      exact .transferred ha (.inl (hal.no_reader (by omega)))
    | WRITING =>
      have hmax : nbytes ≤ (s.inode rip).sMaxSize := by
        rw [not_and] at hbig
        have := hbig rfl
        omega
      refine .written ht h hk hr hp hb hn hmax buffer hv ha ?_ (hcrowd rfl)
      rw [(Calm.transfer _ who f rip .WRITING (s.inode rip).iSize (s.files.filp f).filpPos
        buffer (nbytes % 65536).toNat io).drift] at hd'
      exact hd'.trans hd.symm

end PipeIo

section Requests

variable {s s' : State} {who p : Proc}

/-- Only the processes have changed, and nobody has gone to sleep on a pipe. -/
theorem Awake.woken (hs : SameFiles s s') (ha : Awake s)
    (hsleep : ∀ ip call p, (s.inode ip).iPipe = true → Sleeps s' ip call p → Sleeps s ip call p)
    (hrev : ∀ ip r call, (s.fproc r).fpRevived = true → hangsOn s none ip call r = true →
      (s'.fproc r).fpRevived = true ∧ hangsOn s' none ip call r = true) : Awake s' := by
  intro ip hip
  rw [hs.inode] at hip
  obtain ⟨hal, hha⟩ := ha ip hip
  refine ⟨hal.mono (fun call p => hsleep ip call p hip) (fun f hf => ?_) (by rw [hs.inode]),
    hha.mono (fun call p => hsleep ip call p hip) (hrev ip)⟩
  rw [hs.files]
  exact ⟨hf, rfl⟩

/-- A process that does not hang on a pipe gets data with which it does not either. -/
theorem Awake.setFproc {d : Fproc} (hs : SameFiles s s') (ha : Awake s)
    (hf : s'.fproc = update s.fproc p d) (hold : (s.fproc p).fpRevived = false)
    (hnew : ∀ ip call, (s.inode ip).iPipe = true → hangsOn s' none ip call p = false) :
    Awake s' := by
  have hother : ∀ q, q ≠ p → s'.fproc q = s.fproc q := fun q hq => by rw [hf, update_of_ne hq]
  have hhangs : ∀ ip call q, q ≠ p → hangsOn s' none ip call q = hangsOn s none ip call q := by
    intro ip call q hq
    unfold hangsOn
    rw [hother q hq, hs.files]
  refine ha.woken hs ?_ ?_
  · rintro ip call q hip ⟨hh, hr⟩
    have hne : q ≠ p := by
      rintro rfl
      rw [hnew ip call hip] at hh
      cases hh
    rw [hhangs ip call q hne] at hh
    rw [hother q hne] at hr
    exact ⟨hh, hr⟩
  · intro ip r call hr hh
    have hne : r ≠ p := by
      rintro rfl
      rw [hold] at hr
      cases hr
    rw [hhangs ip call r hne, hother r hne]
    exact ⟨hr, hh⟩

theorem hangsOn_of_not_suspended {nil : Option InodePtr} {ip : InodePtr} {call : RwFlag}
    (hs : (s.fproc p).fpSuspended = false) : hangsOn s nil ip call p = false := by
  unfold hangsOn
  rw [hs, Bool.false_and, Bool.false_and]

theorem Awake.leaves (ha : Awake s) (hr : (s.fproc p).fpRevived = false) :
    Awake (leaveSuspended s p) := by
  refine ha.setFproc (.leaveSuspended s p) (leaveSuspended_fproc s p) hr fun ip call _ => ?_
  rw [hangsOn_leave, if_pos rfl]

theorem Awake.taskRevives (ha : Awake s) (h : Waiting s)
    (hp : (s.fproc p).fpSuspended = true → (s.fproc p).fpTask ≠ XPIPE) (bytes : Int) :
    Awake (revive s p bytes) := by
  cases hs : (s.fproc p).fpSuspended with
  | false =>
    have he : revive s p bytes = s := by
      unfold revive
      rw [if_pos hs]
    rw [he]
    exact ha
  | true =>
    have hf : (revive s p bytes).fproc = update s.fproc p
        { s.fproc p with fpSuspended := false, fpNbytes := bytes } := by
      unfold revive
      dsimp only
      rw [if_neg (by rw [hs]; exact Bool.noConfusion), if_neg (hp hs)]
      rfl
    have hold : (s.fproc p).fpRevived = false := by
      by_contra hn
      exact hp hs (isHung_iff.mp (h.revived p (Bool.eq_true_of_not_eq_false hn))).2
    refine ha.setFproc (.revive s p bytes) hf hold fun ip call _ => hangsOn_of_not_suspended ?_
    rw [hf, update_self]

/-- A task suspends the caller, which has another file there. -/
theorem Awake.suspendedOnTask {task : Int} {k : Fd} {f : FilpPtr} (ha : Awake s) (h : Waiting s)
    (hs : (s.fproc who).fpSuspended = false) (hk : s.files.fpFilp who k = some f)
    (hp : (s.inode (s.files.filp f).filpIno).iPipe = false) (call : Option RwFlag) (buffer : Nat)
    (nbytes : Int) : Awake (suspend s who task k call buffer nbytes) := by
  have hsame := SameFiles.suspend s who task k call buffer nbytes
  have hf := (suspend_fproc s who task k call buffer nbytes).1
  refine ha.setFproc hsame hf (h.not_revived hs) fun ip c hip => ?_
  by_contra hn
  obtain ⟨-, -, g, hg, hi⟩ := hangsOn_eq_some.mp (Bool.eq_true_of_not_eq_false hn)
  rw [hf, update_self, hsame.files] at hg
  rw [hsame.files] at hi
  obtain rfl := Option.some.inj (hk.symm.trans hg)
  rw [hi, hip] at hp
  cases hp

theorem Awake.forks (ht : Tidy s) (h : Waiting s) (ha : Awake s) {parent child : Proc}
    (hs : (s.fproc parent).fpSuspended = false) (hc : s.live child = false) :
    Awake (doFork s parent child) := by
  have hcs : (s.fproc child).fpSuspended = false := by
    by_contra hn
    have := (h.onFile child (Bool.eq_true_of_not_eq_false hn)).1
    rw [hc] at this
    cases this
  have hfiles : Awake { s with
      files := forkFiles s.files parent child, live := update s.live child true } :=
    ha.framed ht hcs (Frame.forked s parent child) ⟨rfl, rfl, rfl⟩
  have hsame : SameFiles { s with
      files := forkFiles s.files parent child, live := update s.live child true }
      (doFork s parent child) := ⟨rfl, rfl, rfl, rfl, rfl⟩
  refine hfiles.setFproc (p := child) hsame rfl (h.not_revived hcs) fun ip call _ =>
    hangsOn_of_not_suspended ?_
  change (update s.fproc child (s.fproc parent) child).fpSuspended = false
  rw [update_self]
  exact hs

/-- All descriptors are closed by a process that is not waiting. -/
theorem Awake.closedAll (ht : Tidy s) (h : Waiting s) (ha : Awake s)
    (hs : (s.fproc p).fpSuspended = false) (nil : Option InodePtr) (l : List Fd) :
    Awake (closeAll nil p l s) := by
  induction l generalizing s with
  | nil => exact ha
  | cons k l ih =>
    obtain ⟨hw, -, -, -, hfp⟩ := h.doClosed ht hs nil k.val
    have hchain : ReflTransGen (Change fun _ => True) s (doClose s nil p k.val) :=
      doClose_changes s nil p k.val
    obtain ⟨b, hb, -⟩ := hfp p
    refine ih (ht.changes hchain) hw (ha.closedEnd ht h hs nil k.val) ?_
    rw [hb]
    exact hs

theorem Awake.otherIoDone {k : Fd} {f : FilpPtr} {io : Io} (ht : Tidy s) (h : Waiting s)
    (ha : Awake s) (hs : (s.fproc who).fpSuspended = false)
    (hk : s.files.fpFilp who k = some f)
    (hp : (s.inode (s.files.filp f).filpIno).iPipe = false) (flag : RwFlag) (buffer : Nat)
    (nbytes : Int) : Awake (otherIo s who k f flag buffer nbytes io) := by
  have hgrow : Grows who s { s with files := setPos s.files f io.newPos } :=
    otherIo_grows hp k flag buffer nbytes ⟨io.chunk, none, io.newPos⟩
  have hframe := hgrow.frame ht
  have hcalm : Calm s { s with files := setPos s.files f io.newPos } := ⟨rfl, rfl, rfl⟩
  have hpos := ha.framed ht hs hframe hcalm
  cases htask : io.suspendOn with
  | none =>
    unfold otherIo
    rw [htask]
    exact hpos
  | some task =>
    rw [otherIo_suspends htask]
    have hwait := h.framed ht hs hframe hcalm
    refine hpos.suspendedOnTask hwait hs hk ?_ (some flag) buffer nbytes
    rw [(hframe.inUse f (ht.inUse hk)).2.2]
    exact hp

theorem Awake.setLive (ha : Awake s) (l : Proc → Bool) : Awake { s with live := l } :=
  fun ip hip => ⟨(ha ip hip).1.mono (fun _ _ h => h) (fun _ hf => ⟨hf, rfl⟩) rfl, (ha ip hip).2⟩

/-- A write that fills an empty pipe finds one sleeping reader at most. -/
def EnoughWoken (s : State) : Request → Prop
  | .call who (.readWrite .WRITING fd _ nbytes io) => ∀ k f, getFilp s.files who fd = some (k, f) →
      (s.inode (s.files.filp f).filpIno).iPipe = true → WakesReaders s f nbytes io
  | .work io => ∀ rp, toRevive s = some rp → (s.fproc rp).fpCall = some .WRITING →
      ∀ f, s.files.fpFilp rp (s.fproc rp).fpFd = some f → WakesReaders s f (s.fproc rp).fpNbytes io
  | _ => True

/-- The call that is revived was to see to its pipe, and it does. -/
theorem Awake.worked {io : Io} (ht : Tidy s) (h : Waiting s) (ha : Awake s) (htot : total s = 0)
    (hd : drift s = 0) (he : getWork s io = some s') (hd' : drift s' = 0)
    (henough : EnoughWoken s (.work io)) : Awake s' := by
  cases hp : toRevive s with
  | none =>
    unfold getWork at he
    rw [hp] at he
    cases he
  | some p =>
    obtain ⟨flag, f, hcall, hk, hip, hb, hn, hwork⟩ := h.works hp io
    obtain rfl := Option.some.inj (hwork.symm.trans he)
    obtain ⟨hw, htot', hd₁⟩ := h.unhangs (toRevive_some hp)
    obtain ⟨hsus, htask⟩ := isHung_iff.mp (h.revived p (toRevive_some hp))
    obtain ⟨hlive, g, hg, hwaits⟩ := h.onFile p hsus
    obtain rfl := Option.some.inj (hk.symm.trans hg)
    obtain ⟨-, flag', hcall', -, -, hfits⟩ := hwaits.pipe htask
    obtain rfl := Option.some.inj (hcall.symm.trans hcall')
    have hself : (unhang s p).fproc p =
        { s.fproc p with fpSuspended := false, fpRevived := false } := update_self ..
    have hother : ∀ q, q ≠ p → (unhang s p).fproc q = s.fproc q := fun q hq => update_of_ne hq ..
    have hhangs : ∀ ip call q, q ≠ p → hangsOn (unhang s p) none ip call q =
        hangsOn s none ip call q := by
      intro ip call q hq
      unfold hangsOn
      rw [hother q hq]
      rfl
    have hsleep : ∀ ip call q, Sleeps (unhang s p) ip call q → Sleeps s ip call q := by
      rintro ip call q ⟨hh, hr⟩
      have hne : q ≠ p := by
        rintro rfl
        have hs := (hangsOn_eq_some.mp hh).1
        rw [hself] at hs
        cases hs
      rw [hhangs ip call q hne] at hh
      rw [hother q hne] at hr
      exact ⟨hh, hr⟩
    refine Awake.pipeIoDone (ht.congr (unhang_same s p)) hw hlive (by rw [hself]) hk rfl hip hb hn
      (s.fproc p).fpBuffer (htot'.trans htot) (hd₁.trans hd) hd' (fun ip hpipe => ?_) (.inr hfits) ?_
    · obtain ⟨hal, hha⟩ := ha ip hpipe
      refine ⟨hal.mono (hsleep ip) (fun _ hf => ⟨hf, rfl⟩) rfl, fun hne => ?_⟩
      refine hha.mono (hsleep ip) fun r call hr hh => ?_
      -- who has been woken for another pipe is somebody else
      have hrp : r ≠ p := by
        rintro rfl
        obtain ⟨-, -, g, hg, hi⟩ := hangsOn_eq_some.mp hh
        obtain rfl := Option.some.inj (hk.symm.trans hg)
        exact hne hi.symm
      rw [hother r hrp, hhangs ip call r hrp]
      exact ⟨hr, hh⟩
    · rintro rfl hw' hn' hmax hv hfail
      have hsub : readersAsleep (unhang s p) (s.files.filp f).filpIno ⊆
          readersAsleep s (s.files.filp f).filpIno := by
        intro q hq
        exact mem_readersAsleep.mpr (hsleep _ _ q (mem_readersAsleep.mp hq))
      exact (Finset.card_le_card hsub).trans (henough p hp hcall f hk hw' hn' hmax hv hfail)

/-- A call, while nobody is being revived. -/
theorem Awake.performed {c : Call} (ht : Tidy s) (h : Waiting s) (ha : Awake s)
    (htot : total s = 0) (hd : drift s = 0) (hg : AsIssued s (.call who c))
    (henough : EnoughWoken s (.call who c)) (hr : ∀ q, (s.fproc q).fpRevived = false) :
    Awake (perform s who c) := by
  have hd' := (h.performed ht hg hr).2.2.trans hd
  obtain ⟨hlive, hs, hc⟩ := hg
  cases c with
  | pipe dev =>
    exact ha.framed ht hs (frame_of_grows ht (doPipe_grows hlive hc dev)) (.doPipe s who dev)
  | «open» bits rip =>
    exact ha.framed ht hs (frame_of_grows ht (doOpen_grows hlive bits hc)) (.doOpen s who bits rip)
  | close fd => exact ha.closedEnd ht h hs none fd
  | dup fd fd2 =>
    change Awake (doDup s who fd fd2)
    rcases doDup_cases s who fd fd2 with he | ⟨s₁, j, k, f, hj, hk, he, hs₁⟩
    · rw [he]
      exact ha
    · rw [he]
      have hkept : Tidy s₁ ∧ Awake s₁ ∧ (s₁.fproc who).fpSuspended = false := by
        rcases hs₁ with ⟨g, hg, rfl⟩ | ⟨n, rfl⟩
        · have hfill : Grows who s { s with files := fillIn s.files g ⟨false, false⟩ } :=
            .fillIn hg ⟨false, false⟩
          have hchange : Change (fun _ => True) s
            { s with files := fillIn s.files g ⟨false, false⟩ } := .grows hfill
          exact ⟨ht.change hchange, ha.framed ht hs (hfill.frame ht) ⟨rfl, rfl, rfl⟩, hs⟩
        · have hchain : ReflTransGen (Change fun _ => True) s (doClose s none who n) :=
            doClose_changes s none who n
          obtain ⟨-, -, -, -, hfp⟩ := h.doClosed ht hs none n
          obtain ⟨b, hb, -⟩ := hfp who
          refine ⟨ht.changes hchain, ha.closedEnd ht h hs none n, ?_⟩
          rw [hb]
          exact hs
      obtain ⟨ht₁, ha₁, hsus₁⟩ := hkept
      exact ha₁.framed ht₁ hsus₁ Frame.shared ⟨rfl, rfl, rfl⟩
  | ioctl fd suspendOn =>
    change Awake (doIoctl s who fd suspendOn)
    unfold doIoctl
    split
    · rename_i k f task hf
      exact ha.suspendedOnTask h hs (getFilp_some hf) (hc.2 k f hf (Option.some_ne_none _)) none 0 0
    · exact ha
  | readWrite flag fd buffer nbytes io =>
    change drift (readWrite s who flag fd buffer nbytes io) = 0 at hd'
    change Awake (readWrite s who flag fd buffer nbytes io)
    rcases readWrite_cases ht who flag fd buffer nbytes io with he | ⟨k, f, hf, hb, hne, hcase⟩
    · rw [he]
      exact ha
    · rcases hcase with ⟨hp, -, hn, he⟩ | ⟨hp, he⟩
      · rw [he] at hd' ⊢
        refine Awake.pipeIoDone ht h hlive hs (getFilp_some hf) rfl hp hb (by omega) buffer htot hd
          hd' (fun ip hip => ⟨(ha ip hip).1, fun _ => (ha ip hip).2⟩) (.inl (ha _ hp).2) ?_
        rintro rfl
        exact henough k f hf hp
      · rw [he]
        exact ha.otherIoDone ht h hs (getFilp_some hf) hp flag buffer nbytes

/-- EXIT, of a process that does not find itself. -/
theorem Awake.exited (ht : Tidy s) (h : Waiting s) (ha : Awake s)
    (hr : (s.fproc p).fpRevived = false) {nil : Option InodePtr} (hclear : LeavesAlone s p nil) :
    Awake (doExit s nil p) := by
  have hleft := (h.leaves hr).1
  have hsus : ((leaveSuspended s p).fproc p).fpSuspended = false := by
    rw [leaveSuspended_fproc, update_self, left_susp]
  have hclosed := (ha.leaves hr).closedAll (ht.congr (.leaveSuspended s p)) hleft hsus nil
    (List.finRange NR_FDS)
  rw [← h.leave_closeAll ht hclear] at hclosed
  exact hclosed.setLive _

/-- Every request keeps the pipes awake, as long as nobody is released twice. -/
theorem Awake.served {r : Request} (ht : Tidy s) (h : Waiting s) (ha : Awake s)
    (htot : total s = 0) (hd : drift s = 0) (hd' : drift s' = 0) (hg : AsIssued s r)
    (hself : NotItself s r) (henough : EnoughWoken s r) (he : serve s r = some s') : Awake s' := by
  unfold serve at he
  cases r with
  | store p a b =>
    cases he
    have hs : SameFiles s { s with mem := update s.mem p (update (s.mem p) a b) } :=
      ⟨rfl, rfl, rfl, rfl, rfl⟩
    exact ha.woken hs (fun _ _ _ _ hp => hp) fun _ _ _ hr hh => ⟨hr, hh⟩
  | work io =>
    dsimp only at he
    split at he
    · cases he
    · exact ha.worked ht h htot hd he hd' henough
  | call who c =>
    obtain ⟨hz, he⟩ := Option.ite_none_right_eq_some.mp he
    cases he
    exact ha.performed ht h htot hd hg henough (nobody_revived hd.ge hz)
  | other rip n =>
    obtain ⟨-, he⟩ := Option.ite_none_right_eq_some.mp he
    cases he
    intro ip hip
    have hne : ip ≠ rip := by
      rintro rfl
      change (update s.inode ip _ ip).iPipe = true at hip
      rw [update_self] at hip
      rw [hg.1] at hip
      cases hip
    have hsame : (setInode s rip { s.inode rip with iCount := n }).inode ip = s.inode ip :=
      update_of_ne hne ..
    rw [hsame] at hip
    obtain ⟨hal, hha⟩ := ha ip hip
    exact ⟨hal.mono (fun _ _ hp => hp) (fun _ hf => ⟨hf, rfl⟩) (by rw [hsame]), hha⟩
  | fork parent child =>
    obtain ⟨-, he⟩ := Option.ite_none_right_eq_some.mp he
    cases he
    exact ha.forks ht h hg.2.1 hg.2.2.1
  | exit p nil =>
    obtain ⟨hz, he⟩ := Option.ite_none_right_eq_some.mp he
    cases he
    exact ha.exited ht h (nobody_revived hd.ge hz p) hself
  | unpause p =>
    obtain ⟨-, he⟩ := Option.ite_none_right_eq_some.mp he
    cases he
    unfold doUnpause
    split
    · exact ha
    · split
      · rename_i hne
        refine ha.taskRevives h (fun _ hx => hne ?_) EINTR
        rw [hx]
        rfl
      · exact ha
  | revive p status =>
    obtain ⟨-, he⟩ := Option.ite_none_right_eq_some.mp he
    cases he
    exact ha.taskRevives h hg status

end Requests

section Runs

variable {s s' : State}

/-- Data that nobody has read: the position of a reading end is before the end of the file. -/
def Unread (s : State) (rip : InodePtr) : Prop :=
  ∃ f ∈ users s.files rip, (s.files.filp f).filpMode.r = true ∧
    (s.files.filp f).filpPos < (s.inode rip).iSize

/-- There is no pipe yet to sleep on. -/
theorem Awake.started (h : Started s) : Awake s := by
  intro ip hip
  rw [h.noPipes ip] at hip
  cases hip

/-- What is asked for, when a write that fills an empty pipe finds one sleeping reader at most, and
no exiting process releases itself. -/
def IssuedAwake (s : State) (r : Request) : Prop := AsIssued s r ∧ NotItself s r ∧ EnoughWoken s r

/-- In every run in which writes that fill an empty pipe find one sleeping reader at most, and no
exiting process releases itself: when nobody is to be revived, who is suspended reading from a pipe
finds no data in it and has a writer, and who is suspended writing has a reader, and nobody waits
for it to fill that empty pipe. -/
theorem no_lost_wakeup (hr : Reach serve IssuedAwake Started s) (hz : s.reviving = 0)
    (rip : InodePtr) (hp : (s.inode rip).iPipe = true) (p : Proc) :
    (hangsOn s none rip .READING p = true →
      ¬Unread s rip ∧ EndOpen s rip Bits.w) ∧
    (hangsOn s none rip .WRITING p = true →
      EndOpen s rip Bits.r ∧ ¬(¬Unread s rip ∧ ∃ q, hangsOn s none rip .READING q = true)) := by
  have hinv : Tidy s ∧ Waiting s ∧ total s = 0 ∧ 0 ≤ drift s ∧ (drift s = 0 → Awake s) := by
    refine hr.invariant
      (fun s => Tidy s ∧ Waiting s ∧ total s = 0 ∧ 0 ≤ drift s ∧ (drift s = 0 → Awake s))
      (fun s h => ?_) ?_
    · obtain ⟨hw, htot, hd⟩ := Waiting.started h
      exact ⟨Tidy.started h, hw, htot, hd.ge, fun _ => .started h⟩
    · rintro s r s' ⟨ht, hw, htot, hd, ha⟩ ⟨hg, hself, henough⟩ he
      obtain ⟨hw', htot', hle, -⟩ := hw.served ht hd hg hself he
      refine ⟨ht.serve hg he, hw', htot'.trans htot, hd.trans hle, fun hd' => ?_⟩
      -- once `reviving` is too large it stays so
      have hzero : drift s = 0 := le_antisymm (hd' ▸ hle) hd
      exact (ha hzero).served ht hw htot hzero hd' hg hself henough he
  obtain ⟨ht, hw, htot, hd, ha⟩ := hinv
  have hnone := nobody_revived hd hz
  have hzero : drift s = 0 := by
    unfold drift
    rw [hz, number_eq_zero.mpr hnone]
    rfl
  obtain ⟨hal, hha⟩ := ha hzero rip hp
  refine ⟨fun hread => ?_, fun hwrite => ?_⟩
  · obtain ⟨hopen, hsize⟩ := hal.reader p ⟨hread, hnone p⟩
    refine ⟨?_, hopen⟩
    rintro ⟨f, -, -, hlt⟩
    rw [hsize] at hlt
    exact Nat.not_lt_zero _ hlt
  · refine ⟨hal.writer p ⟨hwrite, hnone p⟩, ?_⟩
    rintro ⟨-, q, hread⟩
    obtain ⟨r, -, hrev, -⟩ := hha q p ⟨hread, hnone q⟩ ⟨hwrite, hnone p⟩
    rw [hnone r] at hrev
    cases hrev

section Example

instance (ip : Inode) (position : Nat) (c : ChunkIo) : Decidable (chunkFails ip position c) := by
  unfold chunkFails
  infer_instance

instance (s : State) (f : FilpPtr) (nbytes : Int) (io : Io) :
    Decidable (WakesReaders s f nbytes io) := by
  unfold WakesReaders
  infer_instance

instance (s : State) : (r : Request) → Decidable (EnoughWoken s r)
  | .call who (.readWrite .WRITING fd _ nbytes io) => inferInstanceAs (Decidable (∀ k f,
      getFilp s.files who fd = some (k, f) → (s.inode (s.files.filp f).filpIno).iPipe = true →
        WakesReaders s f nbytes io))
  | .work io => inferInstanceAs (Decidable (∀ rp, toRevive s = some rp →
      (s.fproc rp).fpCall = some .WRITING → ∀ f, s.files.fpFilp rp (s.fproc rp).fpFd = some f →
        WakesReaders s f (s.fproc rp).fpNbytes io))
  | .call _ (.readWrite .READING _ _ _ _) => .isTrue trivial
  | .call _ (.pipe _) => .isTrue trivial
  | .call _ (.open _ _) => .isTrue trivial
  | .call _ (.close _) => .isTrue trivial
  | .call _ (.dup _ _) => .isTrue trivial
  | .call _ (.ioctl _ _) => .isTrue trivial
  | .other _ _ => .isTrue trivial
  | .fork _ _ => .isTrue trivial
  | .exit _ _ => .isTrue trivial
  | .revive _ _ => .isTrue trivial
  | .unpause _ => .isTrue trivial
  | .store _ _ _ => .isTrue trivial

instance (s : State) (r : Request) : Decidable (IssuedAwake s r) :=
  inferInstanceAs (Decidable (AsIssued s r ∧ NotItself s r ∧ EnoughWoken s r))

instance (s : State) (rip : InodePtr) : Decidable (Unread s rip) := by
  unfold Unread
  infer_instance

/-- INIT makes a pipe and forks, and the child waits for data. -/
def waitForData : List Request :=
  [.call 2 (.pipe (some (0, 100000))), .fork 2 3, .call 3 (.readWrite .READING 0 50 10 quietIo)]

theorem no_lost_wakeup_example : ∃ s, run serve IssuedAwake exampleStart waitForData = some s ∧
    hangsOn s none 31 .READING 3 = true ∧ ¬Unread s 31 ∧ EndOpen s 31 Bits.w := by
  have hrun : (run serve IssuedAwake exampleStart waitForData).any (fun s => s.reviving = 0 ∧
      (s.inode 31).iPipe = true ∧ hangsOn s none 31 .READING 3 = true) = true := by
    decide +kernel
  obtain ⟨s, hs, hm⟩ := (Option.any_eq_true _ _).mp hrun
  obtain ⟨hz, hp, hh⟩ := of_decide_eq_true hm
  exact ⟨s, hs, hh,
    (no_lost_wakeup (.of_run (.init exampleStart_started) hs) hz 31 hp 3).1 hh⟩

/-- Two readers wait for data, ten bytes come, and the reader that is woken takes five. -/
theorem no_lost_wakeup_two_readers : ¬∀ s, Reach serve AsIssued Started s → s.reviving = 0 →
    ∀ rip, (s.inode rip).iPipe = true → ∀ p,
    (hangsOn s none rip .READING p = true → ¬Unread s rip ∧ EndOpen s rip Bits.w) ∧
    (hangsOn s none rip .WRITING p = true →
      EndOpen s rip Bits.r ∧ ¬(¬Unread s rip ∧ ∃ q, hangsOn s none rip .READING q = true)) := by
  intro hall
  have hrun : (run serve AsIssued exampleStart [.call 2 (.pipe (some (0, 100000))), .fork 2 3,
      .fork 2 4, .call 3 (.readWrite .READING 0 50 5 quietIo),
      .call 4 (.readWrite .READING 0 50 5 quietIo),
      .call 2 (.readWrite .WRITING 1 70 10 quietIo), .work quietIo]).any (fun s =>
        s.reviving = 0 ∧ (s.inode 31).iPipe = true ∧ hangsOn s none 31 .READING 4 = true ∧
        Unread s 31) = true := by
    decide +kernel
  obtain ⟨s, hs, hm⟩ := (Option.any_eq_true _ _).mp hrun
  obtain ⟨hz, hp, hh, hu⟩ := of_decide_eq_true hm
  exact ((hall s (.of_run (.init exampleStart_started) hs) hz 31 hp 4).1 hh).1 hu

end Example

end Runs

end Minix.FS.Pipes
