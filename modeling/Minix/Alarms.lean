import Minix.Lib.Run
import Minix.Kernel.Clock
import Minix.Kernel.Signals
import Minix.MM.Calls
import Minix.MM.Tells

/-!
# Alarms

The memory manager keeps for each process whether its timer is on, the kernel when it rings.
The two meet in the messages of `set_alarm` to the clock task, in what the memory manager tells
the system task, and in the signals that the kernel passes on.
-/

namespace Minix.Alarms

open Function Kernel Kernel.Clock Transition

/-- The slot of a process in the table of the kernel. -/
def slotOf (p : MM.Proc) : Slot := ⟨p.val + 8, Nat.add_lt_add_right p.isLt 8⟩

/-- The memory manager, its `m_sig`, the clock task, and `p_pending`. The code does not keep `due`:
the alarms of a process that have gone off and have been neither acted on nor cancelled. -/
structure System where
  mm : MM.State
  mSig : Message
  clock : Clock.Task
  pPending : Slot → BitVec 16
  due : MM.Proc → Int

/-! ## Messages to the kernel -/

/-- The message of `set_alarm`: `HZ * sec` is unsigned and has 16 bits. -/
def alarmMess (mSig : Message) (p : MM.Proc) (sec : Nat) : Message :=
  let m := putInt (putInt mSig M_TYPE SET_ALARM) PROC_NR p.val
  putLong m DELTA_TICKS (HZ * sec % 65536)

/-- `(int) m_sig.SECONDS_LEFT`. -/
def remaining (m : Message) : Int := Int.bmod (getLong m SECONDS_LEFT) 65536

/-- The reply of the clock task is in `m_sig`. -/
def replied (st : System) : Clock.Task × List Output → Option (Int × System)
  | (c, [.reply _ m]) => some (remaining m, { st with mSig := m, clock := c })
  | _ => none

/-- Tell the clock task to provide a signal message when the time comes, and return the seconds
that were remaining. -/
def setAlarm (st : System) (p : MM.Proc) (sec : Nat) : Option (Int × System) :=
  (turn st.clock (withSource (procNr MM) (alarmMess st.mSig p sec))).bind (replied st)

/-- Nothing is due to a process any more. -/
def cancel (st : System) (p : MM.Proc) : System :=
  { st with due := update st.due p (min (st.due p) 0) }

/-- A message of the memory manager arrives. FORK copies the alarm and the pending signals, EXEC
and EXIT turn the alarm off. -/
def hear (st : System) : MM.Tell → Option System
  | .sysFork parent child => some { st with
      clock.pAlarm := update st.clock.pAlarm (slotOf child) (st.clock.pAlarm (slotOf parent))
      pPending := update st.pPending (slotOf child) (st.pPending (slotOf parent))
      due := update st.due child 0 }
  | .sysExec p => some (cancel
      { st with clock.pAlarm := update st.clock.pAlarm (slotOf p) 0 } p)
  | .sysXit p => some (cancel
      { st with clock.pAlarm := update st.clock.pAlarm (slotOf p) 0 } p)
  | .setAlarm p sec => (setAlarm st p sec).map fun r => cancel r.2 p
  | _ => some st

/-- The same while a signal of the kernel is handled: SIGALRM is acted on for one that was due. -/
def hearKsig (st : System) (x : MM.Tell) : Option System :=
  match x with
  | .sigProc p sigNr =>
    if sigNr = SIGALRM then some { st with due := update st.due p (st.due p - 1) } else some st
  | x => hear st x

/-- `1 << (sig_nr - 1)` is set in `p_pending`. -/
def pend (st : System) (n : Int) (sigNr : Nat) : System :=
  { st with pPending := fun rp =>
      if procNr rp = n then st.pPending rp ||| 1#16 <<< (sigNr - 1) else st.pPending rp }

/-- What comes out of the clock task. -/
def emit (st : System) : Output → System
  | .causeSig n sigNr =>
    { pend st n sigNr with due := fun p => if (p.val : Int) = n then st.due p + 1 else st.due p }
  | _ => st

/-! ## Runs -/

/-- A call of the memory manager, a signal that the kernel passes on with all that is pending for a
process, a message to the clock task after some interrupts that were lost, and a signal that another
task causes. -/
inductive Event where
  | call (who : MM.Proc) (c : MM.MMCall)
  | ksig (p : MM.Proc) (ans : MM.Answers) (below : Bool)
  | clock (m : Message) (lost : Nat)
  | signal (p : MM.Proc) (sigNr : Nat)

/-- The request in which the kernel passes on what is pending. -/
def ksigRequest (st : System) (p : MM.Proc) (ans : MM.Answers) (below : Bool) : MM.Request :=
  .hardware p (st.pPending (slotOf p)) ans below

/-- The clock task gets a message. -/
def clockStep (st : System) (m : Message) (lost : Nat) : Option System :=
  (turn { st.clock with lostTicks := asInt (st.clock.lostTicks + lost) } m).map fun r =>
    r.2.foldl emit { st with clock := r.1 }

/-- One step of the system. -/
def step (st : System) : Event → Option System
  | .call who c => do
    let mm ← MM.serve st.mm (.call who c)
    let st ← (MM.serveTells st.mm (.call who c)).foldlM hear st
    return { st with mm := mm }
  | .ksig p ans below => do
    let r := ksigRequest st p ans below
    let mm ← MM.serve st.mm r
    let st ← (MM.serveTells st.mm r).foldlM hearKsig
      { st with pPending := update st.pPending (slotOf p) 0 }
    return { st with mm := mm }
  | .clock m lost => clockStep st m lost
  | .signal p sigNr => some (pend st p.val sigNr)

/-- What is sent: the memory manager gets calls as they are issued, ALARM returns what the clock task
has said, the file system never sends SIGALRM, nor does a task other than the clock, and these set
alarms for themselves only. -/
def Sent (st : System) : Event → Prop
  | .call who c => MM.AsIssued st.mm (.call who c) ∧
      match c with
      | .alarm sec left => sec < 65536 ∧ (setAlarm st who sec).map Prod.fst = some left
      | .ksig _ sigMap _ => sigMap.getLsbD 13 = false
      | _ => True
  | .ksig p _ _ => st.pPending (slotOf p) ≠ 0
  | .clock m _ => getInt m M_TYPE = SET_ALARM → getInt m CLOCK_PROC_NR < 0
  | .signal _ sigNr => 1 ≤ sigNr ∧ sigNr ≤ 16 ∧ sigNr ≠ SIGALRM

/-- The system has just been booted. -/
structure Started (st : System) : Prop where
  mm : ∃ t totMem b, MM.boot t totMem b = some st.mm
  mSig : st.mSig = fun _ => 0
  pAlarm : ∀ rp, st.clock.pAlarm rp = 0
  realtime : st.clock.realtime = 0
  lostTicks : st.clock.lostTicks = 0
  pPending : ∀ rp, st.pPending rp = 0
  due : ∀ p, st.due p = 0

/-! ## One request -/

section SetAlarm

variable {st st' : System} {p : MM.Proc} {sec : Nat} {left : Int}

theorem procNr_slotOf (p : MM.Proc) : procNr (slotOf p) = p.val := by
  have htasks : (NR_TASKS : Int) = 8 := rfl
  unfold procNr slotOf
  dsimp only
  omega

theorem slotOf_inj {p q : MM.Proc} (h : slotOf p = slotOf q) : p = q := by
  have hv : p.val + 8 = q.val + 8 := congrArg Fin.val h
  exact Fin.ext (Nat.add_right_cancel hv)

theorem alarmMess_type (m : Message) (src : Int) (p : MM.Proc) (sec : Nat) :
    getInt (withSource src (alarmMess m p sec)) M_TYPE = SET_ALARM := by
  unfold getInt alarmMess
  rw [field_withSource src (Nat.le_refl 2)]
  change getInt (putLong (putInt (putInt m M_TYPE SET_ALARM) PROC_NR p.val) DELTA_TICKS _) M_TYPE = 1
  rw [getInt_putLong_ne (by decide), getInt_putInt_ne (by decide), getInt_putInt_self (by decide)]
  rfl

/-- `set_alarm` writes `PROC_NR`, which is not where the clock task looks. -/
theorem alarmMess_clockProc (m : Message) (src : Int) (p : MM.Proc) (sec : Nat) :
    getInt (withSource src (alarmMess m p sec)) CLOCK_PROC_NR = getInt m CLOCK_PROC_NR := by
  unfold getInt alarmMess
  rw [field_withSource src (by decide)]
  change getInt (putLong (putInt (putInt m M_TYPE SET_ALARM) PROC_NR p.val) DELTA_TICKS _) 4 =
    getInt m 4
  rw [getInt_putLong_ne (by decide), getInt_putInt_ne (by decide), getInt_putInt_ne (by decide)]

theorem alarmMess_delta (m : Message) (src : Int) (p : MM.Proc) (sec : Nat) :
    getLong (withSource src (alarmMess m p sec)) DELTA_TICKS = HZ * sec % 65536 := by
  unfold getLong alarmMess
  rw [field_withSource src (by decide)]
  change getLong (putLong _ DELTA_TICKS (HZ * sec % 65536)) DELTA_TICKS = _
  rw [getLong_putLong_self (by decide), Int.bmod_def]
  split <;> omega

/-- What `set_alarm` does while the first word of its message is 0: whoever asks, the alarm of the
memory manager is set. -/
structure SetsOwn (st : System) (sec : Nat) (left : Int) (st' : System) : Prop where
  left : left = Int.bmod (Int.bmod (secondsLeft st.clock MM) 4294967296) 65536
  pAlarm : st'.clock.pAlarm =
    update st.clock.pAlarm MM (alarmTime st.clock (HZ * sec % 65536))
  word : getInt st'.mSig CLOCK_PROC_NR = 0
  rest : st'.mm = st.mm ∧ st'.pPending = st.pPending ∧ st'.due = st.due

/-- A request for process 0, which is the memory manager. -/
theorem turn_setAlarm {c : Clock.Task} {m : Message} (htype : getInt m M_TYPE = SET_ALARM)
    (hproc : getInt m CLOCK_PROC_NR = 0) :
    turn c m =
      let pAlarm := update c.pAlarm MM (alarmTime c (getLong m DELTA_TICKS))
      some (Clock.reply { c with
        mc := putLong m SECONDS_LEFT (secondsLeft c MM), pAlarm := pAlarm
        nextAlarm := soonest pAlarm }) := by
  have haddr : procAddr 0 = some MM := by decide
  unfold turn doSetalarm
  dsimp only
  rw [if_pos htype, hproc, haddr, Option.map_some, Option.map_some]
  rfl

theorem setAlarm_own (hw : getInt st.mSig CLOCK_PROC_NR = 0) (p : MM.Proc) (sec : Nat) :
    ∃ left st', setAlarm st p sec = some (left, st') ∧ SetsOwn st sec left st' := by
  have htype := alarmMess_type st.mSig (procNr MM) p sec
  have hproc := (alarmMess_clockProc st.mSig (procNr MM) p sec).trans hw
  have hdelta := alarmMess_delta st.mSig (procNr MM) p sec
  unfold setAlarm
  generalize withSource (procNr MM) (alarmMess st.mSig p sec) = m at htype hproc hdelta
  rw [turn_setAlarm htype hproc, hdelta, Option.bind_some]
  unfold Clock.reply replied
  dsimp only
  refine ⟨_, _, rfl, ?_, rfl, ?_, rfl, rfl, rfl⟩
  · unfold remaining getLong
    rw [field_withSource _ (by decide)]
    change Int.bmod (getLong (putInt (putLong m SECONDS_LEFT _) M_TYPE OK) SECONDS_LEFT) 65536 = _
    rw [getLong_putInt_ne (by decide), getLong_putLong_self (by decide)]
  · dsimp only
    unfold getInt
    rw [field_withSource _ (by decide)]
    change getInt (putInt (putLong m SECONDS_LEFT _) M_TYPE OK) CLOCK_PROC_NR = 0
    rw [getInt_putInt_ne (by decide), getInt_putLong_ne (by decide), hproc]

end SetAlarm

/-! ## Whole runs -/

/-- What holds of every run: `set_alarm` never writes the first word of its message, and the kernel
keeps an alarm for no process but the memory manager. -/
structure OwnOnly (st : System) : Prop where
  word : getInt st.mSig CLOCK_PROC_NR = 0
  pAlarm : ∀ p, p ≠ MM.MM_PROC_NR → st.clock.pAlarm (slotOf p) = 0

/-- No process is made by the memory manager itself. -/
def Outside : MM.Tell → Prop
  | .sysFork parent _ => parent ≠ MM.MM_PROC_NR
  | _ => True

section OwnOnly

variable {st st' : System} {x : MM.Tell}

theorem slotOf_ne_MM {p : MM.Proc} (hp : p ≠ MM.MM_PROC_NR) : slotOf p ≠ MM :=
  fun h => hp (slotOf_inj h)

theorem OwnOnly.started (h : Started st) : OwnOnly st where
  word := by
    rw [h.mSig]
    decide
  pAlarm _ _ := h.pAlarm _

/-- A write of 0 to the alarm of a process. -/
theorem OwnOnly.clear (h : OwnOnly st) (q : MM.Proc) :
    OwnOnly (cancel { st with clock.pAlarm := update st.clock.pAlarm (slotOf q) 0 } q) := by
  refine ⟨h.word, fun p hp => ?_⟩
  change update st.clock.pAlarm (slotOf q) 0 (slotOf p) = 0
  rw [update_apply]
  split
  · rfl
  · exact h.pAlarm p hp

theorem OwnOnly.hear (h : OwnOnly st) (hx : Outside x) (he : hear st x = some st') :
    OwnOnly st' := by
  cases x with
  | sysFork parent child =>
    obtain rfl := Option.some.inj he
    refine ⟨h.word, fun p hp => ?_⟩
    change update st.clock.pAlarm (slotOf child) (st.clock.pAlarm (slotOf parent)) (slotOf p) = 0
    rw [update_apply]
    split
    · exact h.pAlarm parent hx
    · exact h.pAlarm p hp
  | sysNewmap q m => exact Option.some.inj he ▸ h
  | sysExec q => exact Option.some.inj he ▸ h.clear q
  | sysXit q => exact Option.some.inj he ▸ h.clear q
  | setAlarm q sec =>
    obtain ⟨left, st₁, hset, hown⟩ := setAlarm_own h.word q sec
    unfold Alarms.hear at he
    dsimp only at he
    rw [hset] at he
    obtain rfl := Option.some.inj he
    refine ⟨hown.word, fun p hp => ?_⟩
    change st₁.clock.pAlarm (slotOf p) = 0
    rw [hown.pAlarm, update_of_ne (slotOf_ne_MM hp)]
    exact h.pAlarm p hp
  | sigProc q sigNr => exact Option.some.inj he ▸ h

theorem OwnOnly.hearKsig (h : OwnOnly st) (hx : Outside x) (he : hearKsig st x = some st') :
    OwnOnly st' := by
  unfold Alarms.hearKsig at he
  split at he
  · split at he
    · exact Option.some.inj he ▸ ⟨h.word, h.pAlarm⟩
    · exact Option.some.inj he ▸ h
  · exact h.hear hx he

/-- A list of messages is heard. -/
theorem hears {P : System → Prop} {f : System → MM.Tell → Option System} {l : List MM.Tell}
    (hone : ∀ st x st', x ∈ l → P st → f st x = some st' → P st') (h : P st)
    (he : l.foldlM f st = some st') : P st' := by
  induction l generalizing st with
  | nil => exact Option.some.inj he ▸ h
  | cons x l ih =>
    rw [List.foldlM_cons] at he
    obtain ⟨st₁, h₁, he⟩ := Option.bind_eq_some_iff.mp he
    exact ih (fun st x st' hm => hone st x st' (List.mem_cons_of_mem _ hm))
      (hone _ _ _ (List.mem_cons_self ..) h h₁) he

theorem outside_of_plain {A : Prop} (h : MM.Plain A x) : Outside x := by
  cases x with
  | sysFork parent child => exact h.elim
  | _ => trivial

/-- What a request tells is outside, when the memory manager does not call itself. -/
theorem serveTells_outside {s : MM.State} {who : MM.Proc} {c : MM.MMCall}
    (hi : MM.AsIssued s (.call who c)) (hx : x ∈ MM.serveTells s (.call who c)) : Outside x := by
  rcases MM.performTells_plain hx with h | ⟨child, -, rfl⟩ | ⟨sec, left, -, rfl⟩
  · exact outside_of_plain h
  · rintro rfl
    rcases hi with ⟨hle, -⟩ | ⟨hfs, -⟩
    · exact absurd hle (by decide)
    · exact absurd hfs (by decide)
  · trivial

theorem emits_frame (l : List Output) (st : System) :
    (l.foldl emit st).clock = st.clock ∧ (l.foldl emit st).mSig = st.mSig := by
  induction l generalizing st with
  | nil => exact ⟨rfl, rfl⟩
  | cons o l ih =>
    rw [List.foldl_cons, (ih _).1, (ih _).2]
    cases o with
    | causeSig n sigNr => exact ⟨rfl, rfl⟩
    | callDog n f => exact ⟨rfl, rfl⟩
    | reply n m => exact ⟨rfl, rfl⟩

theorem doGetTime_pAlarm (c : Clock.Task) : (doGetTime c).pAlarm = c.pAlarm := by
  unfold doGetTime
  rfl

theorem doSetTime_pAlarm (c : Clock.Task) : (doSetTime c).pAlarm = c.pAlarm := by
  unfold doSetTime
  rfl

theorem reply_same {c c' : Clock.Task} {out : List Output} (he : Clock.reply c = (c', out)) :
    c'.pAlarm = c.pAlarm ∧ ∀ n sig, .causeSig n sig ∉ out := by
  unfold Clock.reply at he
  obtain ⟨rfl, rfl⟩ := Prod.mk.inj he
  exact ⟨rfl, fun n sig hm => by cases List.mem_singleton.mp hm⟩

/-- The clock task on a message that does not set an alarm for a process: alarms that are off stay
off, and no signal is caused for their processes. -/
theorem turn_off {c c' : Clock.Task} {m : Message} {out : List Output} {p : MM.Proc}
    (hm : getInt m M_TYPE = SET_ALARM → getInt m CLOCK_PROC_NR < 0)
    (hoff : c.pAlarm (slotOf p) = 0) (he : turn c m = some (c', out)) :
    c'.pAlarm (slotOf p) = 0 ∧ ∀ sig, .causeSig p.val sig ∉ out := by
  unfold turn at he
  dsimp only at he
  split at he
  · rename_i htype
    obtain ⟨c₁, h₁, he⟩ := Option.map_eq_some_iff.mp he
    unfold doSetalarm at h₁
    obtain ⟨rp, hrp, rfl⟩ := Option.map_eq_some_iff.mp h₁
    obtain ⟨rfl, rfl⟩ := Prod.mk.inj he
    refine ⟨?_, fun sig hm => ?_⟩
    · have hne : slotOf p ≠ rp := by
        rintro rfl
        have hnr := procNr_of_procAddr hrp
        have hneg := hm htype
        rw [procNr_slotOf] at hnr
        dsimp only at hnr
        omega
      change update c.pAlarm rp _ (slotOf p) = 0
      rw [update_of_ne hne]
      exact hoff
    · cases List.mem_singleton.mp hm
  · split at he
    · obtain ⟨halarm, hout⟩ := reply_same (Option.some.inj he)
      rw [halarm, doGetTime_pAlarm]
      exact ⟨hoff, hout _⟩
    · split at he
      · obtain ⟨halarm, hout⟩ := reply_same (Option.some.inj he)
        rw [halarm, doSetTime_pAlarm]
        exact ⟨hoff, hout _⟩
      · split at he
        · obtain ⟨rfl, rfl⟩ := Prod.mk.inj (Option.some.inj he)
          have htick := doClocktick_spares (c := { c with mc := m }) (Or.inl hoff)
          rw [procNr_slotOf] at htick
          exact ⟨htick.1.trans hoff, htick.2⟩
        · cases he

/-- A step for a call. -/
theorem step_call {who : MM.Proc} {c : MM.MMCall} (he : step st (.call who c) = some st') :
    ∃ mm st₁, MM.serve st.mm (.call who c) = some mm ∧
      (MM.serveTells st.mm (.call who c)).foldlM hear st = some st₁ ∧
      st' = { st₁ with mm := mm } := by
  obtain ⟨mm, hserve, he⟩ := Option.bind_eq_some_iff.mp he
  obtain ⟨st₁, hears₁, he⟩ := Option.bind_eq_some_iff.mp he
  exact ⟨mm, st₁, hserve, hears₁, (Option.some.inj he).symm⟩

/-- A step for a signal of the kernel. -/
theorem step_ksig {p : MM.Proc} {ans : MM.Answers} {below : Bool}
    (he : step st (.ksig p ans below) = some st') :
    ∃ mm st₁, MM.serve st.mm (ksigRequest st p ans below) = some mm ∧
      (MM.serveTells st.mm (ksigRequest st p ans below)).foldlM hearKsig
        { st with pPending := update st.pPending (slotOf p) 0 } = some st₁ ∧
      st' = { st₁ with mm := mm } := by
  obtain ⟨mm, hserve, he⟩ := Option.bind_eq_some_iff.mp he
  obtain ⟨st₁, hears₁, he⟩ := Option.bind_eq_some_iff.mp he
  exact ⟨mm, st₁, hserve, hears₁, (Option.some.inj he).symm⟩

/-- A step keeps that only the memory manager has an alarm. -/
theorem OwnOnly.step (h : OwnOnly st) {e : Event} (hg : Sent st e)
    (he : step st e = some st') : OwnOnly st' := by
  cases e with
  | call who c =>
    obtain ⟨mm, st₁, -, hears₁, rfl⟩ := step_call he
    have h₁ : OwnOnly st₁ :=
      hears (fun _ x _ hx hs he => hs.hear (serveTells_outside hg.1 hx) he) h hears₁
    exact ⟨h₁.word, h₁.pAlarm⟩
  | ksig p ans below =>
    obtain ⟨mm, st₁, -, hears₁, rfl⟩ := step_ksig he
    have h₀ : OwnOnly { st with pPending := update st.pPending (slotOf p) 0 } :=
      ⟨h.word, h.pAlarm⟩
    have h₁ : OwnOnly st₁ := hears (fun _ x _ hx hs he =>
      hs.hearKsig (outside_of_plain (MM.doKsigTells_plain (fun _ => trivial) hx)) he) h₀ hears₁
    exact ⟨h₁.word, h₁.pAlarm⟩
  | clock m lost =>
    change clockStep st m lost = some st' at he
    unfold clockStep at he
    obtain ⟨⟨c, out⟩, hturn, rfl⟩ := Option.map_eq_some_iff.mp he
    obtain ⟨hclock, hmess⟩ := emits_frame out { st with clock := c }
    have hown : getInt m M_TYPE = SET_ALARM → getInt m CLOCK_PROC_NR < 0 := hg
    generalize hc₀ : ({ st.clock with
      lostTicks := asInt (st.clock.lostTicks + lost) } : Clock.Task) = c₀ at hturn
    refine ⟨?_, fun p hp => ?_⟩
    · rw [hmess]
      exact h.word
    · have h₀ : c₀.pAlarm (slotOf p) = 0 := by
        rw [← hc₀]
        exact h.pAlarm p hp
      rw [hclock]
      exact (turn_off hown h₀ hturn).1
  | signal p sigNr =>
    obtain rfl := Option.some.inj he
    exact ⟨h.word, h.pAlarm⟩

theorem OwnOnly.of_reach {guard : System → Event → Prop} (hg : ∀ st e, guard st e → Sent st e)
    (hr : Reach Alarms.step guard Started st) : OwnOnly st :=
  hr.invariant OwnOnly (fun _ => .started) fun st e _ h hs he => h.step (hg st e hs) he

end OwnOnly

/-- What ALARM is for: the alarm of the process is set, nobody else's is touched, the seconds that
were left on the previous one are returned, and no signal comes before the time. -/
structure AlarmSet (st : System) (p : MM.Proc) (sec : Nat) (left : Int) (st' : System) : Prop where
  own : st'.clock.pAlarm (slotOf p) = if sec = 0 then 0 else st.clock.realtime + HZ * sec
  active : sec ≠ 0 → st'.clock.pAlarm (slotOf p) ≠ 0
  others : ∀ rp, rp ≠ slotOf p → st'.clock.pAlarm rp = st.clock.pAlarm rp
  left : left = secondsLeft st.clock (slotOf p)
  notBefore : ∀ l, elapsed l < HZ * sec → ∀ sig, .causeSig p.val sig ∉ (ticks st'.clock l).2

/-- The alarm of a user process is set exactly when it is to be turned off and the alarm of the
memory manager, which is what the clock task sets, is off already. -/
theorem alarm_end_to_end {st : System} (hr : Reach step Sent Started st) {p : MM.Proc}
    (hp : MM.INIT_PROC_NR ≤ p) (sec : Nat) :
    (∃ left st', setAlarm st p sec = some (left, st') ∧ AlarmSet st p sec left st') ↔
      sec = 0 ∧ st.clock.pAlarm (slotOf MM.MM_PROC_NR) = 0 := by
  have hinv : OwnOnly st := .of_reach (fun _ _ => id) hr
  have hne : p ≠ MM.MM_PROC_NR := by
    rintro rfl
    exact absurd hp (by decide)
  have hmm : slotOf MM.MM_PROC_NR = MM := rfl
  obtain ⟨left, st', hset, hown⟩ := setAlarm_own hinv.word p sec
  have hsame : st'.clock.pAlarm (slotOf p) = 0 := by
    rw [hown.pAlarm, update_of_ne (slotOf_ne_MM hne)]
    exact hinv.pAlarm p hne
  rw [hmm]
  constructor
  · rintro ⟨left₁, st₁, hset₁, hgood⟩
    obtain ⟨rfl, rfl⟩ := Prod.mk.inj (Option.some.inj (hset₁.symm.trans hset))
    have hsec : sec = 0 := by
      by_contra hz
      exact hgood.active hz hsame
    subst hsec
    have hkept := hgood.others MM (slotOf_ne_MM hne).symm
    rw [hown.pAlarm, update_self] at hkept
    exact ⟨rfl, hkept.symm⟩
  · rintro ⟨rfl, hoff⟩
    have hall : st'.clock.pAlarm = st.clock.pAlarm := by
      rw [hown.pAlarm]
      exact update_eq_self_iff.mpr hoff.symm
    refine ⟨left, st', hset, hsame, absurd rfl, fun rp _ => congrFun hall rp, ?_, fun l hl => ?_⟩
    · rw [hown.left]
      unfold secondsLeft
      rw [if_pos hoff, if_pos (hinv.pAlarm p hne)]
      decide
    · have hnonneg := elapsed_nonneg l
      have hhz : HZ * (0 : Nat) = 0 := rfl
      omega

section Example

/-- A system that has just been booted. -/
def exampleSystem : System where
  mm := (MM.boot MM.blankHoles 4096 ⟨0, 5, 105, 100⟩).getD (MM.mmInit MM.blankHoles 4096)
  mSig := fun _ => 0
  clock := {
    realtime := 0, lostTicks := 0, bootTime := 0, nextAlarm := 0, mc := fun _ => 0
    pAlarm := fun _ => 0, watchDog := fun _ => 0 }
  pPending := fun _ => 0
  due := fun _ => 0

theorem exampleSystem_started : Started exampleSystem :=
  ⟨⟨MM.blankHoles, 4096, ⟨0, 5, 105, 100⟩, rfl⟩, rfl, fun _ => rfl, rfl, rfl, fun _ => rfl,
    fun _ => rfl⟩

/-- INIT turns its alarm off. -/
theorem alarm_end_to_end_example : ∃ left st', setAlarm exampleSystem 2 0 = some (left, st') ∧
    AlarmSet exampleSystem 2 0 left st' :=
  (alarm_end_to_end (.init exampleSystem_started) (by decide) 0).mpr ⟨rfl, rfl⟩

/-- Process 5 asks for an alarm after 10 seconds, and gets none. -/
theorem alarm_for_memory_manager : ¬∀ st, Reach step Sent Started st → ∀ p, MM.INIT_PROC_NR ≤ p →
    ∀ sec < 65536, ∃ left st', setAlarm st p sec = some (left, st') ∧
      AlarmSet st p sec left st' := by
  intro hall
  obtain ⟨left, st', hset, hgood⟩ :=
    hall exampleSystem (.init exampleSystem_started) 5 (by decide) 10 (by decide)
  have hrun : (setAlarm exampleSystem 5 10).map (fun r => r.2.clock.pAlarm (slotOf 5)) = some 0 := by
    decide +kernel
  rw [hset] at hrun
  have hzero : st'.clock.pAlarm (slotOf 5) = 0 := Option.some.inj hrun
  have hown := hgood.own
  rw [hzero] at hown
  exact absurd hown (by decide)

end Example

end Minix.Alarms
