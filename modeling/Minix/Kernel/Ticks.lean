import Minix.Lib.Run
import Minix.Kernel.Clock

/-!
# Clock ticks

The clock task between its interrupts. An interrupt is a message when the task waits for one, and
is counted in `lost_ticks` otherwise; `do_clocktick` adds these to the time of day in three
statements, and interrupts may come between them. Every interrupt is counted as long as neither
counter goes around; alarms do not depend on that.
-/

namespace Minix.Kernel.Clock

open Function Transition

/-- Where the clock task is: it waits in `receive`, it does something else, a tick message has
arrived, 'lost_ticks' has been copied, or has been added to 'realtime'. -/
inductive Phase where
  | waiting
  | busy
  | tick
  | copied (t : Int)
  | added (t : Int)
  deriving DecidableEq

/-- What comes out of a clock tick at a time, and out of a request. -/
inductive Entry where
  | tick (now : Int) (out : List Output)
  | request (out : List Output)

/-- The clock task and where it is. The code keeps neither the number of interrupts nor the log. -/
structure Ticking where
  task : Task
  phase : Phase
  interrupts : Nat
  log : List Entry

/-- An interrupt of the clock, the statements of `do_clocktick`, a call of `receive`, a request, and
the system calls that change alarms. -/
inductive TickEvent where
  | interrupt
  | copy
  | add
  | subtract
  | receive
  | request (m : Message)
  | exec (rp : Slot)
  | xit (rp : Slot)
  | fork (parent child : Slot)

/-- `do_clocktick` once the time is known: see if an alarm may have gone off. -/
def checkAlarms (c : Task) : Task × List Output :=
  if c.nextAlarm ≤ c.realtime then
    (List.finRange (NR_TASKS + NR_PROCS)).foldl checkAlarm ({ c with nextAlarm := MAX_P_LONG }, [])
  else (c, [])

/-- The three statements and the check are what `do_clocktick` does without an interrupt. -/
theorem doClocktick_eq (c : Task) :
    doClocktick c = checkAlarms { c with
      realtime := asLong (c.realtime + asInt (c.lostTicks + 1))
      lostTicks := asInt (c.lostTicks - c.lostTicks) } := rfl

/-- An interrupt is sent as a message, or it is lost. -/
def interrupt (s : Ticking) : Ticking :=
  if s.phase = .waiting then { s with phase := .tick, interrupts := s.interrupts + 1 }
  else { s with
    task.lostTicks := asInt (s.task.lostTicks + 1), interrupts := s.interrupts + 1 }

/-- One step. -/
def tickStep (s : Ticking) : TickEvent → Option Ticking
  | .interrupt => some (interrupt s)
  | .copy =>
    match s.phase with
    | .tick => some { s with phase := .copied s.task.lostTicks }
    | _ => none
  | .add =>
    match s.phase with
    | .copied t => some { s with
        task.realtime := asLong (s.task.realtime + asInt (t + 1)), phase := .added t }
    | _ => none
  | .subtract =>
    match s.phase with
    | .added t =>
      let r := checkAlarms { s.task with lostTicks := asInt (s.task.lostTicks - t) }
      some { s with task := r.1, phase := .busy, log := s.log ++ [.tick r.1.realtime r.2] }
    | _ => none
  | .receive =>
    match s.phase with
    | .busy => some { s with phase := .waiting }
    | _ => none
  | .request m =>
    match s.phase with
    | .waiting | .busy =>
      (turn s.task m).map fun r => { s with
        task := r.1, phase := .busy, log := s.log ++ [.request r.2] }
    | _ => none
  | .exec rp | .xit rp => some { s with task.pAlarm := update s.task.pAlarm rp 0 }
  | .fork parent child =>
    some { s with task.pAlarm := update s.task.pAlarm child (s.task.pAlarm parent) }

/-- CLOCK_TICK is not requested. -/
def Requested (_ : Ticking) : TickEvent → Prop
  | .request m => getInt m M_TYPE ≠ CLOCK_TICK
  | _ => True

/-- The clock task has not run yet, and no alarm is set. -/
structure Ticking.Started (s : Ticking) : Prop where
  phase : s.phase = .busy
  pAlarm : ∀ rp, s.task.pAlarm rp = 0
  realtime : s.task.realtime = 0
  lostTicks : s.task.lostTicks = 0
  interrupts : s.interrupts = 0

/-- Fewer than 2147483648 interrupts come in all, and fewer than 32767 are missed at a time. -/
def InRange (s : Ticking) : TickEvent → Prop
  | .interrupt => s.interrupts < 2147483647 ∧ (s.phase = .waiting ∨ s.task.lostTicks < 32766)
  | _ => True

/-- The interrupts that are in neither counter, less those that are in both. -/
def Phase.uncounted : Phase → Int
  | .waiting | .busy => 0
  | .tick | .copied _ => 1
  | .added t => -t

/-- The missed interrupts that have been copied, and are not subtracted yet. -/
def Phase.taken : Phase → Int
  | .waiting | .busy | .tick => 0
  | .copied t | .added t => t

/-- How often the alarm of a process rings. -/
def rings (rp : Slot) (out : List Output) : Nat :=
  out.countP fun
    | .causeSig n _ => n = procNr rp
    | .callDog n _ => n = procNr rp
    | .reply .. => false

/-- The next alarm is not after any that is set. -/
def NextSound (c : Task) : Prop := ∀ rp, c.pAlarm rp ≠ 0 → c.nextAlarm ≤ c.pAlarm rp

section Scan

variable {pAlarm : Slot → Int} {rp : Slot}

theorem sooner_le (next : Int) (rp : Slot) : sooner pAlarm next rp ≤ next := by
  unfold sooner
  split
  · exact Int.le_of_lt ‹_ ∧ _›.2
  · exact Int.le_refl next

theorem sooner_le_alarm (next : Int) (h : pAlarm rp ≠ 0) :
    sooner pAlarm next rp ≤ pAlarm rp := by
  unfold sooner
  split
  · exact Int.le_refl _
  · rename_i hnot
    exact Int.not_lt.mp fun hlt => hnot ⟨h, hlt⟩

/-- The scan over the table ends with an alarm that is not after any other. -/
theorem soonest_le (h : pAlarm rp ≠ 0) : soonest pAlarm ≤ pAlarm rp := by
  have hscan : ∀ (l : List Slot) (next : Int), l.foldl (sooner pAlarm) next ≤ next ∧
      (rp ∈ l → l.foldl (sooner pAlarm) next ≤ pAlarm rp) := by
    intro l
    induction l with
    | nil => exact fun next => ⟨Int.le_refl next, fun hm => nomatch hm⟩
    | cons q l ih =>
      intro next
      obtain ⟨hle, hmem⟩ := ih (sooner pAlarm next q)
      refine ⟨Int.le_trans hle (sooner_le next q), fun hm => ?_⟩
      rcases List.mem_cons.mp hm with rfl | hm
      · exact Int.le_trans hle (sooner_le_alarm next h)
      · exact hmem hm
  exact (hscan _ _).2 (List.mem_finRange rp)

end Scan

/-- An alarm is set, and its time has been reached. -/
def Due (c : Task) (rp : Slot) : Prop := c.pAlarm rp ≠ 0 ∧ c.pAlarm rp ≤ c.realtime

instance (c : Task) (rp : Slot) : Decidable (Due c rp) := inferInstanceAs (Decidable (_ ∧ _))

/-- What one check of the alarms does: exactly the alarms that are due ring, once each, and are
turned off. -/
structure Checked (c c' : Task) (out : List Output) : Prop where
  realtime : c'.realtime = c.realtime
  due : ∀ rp, Due c rp → c'.pAlarm rp = 0 ∧ rings rp out = 1
  ahead : ∀ rp, ¬Due c rp → c'.pAlarm rp = c.pAlarm rp ∧ rings rp out = 0
  next : NextSound c'

section Check

variable {c c' : Task} {out out' : List Output} {rp q : Slot}

/-- A timer that goes off rings for its own process. -/
theorem rings_ring (c : Task) (rp q : Slot) :
    rings rp [ring c q] = if rp = q then 1 else 0 := by
  have hiff : procNr q = procNr rp ↔ rp = q :=
    ⟨fun h => (procNr_inj h).symm, fun h => by rw [h]⟩
  unfold rings ring
  split <;> simp only [List.countP_singleton, decide_eq_true_eq, hiff]

theorem rings_append (rp : Slot) (out out' : List Output) :
    rings rp (out ++ out') = rings rp out + rings rp out' := List.countP_append

/-- What the loop has done to the processes of a list. -/
structure Looped (l : List Slot) (r r' : Task × List Output) : Prop where
  realtime : r'.1.realtime = r.1.realtime
  due : ∀ rp, rp ∈ l → Due r.1 rp → r'.1.pAlarm rp = 0 ∧ rings rp r'.2 = rings rp r.2 + 1
  other : ∀ rp, (rp ∈ l → ¬Due r.1 rp) →
    r'.1.pAlarm rp = r.1.pAlarm rp ∧ rings rp r'.2 = rings rp r.2
  le : r'.1.nextAlarm ≤ r.1.nextAlarm
  next : ∀ rp, rp ∈ l → r'.1.pAlarm rp ≠ 0 → r'.1.nextAlarm ≤ r'.1.pAlarm rp

/-- One turn of the loop. -/
theorem checkAlarm_looped (r : Task × List Output) (q : Slot) : Looped [q] r (checkAlarm r q) := by
  obtain ⟨c, out⟩ := r
  unfold checkAlarm
  dsimp only
  have honly {rp : Slot} (hm : rp ∈ [q]) : rp = q := List.mem_singleton.mp hm
  split
  · rename_i hoff
    refine ⟨rfl, fun rp hm hd => ?_, fun rp _ => ⟨rfl, rfl⟩, Int.le_refl _, fun rp hm hs => ?_⟩
    · exact absurd (honly hm ▸ hoff) hd.1
    · exact absurd (honly hm ▸ hoff) hs
  · rename_i hon
    split
    · rename_i hdue
      refine ⟨rfl, fun rp hm _ => ?_, fun rp hd => ?_, Int.le_refl _, fun rp hm hs => ?_⟩
      · obtain rfl := honly hm
        rw [rings_append, rings_ring, if_pos rfl]
        exact ⟨update_self .., rfl⟩
      · have hne : rp ≠ q := by
          rintro rfl
          exact hd (List.mem_singleton_self rp) ⟨hon, hdue⟩
        rw [rings_append, rings_ring, if_neg hne]
        exact ⟨update_of_ne hne .., rfl⟩
      · obtain rfl := honly hm
        exact absurd (update_self ..) hs
    · rename_i hahead
      refine ⟨rfl, fun rp hm hd => ?_, fun rp _ => ⟨rfl, rfl⟩, sooner_le _ _,
        fun rp hm hs => ?_⟩
      · exact absurd (honly hm ▸ hd.2) hahead
      · obtain rfl := honly hm
        exact sooner_le_alarm _ hs

/-- One turn after another, each for a process of its own. -/
theorem Looped.cons {l : List Slot} {r r₁ r' : Task × List Output} (hq : q ∉ l)
    (h : Looped [q] r r₁) (h' : Looped l r₁ r') : Looped (q :: l) r r' := by
  have hother {rp : Slot} (hne : rp ≠ q) :
      r₁.1.pAlarm rp = r.1.pAlarm rp ∧ rings rp r₁.2 = rings rp r.2 :=
    h.other rp fun hm => absurd (List.mem_singleton.mp hm) hne
  have hdue {rp : Slot} (hne : rp ≠ q) : Due r₁.1 rp ↔ Due r.1 rp := by
    unfold Due
    rw [(hother hne).1, h.realtime]
  -- the process itself is not met again
  have hself : r'.1.pAlarm q = r₁.1.pAlarm q ∧ rings q r'.2 = rings q r₁.2 :=
    h'.other q fun hm => absurd hm hq
  refine ⟨h'.realtime.trans h.realtime, fun rp hm hd => ?_, fun rp hd => ?_,
    Int.le_trans h'.le h.le, fun rp hm hs => ?_⟩
  · by_cases hne : rp = q
    · subst hne
      rw [hself.1, hself.2]
      exact h.due rp (List.mem_singleton_self rp) hd
    · have hl := (List.mem_cons.mp hm).resolve_left hne
      rw [← (hother hne).2]
      exact h'.due rp hl ((hdue hne).mpr hd)
  · by_cases hne : rp = q
    · subst hne
      rw [hself.1, hself.2]
      exact h.other rp fun _ => hd List.mem_cons_self
    · rw [← (hother hne).1, ← (hother hne).2]
      exact h'.other rp fun hl => (hdue hne).not.mpr (hd (List.mem_cons_of_mem q hl))
  · by_cases hne : rp = q
    · subst hne
      rw [hself.1] at hs ⊢
      exact Int.le_trans h'.le (h.next rp (List.mem_singleton_self rp) hs)
    · exact h'.next rp ((List.mem_cons.mp hm).resolve_left hne) hs

theorem checkAlarms_looped {l : List Slot} (hl : l.Nodup) (r : Task × List Output) :
    Looped l r (l.foldl checkAlarm r) := by
  induction l generalizing r with
  | nil =>
    exact ⟨rfl, fun _ hm => absurd hm List.not_mem_nil, fun _ _ => ⟨rfl, rfl⟩, Int.le_refl _,
      fun _ hm => absurd hm List.not_mem_nil⟩
  | cons q l ih =>
    obtain ⟨hq, hl⟩ := List.nodup_cons.mp hl
    exact (checkAlarm_looped r q).cons hq (ih hl _)

/-- When the next alarm is not after any that is set, the check finds all that are due. -/
theorem checkAlarms_checked (h : NextSound c) :
    Checked c (checkAlarms c).1 (checkAlarms c).2 := by
  unfold checkAlarms
  split
  · have hloop := checkAlarms_looped (List.nodup_finRange (NR_TASKS + NR_PROCS))
      (({ c with nextAlarm := MAX_P_LONG }, []) : Task × List Output)
    exact ⟨hloop.realtime, fun rp => hloop.due rp (List.mem_finRange rp),
      fun rp hd => hloop.other rp fun _ => hd, fun rp => hloop.next rp (List.mem_finRange rp)⟩
  · rename_i hlater
    have hnone (rp : Slot) : ¬Due c rp := fun hd => hlater (Int.le_trans (h rp hd.1) hd.2)
    exact ⟨rfl, fun rp hd => absurd hd (hnone rp), fun rp _ => ⟨rfl, rfl⟩, h⟩

theorem checkAlarms_realtime (c : Task) : (checkAlarms c).1.realtime = c.realtime := by
  unfold checkAlarms
  split
  · exact (checkAlarms_time _ _).1
  · rfl

theorem checkAlarms_lostTicks (c : Task) : (checkAlarms c).1.lostTicks = c.lostTicks := by
  unfold checkAlarms
  split
  · exact (checkAlarms_time _ _).2
  · rfl

end Check

/-! ## Whole runs -/

/-- A step may set, copy or turn off the alarm of a process. -/
def Touches (rp : Slot) : TickEvent → Prop
  | .request m => getInt m M_TYPE = SET_ALARM ∧ procAddr (getInt m CLOCK_PROC_NR) = some rp
  | .exec q | .xit q | .fork _ q => q = rp
  | _ => False

/-- What a step does for the alarms: nothing but what it touches, a check of all of them, or a
request that is served. -/
inductive Stepped (s : Ticking) (e : TickEvent) (s' : Ticking) : Prop where
  | silent (others : ∀ rp, ¬Touches rp e → s'.task.pAlarm rp = s.task.pAlarm rp)
      (log : s'.log = s.log)
  | tick (out : List Output) (checked : Checked s.task s'.task out)
      (log : s'.log = s.log ++ [.tick s'.task.realtime out])
  | request (out : List Output) (quiet : ∀ rp, rings rp out = 0)
      (others : ∀ rp, ¬Touches rp e → s'.task.pAlarm rp = s.task.pAlarm rp)
      (log : s'.log = s.log ++ [.request out])

section Run

variable {s s' : Ticking} {e : TickEvent} {c c' : Task} {m : Message} {out : List Output}
  {rp : Slot}

theorem Ticking.Started.sound (h : s.Started) : NextSound s.task :=
  fun rp hs => absurd (h.pAlarm rp) hs

/-- What a request changes: the alarm of one process at most, and no time. -/
structure Served (m : Message) (c c' : Task) (out : List Output) : Prop where
  realtime : c'.realtime = c.realtime
  lostTicks : c'.lostTicks = c.lostTicks
  next : NextSound c → NextSound c'
  others : ∀ rp, ¬Touches rp (.request m) → c'.pAlarm rp = c.pAlarm rp
  quiet : ∀ rp, rings rp out = 0

theorem reply_served {c₀ : Task} (he : reply c = (c', out)) (hr : c.realtime = c₀.realtime)
    (hl : c.lostTicks = c₀.lostTicks) (hn : NextSound c₀ → NextSound c)
    (ho : ∀ rp, ¬Touches rp (.request m) → c.pAlarm rp = c₀.pAlarm rp) : Served m c₀ c' out := by
  unfold reply at he
  obtain ⟨rfl, rfl⟩ := Prod.mk.inj he
  exact ⟨hr, hl, hn, ho, fun _ => rfl⟩

theorem turn_served (hm : getInt m M_TYPE ≠ CLOCK_TICK) (he : turn c m = some (c', out)) :
    Served m c c' out := by
  unfold turn at he
  dsimp only at he
  split at he
  · rename_i htype
    obtain ⟨c₁, h₁, he⟩ := Option.map_eq_some_iff.mp he
    unfold doSetalarm at h₁
    obtain ⟨rp, hrp, rfl⟩ := Option.map_eq_some_iff.mp h₁
    refine reply_served he rfl rfl (fun _ q hs => soonest_le hs) fun q hq => ?_
    have hne : q ≠ rp := by
      rintro rfl
      exact hq ⟨htype, hrp⟩
    exact update_of_ne hne ..
  · split at he
    · unfold doGetTime at he
      exact reply_served (Option.some.inj he) rfl rfl (fun h rp => h rp) fun _ _ => rfl
    · split at he
      · unfold doSetTime at he
        exact reply_served (Option.some.inj he) rfl rfl (fun h rp => h rp) fun _ _ => rfl
      · exact nomatch he

/-- A write to the alarm of a process, of 0 or of a time that is not before the next alarm. -/
theorem NextSound.write (h : NextSound c) (q : Slot) {a : Int} (ha : a ≠ 0 → c.nextAlarm ≤ a) :
    NextSound { c with pAlarm := update c.pAlarm q a } := by
  intro rp hs
  dsimp only at hs ⊢
  by_cases hne : rp = q
  · rw [hne, update_self] at hs ⊢
    exact ha hs
  · rw [update_of_ne hne] at hs ⊢
    exact h rp hs

/-- A write to the alarm of one process is all that some system calls do. -/
theorem NextSound.stepped (h : NextSound s.task) (q : Slot) {a : Int}
    (ha : a ≠ 0 → s.task.nextAlarm ≤ a) (hq : ∀ rp, ¬Touches rp e → rp ≠ q) :
    NextSound { s.task with pAlarm := update s.task.pAlarm q a } ∧
      Stepped s e { s with task.pAlarm := update s.task.pAlarm q a } :=
  ⟨h.write q ha, .silent (fun rp hr => update_of_ne (hq rp hr) ..) rfl⟩

/-- A request that has been served. -/
theorem Served.stepped (hs : Served m s.task c' out) (h : NextSound s.task) :
    NextSound c' ∧ Stepped s (.request m) { s with
      task := c', phase := .busy, log := s.log ++ [.request out] } :=
  ⟨hs.next h, .request out hs.quiet hs.others rfl⟩

/-- One step keeps the next alarm sound, and does no more for the alarms than it may. -/
theorem NextSound.step (h : NextSound s.task) (hg : Requested s e)
    (he : tickStep s e = some s') : NextSound s'.task ∧ Stepped s e s' := by
  unfold tickStep at he
  cases e with
  | interrupt =>
    obtain rfl := Option.some.inj he
    unfold interrupt
    split <;> exact ⟨h, .silent (fun _ _ => rfl) rfl⟩
  | copy =>
    dsimp only at he
    split at he
    · obtain rfl := Option.some.inj he
      exact ⟨h, .silent (fun _ _ => rfl) rfl⟩
    · exact nomatch he
  | add =>
    dsimp only at he
    split at he
    · obtain rfl := Option.some.inj he
      exact ⟨h, .silent (fun _ _ => rfl) rfl⟩
    · exact nomatch he
  | subtract =>
    dsimp only at he
    split at he
    · rename_i t hp
      obtain rfl := Option.some.inj he
      have hchecked := checkAlarms_checked
        (show NextSound { s.task with lostTicks := asInt (s.task.lostTicks - t) } from h)
      exact ⟨hchecked.next, .tick _
        ⟨hchecked.realtime, hchecked.due, hchecked.ahead, hchecked.next⟩ rfl⟩
    · exact nomatch he
  | receive =>
    dsimp only at he
    split at he
    · obtain rfl := Option.some.inj he
      exact ⟨h, .silent (fun _ _ => rfl) rfl⟩
    · exact nomatch he
  | request m =>
    dsimp only at he
    split at he
    · obtain ⟨⟨c', out⟩, hturn, rfl⟩ := Option.map_eq_some_iff.mp he
      exact (turn_served hg hturn).stepped h
    · obtain ⟨⟨c', out⟩, hturn, rfl⟩ := Option.map_eq_some_iff.mp he
      exact (turn_served hg hturn).stepped h
    · exact nomatch he
  | exec q =>
    obtain rfl := Option.some.inj he
    exact h.stepped q (fun hne => absurd rfl hne) fun rp hr hq => hr hq.symm
  | xit q =>
    obtain rfl := Option.some.inj he
    exact h.stepped q (fun hne => absurd rfl hne) fun rp hr hq => hr hq.symm
  | fork parent child =>
    obtain rfl := Option.some.inj he
    exact h.stepped child (h parent) fun rp hr hq => hr hq.symm

/-- No interrupt is lost for good, and no counter has gone around. -/
structure Counted (s : Ticking) : Prop where
  counted : s.task.realtime + s.task.lostTicks + s.phase.uncounted = s.interrupts
  realtime : 0 ≤ s.task.realtime
  lostTicks : s.task.lostTicks < 32767
  taken : 0 ≤ s.phase.taken ∧ s.phase.taken ≤ s.task.lostTicks
  interrupts : s.interrupts < 2147483648

theorem Ticking.Started.counted (h : s.Started) : Counted s := by
  refine ⟨?_, Int.le_of_eq h.realtime.symm, ?_, ?_, ?_⟩
  · rw [h.realtime, h.lostTicks, h.phase, h.interrupts]
    rfl
  · rw [h.lostTicks]
    decide
  · rw [h.lostTicks, h.phase]
    decide
  · rw [h.interrupts]
    decide

/-- A step that leaves the counters alone. -/
theorem Counted.same (h : Counted s) (hr : s'.task.realtime = s.task.realtime)
    (hl : s'.task.lostTicks = s.task.lostTicks) (hi : s'.interrupts = s.interrupts)
    (hu : s'.phase.uncounted = s.phase.uncounted)
    (ht : 0 ≤ s'.phase.taken ∧ s'.phase.taken ≤ s.task.lostTicks) : Counted s' := by
  refine ⟨?_, hr ▸ h.realtime, hl ▸ h.lostTicks, hl ▸ ht, hi ▸ h.interrupts⟩
  rw [hr, hl, hi, hu]
  exact h.counted

/-- One step keeps the count, as long as no counter goes around. -/
theorem Counted.step (h : Counted s) (hg : Requested s e) (hin : InRange s e)
    (he : tickStep s e = some s') : Counted s' := by
  obtain ⟨hcount, htime, hlost, ⟨hpos, hle⟩, hints⟩ := h
  have hzero : (0 : Int) ≤ 0 ∧ (0 : Int) ≤ s.task.lostTicks :=
    ⟨Int.le_refl 0, Int.le_trans hpos hle⟩
  have hsame : Counted s := ⟨hcount, htime, hlost, ⟨hpos, hle⟩, hints⟩
  unfold tickStep at he
  cases e with
  | interrupt =>
    obtain rfl := Option.some.inj he
    obtain ⟨hmany, hroom⟩ := hin
    unfold interrupt
    split
    · rename_i hp
      rw [hp] at hcount
      dsimp only [Phase.uncounted] at hcount
      refine ⟨?_, htime, hlost, hzero, Nat.succ_lt_succ hmany⟩
      dsimp only [Phase.uncounted]
      omega
    · rename_i hp
      have hfew : s.task.lostTicks < 32766 := hroom.resolve_left hp
      have hone : asInt (s.task.lostTicks + 1) = s.task.lostTicks + 1 :=
        asInt_of_range (by omega) (by omega)
      refine ⟨?_, htime, ?_, ⟨hpos, ?_⟩, Nat.succ_lt_succ hmany⟩
      all_goals
        dsimp only
        rw [hone]
        omega
  | copy =>
    dsimp only at he
    split at he
    · rename_i hp
      obtain rfl := Option.some.inj he
      exact hsame.same rfl rfl rfl (by rw [hp]; rfl) ⟨hzero.2, Int.le_refl _⟩
    · exact nomatch he
  | add =>
    dsimp only at he
    split at he
    · rename_i t hp
      obtain rfl := Option.some.inj he
      rw [hp] at hcount hpos hle
      dsimp only [Phase.uncounted, Phase.taken] at hcount hpos hle
      have hone : asInt (t + 1) = t + 1 := asInt_of_range (by omega) (by omega)
      have hsum : asLong (s.task.realtime + (t + 1)) = s.task.realtime + (t + 1) :=
        asLong_of_range (by omega) (by omega)
      refine ⟨?_, ?_, hlost, ⟨hpos, hle⟩, hints⟩
      · dsimp only [Phase.uncounted]
        rw [hone, hsum]
        omega
      · dsimp only
        rw [hone, hsum]
        omega
    · exact nomatch he
  | subtract =>
    dsimp only at he
    split at he
    · rename_i t hp
      obtain rfl := Option.some.inj he
      rw [hp] at hcount hpos hle
      dsimp only [Phase.uncounted, Phase.taken] at hcount hpos hle
      have hrest : asInt (s.task.lostTicks - t) = s.task.lostTicks - t :=
        asInt_of_range (by omega) (by omega)
      refine ⟨?_, ?_, ?_, ⟨Int.le_refl 0, ?_⟩, hints⟩
      all_goals
        dsimp only [Phase.uncounted, Phase.taken]
        first
          | rw [checkAlarms_realtime, checkAlarms_lostTicks, hrest]
          | rw [checkAlarms_realtime]
          | rw [checkAlarms_lostTicks, hrest]
        dsimp only
        omega
    · exact nomatch he
  | receive =>
    dsimp only at he
    split at he
    · rename_i hp
      obtain rfl := Option.some.inj he
      exact hsame.same rfl rfl rfl (by rw [hp]; rfl) hzero
    · exact nomatch he
  | request m =>
    dsimp only at he
    split at he
    · rename_i hp
      obtain ⟨⟨c', out⟩, hturn, rfl⟩ := Option.map_eq_some_iff.mp he
      have hs := turn_served hg hturn
      exact hsame.same hs.realtime hs.lostTicks rfl (by rw [hp]; rfl) hzero
    · rename_i hp
      obtain ⟨⟨c', out⟩, hturn, rfl⟩ := Option.map_eq_some_iff.mp he
      have hs := turn_served hg hturn
      exact hsame.same hs.realtime hs.lostTicks rfl (by rw [hp]) hzero
    · exact nomatch he
  | exec q | xit q | fork parent child =>
    obtain rfl := Option.some.inj he
    exact hsame.same rfl rfl rfl rfl ⟨hpos, hle⟩

/-- No process but others is meant by what came out. -/
def Quiet (rp : Slot) : Entry → Prop
  | .tick _ out | .request out => rings rp out = 0

/-- A clock tick has not come to time `a` yet. -/
def Early (a : Int) : Entry → Prop
  | .tick now _ => now < a
  | .request _ => True

/-- What has become of an alarm `a` while nobody touched it: it is still set, and no tick has come
to its time, or it was turned off by the first tick that did, and rang then and only then. -/
inductive Fate (rp : Slot) (a : Int) (l : List Entry) (alarm : Int) : Prop where
  | pending (set : alarm = a) (quiet : ∀ e ∈ l, Quiet rp e ∧ Early a e)
  | rung (before : List Entry) (now : Int) (out : List Output) (after : List Entry)
      (split : l = before ++ .tick now out :: after) (off : alarm = 0)
      (early : ∀ e ∈ before, Quiet rp e ∧ Early a e)
      (due : a ≤ now) (once : rings rp out = 1) (never : ∀ e ∈ after, Quiet rp e)

/-- Another entry that does not concern the process. -/
theorem Fate.append {a alarm : Int} {l : List Entry} (h : Fate rp a l alarm) {x : Entry}
    (hq : Quiet rp x) (hx : alarm = a → Early a x) : Fate rp a (l ++ [x]) alarm := by
  have hsnoc {P : Entry → Prop} {l : List Entry} (hl : ∀ y ∈ l, P y) (hlast : P x) :
      ∀ y ∈ l ++ [x], P y := by
    intro y hm
    rcases List.mem_append.mp hm with hm | hm
    · exact hl y hm
    · exact List.mem_singleton.mp hm ▸ hlast
  cases h with
  | pending set quiet => exact .pending set (hsnoc quiet ⟨hq, hx set⟩)
  | rung before now out after split off early due once never =>
    refine .rung before now out (after ++ [x]) ?_ off early due once (hsnoc never hq)
    rw [split, List.append_assoc, List.cons_append]

theorem Fate.step {a : Int} (ha : a ≠ 0) {log l : List Entry} (h : Fate rp a l (s.task.pAlarm rp))
    (hl : s.log = log ++ l) (hs : Stepped s e s') (ht : ¬Touches rp e) :
    ∃ l', s'.log = log ++ l' ∧ Fate rp a l' (s'.task.pAlarm rp) := by
  cases hs with
  | silent others hlog =>
    rw [others rp ht]
    exact ⟨l, hlog.trans hl, h⟩
  | request out quiet others hlog =>
    rw [others rp ht]
    have hquiet : Quiet rp (.request out) := quiet rp
    have hearly : Early a (.request out) := trivial
    exact ⟨l ++ [.request out], by rw [hlog, hl, List.append_assoc],
      h.append hquiet fun _ => hearly⟩
  | tick out checked hlog =>
    refine ⟨l ++ [.tick s'.task.realtime out], by rw [hlog, hl, List.append_assoc], ?_⟩
    by_cases hd : Due s.task rp
    · obtain ⟨hoff, hone⟩ := checked.due rp hd
      cases h with
      | pending set quiet =>
        refine .rung l _ out [] rfl hoff quiet ?_ hone fun e hm => absurd hm List.not_mem_nil
        rw [checked.realtime, ← set]
        exact hd.2
      | rung before now out after split off => exact absurd off hd.1
    · obtain ⟨hsame, hnone⟩ := checked.ahead rp hd
      rw [hsame]
      have hquiet : Quiet rp (.tick s'.task.realtime out) := hnone
      refine h.append hquiet fun hset => ?_
      change s'.task.realtime < a
      rw [checked.realtime, ← hset]
      exact Int.not_le.mp fun hle => hd ⟨hset ▸ ha, hle⟩

/-- A request for an alarm, with a time that a `long` can hold. -/
theorem doSetalarm_time (he : turn s.task m = some (c', out)) (hm : getInt m M_TYPE = SET_ALARM)
    (hrp : procAddr (getInt m CLOCK_PROC_NR) = some rp) (hd : getLong m DELTA_TICKS ≠ 0)
    (hlow : -2147483648 ≤ s.task.realtime + getLong m DELTA_TICKS)
    (hhigh : s.task.realtime + getLong m DELTA_TICKS < 2147483648) :
    c'.pAlarm rp = s.task.realtime + getLong m DELTA_TICKS := by
  unfold turn doSetalarm at he
  dsimp only at he
  rw [if_pos hm, hrp, Option.map_some, Option.map_some] at he
  obtain ⟨rfl, -⟩ := Prod.mk.inj (Option.some.inj he)
  change update s.task.pAlarm rp (alarmTime { s.task with mc := m } (getLong m DELTA_TICKS)) rp = _
  rw [update_self]
  unfold alarmTime
  rw [if_neg hd]
  exact asLong_of_range hlow hhigh

/-- In every state that is reached from the start, the next alarm is not after any alarm that is
set. As long as no counter goes around, every interrupt has been counted or is about to be. An alarm
is set to the time that is asked for, if a `long` can hold it; and an alarm that is set, and that
nobody sets, copies over or turns off, rings exactly once: at the first tick that comes to its
time. -/
theorem clock_alarms (hr : Reach tickStep Requested Ticking.Started s) :
    NextSound s.task ∧
    (Reach tickStep (fun s e => Requested s e ∧ InRange s e) Ticking.Started s →
      s.task.realtime + s.task.lostTicks + s.phase.uncounted = s.interrupts) ∧
    (∀ m rp c' out, turn s.task m = some (c', out) → getInt m M_TYPE = SET_ALARM →
      procAddr (getInt m CLOCK_PROC_NR) = some rp → getLong m DELTA_TICKS ≠ 0 →
      -2147483648 ≤ s.task.realtime + getLong m DELTA_TICKS →
      s.task.realtime + getLong m DELTA_TICKS < 2147483648 →
        c'.pAlarm rp = s.task.realtime + getLong m DELTA_TICKS) ∧
    ∀ rp a, s.task.pAlarm rp = a → a ≠ 0 →
      ∀ s', Reach tickStep (fun s e => Requested s e ∧ ¬Touches rp e) (· = s) s' →
        ∃ l, s'.log = s.log ++ l ∧ Fate rp a l (s'.task.pAlarm rp) := by
  have hsound : NextSound s.task := hr.invariant (fun s => NextSound s.task)
    (fun _ => Ticking.Started.sound) fun s e s' h hg he => (h.step hg he).1
  refine ⟨hsound, fun hin => ?_, fun m rp c' out => doSetalarm_time, fun rp a hset ha s' hr' => ?_⟩
  · have hcounted : Counted s := hin.invariant Counted (fun _ => Ticking.Started.counted)
      fun s e s' h hg he => h.step hg.1 hg.2 he
    exact hcounted.counted
  have hboth : NextSound s'.task ∧ ∃ l, s'.log = s.log ++ l ∧ Fate rp a l (s'.task.pAlarm rp) := by
    refine hr'.invariant (fun s' => NextSound s'.task ∧
      ∃ l, s'.log = s.log ++ l ∧ Fate rp a l (s'.task.pAlarm rp)) ?_ ?_
    · rintro _ rfl
      exact ⟨hsound, [], (List.append_nil _).symm, .pending hset fun e hm =>
        absurd hm List.not_mem_nil⟩
    · rintro s₁ e s₂ ⟨h, l, hl, hf⟩ ⟨hg, ht⟩ he
      obtain ⟨h', hs⟩ := h.step hg he
      exact ⟨h', hf.step ha hl hs ht⟩
  exact hboth.2

end Run

section Example

/-- The clock task before its first turn. -/
def exampleTicking : Ticking where
  task := {
    realtime := 0, lostTicks := 0, bootTime := 0, nextAlarm := 0, mc := fun _ => 0
    pAlarm := fun _ => 0, watchDog := fun _ => 0 }
  phase := .busy
  interrupts := 0
  log := []

/-- Process 5 wants an alarm after 2 ticks. -/
def exampleAlarm : Message :=
  putLong (putInt (putInt (fun _ => 0) M_TYPE SET_ALARM) CLOCK_PROC_NR 5) DELTA_TICKS 2

instance (s : Ticking) (e : TickEvent) : Decidable (Requested s e) :=
  match e with
  | .request m => inferInstanceAs (Decidable (getInt m M_TYPE ≠ CLOCK_TICK))
  | .interrupt | .copy | .add | .subtract | .receive | .exec _ | .xit _ | .fork .. =>
    inferInstanceAs (Decidable True)

instance (s : Ticking) (e : TickEvent) : Decidable (InRange s e) :=
  match e with
  | .interrupt => inferInstanceAs (Decidable (_ ∧ _))
  | .copy | .add | .subtract | .receive | .request _ | .exec _ | .xit _ | .fork .. =>
    inferInstanceAs (Decidable True)

theorem exampleTicking_started : exampleTicking.Started := ⟨rfl, fun _ => rfl, rfl, rfl, rfl⟩

/-- An interrupt comes while another one is added to the time of day. -/
theorem clock_alarms_example : ∃ s, run tickStep (fun s e => Requested s e ∧ InRange s e)
      exampleTicking [.request exampleAlarm, .receive, .interrupt, .copy, .interrupt, .add,
        .subtract] = some s ∧
    NextSound s.task ∧ s.task.realtime + s.task.lostTicks + s.phase.uncounted = s.interrupts := by
  have hsome : (run tickStep (fun s e => Requested s e ∧ InRange s e) exampleTicking
      [.request exampleAlarm, .receive, .interrupt, .copy, .interrupt, .add, .subtract]).isSome := by
    decide +kernel
  obtain ⟨s, hs⟩ := Option.isSome_iff_exists.mp hsome
  have hin : Reach tickStep (fun s e => Requested s e ∧ InRange s e) Ticking.Started s :=
    Reach.of_run (.init exampleTicking_started) hs
  obtain ⟨hnext, hcount, -⟩ := clock_alarms (hin.mono (fun _ _ h => h.1) fun _ h => h)
  exact ⟨s, hs, hnext, hcount hin⟩

/-- As many clock ticks, each of them over before the next interrupt comes. -/
def cycles : Nat → List TickEvent
  | 0 => []
  | n + 1 => .receive :: .interrupt :: .copy :: .add :: .subtract :: cycles n

/-- The clock task between two ticks, after so many of them, with no alarm set. -/
structure Idle (n : Nat) (s : Ticking) : Prop where
  phase : s.phase = .busy
  pAlarm : ∀ rp, s.task.pAlarm rp = 0
  realtime : s.task.realtime = asLong n
  lostTicks : s.task.lostTicks = 0
  interrupts : s.interrupts = n

/-- The next tick. -/
theorem Idle.cycle {n : Nat} {s : Ticking} (h : Idle n s) (l : List TickEvent) :
    ∃ s', run tickStep Requested s (.receive :: .interrupt :: .copy :: .add :: .subtract :: l) =
      run tickStep Requested s' l ∧ Idle (n + 1) s' := by
  obtain ⟨task, phase, interrupts, log⟩ := s
  obtain ⟨hphase, halarm, hnow, hlost, hints⟩ := h
  dsimp only at hphase halarm hnow hlost hints
  subst hphase hints
  have hlost' : asInt (task.lostTicks - task.lostTicks) = 0 := by
    rw [Int.sub_self]
    rfl
  have hnow' : asLong (task.realtime + asInt (task.lostTicks + 1)) = asLong (interrupts + 1 : Nat) := by
    have hone : asInt (0 + 1) = 1 := rfl
    rw [hlost, hone, hnow, Nat.cast_add]
    exact Int.bmod_add_bmod
  generalize hc : ({ task with
    realtime := asLong (task.realtime + asInt (task.lostTicks + 1))
    lostTicks := asInt (task.lostTicks - task.lostTicks) } : Task) = c
  have hoff (rp : Slot) : c.pAlarm rp = 0 := hc ▸ halarm rp
  have hchecked := checkAlarms_checked (c := c) fun rp hs => absurd (hoff rp) hs
  refine ⟨⟨(checkAlarms c).1, .busy, interrupts + 1,
    log ++ [.tick (checkAlarms c).1.realtime (checkAlarms c).2]⟩, ?_, rfl, fun rp => ?_, ?_, ?_, rfl⟩
  · subst hc
    rfl
  · exact ((hchecked.ahead rp fun hd => hd.1 (hoff rp)).1).trans (hoff rp)
  · exact hchecked.realtime.trans (hc ▸ hnow')
  · exact (checkAlarms_lostTicks c).trans (hc ▸ hlost')

theorem Idle.cycles {n : Nat} {s : Ticking} (h : Idle n s) (k : Nat) :
    ∃ s', run tickStep Requested s (cycles k) = some s' ∧ Idle (n + k) s' := by
  induction k generalizing n s with
  | zero => exact ⟨s, rfl, h⟩
  | succ k ih =>
    obtain ⟨s₁, hrun, h₁⟩ := h.cycle (Clock.cycles k)
    obtain ⟨s', hrun', h'⟩ := ih h₁
    refine ⟨s', hrun.trans hrun', ?_⟩
    rwa [Nat.add_right_comm] at h'

/-- After 2147483648 ticks the time of day is negative. -/
theorem clock_goes_around : ∃ s, run tickStep Requested exampleTicking (cycles 2147483648) = some s ∧
    s.task.realtime + s.task.lostTicks + s.phase.uncounted ≠ s.interrupts := by
  have hidle : Idle 0 exampleTicking := ⟨rfl, fun _ => rfl, rfl, rfl, rfl⟩
  obtain ⟨s, hrun, h⟩ := hidle.cycles 2147483648
  refine ⟨s, hrun, ?_⟩
  have hnow : asLong ((0 + 2147483648 : Nat) : Int) = -2147483648 := by decide
  rw [h.realtime, h.lostTicks, h.phase, h.interrupts, hnow]
  decide

end Example

end Minix.Kernel.Clock
