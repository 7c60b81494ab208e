import Mathlib.Logic.Relation
import Minix.MM.Main

/-!
# What a call of the memory manager does

Every call is taken apart here into a few effects on the process table, so that a
fact about the table, the memory or the messages is only shown for each effect.
While the children of a slot that was released are still to be disinherited, the
slot is on a list beside the state.
-/

namespace Minix.MM

open Function Relation

namespace State

/-- One slot is written. -/
@[simp] theorem modify_mproc (s : State) (p q : Proc) (f : Mproc → Mproc) :
    (s.modify p f).mproc q = if q = p then f (s.mproc p) else s.mproc q :=
  Function.update_apply ..

/-- The hole table stays. -/
@[simp] theorem modify_table (s : State) (p : Proc) (f : Mproc → Mproc) :
    (s.modify p f).table = s.table := rfl

/-- The number of processes stays. -/
@[simp] theorem modify_procsInUse (s : State) (p : Proc) (f : Mproc → Mproc) :
    (s.modify p f).procsInUse = s.procsInUse := rfl

/-- The next pid stays. -/
@[simp] theorem modify_nextPid (s : State) (p : Proc) (f : Mproc → Mproc) :
    (s.modify p f).nextPid = s.nextPid := rfl

/-- The caller stays. -/
@[simp] theorem modify_mp (s : State) (p : Proc) (f : Mproc → Mproc) : (s.modify p f).mp = s.mp :=
  rfl

/-- The reply flag stays. -/
@[simp] theorem modify_dontReply (s : State) (p : Proc) (f : Mproc → Mproc) :
    (s.modify p f).dontReply = s.dontReply := rfl

/-- The history stays. -/
@[simp] theorem modify_hist (s : State) (p : Proc) (f : Mproc → Mproc) :
    (s.modify p f).hist = s.hist := rfl

variable (s : State) (p : Proc) (r x : Int)

/-- An answer leaves the slots. -/
@[simp] theorem reply_mproc : (s.reply p r x).mproc = s.mproc := by
  unfold reply
  split <;> rfl

/-- It leaves the hole table. -/
@[simp] theorem reply_table : (s.reply p r x).table = s.table := by
  unfold reply
  split <;> rfl

/-- It leaves the number of processes. -/
@[simp] theorem reply_procsInUse : (s.reply p r x).procsInUse = s.procsInUse := by
  unfold reply
  split <;> rfl

/-- It leaves the next pid. -/
@[simp] theorem reply_nextPid : (s.reply p r x).nextPid = s.nextPid := by
  unfold reply
  split <;> rfl

/-- It leaves the caller. -/
@[simp] theorem reply_mp : (s.reply p r x).mp = s.mp := by
  unfold reply
  split <;> rfl

/-- It leaves the second result. -/
@[simp] theorem reply_result2 : (s.reply p r x).result2 = s.result2 := by
  unfold reply
  split <;> rfl

/-- It leaves the reply flag. -/
@[simp] theorem reply_dontReply : (s.reply p r x).dontReply = s.dontReply := by
  unfold reply
  split <;> rfl

/-- The history after `reply`: one more message, and one call less to answer. -/
theorem reply_hist : (s.reply p r x).hist =
    { s.hist with
      replies := if (s.mproc p).live then ⟨some p, r, x, s.hist.owed p⟩ :: s.hist.replies
        else s.hist.replies
      owed := if (s.mproc p).live then update s.hist.owed p false else s.hist.owed } := by
  unfold reply
  split <;> rfl

end State

/-- What every fact below depends on in a slot: all but the ids of users and groups, the signal
maps and the timer. -/
def Mproc.bare (m : Mproc) : Mproc :=
  { m with
    mpProcgrp := 0, mpRealuid := 0, mpEffuid := 0, mpRealgid := 0, mpEffgid := 0
    mpIgnore := 0, mpCatch := 0, alarmOn := false }

/-- A slot is written without touching any of that. -/
def Quiet (f : Mproc → Mproc) : Prop := ∀ m, (f m).bare = m.bare

/-- A slot is written in its status only. -/
def Marks (f : Mproc → Mproc) : Prop :=
  ∀ m, f m = { m with mpExitstatus := (f m).mpExitstatus, mpSigstatus := (f m).mpSigstatus }

/-- A slot after the release of `child`, whose parent is `parent`: the flags of both are cleared. -/
def unflag (f : Proc → Mproc) (child parent q : Proc) : Mproc :=
  { f q with
    inUse := (f q).inUse && q ≠ child
    hanging := (f q).hanging && q ≠ child
    paused := (f q).paused && q ≠ child
    waiting := (f q).waiting && q ≠ parent }

/-- The state after the release of a slot. -/
def released (s : State) (child : Proc) (t : HoleTable) : State :=
  let parent := (s.mproc child).mpParent
  { s with
    table := t
    procsInUse := s.procsInUse - 1
    mproc := unflag s.mproc child parent
    hist := { s.hist with
      held := update s.hist.held child none
      freed := ⟨child, (s.mproc child).region, s.hist.held child⟩ :: s.hist.freed
      reaps := ⟨s.hist.born child, (s.mproc child).status, s.hist.father child,
        s.hist.exits.any fun x => x.born = s.hist.father child, parent, s.hist.born parent,
        (s.mproc parent).live⟩ :: s.hist.reaps
      replies := if (s.mproc parent).live then
          ⟨some parent, (s.mproc child).mpPid, (s.mproc child).status, s.hist.owed parent⟩ ::
            s.hist.replies
        else s.hist.replies
      owed := if (s.mproc parent).live then update s.hist.owed parent false else s.hist.owed } }

/-- The three writes to the flags, in one piece. -/
private theorem modify_flags (s : State) (child parent : Proc) :
    ((s.modify child fun m => { m with hanging := false, paused := false }).modify parent
      fun m => { m with waiting := false }).modify child (fun m => { m with inUse := false }) =
      { s with mproc := unflag s.mproc child parent } := by
  obtain ⟨f⟩ := s
  unfold State.modify
  dsimp only
  congr 1
  funext q
  simp only [Function.update_apply, unflag]
  by_cases hc : q = child
  · by_cases hp : child = parent
    · subst hc hp
      simp
    · subst hc
      simp [hp]
  · by_cases hp : q = parent
    · subst hp
      simp [hc]
    · simp [hc, hp]

/-- What `release` does, in one piece. -/
theorem release_eq {s s' : State} {child : Proc} (h : release s child = some s') :
    ∃ t, freeMem s.table (s.mproc child).region.base (s.mproc child).region.len = some t ∧
      s' = released s child t := by
  unfold release at h
  simp only [modify_flags, Option.bind_eq_bind, Option.bind_eq_some_iff, Option.pure_def,
    Option.some.injEq] at h
  obtain ⟨s₁, hf, rfl⟩ := h
  obtain ⟨t, ht, rfl⟩ := Option.map_eq_some_iff.mp hf
  rw [State.reply_table, State.reply_mproc] at ht
  refine ⟨t, ht, ?_⟩
  unfold released
  simp only [State.reply_mproc, State.reply_procsInUse, State.reply_nextPid, State.reply_mp,
    State.reply_dontReply, State.reply_result2, State.reply_hist]
  rfl

section Released

variable {s : State} {p q : Proc} {t : HoleTable}

/-- A slot that is released is no longer in use. -/
theorem released_use :
    ((released s p t).mproc q).inUse = true ↔ q ≠ p ∧ (s.mproc q).inUse = true := by
  simp only [released, unflag, Bool.and_eq_true, decide_eq_true_eq]
  exact and_comm

/-- Nor does it hang. -/
theorem released_hanging :
    ((released s p t).mproc q).hanging = true ↔ q ≠ p ∧ (s.mproc q).hanging = true := by
  simp only [released, unflag, Bool.and_eq_true, decide_eq_true_eq]
  exact and_comm

/-- Nor is it live. -/
theorem released_live : ((released s p t).mproc q).live = true ↔ q ≠ p ∧ (s.mproc q).live = true := by
  by_cases hq : q = p <;> simp [released, unflag, Mproc.live, hq]

/-- The parent waits no longer. -/
theorem released_waiting : ((released s p t).mproc q).waiting = true ↔
    q ≠ (s.mproc p).mpParent ∧ (s.mproc q).waiting = true := by
  simp only [released, unflag, Bool.and_eq_true, decide_eq_true_eq]
  exact and_comm

end Released

/-- What `adjust` can do: fail and change nothing, or move the boundaries of the gap. -/
theorem adjust_cases (m : Mproc) (d sp : Nat) :
    adjust m d sp = (ENOMEM, m) ∨
    addClicks m.segD.memVir d ≤ min (sp / 16) m.segS.memVir ∧
      adjust m d sp =
        (OK, growStack { m with segD := { m.segD with memLen := d } } (sp / 16)) := by
  unfold adjust
  dsimp only
  split
  · exact Or.inl rfl
  · split
    · exact Or.inl rfl
    · rename_i hgap
      split
      · exact Or.inr ⟨Nat.not_lt.mp hgap, rfl⟩
      · exact Or.inl rfl

/-- What `adjust` leaves of a slot: all but its data and stack segments. -/
theorem adjust_eq (m : Mproc) (d sp : Nat) :
    (adjust m d sp).2 = { m with segD := (adjust m d sp).2.segD, segS := (adjust m d sp).2.segS } := by
  rcases adjust_cases m d sp with h | ⟨-, h⟩
  · rw [h]
  · rw [h]
    unfold growStack
    dsimp only
    split <;> rfl

/-- When `adjust` fails it changes nothing. -/
theorem adjust_fail {m : Mproc} {d sp : Nat} (h : (adjust m d sp).1 ≠ OK) :
    (adjust m d sp).2 = m := by
  rcases adjust_cases m d sp with he | ⟨-, he⟩
  · rw [he]
  · rw [he] at h
    exact absurd rfl h

/-- What the flow of control depends on in a slot. -/
def Mproc.flow (m : Mproc) : Bool × Bool × Bool × Bool × Proc :=
  (m.inUse, m.hanging, m.waiting, m.paused, m.mpParent)

/-- The process table is in order, but for children of the slots in `g`. -/
structure Sound (g : List Proc) (s : State) : Prop where
  system : ∀ p ≤ INIT_PROC_NR, (s.mproc p).inUse = true ∧ (s.mproc p).mpParent = MM_PROC_NR
  managers : ∀ p < INIT_PROC_NR, (s.mproc p).suspended = false ∧ (s.mproc p).hanging = false
  hanging : ∀ p, (s.mproc p).hanging = true → (s.mproc p).inUse = true
  single : ∀ p, (s.mproc p).waiting = true → (s.mproc p).paused = false
  gone : ∀ p ∈ g, INIT_PROC_NR < p ∧ (s.mproc p).inUse = false
  parent : ∀ p, INIT_PROC_NR < p → (s.mproc p).inUse = true →
    INIT_PROC_NR ≤ (s.mproc p).mpParent ∧
      ((s.mproc (s.mproc p).mpParent).inUse = true ∨ (s.mproc p).mpParent ∈ g)

/-- The effects of a call. What is only so if the dead are left alone depends on `A`, and what is
only so if nobody is killed while waiting depends on `B`; `E` is what a process meets that goes
through EXEC, and `W` holds of a process that is served, which may fork, wait or pause. -/
inductive Effect (A B : Prop) (E : State → Proc → Prop) (W : Proc → Prop) :
    List Proc × State → List Proc × State → Prop
  | quiet {g : List Proc} {s : State} (p : Proc) {f : Mproc → Mproc} : Quiet f →
      Effect A B E W (g, s) (g, s.modify p f)
  | vars {g : List Proc} {s : State} {who : Proc} (mp : Proc) (d : Bool) (r : Int) : W who →
      Effect A B E W (g, s) (g, { s with mp := mp, dontReply := d, result2 := r })
  | adjusted {g : List Proc} {s : State} {p : Proc} {d sp : Nat} : INIT_PROC_NR ≤ p →
      (s.mproc p).inUse = true → d = (s.mproc p).segD.memLen ∨ d < 65536 →
      Effect A B E W (g, s) (g, s.modify p fun _ => (adjust (s.mproc p) d sp).2)
  | act {g : List Proc} {s : State} {p : Proc} (d : Deed) : (A → (s.mproc p).live = true) →
      Effect A B E W (g, s) (g, s.noteAct d p)
  | mark {g : List Proc} {s : State} {p : Proc} {f : Mproc → Mproc} : Marks f →
      (A → (s.mproc p).live = true) → Effect A B E W (g, s) (g, s.modify p f)
  | hang {g : List Proc} {s : State} {p : Proc} : INIT_PROC_NR ≤ p → (s.mproc p).inUse = true →
      (s.mproc (s.mproc p).mpParent).waiting = false → (A → (s.mproc p).hanging = false) →
      (B → (s.mproc p).waiting = false) →
      Effect A B E W (g, s) (g, (s.noteExit p).modify p fun m => { m with hanging := true })
  | exitReap {s s' : State} {p : Proc} : INIT_PROC_NR < p →
      (s.mproc p).inUse = true → (s.mproc (s.mproc p).mpParent).waiting = true →
      (A → (s.mproc p).hanging = false) → release (s.noteExit p) p = some s' →
      Effect A B E W ([], s) ([p], s')
  | reap {g : List Proc} {s s' : State} {p : Proc} : W (s.mproc p).mpParent → INIT_PROC_NR < p →
      (s.mproc p).hanging = true → (s.mproc (s.mproc p).mpParent).live = true →
      (s.mproc (s.mproc p).mpParent).suspended = false → s.hist.owed (s.mproc p).mpParent = true →
      release s p = some s' → Effect A B E W (g, s) (p :: g, s')
  | adopt {g : List Proc} {s : State} {c p : Proc} : c ∈ g → (s.mproc p).mpParent = c →
      ((s.mproc p).hanging = true → (s.mproc INIT_PROC_NR).waiting = false) →
      Effect A B E W (g, s) (g, adopt s p)
  | adoptReap {g : List Proc} {s s' : State} {c p : Proc} : c ∈ g → (s.mproc p).mpParent = c →
      (s.mproc p).hanging = true → (s.mproc INIT_PROC_NR).waiting = true →
      release (adopt s p) p = some s' → Effect A B E W (g, s) (p :: g, s')
  | settle {g : List Proc} {s : State} {c : Proc} : (∀ p, (s.mproc p).mpParent ≠ c) →
      Effect A B E W (c :: g, s) (g, s)
  | unpause {g : List Proc} {s : State} (p : Proc) : Effect A B E W (g, s) (g, unpause s p)
  | wait {g : List Proc} {s : State} {who : Proc} : W who → INIT_PROC_NR ≤ who →
      (s.mproc who).live = true → (s.mproc who).suspended = false → s.hist.owed who = true →
      (∀ p, (s.mproc p).mpParent = who → (s.mproc p).hanging = false) →
      Effect A B E W (g, s) (g, s.modify who fun m => { m with waiting := true })
  | pause {g : List Proc} {s : State} {who : Proc} : W who → INIT_PROC_NR ≤ who →
      (s.mproc who).live = true → (s.mproc who).suspended = false → s.hist.owed who = true →
      Effect A B E W (g, s) (g, s.modify who fun m => { m with paused := true })
  | noMem {s : State} {who : Proc} {t : HoleTable} : INIT_PROC_NR ≤ who →
      (s.mproc who).inUse = true →
      allocMem s.table (progClicks (s.mproc who)) = some (NO_MEM, t) →
      Effect A B E W ([], s) ([], { s with table := t })
  | fork {s s' : State} {who child : Proc} {base : Nat} {t : HoleTable} : W who →
      INIT_PROC_NR ≤ who → (s.mproc who).live = true → (s.mproc who).suspended = false → s.procsInUse ≠ NR_PROCS →
      allocMem s.table (progClicks (s.mproc who)) = some (base, t) → base ≠ NO_MEM →
      freeSlot s = some child → assignPid child 30000 (placeChild s who child t base) = some s' →
      Effect A B E W ([], s) ([], s'.reply child 0 0)
  | exec {s s' : State} {who : Proc} {a : ExecCall} {im : Image} :
      INIT_PROC_NR ≤ who → (s.mproc who).live = true → execImage a = .ok im → E s who → newMem s who im = some (OK, s') →
      Effect A B E W ([], s) ([], s'.modify who (execDone a im.ft))

/-- Some effects in a row. -/
abbrev Effects (A B : Prop) (E : State → Proc → Prop) (W : Proc → Prop) :
    List Proc × State → List Proc × State → Prop :=
  ReflTransGen (Effect A B E W)

/-- The search for a pid changes nothing but the child's pid, which no other slot has. -/
theorem assignPid_eq {child : Proc} {n : Nat} {s s' : State} (h : assignPid child n s = some s') :
    ∃ pid, s' = { s with nextPid := pid }.modify child (fun m => { m with mpPid := pid }) ∧
      ∀ q, q ≠ child → (s.mproc q).mpPid ≠ pid := by
  induction n generalizing s with
  | zero => cases h
  | succ n ih =>
    unfold assignPid at h
    dsimp only at h
    split at h
    · obtain ⟨pid, rfl, hq⟩ := ih h
      refine ⟨pid, ?_, fun q hne => ?_⟩
      · simp only [State.modify, Function.update_self, Function.update_idem]
      · have := hq q hne
        simpa only [State.modify_mproc, if_neg hne] using this
    · rename_i ht
      obtain rfl := Option.some.inj h
      refine ⟨_, rfl, fun q _ he => ht ?_⟩
      exact List.any_eq_true.mpr ⟨q, List.mem_finRange q, by simpa using he⟩

/-- The history has no slots. -/
@[simp] theorem noteExit_mproc (s : State) (p : Proc) : (s.noteExit p).mproc = s.mproc := rfl

/-- Nor has what is noted in it. -/
@[simp] theorem noteAct_mproc (s : State) (d : Deed) (p : Proc) :
    (s.noteAct d p).mproc = s.mproc := rfl

/-- The slot of a new child is set up as a copy of its parent's; no other slot is written. -/
theorem forkedState_mproc {s s' : State} {who child : Proc} {t : HoleTable} {base n : Nat}
    (h : assignPid child n (placeChild s who child t base) = some s') :
    ∃ pid, (∀ q, s'.mproc q =
        if q = child then { forked (s.mproc who) who base with mpPid := pid } else s.mproc q) ∧
      (∀ q, q ≠ child → (s.mproc q).mpPid ≠ pid) ∧ s'.table = t ∧
      s'.procsInUse = s.procsInUse + 1 ∧ s'.nextPid = pid ∧
      s'.hist = (placeChild s who child t base).hist := by
  obtain ⟨pid, rfl, hpid⟩ := assignPid_eq h
  refine ⟨pid, fun q => ?_, fun q hne => ?_, rfl, rfl, rfl, rfl⟩
  · by_cases hq : q = child
    · subst hq
      simp [placeChild, State.noteBirth, State.modify, State.grant]
    · simp [placeChild, State.noteBirth, State.modify, State.grant, hq]
  · have := hpid q hne
    simpa [placeChild, State.noteBirth, State.modify, State.grant, hne] using this

/-- A child of a slot that was released is above INIT. -/
theorem Sound.above_of_gone {g : List Proc} {s : State} (h : Sound g s) {c p : Proc} (hc : c ∈ g)
    (hp : (s.mproc p).mpParent = c) : INIT_PROC_NR < p := by
  refine lt_of_not_ge fun hle => ?_
  have := (h.gone c hc).1
  rw [← hp, (h.system p hle).2] at this
  exact absurd this (by decide)

/-- The process table in order depends on the flow of control only. -/
theorem Sound.congr {g : List Proc} {s s' : State} (h : Sound g s)
    (hf : ∀ q, (s'.mproc q).flow = (s.mproc q).flow) : Sound g s' := by
  have hu : ∀ q, (s'.mproc q).inUse = (s.mproc q).inUse := fun q => congrArg (·.1) (hf q)
  have hh : ∀ q, (s'.mproc q).hanging = (s.mproc q).hanging := fun q => congrArg (·.2.1) (hf q)
  have hw : ∀ q, (s'.mproc q).waiting = (s.mproc q).waiting := fun q => congrArg (·.2.2.1) (hf q)
  have hp : ∀ q, (s'.mproc q).paused = (s.mproc q).paused := fun q => congrArg (·.2.2.2.1) (hf q)
  have ha : ∀ q, (s'.mproc q).mpParent = (s.mproc q).mpParent := fun q => congrArg (·.2.2.2.2) (hf q)
  refine ⟨fun p hp => ?_, fun p hp' => ?_, fun p hq => ?_, fun p hq => ?_, fun p hg => ?_,
    fun p hlt hq => ?_⟩
  · rw [hu, ha]
    exact h.system p hp
  · unfold Mproc.suspended
    rw [hw, hp, hh]
    exact h.managers p hp'
  · rw [hh] at hq
    rw [hu]
    exact h.hanging p hq
  · rw [hw] at hq
    rw [hp]
    exact h.single p hq
  · rw [hu]
    exact h.gone p hg
  · rw [hu] at hq
    rw [ha, hu]
    exact h.parent p hlt hq

/-- The release of a slot that is in use, above INIT. -/
theorem Sound.released {g : List Proc} {s : State} {p : Proc} (h : Sound g s)
    (hp : INIT_PROC_NR < p) (t : HoleTable) : Sound (p :: g) (released s p t) := by
  refine ⟨fun q hq => ?_, fun q hq => ?_, fun q hq => ?_, fun q hq => ?_, fun q hq => ?_,
    fun q hlt hq => ?_⟩
  · have hne : q ≠ p := fun he => absurd (he ▸ hq) (not_le.mpr hp)
    simpa [MM.released, unflag, hne] using h.system q hq
  · have := h.managers q hq
    simp only [Mproc.suspended, Bool.or_eq_false_iff] at this
    simp [MM.released, unflag, Mproc.suspended, this]
  · simp only [MM.released, unflag, Bool.and_eq_true] at hq ⊢
    exact ⟨h.hanging q hq.1, hq.2⟩
  · simp only [MM.released, unflag, Bool.and_eq_true] at hq ⊢
    rw [h.single q hq.1, Bool.false_and]
  · rcases List.mem_cons.mp hq with rfl | hq
    · exact ⟨hp, by simp [MM.released, unflag]⟩
    · exact ⟨(h.gone q hq).1, by simp [MM.released, unflag, (h.gone q hq).2]⟩
  · simp only [MM.released, unflag, Bool.and_eq_true] at hq ⊢
    obtain ⟨hle, hpar⟩ := h.parent q hlt hq.1
    refine ⟨hle, ?_⟩
    by_cases he : (s.mproc q).mpParent = p
    · exact Or.inr (he ▸ List.mem_cons_self ..)
    · exact hpar.imp (fun hu => ⟨hu, by simpa using he⟩) (List.mem_cons_of_mem _)

/-- A write to one slot that leaves the flow of control alone. -/
theorem modify_flow {s : State} {p : Proc} {f : Mproc → Mproc}
    (hf : (f (s.mproc p)).flow = (s.mproc p).flow) (q : Proc) :
    ((s.modify p f).mproc q).flow = (s.mproc q).flow := by
  rw [State.modify_mproc]
  split
  · rename_i hq
    rw [hf, hq]
  · rfl

/-- A change that says nothing of the life of processes. -/
theorem Sound.modify {g : List Proc} {s : State} (h : Sound g s) {p : Proc} {f : Mproc → Mproc}
    (hf : (f (s.mproc p)).flow = (s.mproc p).flow) : Sound g (s.modify p f) :=
  h.congr (modify_flow hf)

/-- A quiet change is such a change. -/
theorem Quiet.flow {f : Mproc → Mproc} (hf : Quiet f) (m : Mproc) : (f m).flow = m.flow := by
  show (f m).bare.flow = m.bare.flow
  rw [hf m]

/-- So is a mark. -/
theorem Marks.flow {f : Mproc → Mproc} (hf : Marks f) (m : Mproc) : (f m).flow = m.flow := by
  rw [hf m]
  rfl

/-- So are segments that grow. -/
theorem adjust_flow (m : Mproc) (d sp : Nat) : (adjust m d sp).2.flow = m.flow := by
  rw [adjust_eq]
  rfl

/-- No slot is taken or released. Processes from INIT on may terminate, and ones above it go to
INIT. -/
theorem Sound.mono {g : List Proc} {s s' : State} (h : Sound g s)
    (hu : ∀ q, (s'.mproc q).inUse = (s.mproc q).inUse)
    (ha : ∀ q, (s'.mproc q).mpParent = (s.mproc q).mpParent ∨
      INIT_PROC_NR < q ∧ (s'.mproc q).mpParent = INIT_PROC_NR)
    (hh : ∀ q, (s'.mproc q).hanging = true →
      (s.mproc q).hanging = true ∨ INIT_PROC_NR ≤ q ∧ (s.mproc q).inUse = true)
    (hw : ∀ q, (s'.mproc q).waiting = true → (s'.mproc q).paused = false)
    (hm : ∀ q, q < INIT_PROC_NR → (s'.mproc q).suspended = false) : Sound g s' := by
  refine ⟨fun q hq => ?_, fun q hq => ⟨hm q hq, ?_⟩, fun q hq => ?_, hw, fun q hq => ?_,
    fun q hlt hq => ?_⟩
  · rw [hu]
    rcases ha q with he | ⟨hlt, -⟩
    · rw [he]
      exact h.system q hq
    · exact absurd hq (not_le.mpr hlt)
  · rw [Bool.eq_false_iff]
    intro hq'
    rcases hh q hq' with hq' | ⟨hle, -⟩
    · rw [(h.managers q hq).2] at hq'
      cases hq'
    · exact absurd hq (not_lt.mpr hle)
  · rw [hu]
    rcases hh q hq with hq | ⟨-, hq⟩
    · exact h.hanging q hq
    · exact hq
  · rw [hu]
    exact h.gone q hq
  · rw [hu] at hq
    rw [hu]
    rcases ha q with he | ⟨-, he⟩
    · rw [he]
      exact h.parent q hlt hq
    · rw [he]
      exact ⟨le_rfl, Or.inl (h.system INIT_PROC_NR le_rfl).1⟩

/-- A process hangs until its parent waits. -/
theorem Sound.hang {g : List Proc} {s : State} (h : Sound g s) {p : Proc}
    (hp : INIT_PROC_NR ≤ p) (hu : (s.mproc p).inUse = true) :
    Sound g (s.modify p fun m => { m with hanging := true }) := by
  refine h.mono (fun q => ?_) (fun q => Or.inl ?_) (fun q hq => ?_) (fun q hq => ?_) fun q hq => ?_
  · rw [State.modify_mproc]
    split <;> simp_all
  · rw [State.modify_mproc]
    split <;> simp_all
  · by_cases he : q = p
    · exact Or.inr (he ▸ ⟨hp, hu⟩)
    · rw [State.modify_mproc, if_neg he] at hq
      exact Or.inl hq
  · rw [State.modify_mproc] at hq ⊢
    split <;> rename_i he
    · rw [if_pos he] at hq
      exact h.single p hq
    · rw [if_neg he] at hq
      exact h.single q hq
  · rw [State.modify_mproc, if_neg (hq.trans_le hp).ne]
    exact (h.managers q hq).1

/-- INIT becomes the parent. -/
theorem Sound.adopt {g : List Proc} {s : State} (h : Sound g s) {p : Proc}
    (hp : INIT_PROC_NR < p) : Sound g (adopt s p) := by
  have hq : ∀ q, ((MM.adopt s p).mproc q).inUse = (s.mproc q).inUse ∧
      ((MM.adopt s p).mproc q).hanging = (s.mproc q).hanging ∧
      ((MM.adopt s p).mproc q).waiting = (s.mproc q).waiting ∧
      ((MM.adopt s p).mproc q).paused = (s.mproc q).paused := by
    intro q
    rw [MM.adopt, State.modify_mproc]
    split <;> simp_all
  refine h.mono (fun q => (hq q).1) (fun q => ?_) (fun q h' => Or.inl ((hq q).2.1 ▸ h'))
    (fun q h' => ?_) fun q h' => ?_
  · rw [MM.adopt, State.modify_mproc]
    split
    · rename_i he
      exact Or.inr ⟨he ▸ hp, rfl⟩
    · exact Or.inl rfl
  · rw [(hq q).2.2.1] at h'
    rw [(hq q).2.2.2]
    exact h.single q h'
  · unfold Mproc.suspended
    rw [(hq q).2.2.1, (hq q).2.2.2]
    exact (h.managers q h').1

/-- A process that is let go from PAUSE or WAIT. -/
theorem unpause_mproc (s : State) (p q : Proc) : ∃ w u,
    (unpause s p).mproc q = { s.mproc q with waiting := w, paused := u } ∧
    (w = true → (s.mproc q).waiting = true) ∧ (u = true → (s.mproc q).paused = true) := by
  unfold unpause
  dsimp only
  split
  · rw [State.reply_mproc, State.modify_mproc]
    split
    · rename_i he
      exact he ▸ ⟨_, _, rfl, id, fun h => (nomatch h)⟩
    · exact ⟨_, _, rfl, id, id⟩
  · split
    · rw [State.reply_mproc, State.modify_mproc]
      split
      · rename_i he
        exact he ▸ ⟨_, _, rfl, fun h => (nomatch h), id⟩
      · exact ⟨_, _, rfl, id, id⟩
    · exact ⟨_, _, rfl, id, id⟩

/-- Nothing but that and a message is different. -/
theorem unpause_rest (s : State) (p : Proc) : (unpause s p).table = s.table ∧
    (unpause s p).procsInUse = s.procsInUse ∧ (unpause s p).nextPid = s.nextPid ∧
      ∃ r o, (unpause s p).hist = { s.hist with replies := r, owed := o } := by
  unfold unpause
  dsimp only
  split
  · exact ⟨State.reply_table .., State.reply_procsInUse .., State.reply_nextPid ..,
      _, _, State.reply_hist ..⟩
  · split
    · exact ⟨State.reply_table .., State.reply_procsInUse .., State.reply_nextPid ..,
        _, _, State.reply_hist ..⟩
    · exact ⟨rfl, rfl, rfl, _, _, rfl⟩

/-- A process is released from PAUSE or WAIT. -/
theorem Sound.unpause {g : List Proc} {s : State} (h : Sound g s) (p : Proc) :
    Sound g (unpause s p) := by
  refine h.mono (fun q => ?_) (fun q => Or.inl ?_) (fun q hq => Or.inl ?_) (fun q hq => ?_)
    fun q hq => ?_
  all_goals obtain ⟨w, u, he, hw, hu⟩ := unpause_mproc s p q
  · rw [he]
  · rw [he]
  · rw [he] at hq
    exact hq
  · rw [he] at hq ⊢
    rw [Bool.eq_false_iff]
    intro hu'
    rw [h.single q (hw hq)] at hu
    exact (nomatch hu hu')
  · have := (h.managers q hq).1
    rw [he]
    simp only [Mproc.suspended, Bool.or_eq_false_iff] at this ⊢
    rw [this.1] at hw
    rw [this.2] at hu
    exact ⟨Bool.eq_false_iff.mpr fun h => (nomatch hw h), Bool.eq_false_iff.mpr fun h => (nomatch hu h)⟩

/-- A process that runs, from INIT on, comes to wait or to pause. -/
theorem Sound.suspend {g : List Proc} {s : State} (h : Sound g s) {who : Proc}
    (hp : INIT_PROC_NR ≤ who) {f : Mproc → Mproc}
    (hf : (f (s.mproc who)).inUse = (s.mproc who).inUse ∧
      (f (s.mproc who)).hanging = (s.mproc who).hanging ∧
      (f (s.mproc who)).mpParent = (s.mproc who).mpParent ∧
      ((f (s.mproc who)).waiting = true → (f (s.mproc who)).paused = false)) :
    Sound g (s.modify who f) := by
  have hq : ∀ q, ((s.modify who f).mproc q).inUse = (s.mproc q).inUse ∧
      ((s.modify who f).mproc q).hanging = (s.mproc q).hanging ∧
      ((s.modify who f).mproc q).mpParent = (s.mproc q).mpParent ∧
      (((s.modify who f).mproc q).waiting = true → ((s.modify who f).mproc q).paused = false) := by
    intro q
    rw [State.modify_mproc]
    split
    · rename_i he
      exact he ▸ hf
    · exact ⟨rfl, rfl, rfl, h.single q⟩
  refine h.mono (fun q => (hq q).1) (fun q => Or.inl (hq q).2.2.1)
    (fun q h' => Or.inl ((hq q).2.1 ▸ h')) (fun q => (hq q).2.2.2) fun q h' => ?_
  rw [State.modify_mproc, if_neg (h'.trans_le hp).ne]
  exact (h.managers q h').1

/-- The slot that FORK takes is above INIT and not in use. -/
theorem Sound.freeSlot {g : List Proc} {s : State} (h : Sound g s) {child : Proc}
    (hc : freeSlot s = some child) : INIT_PROC_NR < child ∧ (s.mproc child).inUse = false := by
  have hu := List.find?_some hc
  rw [Bool.not_eq_true'] at hu
  refine ⟨?_, hu⟩
  by_contra hle
  rw [(h.system child (not_lt.mp hle)).1] at hu
  cases hu

/-- A slot that is not in use is the parent of no process. -/
theorem Sound.parent_ne {s : State} (h : Sound [] s) {p q : Proc}
    (hp : (s.mproc p).inUse = false) (hq : (s.mproc q).inUse = true) :
    (s.mproc q).mpParent ≠ p := by
  rintro rfl
  have hpar : (s.mproc (s.mproc q).mpParent).inUse = true := by
    by_cases hle : q ≤ INIT_PROC_NR
    · rw [(h.system q hle).2]
      exact (h.system MM_PROC_NR (by decide)).1
    · exact (h.parent q (not_le.mp hle) hq).2.resolve_right List.not_mem_nil
  exact (nomatch hp.symm.trans hpar)

/-- A child is born. -/
theorem Sound.fork {s s' : State} (h : Sound [] s) {who child : Proc} {base n : Nat}
    {t : HoleTable} (hp : INIT_PROC_NR ≤ who) (hl : (s.mproc who).live = true)
    (hs : (s.mproc who).suspended = false) (hc : MM.freeSlot s = some child)
    (ha : assignPid child n (placeChild s who child t base) = some s') : Sound [] s' := by
  obtain ⟨hlt, hu⟩ := h.freeSlot hc
  obtain ⟨pid, hm, -⟩ := forkedState_mproc ha
  simp only [Mproc.live, Bool.and_eq_true, Bool.not_eq_true'] at hl
  simp only [Mproc.suspended, Bool.or_eq_false_iff] at hs
  have hne : ∀ q ≤ INIT_PROC_NR, q ≠ child := fun q hq he => absurd hlt (not_lt.mpr (he ▸ hq))
  refine ⟨fun q hq => ?_, fun q hq => ?_, fun q hq => ?_, fun q hq => ?_, fun q hq => ?_,
    fun q hq hqu => ?_⟩
  · rw [hm, if_neg (hne q hq)]
    exact h.system q hq
  · rw [hm, if_neg (hne q hq.le)]
    exact h.managers q hq
  · rw [hm] at hq ⊢
    split
    · exact hl.1
    · rename_i he
      rw [if_neg he] at hq
      exact h.hanging q hq
  · rw [hm] at hq ⊢
    split
    · exact hs.2
    · rename_i he
      rw [if_neg he] at hq
      exact h.single q hq
  · cases hq
  · have hpar : ∀ r, (s.mproc r).inUse = true → (s'.mproc r).inUse = true := by
      intro r hr
      rw [hm]
      split
      · exact hl.1
      · exact hr
    rw [hm] at hqu
    by_cases he : q = child
    · have hq : (s'.mproc q).mpParent = who := by
        rw [hm, if_pos he]
        rfl
      rw [hq]
      exact ⟨hp, Or.inl (hpar who hl.1)⟩
    · rw [if_neg he] at hqu
      have hq : (s'.mproc q).mpParent = (s.mproc q).mpParent := by rw [hm, if_neg he]
      rw [hq]
      exact (h.parent q ‹_› hqu).imp id fun ho => ho.imp (hpar _) id

/-- A check of EXEC that fails does not return `OK`. -/
theorem execImage_error {a : ExecCall} {e : Int} (h : execImage a = .error e) : e ≠ OK := by
  unfold execImage at h
  repeat' split at h
  all_goals cases h
  all_goals first
    | decide
    | assumption
    | exact ne_of_lt ‹_›

/-- What `new_mem` does when it goes through. -/
theorem newMem_ok {s s' : State} {who : Proc} {im : Image} (h : newMem s who im = some (OK, s')) :
    ∃ t₁ base t₂, roomFor s.table im = some OK ∧
      freeMem s.table (s.mproc who).region.base (s.mproc who).region.len = some t₁ ∧
      allocMem t₁ im.clicks = some (base, t₂) ∧ base ≠ NO_MEM ∧
      s' = { s with
        table := t₂
        mproc := update s.mproc who (im.mapped base (s.mproc who))
        hist := { s.hist with
          held := update s.hist.held who (some ⟨base, im.clicks⟩)
          freed := ⟨who, (s.mproc who).region, s.hist.held who⟩ :: s.hist.freed } } := by
  unfold newMem at h
  obtain ⟨r, hr, h⟩ := Option.bind_eq_some_iff.mp h
  split at h
  · rename_i hne
    obtain ⟨rfl, -⟩ := Prod.mk.inj (Option.some.inj h)
    exact absurd rfl hne
  · rename_i hok
    obtain ⟨s₁, hf, h⟩ := Option.bind_eq_some_iff.mp h
    obtain ⟨⟨base, t₂⟩, ha, h⟩ := Option.bind_eq_some_iff.mp h
    obtain ⟨t₁, ht, rfl⟩ := Option.map_eq_some_iff.mp hf
    dsimp only at h
    split at h
    · cases h
    · rename_i hb
      obtain ⟨-, rfl⟩ := Prod.mk.inj (Option.some.inj h)
      refine ⟨t₁, base, t₂, not_not.mp hok ▸ hr, ht, ha, hb, ?_⟩
      simp only [State.modify, State.grant, Function.update_idem]

/-- When `new_mem` fails nothing has happened yet. -/
theorem newMem_fail {s s' : State} {who : Proc} {im : Image} {r : Int}
    (h : newMem s who im = some (r, s')) (hr : r ≠ OK) :
    s' = s ∧ roomFor s.table im = some r := by
  unfold newMem at h
  obtain ⟨r₁, hroom, h⟩ := Option.bind_eq_some_iff.mp h
  split at h
  · obtain ⟨rfl, rfl⟩ := Prod.mk.inj (Option.some.inj h)
    exact ⟨rfl, hroom⟩
  · obtain ⟨s₁, -, h⟩ := Option.bind_eq_some_iff.mp h
    obtain ⟨⟨base, t⟩, -, h⟩ := Option.bind_eq_some_iff.mp h
    dsimp only at h
    split at h
    · cases h
    · exact absurd (Prod.mk.inj (Option.some.inj h)).1.symm hr

/-- The slot of a process that has gone through EXEC. -/
theorem exec_flow {s s' : State} {who : Proc} {im : Image} {a : ExecCall} {ft : Bool}
    (h : newMem s who im = some (OK, s')) (q : Proc) :
    ((s'.modify who (execDone a ft)).mproc q).flow = (s.mproc q).flow := by
  obtain ⟨t₁, base, t₂, -, -, -, -, rfl⟩ := newMem_ok h
  rw [State.modify_mproc]
  dsimp only
  rw [Function.update_self]
  split
  · rename_i he
    rw [he]
    rfl
  · rename_i he
    rw [Function.update_of_ne he]

/-- Every effect keeps the process table in order. -/
theorem Sound.effect {A B : Prop} {E : State → Proc → Prop} {W : Proc → Prop} {x y : List Proc × State} (h : Sound x.1 x.2)
    (he : Effect A B E W x y) : Sound y.1 y.2 := by
  cases he with
  | quiet p hf => exact h.modify (hf.flow _)
  | vars mp d r hW => exact h.congr fun _ => rfl
  | @adjusted g s p d sp hp hu hd =>
    exact h.modify (f := fun _ => (adjust (s.mproc p) d sp).2) (adjust_flow _ _ _)
  | act d hA => exact h.congr fun _ => rfl
  | mark hf hA => exact h.modify (hf.flow _)
  | @hang g s p hp hu hw hA hB =>
    have h' : Sound g (s.noteExit p) := h.congr fun _ => rfl
    exact h'.hang hp hu
  | @exitReap s s' p hp hu hw hA hr =>
    have h' : Sound [] (s.noteExit p) := h.congr fun _ => rfl
    obtain ⟨t, -, rfl⟩ := release_eq hr
    exact h'.released hp t
  | reap hW hp hh hl hs ho hr =>
    obtain ⟨t, -, rfl⟩ := release_eq hr
    exact h.released hp t
  | adopt hc hpar hh => exact h.adopt (h.above_of_gone hc hpar)
  | @adoptReap g s s' c p hc hpar hh hw hr =>
    have hp : INIT_PROC_NR < p := h.above_of_gone hc hpar
    obtain ⟨t, -, rfl⟩ := release_eq hr
    exact (h.adopt hp).released hp t
  | settle hc =>
    refine ⟨h.system, h.managers, h.hanging, h.single, fun q hq => h.gone q (List.mem_cons_of_mem _ hq),
      fun q hlt hu => ?_⟩
    obtain ⟨hle, ho⟩ := h.parent q hlt hu
    exact ⟨hle, ho.imp id fun hm => (List.mem_cons.mp hm).resolve_left (hc q)⟩
  | unpause p => exact h.unpause p
  | wait hW hp hl hs ho hc =>
    simp only [Mproc.suspended, Bool.or_eq_false_iff] at hs
    exact h.suspend (f := fun m => { m with waiting := true }) hp ⟨rfl, rfl, rfl, fun _ => hs.2⟩
  | pause hW hp hl hs ho =>
    simp only [Mproc.suspended, Bool.or_eq_false_iff] at hs
    refine h.suspend (f := fun m => { m with paused := true }) hp ⟨rfl, rfl, rfl, fun hw => ?_⟩
    exact (nomatch hs.1.symm.trans hw)
  | noMem hp hu ha => exact h.congr fun _ => rfl
  | fork hW hp hl hs hn ha hb hc hpid => exact (h.fork hp hl hs hc hpid).congr fun q => by rw [State.reply_mproc]
  | exec hp hl hi hE hm => exact h.congr (exec_flow hm)

/-- Any number of effects. -/
theorem Sound.effects {A B : Prop} {E : State → Proc → Prop} {W : Proc → Prop} {x y : List Proc × State} (h : Sound x.1 x.2)
    (he : Effects A B E W x y) : Sound y.1 y.2 := by
  induction he with
  | refl => exact h
  | tail _ he ih => exact ih.effect he

end Minix.MM
