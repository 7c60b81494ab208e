import Minix.MM.Effects

/-!
# Every call is a row of effects

The recursion of `cleanup` and the loops over the process table and the signal map
are dealt with here, each once.
-/

namespace Minix.MM

open Function Relation

variable {A B : Prop} {E : State → Proc → Prop} {W : Proc → Prop} {g : List Proc} {s s' : State}

/-- A live process is in use and does not hang. -/
theorem Mproc.live_eq_true {m : Mproc} : m.live = true ↔ m.inUse = true ∧ m.hanging = false := by
  simp [Mproc.live]

/-- What happens to the slot of a process when others die: it may lose its flags and go to INIT. -/
structure Mproc.Later (m m' : Mproc) : Prop where
  rest : m' = { m with
    inUse := m'.inUse, hanging := m'.hanging, waiting := m'.waiting, paused := m'.paused
    mpParent := m'.mpParent }
  inUse : m'.inUse = true → m.inUse = true
  hanging : m'.inUse = true → m'.hanging = m.hanging
  waiting : m'.waiting = true → m.waiting = true
  paused : m'.paused = true → m.paused = true
  parent : m'.mpParent = m.mpParent ∨ m'.mpParent = INIT_PROC_NR

namespace Mproc.Later

/-- A slot that stays as it is. -/
theorem refl (m : Mproc) : m.Later m := ⟨rfl, id, fun _ => rfl, id, id, Or.inl rfl⟩

/-- Two changes one after the other. -/
theorem trans {m₁ m₂ m₃ : Mproc} (h : m₁.Later m₂) (h' : m₂.Later m₃) : m₁.Later m₃ where
  rest := by
    conv_lhs => rw [h'.rest]
    conv_lhs => rw [h.rest]
  inUse hu := h.inUse (h'.inUse hu)
  hanging hu := (h'.hanging hu).trans (h.hanging (h'.inUse hu))
  waiting hw := h.waiting (h'.waiting hw)
  paused hp := h.paused (h'.paused hp)
  parent := h'.parent.elim (fun he => he ▸ h.parent) Or.inr

/-- Who is live was live before. -/
theorem live {m m' : Mproc} (h : m.Later m') (hl : m'.live = true) : m.live = true := by
  obtain ⟨hu, hh⟩ := Mproc.live_eq_true.mp hl
  rw [h.hanging hu] at hh
  exact Mproc.live_eq_true.mpr ⟨h.inUse hu, hh⟩

end Mproc.Later

/-- A slot is released. -/
theorem released_later (s : State) (child : Proc) (t : HoleTable) (q : Proc) :
    (s.mproc q).Later ((released s child t).mproc q) := by
  refine ⟨rfl, ?_, ?_, ?_, ?_, Or.inl rfl⟩ <;> simp only [released, unflag, Bool.and_eq_true]
  · exact And.left
  · rintro ⟨-, hne⟩
    rw [hne, Bool.and_true]
  · exact And.left
  · exact And.left

/-- An orphan gets another parent. -/
theorem adopt_later (s : State) (p q : Proc) : (s.mproc q).Later ((adopt s p).mproc q) := by
  rw [adopt, State.modify_mproc]
  split
  · rename_i he
    exact he ▸ ⟨rfl, id, fun _ => rfl, id, id, Or.inr rfl⟩
  · exact .refl _

/-- What the recursion of `cleanup` comes to, once the slot itself is released. -/
structure Disinherited (A B : Prop) (E : State → Proc → Prop) (W : Proc → Prop) (g : List Proc)
    (child : Proc)
    (s₁ s' : State) : Prop where
  later : ∀ q, (s₁.mproc q).Later (s'.mproc q)
  mp : s'.mp = s₁.mp
  effects : Effects A B E W (child :: g, s₁) (g, s')

/-- A call that cleans up a slot, as far as the loop that disinherits the children needs it. -/
def Cleans (A B : Prop) (E : State → Proc → Prop) (W : Proc → Prop)
    (clean : State → Proc → Option State) : Prop :=
  ∀ {g : List Proc} {s s' : State} {p : Proc}, clean s p = some s' → INIT_PROC_NR < p →
    ∃ s₁, release s p = some s₁ ∧ (Sound (p :: g) s₁ → Disinherited A B E W g p s₁ s')

/-- One turn of the loop that disinherits the children of a slot that was released. -/
private theorem disinherit_turn {clean : State → Proc → Option State} {child p : Proc}
    (hclean : Cleans A B E W clean) {w w' : Bool} (hw : w = (s.mproc INIT_PROC_NR).waiting)
    (h : disinherit clean child (s, w) p = some (s', w')) (hs : Sound (child :: g) s) :
    (∀ q, (s.mproc q).Later (s'.mproc q)) ∧ s'.mp = s.mp ∧
      w' = (s'.mproc INIT_PROC_NR).waiting ∧ (s'.mproc p).mpParent ≠ child ∧
      Effects A B E W (child :: g, s) (child :: g, s') := by
  have hi : INIT_PROC_NR < child := (hs.gone child (List.mem_cons_self ..)).1
  unfold disinherit at h
  dsimp only at h
  split at h
  · rename_i hpar
    have hp : INIT_PROC_NR < p := by
      refine lt_of_not_ge fun hle => ?_
      rw [← hpar, (hs.system p hle).2] at hi
      exact absurd hi (by decide)
    have hpar' : ((adopt s p).mproc p).mpParent = INIT_PROC_NR := by
      rw [adopt, State.modify_mproc, if_pos rfl]
    split at h
    · rename_i hwh
      obtain ⟨s₂, hc, he⟩ := Option.map_eq_some_iff.mp h
      obtain ⟨rfl, rfl⟩ := Prod.mk.inj he
      obtain ⟨s₃, hr, hdis⟩ := hclean (g := child :: g) hc hp
      have heff : Effect A B E W (child :: g, s) (p :: child :: g, s₃) :=
        .adoptReap (List.mem_cons_self ..) hpar hwh.2 (hw ▸ hwh.1) hr
      have hdis := hdis (hs.effect heff)
      obtain ⟨t, -, rfl⟩ := release_eq hr
      have hlater : ∀ q, ((adopt s p).mproc q).Later (s₂.mproc q) :=
        fun q => (released_later _ p t q).trans (hdis.later q)
      refine ⟨fun q => (adopt_later s p q).trans (hlater q), hdis.mp, ?_, ?_,
        .head heff hdis.effects⟩
      · -- the reaping has answered INIT
        rw [eq_comm, Bool.eq_false_iff]
        intro hw₂
        have := (hdis.later _).waiting hw₂
        simp [released, unflag, hpar'] at this
      · rcases (hlater p).parent with he | he
        · rw [he, hpar']
          exact hi.ne
        · rw [he]
          exact hi.ne
    · rename_i hwh
      obtain ⟨rfl, rfl⟩ := Prod.mk.inj (Option.some.inj h)
      refine ⟨adopt_later s p, rfl, ?_, ?_, .single (.adopt (List.mem_cons_self ..) hpar fun hh => ?_)⟩
      · rw [hw, adopt, State.modify_mproc]
        split
        · rename_i he
          rw [he]
        · rfl
      · rw [hpar']
        exact hi.ne
      · rw [← hw, Bool.eq_false_iff]
        exact fun h => hwh ⟨h, hh⟩
  · rename_i hpar
    obtain ⟨rfl, rfl⟩ := Prod.mk.inj (Option.some.inj h)
    exact ⟨fun _ => .refl _, rfl, hw, hpar, .refl⟩

/-- The whole loop: nobody on the list is a child of the slot any more. -/
private theorem disinherit_fold {clean : State → Proc → Option State} {child : Proc}
    (hclean : Cleans A B E W clean) {l : List Proc} {w w' : Bool}
    (hw : w = (s.mproc INIT_PROC_NR).waiting)
    (h : l.foldlM (disinherit clean child) (s, w) = some (s', w')) (hs : Sound (child :: g) s) :
    (∀ q, (s.mproc q).Later (s'.mproc q)) ∧ s'.mp = s.mp ∧
      (∀ q ∈ l, (s'.mproc q).mpParent ≠ child) ∧ Effects A B E W (child :: g, s) (child :: g, s') := by
  induction l generalizing s w with
  | nil =>
    obtain ⟨rfl, -⟩ := Prod.mk.inj (Option.some.inj h)
    exact ⟨fun _ => .refl _, rfl, fun _ hq => (nomatch hq), .refl⟩
  | cons p l ih =>
    rw [List.foldlM_cons] at h
    obtain ⟨⟨s₁, w₁⟩, hd, h⟩ := Option.bind_eq_some_iff.mp h
    obtain ⟨hl₁, hm₁, hw₁, hp₁, he₁⟩ := disinherit_turn hclean hw hd hs
    obtain ⟨hl, hm, hq, he⟩ := ih hw₁ h (hs.effects he₁)
    refine ⟨fun q => (hl₁ q).trans (hl q), hm.trans hm₁, fun q hq' => ?_, he₁.trans he⟩
    rcases List.mem_cons.mp hq' with rfl | hq'
    · rcases (hl q).parent with h' | h'
      · rw [h']
        exact hp₁
      · rw [h']
        exact (hs.gone child (List.mem_cons_self ..)).1.ne
    · exact hq q hq'

/-- `cleanup` releases the slot, and then the children go to INIT, one of them perhaps to be
reaped. -/
theorem cleanup_cases (n : Nat) : Cleans A B E W (cleanup n) := by
  induction n with
  | zero => exact fun h => (nomatch h)
  | succ n ih =>
    intro g s s' child h hi
    obtain ⟨s₁, hr, h⟩ := Option.bind_eq_some_iff.mp h
    obtain ⟨⟨s₂, w⟩, hf, h⟩ := Option.bind_eq_some_iff.mp h
    obtain rfl := Option.some.inj h
    refine ⟨s₁, hr, fun hs => ?_⟩
    obtain ⟨hl, hm, hq, he⟩ := disinherit_fold ih rfl hf hs
    exact ⟨hl, hm, he.tail (.settle fun p => hq p (List.mem_finRange p))⟩

/-- A process that is not suspended. -/
theorem Mproc.suspended_eq_false {m : Mproc} :
    m.suspended = false ↔ m.waiting = false ∧ m.paused = false := by
  simp [Mproc.suspended]

/-- The timer says nothing of the life of a process. -/
theorem quiet_alarm (b : Bool) : Quiet fun m => { m with alarmOn := b } := fun _ => rfl

/-- `mm_exit` of a process: it is marked with its status, and hangs or is cleaned up. After it the
process is dead, and the others have only changed as they do when somebody dies. -/
theorem mmExit_cases {p : Proc} {st : BitVec 8} (hs : Sound [] s) (hp : INIT_PROC_NR ≤ p)
    (hu : (s.mproc p).inUse = true) (hA : A → (s.mproc p).hanging = false)
    (hB : B → (s.mproc p).waiting = true → (s.mproc (s.mproc p).mpParent).waiting = true)
    (h : mmExit s p st = some s') :
    Effects A B E W ([], s) ([], s') ∧ (∀ q, q ≠ p → (s.mproc q).Later (s'.mproc q)) ∧
      (s'.mproc p).live = false ∧ (s'.mproc p).mpProcgrp = (s.mproc p).mpProcgrp ∧ s'.mp = s.mp := by
  obtain ⟨s₃, h₃, rfl⟩ := Option.map_eq_some_iff.mp h
  set s₁ := s.modify p fun m => { m with mpExitstatus := st } with hs₁
  have hmark : Effect A B E W ([], s) ([], s₁) :=
    .mark (fun _ => rfl) fun a => Mproc.live_eq_true.mpr ⟨hu, hA a⟩
  have hsame : ∀ q, (s₁.mproc q).inUse = (s.mproc q).inUse ∧
      (s₁.mproc q).hanging = (s.mproc q).hanging ∧ (s₁.mproc q).waiting = (s.mproc q).waiting ∧
      (s₁.mproc q).mpParent = (s.mproc q).mpParent := by
    intro q
    rw [hs₁, State.modify_mproc]
    split
    · rename_i he
      rw [he]
      exact ⟨rfl, rfl, rfl, rfl⟩
    · exact ⟨rfl, rfl, rfl, rfl⟩
  have hother : ∀ q, q ≠ p → s₁.mproc q = s.mproc q := fun q hq => by
    rw [hs₁, State.modify_mproc, if_neg hq]
  have hgrp : (s₁.mproc p).mpProcgrp = (s.mproc p).mpProcgrp := by
    rw [hs₁, State.modify_mproc, if_pos rfl]
  have hs' := hs.effect hmark
  have hlast : ∀ q, q ≠ p → (s₃.modify p fun m => { m with alarmOn := false }).mproc q = s₃.mproc q :=
    fun q hq => by rw [State.modify_mproc, if_neg hq]
  have hself : (s₃.modify p fun m => { m with alarmOn := false }).mproc p =
      { s₃.mproc p with alarmOn := false } := by rw [State.modify_mproc, if_pos rfl]
  have hquiet : Effect A B E W ([], s₃) ([], s₃.modify p fun m => { m with alarmOn := false }) :=
    .quiet p (quiet_alarm false)
  by_cases hw : (s₁.mproc (s₁.mproc p).mpParent).waiting = true
  · -- the parent is waiting, so it is not the one of INIT
    replace h₃ : cleanup NR_PROCS (s₁.noteExit p) p = some s₃ := by
      rw [← h₃]
      exact (if_pos hw).symm
    have hlt : INIT_PROC_NR < p := by
      refine lt_of_le_of_ne hp fun he => ?_
      have hpar : (s₁.mproc p).mpParent = MM_PROC_NR := he ▸ (hs'.system INIT_PROC_NR le_rfl).2
      rw [hpar] at hw
      exact absurd hw (by rw [(Mproc.suspended_eq_false.mp (hs'.managers MM_PROC_NR (by decide)).1).1]; decide)
    obtain ⟨s₂, hr, hdis⟩ := cleanup_cases (A := A) (B := B) (E := E) (W := W) _ (g := []) h₃ hlt
    have hreap : Effect A B E W ([], s₁) ([p], s₂) :=
      .exitReap hlt ((hsame p).1 ▸ hu) hw (fun a => (hsame p).2.1 ▸ hA a) hr
    have hdis := hdis (hs'.effect hreap)
    obtain ⟨t, -, rfl⟩ := release_eq hr
    have hlater : ∀ q, (s₁.mproc q).Later (s₃.mproc q) :=
      fun q => (released_later _ p t q).trans (hdis.later q)
    refine ⟨.head hmark (.head hreap (hdis.effects.tail hquiet)), fun q hq => ?_, ?_, ?_, hdis.mp⟩
    · rw [hlast q hq, ← hother q hq]
      exact hlater q
    · rw [hself, ← Bool.not_eq_true, Mproc.live_eq_true]
      rintro ⟨hu', -⟩
      have := (hdis.later p).inUse hu'
      simp [released, unflag] at this
    · rw [hself, (hlater p).rest]
      exact hgrp
  · replace h₃ : some ((s₁.noteExit p).modify p fun m => { m with hanging := true }) = some s₃ := by
      rw [← h₃]
      exact (if_neg hw).symm
    rw [Bool.not_eq_true] at hw
    obtain rfl := Option.some.inj h₃
    have hhang : Effect A B E W ([], s₁) ([], _) :=
      .hang hp ((hsame p).1 ▸ hu) hw (fun a => (hsame p).2.1 ▸ hA a) fun b => by
        rw [Bool.eq_false_iff]
        intro hw'
        rw [(hsame p).2.2.1] at hw'
        have := hB b hw'
        rw [(hsame p).2.2.2, (hsame _).2.2.1] at hw
        exact absurd (hw.symm.trans this) Bool.false_ne_true
    refine ⟨.head hmark (.head hhang (.single hquiet)), fun q hq => ?_, ?_, ?_, rfl⟩
    · rw [hlast q hq, State.modify_mproc, if_neg hq, noteExit_mproc, hother q hq]
      exact .refl _
    · rw [hself, State.modify_mproc, if_pos rfl]
      simp [Mproc.live]
    · rw [hself, State.modify_mproc, if_pos rfl]
      exact hgrp

/-- The WAIT call. -/
theorem doWait_effects {who : Proc} {r : Int} (hW : W who) (hs : Sound [] s) (hp : INIT_PROC_NR ≤ who)
    (hl : (s.mproc who).live = true) (hn : (s.mproc who).suspended = false)
    (ho : s.hist.owed who = true) (h : doWait s who = some (r, s')) :
    Effects A B E W ([], s) ([], s') := by
  unfold doWait at h
  dsimp only at h
  split at h
  · rename_i rp hf
    obtain ⟨s₁, hc, he⟩ := Option.map_eq_some_iff.mp h
    obtain ⟨-, rfl⟩ := Prod.mk.inj he
    have hmem := List.mem_of_find?_eq_some hf
    simp only [List.mem_filter, List.mem_finRange, true_and, decide_eq_true_eq] at hmem
    have hlt : INIT_PROC_NR < rp := by
      refine lt_of_not_ge fun hle => ?_
      rw [← hmem.2, (hs.system rp hle).2] at hp
      exact absurd hp (by decide)
    obtain ⟨s₂, hr, hdis⟩ := cleanup_cases (A := A) (B := B) (E := E) (W := W) _ (g := []) hc hlt
    have hh : (s.mproc rp).hanging = true := List.find?_some (p := fun rp => (s.mproc rp).hanging) hf
    have hreap : Effect A B E W ([], s) ([rp], s₂) := by
      refine .reap ?_ hlt hh ?_ ?_ ?_ hr
      · rw [hmem.2]
        exact hW
      · rw [hmem.2]
        exact hl
      · rw [hmem.2]
        exact hn
      · rw [hmem.2]
        exact ho
    exact .head hreap ((hdis (hs.effect hreap)).effects.tail (.vars _ _ _ hW))
  · rename_i hf
    have hno : ∀ p, (s.mproc p).mpParent = who → (s.mproc p).hanging = false := by
      intro p hpar
      rw [Bool.eq_false_iff]
      intro hh
      refine List.find?_eq_none.mp hf p ?_ hh
      simp only [List.mem_filter, List.mem_finRange, true_and, decide_eq_true_eq]
      exact ⟨hs.hanging p hh, hpar⟩
    split at h
    · obtain ⟨-, rfl⟩ := Prod.mk.inj (Option.some.inj h)
      exact .head (.wait hW hp hl hn ho hno) (.single (.vars _ _ _ hW))
    · obtain ⟨-, rfl⟩ := Prod.mk.inj (Option.some.inj h)
      exact .refl

/-- The FORK call. -/
theorem doFork_effects {who : Proc} {r : Int} (hW : W who) (hp : INIT_PROC_NR ≤ who)
    (hl : (s.mproc who).live = true) (hn : (s.mproc who).suspended = false)
    (h : doFork s who = some (r, s')) : Effects A B E W ([], s) ([], s') := by
  unfold doFork at h
  dsimp only at h
  split at h
  · obtain ⟨-, rfl⟩ := Prod.mk.inj (Option.some.inj h)
    exact .refl
  · rename_i hfull
    split at h
    · obtain ⟨-, rfl⟩ := Prod.mk.inj (Option.some.inj h)
      exact .refl
    · obtain ⟨⟨base, t⟩, ha, h⟩ := Option.bind_eq_some_iff.mp h
      dsimp only at h
      split at h
      · rename_i hb
        obtain ⟨-, rfl⟩ := Prod.mk.inj (Option.some.inj h)
        exact .single (.noMem hp (Mproc.live_eq_true.mp hl).1 (hb ▸ ha))
      · rename_i hb
        obtain ⟨child, hc, h⟩ := Option.bind_eq_some_iff.mp h
        obtain ⟨s₁, hpid, h⟩ := Option.bind_eq_some_iff.mp h
        obtain ⟨-, rfl⟩ := Prod.mk.inj (Option.some.inj h)
        exact .single (.fork hW hp hl hn hfull ha hb hc hpid)

/-- The EXEC call. -/
theorem doExec_effects {who : Proc} {a : ExecCall} {r : Int} (hp : INIT_PROC_NR ≤ who)
    (hl : (s.mproc who).live = true)
    (hE : ∀ im, execImage a = .ok im → roomFor s.table im = some OK → E s who)
    (h : doExec s who a = some (r, s')) : Effects A B E W ([], s) ([], s') := by
  unfold doExec at h
  split at h
  · obtain ⟨-, rfl⟩ := Prod.mk.inj (Option.some.inj h)
    exact .refl
  · rename_i im hi
    obtain ⟨⟨r₁, s₁⟩, hm, h⟩ := Option.bind_eq_some_iff.mp h
    dsimp only at h
    split at h
    · rename_i hne
      obtain ⟨-, rfl⟩ := Prod.mk.inj (Option.some.inj h)
      obtain ⟨rfl, -⟩ := newMem_fail hm hne
      exact .refl
    · rename_i hok
      obtain ⟨-, rfl⟩ := Prod.mk.inj (Option.some.inj h)
      obtain rfl := not_not.mp hok
      have hroom : roomFor s.table im = some OK := (newMem_ok hm).elim fun _ h => h.elim fun _ h =>
        h.elim fun _ h => h.1
      exact .single (.exec hp hl hi (hE im hi hroom) hm)

/-- A slot that is written as it was. -/
theorem State.modify_same (s : State) (p : Proc) : (s.modify p fun _ => s.mproc p) = s := by
  unfold State.modify
  rw [Function.update_eq_self]

/-! ## Signals -/

/-- A signal is caught, and there is room for it on the stack. -/
def Caught (m : Mproc) (sigNr sp : Nat) : Prop :=
  m.mpCatch &&& sigMask sigNr ≠ 0 ∧ (adjust m m.segD.memLen (subClicks sp 8)).1 = OK

instance (m : Mproc) (sigNr sp : Nat) : Decidable (Caught m sigNr sp) :=
  inferInstanceAs (Decidable (_ ∧ _))

/-- The signals to be caught have nothing to do with the segments. -/
theorem adjust_catch (m : Mproc) (x : BitVec 16) (d sp : Nat) :
    (adjust { m with mpCatch := x } d sp).1 = (adjust m d sp).1 := by
  unfold adjust growStack
  dsimp only
  by_cases h : sp / 16 < m.segS.memVir
  · simp only [if_pos h, apply_ite Prod.fst]
  · simp only [if_neg h, apply_ite Prod.fst]

/-- A process that is killed exits. -/
theorem sigKill_cases {p : Proc} {sigNr : Nat} {ans : Answers} (hs : Sound [] s)
    (hp : INIT_PROC_NR ≤ p) (hu : (s.mproc p).inUse = true) (hA : A → (s.mproc p).hanging = false)
    (hB : B → (s.mproc p).waiting = true → (s.mproc (s.mproc p).mpParent).waiting = true)
    (h : sigKill s p sigNr ans = some s') :
    Effects A B E W ([], s) ([], s') ∧ (∀ q, q ≠ p → (s.mproc q).Later (s'.mproc q)) ∧
      (s'.mproc p).live = false ∧ (s'.mproc p).mpProcgrp = (s.mproc p).mpProcgrp ∧ s'.mp = s.mp := by
  unfold sigKill at h
  set s₁ := s.modify p fun m => { m with mpSigstatus := sigStatus m sigNr (ans.core sigNr p) }
    with hs₁
  have hsame : ∀ q, (s₁.mproc q).inUse = (s.mproc q).inUse ∧
      (s₁.mproc q).hanging = (s.mproc q).hanging ∧ (s₁.mproc q).waiting = (s.mproc q).waiting ∧
      (s₁.mproc q).mpParent = (s.mproc q).mpParent ∧
      (s₁.mproc q).mpProcgrp = (s.mproc q).mpProcgrp := by
    intro q
    rw [hs₁, State.modify_mproc]
    split
    · rename_i he
      rw [he]
      exact ⟨rfl, rfl, rfl, rfl, rfl⟩
    · exact ⟨rfl, rfl, rfl, rfl, rfl⟩
  have hlive : A → (s.mproc p).live = true := fun a => Mproc.live_eq_true.mpr ⟨hu, hA a⟩
  have hmark : Effect A B E W ([], s) ([], s₁) := .mark (fun _ => rfl) hlive
  have hact : Effect A B E W ([], s₁) ([], s₁.noteAct .mmExit p) :=
    .act _ fun a => Mproc.live_eq_true.mpr ⟨(hsame p).1 ▸ hu, (hsame p).2.1 ▸ hA a⟩
  obtain ⟨he, hl, hd, hg, hm⟩ := mmExit_cases (A := A) (B := B) (E := E) (W := W) ((hs.effect hmark).effect hact) hp
    ((hsame p).1 ▸ hu) (fun a => (hsame p).2.1 ▸ hA a) (fun b hw => by
      rw [noteAct_mproc] at hw ⊢
      rw [(hsame p).2.2.1] at hw
      rw [(hsame p).2.2.2.1, (hsame _).2.2.1]
      exact hB b hw) h
  refine ⟨.head hmark (.head hact he), fun q hq => ?_, hd, hg.trans (hsame p).2.2.2.2, hm⟩
  have := hl q hq
  rwa [noteAct_mproc, hs₁, State.modify_mproc, if_neg hq] at this

/-- The attempt to catch a signal: the other slots stay, and so do the flags of this one. -/
theorem catchSig_cases {p : Proc} (sigNr newSp : Nat) (hp : INIT_PROC_NR ≤ p)
    (hu : (s.mproc p).inUse = true) (hA : A → (s.mproc p).live = true) :
    Effects A B E W ([], s) ([], (catchSig s p sigNr newSp).2) ∧
      (∀ q, q ≠ p → (catchSig s p sigNr newSp).2.mproc q = s.mproc q) ∧
      ((catchSig s p sigNr newSp).2.mproc p).flow = (s.mproc p).flow ∧
      ((catchSig s p sigNr newSp).2.mproc p).mpProcgrp = (s.mproc p).mpProcgrp ∧
      (catchSig s p sigNr newSp).2.mp = s.mp ∧
      (catchSig s p sigNr newSp).1 =
        (adjust (s.mproc p) (s.mproc p).segD.memLen (subClicks newSp 8)).1 := by
  unfold catchSig
  set f : Mproc → Mproc := fun m => { m with mpCatch := m.mpCatch &&& ~~~sigMask sigNr }
  set s₁ := s.modify p f with hs₁
  have h₁ : s₁.mproc p = f (s.mproc p) := by rw [hs₁, State.modify_mproc, if_pos rfl]
  have hquiet : Effect A B E W ([], s) ([], s₁) := .quiet p fun _ => rfl
  have hact : Effect A B E W ([], s₁) ([], s₁.noteAct .adjust p) :=
    .act _ fun a => by
      rw [h₁]
      exact hA a
  have hadj : Effect A B E W ([], s₁.noteAct .adjust p)
      ([], (s₁.noteAct .adjust p).modify p fun _ =>
        (adjust (s₁.mproc p) (s₁.mproc p).segD.memLen (subClicks newSp 8)).2) :=
    .adjusted hp (by rw [noteAct_mproc, h₁]; exact hu) (Or.inl rfl)
  refine ⟨.head hquiet (.head hact (.single hadj)), fun q hq => ?_, ?_, ?_, rfl, ?_⟩
  · dsimp only
    rw [State.modify_mproc, if_neg hq, noteAct_mproc, hs₁, State.modify_mproc, if_neg hq]
  · dsimp only
    rw [State.modify_mproc, if_pos rfl, adjust_eq, h₁]
    rfl
  · dsimp only
    rw [State.modify_mproc, if_pos rfl, adjust_eq, h₁]
  · dsimp only
    rw [h₁]
    exact adjust_catch _ _ _ _

/-- What `sig_proc` does to the other processes, and when it may be called. -/
theorem sigProc_cases {p : Proc} {sigNr : Nat} {ans : Answers} (hs : Sound [] s)
    (hp : INIT_PROC_NR ≤ p) (hA : A → (s.mproc p).hanging = false)
    (hB : B → (s.mproc p).waiting = true → Caught (s.mproc p) sigNr (ans.sp sigNr p) ∨
      (s.mproc (s.mproc p).mpParent).waiting = true)
    (h : sigProc s p sigNr ans = some s') :
    Effects A B E W ([], s) ([], s') ∧ (∀ q, q ≠ p → (s.mproc q).Later (s'.mproc q)) ∧
      (s'.mproc p).mpProcgrp = (s.mproc p).mpProcgrp ∧ s'.mp = s.mp := by
  unfold sigProc at h
  split at h
  · obtain rfl := Option.some.inj h
    exact ⟨.refl, fun _ _ => .refl _, rfl, rfl⟩
  · rename_i hu
    rw [not_not] at hu
    split at h
    · rename_i hc
      have hlive : A → (s.mproc p).live = true := fun a => Mproc.live_eq_true.mpr ⟨hu, hA a⟩
      obtain ⟨he, hq, hf, hg, hm, hok⟩ := catchSig_cases (A := A) (B := B) (E := E) (W := W) sigNr (ans.sp sigNr p) hp hu hlive
      set r := catchSig s p sigNr (ans.sp sigNr p)
      have hu' : (r.2.mproc p).inUse = (s.mproc p).inUse := congrArg (·.1) hf
      have hh' : (r.2.mproc p).hanging = (s.mproc p).hanging := congrArg (·.2.1) hf
      have hp' : (r.2.mproc p).mpParent = (s.mproc p).mpParent := congrArg (·.2.2.2.2) hf
      have hw' : ∀ q, (r.2.mproc q).waiting = (s.mproc q).waiting := fun q => by
        by_cases hqp : q = p
        · rw [hqp]
          exact congrArg (·.2.2.1) hf
        · rw [hq q hqp]
      by_cases h₁ : r.1 = OK
      · replace h : some (r.2.noteAct .sysSig p) = some s' := by
          rw [← h]
          exact (if_pos h₁).symm
        obtain rfl := Option.some.inj h
        have hact : Effect A B E W ([], r.2) ([], r.2.noteAct .sysSig p) :=
          .act _ fun a => by
            rw [Mproc.live_eq_true, hu', hh']
            exact Mproc.live_eq_true.mp (hlive a)
        exact ⟨he.tail hact, fun q hqp => by rw [noteAct_mproc, hq q hqp]; exact .refl _, hg, hm⟩
      · replace h : sigKill r.2 p sigNr ans = some s' := by
          rw [← h]
          exact (if_neg h₁).symm
        have hnc : ¬Caught (s.mproc p) sigNr (ans.sp sigNr p) := fun hc => h₁ (hok.trans hc.2)
        obtain ⟨he', hl, -, hg', hm'⟩ := sigKill_cases (A := A) (B := B) (E := E) (W := W) (hs.effects he) hp
          (hu' ▸ hu) (fun a => hh' ▸ hA a)
          (fun b hw => by
            rw [hw'] at hw ⊢
            rw [hp']
            exact (hB b hw).resolve_left hnc) h
        exact ⟨he.trans he', fun q hqp => hq q hqp ▸ hl q hqp, hg'.trans hg, hm'.trans hm⟩
    · rename_i hc
      have hnc : ¬Caught (s.mproc p) sigNr (ans.sp sigNr p) := fun h => hc h.1
      obtain ⟨he, hl, -, hg, hm⟩ := sigKill_cases (A := A) (B := B) (E := E) (W := W) hs hp hu hA
        (fun b hw => (hB b hw).resolve_left hnc) h
      exact ⟨he, hl, hg, hm⟩

/-- Like `Later`, and the timer may have been turned off too. -/
structure Mproc.Faded (m m' : Mproc) : Prop where
  later : m.Later { m' with alarmOn := m.alarmOn }
  alarm : m'.alarmOn = true → m.alarmOn = true

namespace Mproc.Faded

/-- A later slot is a faded one. -/
theorem of_later {m m' : Mproc} (h : m.Later m') : m.Faded m' := by
  have ha : m'.alarmOn = m.alarmOn := by rw [h.rest]
  exact ⟨by rw [← ha]; exact h, fun h' => ha ▸ h'⟩

/-- A slot that stays as it is. -/
theorem refl (m : Mproc) : m.Faded m := .of_later (.refl m)

/-- Two changes one after the other. -/
theorem trans {m₁ m₂ m₃ : Mproc} (h : m₁.Faded m₂) (h' : m₂.Faded m₃) : m₁.Faded m₃ := by
  refine ⟨h.later.trans ⟨?_, h'.later.inUse, h'.later.hanging, h'.later.waiting, h'.later.paused,
    h'.later.parent⟩, fun ha => h.alarm (h'.alarm ha)⟩
  exact congrArg (fun m => { m with alarmOn := m₁.alarmOn }) h'.later.rest

/-- What a signal depends on is as it was. -/
theorem fields {m m' : Mproc} (h : m.Faded m') : m'.mpEffuid = m.mpEffuid ∧ m'.mpPid = m.mpPid ∧
    m'.mpProcgrp = m.mpProcgrp ∧ m'.mpIgnore = m.mpIgnore ∧ m'.mpCatch = m.mpCatch := by
  have := h.later.rest
  exact ⟨congrArg (·.mpEffuid) this, congrArg (·.mpPid) this, congrArg (·.mpProcgrp) this,
    congrArg (·.mpIgnore) this, congrArg (·.mpCatch) this⟩

/-- So is whether it can be caught. -/
theorem caught {m m' : Mproc} (h : m.Faded m') {sigNr sp : Nat} :
    Caught m' sigNr sp ↔ Caught m sigNr sp := by
  have hr := h.later.rest
  have hT : m'.segT = m.segT := congrArg (·.segT) hr
  have hD : m'.segD = m.segD := congrArg (·.segD) hr
  have hS : m'.segS = m.segS := congrArg (·.segS) hr
  have hsep : m'.separate = m.separate := congrArg (·.separate) hr
  have hadj : ∀ d x, (adjust m' d x).1 = (adjust m d x).1 := by
    intro d x
    unfold adjust growStack
    dsimp only
    rw [hD, hS]
    by_cases hx : x / 16 < m.segS.memVir
    · simp only [if_pos hx, apply_ite Prod.fst, hT, hsep]
    · simp only [if_neg hx, apply_ite Prod.fst, hT, hsep]
  unfold Caught
  rw [h.fields.2.2.2.2, hadj, hD]

end Mproc.Faded

/-- `check_sig` goes on to `sig_proc` for this process. -/
def Reached (c : SigCall) (s : State) (p : Proc) : Prop :=
  (s.mproc p).inUse = true ∧ (c.sigNr = SIGALRM → (s.mproc p).alarmOn = true) ∧ c.sends s p = true

instance (c : SigCall) (s : State) (p : Proc) : Decidable (Reached c s p) :=
  inferInstanceAs (Decidable (_ ∧ _ ∧ _))

/-- A process that is reached, having changed only as others died, was reached before. -/
theorem Reached.before {c : SigCall} {p : Proc} (h : Reached c s' p)
    (hf : (s.mproc p).Faded (s'.mproc p)) (hm : s'.mp = s.mp)
    (hg : (s'.mproc s.mp).mpProcgrp = (s.mproc s.mp).mpProcgrp) :
    Reached c s p ∧ (s'.mproc p).hanging = (s.mproc p).hanging := by
  obtain ⟨hu, ha, hsend⟩ := h
  have hh : (s'.mproc p).hanging = (s.mproc p).hanging := hf.later.hanging hu
  obtain ⟨h₁, h₂, h₃, h₄, -⟩ := hf.fields
  refine ⟨⟨hf.later.inUse hu, fun h => hf.alarm (ha h), ?_⟩, hh⟩
  unfold SigCall.sends SigCall.sendSig at hsend ⊢
  simp only [decide_eq_true_eq, hm, hg, h₁, h₂, h₃, h₄, hh] at hsend ⊢
  exact hsend

/-- Others are not released. -/
theorem unpause_other {p q : Proc} (hq : q ≠ p) : (unpause s p).mproc q = s.mproc q := by
  unfold unpause
  dsimp only
  split
  · rw [State.reply_mproc, State.modify_mproc, if_neg hq]
  · split
    · rw [State.reply_mproc, State.modify_mproc, if_neg hq]
    · rfl

/-- The caller stays. -/
@[simp] theorem unpause_mp (s : State) (p : Proc) : (unpause s p).mp = s.mp := by
  unfold unpause
  dsimp only
  split
  · rw [State.reply_mp]
    rfl
  · split
    · rw [State.reply_mp]
      rfl
    · rfl

/-- A process that has not terminated does not wait any more. -/
theorem unpause_waiting {p : Proc} (hs : Sound g s)
    (hl : ((unpause s p).mproc p).live = true) : ((unpause s p).mproc p).waiting = false := by
  obtain ⟨w, u, he, hw, -⟩ := unpause_mproc s p p
  rw [he, Mproc.live_eq_true] at hl
  unfold unpause
  dsimp only
  split
  · rename_i hpa
    rw [State.reply_mproc, State.modify_mproc, if_pos rfl, Bool.eq_false_iff]
    intro hw'
    exact (nomatch (hs.single p hw').symm.trans hpa.1)
  · split
    · rw [State.reply_mproc, State.modify_mproc, if_pos rfl]
    · rename_i hwa
      rw [Bool.eq_false_iff]
      exact fun hw' => hwa ⟨hw', by rw [hl.2]; decide⟩

/-- What a round of signals leaves of those it has gone past: one that still waits has only
changed as others died. -/
structure Passed (l : List Proc) (s s' : State) : Prop where
  mp : s'.mp = s.mp
  procgrp : ∀ q, (s'.mproc q).mpProcgrp = (s.mproc q).mpProcgrp
  later : ∀ q, q ∉ l → (s.mproc q).Later (s'.mproc q)
  faded : ∀ q ∈ l, (s'.mproc q).live = true → (s'.mproc q).waiting = true →
    (s.mproc q).Faded (s'.mproc q)

/-- A loop that is over. -/
theorem Passed.nil (s : State) : Passed [] s s :=
  ⟨rfl, fun _ => rfl, fun _ _ => .refl _, fun _ h => (nomatch h)⟩

/-- One that has been gone past before, and what comes after it. -/
theorem Passed.cons {l : List Proc} {p : Proc} {s₁ : State} (h : Passed l s₁ s') (hp : p ∉ l)
    (hm : s₁.mp = s.mp) (hg : ∀ q, (s₁.mproc q).mpProcgrp = (s.mproc q).mpProcgrp)
    (hl : ∀ q, q ≠ p → (s.mproc q).Later (s₁.mproc q))
    (hf : (s₁.mproc p).live = true → (s₁.mproc p).waiting = true →
      (s.mproc p).Faded (s₁.mproc p)) : Passed (p :: l) s s' := by
  refine ⟨h.mp.trans hm, fun q => (h.procgrp q).trans (hg q), fun q hq => ?_, fun q hq hlive hw => ?_⟩
  · rw [List.mem_cons, not_or] at hq
    exact (hl q hq.1).trans (h.later q hq.2)
  · rcases List.mem_cons.mp hq with rfl | hq
    · have hlater := h.later q hp
      rw [Mproc.live_eq_true] at hlive
      refine (hf ?_ (hlater.waiting hw)).trans (.of_later hlater)
      rw [Mproc.live_eq_true, ← hlater.hanging hlive.1]
      exact ⟨hlater.inUse hlive.1, hlive.2⟩
    · by_cases he : q = p
      · exact absurd (he ▸ hq) hp
      · exact .trans (.of_later (hl q he)) (h.faded q hq hlive hw)

/-- Turning a timer off changes nothing else. -/
theorem timerOff_cases (s : State) (c : SigCall) (p : Proc) :
    Effects A B E W ([], s) ([], timerOff s c p) ∧ (timerOff s c p).mp = s.mp ∧
      (∀ q, (s.mproc q).Faded ((timerOff s c p).mproc q)) ∧
      ∀ q, q ≠ p → (timerOff s c p).mproc q = s.mproc q := by
  unfold timerOff
  split
  · refine ⟨.single (.quiet p (quiet_alarm false)), rfl, fun q => ?_, fun q hq => ?_⟩
    · rw [State.modify_mproc]
      split
      · rename_i he
        exact he ▸ ⟨⟨rfl, id, fun _ => rfl, id, id, Or.inl rfl⟩, fun h => (nomatch h)⟩
      · exact .refl _
    · rw [State.modify_mproc, if_neg hq]
  · exact ⟨.refl, rfl, fun _ => .refl _, fun _ _ => rfl⟩

/-- It says nothing of the life of a process. -/
theorem timerOff_flow (s : State) (c : SigCall) (p q : Proc) :
    ((timerOff s c p).mproc q).flow = (s.mproc q).flow := by
  unfold timerOff
  split
  · rw [State.modify_mproc]
    split
    · rename_i he
      rw [he]
      rfl
    · rfl
  · rfl

/-- What must hold of the processes that `check_sig` reaches: for `A`, that they have not
terminated; for `B`, that one that waits survives, or is reaped at once, alone. -/
structure Aimed (A B : Prop) (c : SigCall) (ans : Answers) (s : State) (p : Proc) : Prop where
  dead : A → Reached c s p → (s.mproc p).hanging = false
  waiting : B → Reached c s p → (s.mproc p).waiting = true →
    Caught (s.mproc p) c.sigNr (ans.sp c.sigNr p) ∨
      0 < c.procId ∧ (s.mproc (s.mproc p).mpParent).waiting = true

/-- The search of the process table for processes to signal. -/
theorem signalAll_effects {c : SigCall} {ans : Answers} {l : List Proc} {n n' : Nat}
    (hs : Sound [] s) (hl : ∀ p ∈ l, INIT_PROC_NR < p) (hd : l.Nodup)
    (haim : ∀ p ∈ l, Aimed A B c ans s p) (h : signalAll c ans l (s, n) = some (s', n')) :
    Effects A B E W ([], s) ([], s') ∧ Passed l s s' := by
  induction l generalizing s n with
  | nil =>
    obtain ⟨rfl, -⟩ := Prod.mk.inj (Option.some.inj h)
    exact ⟨.refl, .nil s⟩
  | cons p l ih =>
    obtain ⟨hp, hd⟩ := List.nodup_cons.mp hd
    have hl' : ∀ q ∈ l, INIT_PROC_NR < q := fun q hq => hl q (List.mem_cons_of_mem _ hq)
    have haim' : ∀ q ∈ l, Aimed A B c ans s q := fun q hq => haim q (List.mem_cons_of_mem _ hq)
    have hskip : ∀ {n₁ : Nat}, signalAll c ans l (s, n₁) = some (s', n') →
        Effects A B E W ([], s) ([], s') ∧ Passed (p :: l) s s' := by
      intro n₁ h
      obtain ⟨he, hpass⟩ := ih hs hl' hd haim' h
      exact ⟨he, hpass.cons hp rfl (fun _ => rfl) (fun _ _ => .refl _) fun _ _ => .refl _⟩
    rw [signalAll] at h
    split at h
    · exact hskip h
    · rename_i hu
      rw [not_not] at hu
      split at h
      · exact hskip h
      · rename_i halarm
        obtain ⟨het, hmt, hft, hot⟩ := timerOff_cases (A := A) (B := B) (E := E) (W := W) s c p
        have hst := hs.effects het
        have hgt : ∀ q, ((timerOff s c p).mproc q).mpProcgrp = (s.mproc q).mpProcgrp :=
          fun q => (hft q).fields.2.2.1
        have hpart : ∀ q, ((timerOff s c p).mproc q).mpParent = (s.mproc q).mpParent :=
          fun q => congrArg (·.2.2.2.2) (timerOff_flow s c p q)
        have hwt : ∀ q, ((timerOff s c p).mproc q).waiting = (s.mproc q).waiting :=
          fun q => congrArg (·.2.2.1) (timerOff_flow s c p q)
        split at h
        · -- not to be signalled
          refine (ih hst hl' hd (fun q hq => ?_) h).imp het.trans fun hpass =>
            hpass.cons hp hmt hgt (fun q hq => hot q hq ▸ .refl _) fun _ _ => hft p
          have hback := fun hr : Reached c (timerOff s c p) q => hr.before (hft q) hmt (hgt _)
          refine ⟨fun a hr => ?_, fun b hr hw => ?_⟩
          · rw [(hback hr).2]
            exact (haim' q hq).dead a (hback hr).1
          · rw [hwt] at hw
            rw [(hft q).caught, hpart, hwt]
            exact (haim' q hq).waiting b (hback hr).1 hw
        · rename_i hsend
          rw [not_not] at hsend
          obtain ⟨s₁, hsig, h⟩ := Option.bind_eq_some_iff.mp h
          have hreach : Reached c s p :=
            ⟨hu, fun ha => by_contra fun hn => halarm ⟨ha, hn⟩, hsend⟩
          have hht : ((timerOff s c p).mproc p).hanging = (s.mproc p).hanging :=
            congrArg (·.2.1) (timerOff_flow s c p p)
          obtain ⟨hes, hls, hgs, hms⟩ := sigProc_cases (A := A) (B := B) (E := E) (W := W) hst (hl p (List.mem_cons_self ..)).le
            (fun a => hht ▸ (haim p (List.mem_cons_self ..)).dead a hreach)
            (fun b hw => by
              rw [hwt] at hw
              rw [(hft p).caught, hpart, hwt]
              exact ((haim p (List.mem_cons_self ..)).waiting b hreach hw).imp id And.right) hsig
          have hes' := hes.tail (.unpause p)
          have hsu := hst.effects hes'
          have hlu : ∀ q, q ≠ p → (s.mproc q).Later ((unpause s₁ p).mproc q) := fun q hq => by
            rw [unpause_other hq, ← hot q hq]
            exact hls q hq
          have hgu : ∀ q, ((unpause s₁ p).mproc q).mpProcgrp = (s.mproc q).mpProcgrp := fun q => by
            by_cases hq : q = p
            · obtain ⟨w, u, he, -, -⟩ := unpause_mproc s₁ p q
              rw [he, hq, ← hgt p, ← hgs]
            · exact congrArg (·.mpProcgrp) (hlu q hq).rest
          have hmu : (unpause s₁ p).mp = s.mp := by rw [unpause_mp, hms, hmt]
          have hfu : ((unpause s₁ p).mproc p).live = true →
              ((unpause s₁ p).mproc p).waiting = true →
              (s.mproc p).Faded ((unpause s₁ p).mproc p) := fun hlive hw =>
            (nomatch (unpause_waiting (hst.effects hes) hlive).symm.trans hw)
          dsimp only at h
          split at h
          · -- the only one
            rename_i hone
            obtain ⟨rfl, -⟩ := Prod.mk.inj (Option.some.inj h)
            refine ⟨het.trans hes', ⟨hmu, hgu, fun q hq => ?_, fun q hq hlive hw => ?_⟩⟩
            · rw [List.mem_cons, not_or] at hq
              exact hlu q hq.1
            · by_cases he : q = p
              · subst he
                exact hfu hlive hw
              · exact .of_later (hlu q he)
          · rename_i hmany
            refine (ih hsu hl' hd (fun q hq => ?_) h).imp (het.trans hes').trans fun hpass =>
              hpass.cons hp hmu hgu hlu hfu
            have hne : q ≠ p := fun he => hp (he ▸ hq)
            have hfq := Mproc.Faded.of_later (hlu q hne)
            have hback := fun hr : Reached c (unpause s₁ p) q => hr.before hfq hmu (hgu _)
            refine ⟨fun a hr => ?_, fun b hr hw => Or.inl ?_⟩
            · rw [(hback hr).2]
              exact (haim' q hq).dead a (hback hr).1
            · rw [hfq.caught]
              exact ((haim' q hq).waiting b (hback hr).1 (hfq.later.waiting hw)).resolve_right
                fun hone => hmany hone.1

/-- Signals go to processes above INIT. -/
theorem mem_aboveInit (p : Proc) : p ∈ aboveInit ↔ INIT_PROC_NR < p := by
  revert p
  decide

/-- Each of them is visited once. -/
theorem nodup_aboveInit : aboveInit.Nodup := by decide

/-- A call of `check_sig`. -/
theorem checkSig_effects {c : SigCall} {ans : Answers} {r : Int} {u : Proc} (hu : W u)
    (hs : Sound [] s)
    (haim : ∀ p, INIT_PROC_NR < p → Aimed A B c ans s p)
    (h : checkSig s c ans = some (r, s')) :
    Effects A B E W ([], s) ([], s') ∧ Passed aboveInit s s' := by
  unfold checkSig at h
  split at h
  · obtain ⟨-, rfl⟩ := Prod.mk.inj (Option.some.inj h)
    exact ⟨.refl, rfl, fun _ => rfl, fun _ _ => .refl _, fun _ _ _ _ => .refl _⟩
  · obtain ⟨⟨s₁, n⟩, ha, he⟩ := Option.map_eq_some_iff.mp h
    obtain ⟨he₁, hpass⟩ := signalAll_effects (E := E) (W := W) hs (fun p hp => (mem_aboveInit p).mp hp)
      nodup_aboveInit (fun p hp => haim p ((mem_aboveInit p).mp hp)) ha
    obtain ⟨-, rfl⟩ := Prod.mk.inj he
    dsimp only
    split
    · exact ⟨he₁, hpass⟩
    · exact ⟨he₁.tail (.vars _ _ _ hu), hpass.mp, hpass.procgrp, hpass.later, hpass.faded⟩

/-- The kernel signals nobody who has terminated. -/
theorem ksigCall_live {procId i : Nat} {p : Proc} (h : Reached (ksigCall procId i) s p) :
    (s.mproc p).live = true := by
  obtain ⟨hu, -, hsend⟩ := h
  rw [Mproc.live_eq_true]
  refine ⟨hu, ?_⟩
  have hid : (ksigCall procId i).procId ≠ -1 := by
    unfold ksigCall
    dsimp only
    split <;> omega
  unfold SigCall.sends SigCall.sendSig at hsend
  simp only [decide_eq_true_eq] at hsend
  rcases hsend.1 with hsend | hsend
  · exact Bool.eq_false_iff.mpr hsend.2.2.1
  · exact absurd hsend.2 hid

/-- No kernel signal of the map kills a process that waits. -/
def SparesWaiting (s : State) (procId : Nat) (sigMap : BitVec 16) (ans : Answers)
    (l : List Nat) : Prop :=
  ∀ i ∈ l, sigMap.getLsbD i = true → ∀ p, INIT_PROC_NR < p → Reached (ksigCall procId i) s p →
    (s.mproc p).waiting = true → Caught (s.mproc p) (i + 1) (ans.sp (i + 1) p)

/-- The loop over the bit map of a kernel signal. -/
theorem ksigBits_effects {sigMap : BitVec 16} {procId : Nat} {ans : Answers} {l : List Nat}
    {u : Proc} (hu : W u) (hs : Sound [] s) (hB : B → SparesWaiting s procId sigMap ans l)
    (h : l.foldlM (ksigBit sigMap procId ans) s = some s') : Effects A B E W ([], s) ([], s') := by
  induction l generalizing s with
  | nil =>
    obtain rfl := Option.some.inj h
    exact .refl
  | cons i l ih =>
    rw [List.foldlM_cons] at h
    obtain ⟨s₁, hbit, h⟩ := Option.bind_eq_some_iff.mp h
    unfold ksigBit at hbit
    split at hbit
    · rename_i hi
      obtain ⟨⟨r, s₂⟩, hc, rfl⟩ := Option.map_eq_some_iff.mp hbit
      obtain ⟨he, hpass⟩ := checkSig_effects (A := A) (B := B) (E := E) (W := W) hu hs (fun p hp =>
        ⟨fun _ hr => (Mproc.live_eq_true.mp (ksigCall_live hr)).2, fun b hr hw =>
          Or.inl (hB b i (List.mem_cons_self ..) hi p hp hr hw)⟩) hc
      refine he.trans (ih (hs.effects he) (fun b j hj hbit p hp hr hw => ?_) h)
      have hf := hpass.faded p ((mem_aboveInit p).mpr hp) (ksigCall_live hr) hw
      have hback := hr.before hf hpass.mp (hpass.procgrp _)
      rw [hf.caught]
      exact hB b j (List.mem_cons_of_mem _ hj) hbit p hp hback.1 (hf.later.waiting hw)
    · obtain rfl := Option.some.inj hbit
      exact ih hs (fun b j hj => hB b j (List.mem_cons_of_mem _ hj)) h

/-- A stack fault. -/
theorem stackFault_effects {p : Proc} {ans : Answers} (hs : Sound [] s) (hp : INIT_PROC_NR ≤ p)
    (hl : (s.mproc p).live = true)
    (hB : B → (s.mproc p).waiting = true →
      (adjust (s.mproc p) (s.mproc p).segD.memLen (ans.sp STACK_FAULT p)).1 = OK)
    (h : stackFault s p ans = some s') : Effects A B E W ([], s) ([], s') := by
  unfold stackFault at h
  have hu := Mproc.live_eq_true.mp hl
  by_cases hok : (adjust (s.mproc p) (s.mproc p).segD.memLen (ans.sp STACK_FAULT p)).1 = OK
  · replace h := (if_pos hok).symm.trans h
    obtain rfl := Option.some.inj h
    exact .single (.adjusted hp hu.1 (Or.inl rfl))
  · replace h := (if_neg hok).symm.trans h
    rw [adjust_fail hok, State.modify_same] at h
    have hq : Effect A B E W ([], s) ([], s.modify p fun m => { m with mpCatch := 0 }) :=
      .quiet p fun _ => rfl
    obtain ⟨he, -⟩ := sigProc_cases (A := A) (B := B) (E := E) (W := W) (hs.effect hq) hp
      (fun _ => by rw [State.modify_mproc, if_pos rfl]; exact hu.2)
      (fun b hw => by
        rw [State.modify_mproc, if_pos rfl] at hw
        exact absurd (hB b hw) hok) h
    exact .head hq he

/-- A kernel signal kills nobody who waits. -/
def KsigSpares (s : State) (procNr : Proc) (sigMap : BitVec 16) (ans : Answers) : Prop :=
  (s.mproc procNr).live = true →
    if sigMap = sigMask STACK_FAULT then (s.mproc procNr).waiting = true →
      (adjust (s.mproc procNr) (s.mproc procNr).segD.memLen (ans.sp STACK_FAULT procNr)).1 = OK
    else SparesWaiting { s with mp := MM_PROC_NR } (s.mproc procNr).mpPid sigMap ans
      (List.range NR_SIGS)

/-- The signals of a message from the kernel or the file system. -/
theorem doKsig_effects {who : Option Proc} {p : Proc} {sigMap : BitVec 16} {ans : Answers} {r : Int}
    {u : Proc} (hu : W u) (hs : Sound [] s) (hp : INIT_PROC_NR ≤ p) (hB : B → KsigSpares s p sigMap ans)
    (h : doKsig s who p sigMap ans = some (r, s')) : Effects A B E W ([], s) ([], s') := by
  unfold doKsig at h
  dsimp only at h
  split at h
  · obtain ⟨-, rfl⟩ := Prod.mk.inj (Option.some.inj h)
    exact .refl
  · split at h
    · obtain ⟨-, rfl⟩ := Prod.mk.inj (Option.some.inj h)
      exact .refl
    · rename_i hl
      have hl : (s.mproc p).live = true := by
        rw [not_or, not_not, Bool.not_eq_true] at hl
        exact Mproc.live_eq_true.mpr hl
      have hv : Effect A B E W ([], s) ([], { s with mp := MM_PROC_NR }) := .vars _ _ _ hu
      split at h
      · rename_i hf
        obtain ⟨s₁, hsf, he⟩ := Option.map_eq_some_iff.mp h
        obtain ⟨-, rfl⟩ := Prod.mk.inj he
        refine .head hv (stackFault_effects (hs.effect hv) hp hl (fun b => ?_) hsf)
        have := hB b hl
        rwa [if_pos hf] at this
      · rename_i hf
        obtain ⟨s₁, hk, he⟩ := Option.map_eq_some_iff.mp h
        obtain ⟨-, rfl⟩ := Prod.mk.inj he
        refine .head hv ((ksigBits_effects hu (hs.effect hv) (fun b => ?_) hk).tail (.vars _ _ _ hu))
        have := hB b hl
        rwa [if_neg hf] at this

/-! ## The main loop -/

/-- The signal maps say nothing of the life of a process. -/
theorem SigFunc.quiet (f : SigFunc) (mask : BitVec 16) : Quiet (f.set mask) := by
  intro m
  cases f <;> rfl

/-- SIGNAL. -/
theorem doSignal_effects (who : Proc) (sig : Nat) (f : SigFunc) :
    Effects A B E W ([], s) ([], (doSignal s who sig f).2) := by
  unfold doSignal
  split
  · exact .refl
  · split
    · exact .refl
    · exact .single (.quiet who (f.quiet _))

/-- The calls for ids. -/
theorem doGetset_effects {u : Proc} (hu : W u) (who : Proc) (c : GetSet) :
    Effects A B E W ([], s) ([], (doGetset s who c).2) := by
  unfold doGetset
  cases c with
  | getuid => exact .single (.vars _ _ _ hu)
  | getgid => exact .single (.vars _ _ _ hu)
  | getpid => exact .single (.vars _ _ _ hu)
  | setuid usrId =>
    dsimp only
    split
    · exact .refl
    · exact .single (.quiet (f := fun m => { m with mpRealuid := usrId, mpEffuid := usrId }) who
        fun _ => rfl)
  | setgid grpid =>
    dsimp only
    split
    · exact .refl
    · exact .single (.quiet (f := fun m => { m with mpRealgid := grpid, mpEffgid := grpid }) who
        fun _ => rfl)

/-- A call of a process that runs. -/
theorem perform_effects {who : Proc} {c : MMCall} {r : Int} (hW : W who) (hs : Sound [] s)
    (hp : INIT_PROC_NR ≤ who) (hl : (s.mproc who).live = true)
    (hn : (s.mproc who).suspended = false) (ho : s.hist.owed who = true)
    (ha : ∀ pid killSig ans, c = .kill pid killSig ans → ∀ p, INIT_PROC_NR < p →
      Aimed A B ⟨pid, killSig, (s.mproc s.mp).mpEffuid⟩ ans s p)
    (hE : ∀ a im, c = .exec a → execImage a = .ok im → roomFor s.table im = some OK → E s who)
    (h : perform s who c = some (r, s')) : Effects A B E W ([], s) ([], s') := by
  have hu := Mproc.live_eq_true.mp hl
  cases c with
  | fork => exact doFork_effects hW hp hl hn h
  | exec a => exact doExec_effects hp hl (fun im => hE a im rfl) h
  | brk addr sp =>
    obtain ⟨-, rfl⟩ := Prod.mk.inj (Option.some.inj h)
    exact .single (.adjusted hp hu.1 (Or.inr (by omega)))
  | exit status =>
    obtain ⟨s₁, hx, he⟩ := Option.map_eq_some_iff.mp h
    obtain ⟨-, rfl⟩ := Prod.mk.inj he
    obtain ⟨he, -⟩ := mmExit_cases (A := A) (B := B) (E := E) (W := W) hs hp hu.1 (fun _ => hu.2)
      (fun _ hw => (nomatch (Mproc.suspended_eq_false.mp hn).1.symm.trans hw)) hx
    exact he.tail (.vars _ _ _ hW)
  | wait => exact doWait_effects hW hs hp hl hn ho h
  | kill pid killSig ans => exact (checkSig_effects hW hs (ha pid killSig ans rfl) h).1
  | signal sig f =>
    have h : doSignal s who sig f = (r, s') := Option.some.inj h
    have he : Effects A B E W ([], s) ([], (doSignal s who sig f).2) := doSignal_effects who sig f
    rwa [h] at he
  | alarm sec left =>
    obtain ⟨-, rfl⟩ := Prod.mk.inj (Option.some.inj h)
    exact .single (.quiet who (quiet_alarm _))
  | pause =>
    obtain ⟨-, rfl⟩ := Prod.mk.inj (Option.some.inj h)
    exact .head (.pause hW hp hl hn ho) (.single (.vars _ _ _ hW))
  | getset c =>
    have h : doGetset s who c = (r, s') := Option.some.inj h
    have he : Effects A B E W ([], s) ([], (doGetset s who c).2) := doGetset_effects hW who c
    rwa [h] at he
  | ksig procNr sigMap ans =>
    -- only kernel and FS may make this call
    have hne : some who ≠ none ∧ some who ≠ some FS_PROC_NR :=
      ⟨nofun, fun he => absurd (Option.some.inj he ▸ hp) (by decide)⟩
    obtain ⟨-, rfl⟩ := Prod.mk.inj (Option.some.inj ((if_pos hne).symm.trans h))
    exact .refl
  | other nr =>
    obtain ⟨-, rfl⟩ := Prod.mk.inj (Option.some.inj h)
    exact .refl

/-- Nothing but messages and the variables of the main loop are different. -/
structure SameTable (s s' : State) : Prop where
  mproc : s'.mproc = s.mproc
  table : s'.table = s.table
  procsInUse : s'.procsInUse = s.procsInUse
  nextPid : s'.nextPid = s.nextPid
  hist : { s'.hist with replies := s.hist.replies, owed := s.hist.owed } = s.hist

/-- A state that stays as it is. -/
theorem SameTable.refl (s : State) : SameTable s s := ⟨rfl, rfl, rfl, rfl, rfl⟩

/-- An answer leaves the table. -/
theorem reply_same (s : State) (p : Proc) (r x : Int) : SameTable s (s.reply p r x) := by
  refine ⟨State.reply_mproc .., State.reply_table .., State.reply_procsInUse ..,
    State.reply_nextPid .., ?_⟩
  rw [State.reply_hist]

/-- What is said of the table holds of the same table. -/
theorem Sound.same (h : Sound g s) (he : SameTable s s') : Sound g s' :=
  h.congr fun q => by rw [he.mproc]

/-- The answer to a call leaves the table. -/
theorem answer_same (s : State) (who : Proc) (isExec : Bool) (r : Int) :
    SameTable s (answer s who isExec r) := by
  unfold answer
  split
  · exact .refl s
  · split
    · exact ⟨rfl, rfl, rfl, rfl, rfl⟩
    · exact reply_same ..

/-- So does the answer to the hardware. -/
theorem answerHardware_same (s : State) (below : Bool) (r : Int) :
    SameTable s (answerHardware s below r) := by
  unfold answerHardware
  split
  · exact .refl s
  · exact ⟨rfl, rfl, rfl, rfl, rfl⟩

/-- The state once FS has reported: INIT, the system and the RAM disk are out of the memory map. -/
theorem boot_eq {t : HoleTable} {totMem : Nat} {b : Boot} (h : boot t totMem b = some s) :
    ∃ base t', allocMem (memInit t totMem) b.tot = some (base, t') ∧
      addClicks (addClicks b.initOrg (addClicks b.initText b.initData)) 32 / 64 +
        subClicks b.tot (addClicks b.initOrg (addClicks b.initText b.initData)) / 64 + 32 ≤
        totMem / 64 ∧
      s = ({ mmInit t totMem with table := t' } : State).modify INIT_PROC_NR (initSlot b) := by
  obtain ⟨⟨base, t'⟩, ha, h⟩ := Option.bind_eq_some_iff.mp h
  dsimp only at h
  split at h
  · cases h
  · exact ⟨base, t', ha, Nat.not_lt.mp ‹_›, (Option.some.inj h).symm⟩

/-- MM, FS and INIT are there at the start, all children of MM. -/
theorem boot_flow {t : HoleTable} {totMem : Nat} {b : Boot} (h : boot t totMem b = some s)
    (q : Proc) : (s.mproc q).flow = (decide (q ≤ INIT_PROC_NR), false, false, false, MM_PROC_NR) := by
  obtain ⟨base, t', -, -, rfl⟩ := boot_eq h
  rw [State.modify_mproc]
  split
  · rename_i he
    rw [he]
    rfl
  · rfl

/-- The table is sound at the start. -/
theorem Sound.boot {t : HoleTable} {totMem : Nat} {b : Boot} (h : boot t totMem b = some s) :
    Sound [] s := by
  have hq := boot_flow h
  simp only [Mproc.flow, Prod.mk.injEq] at hq
  refine ⟨fun p hp => ⟨?_, (hq p).2.2.2.2⟩, fun p _ => ⟨?_, (hq p).2.1⟩, fun p hp => ?_,
    fun p _ => (hq p).2.2.2.1, fun _ hp => (nomatch hp), fun p hlt hp => ?_⟩
  · rw [(hq p).1, decide_eq_true hp]
  · exact Mproc.suspended_eq_false.mpr ⟨(hq p).2.2.1, (hq p).2.2.2.1⟩
  · rw [(hq p).2.1] at hp
    cases hp
  · rw [(hq p).1] at hp
    exact absurd (of_decide_eq_true hp) (not_le.mpr hlt)

/-- Who sends what: a process that runs and is not waiting for an answer, or the kernel or the
file system with signals for a process that is not one of the managers. -/
def AsIssued (s : State) : Request → Prop
  | .call who c => INIT_PROC_NR ≤ who ∧ (s.mproc who).live = true ∧ (s.mproc who).suspended = false ∨
      who = FS_PROC_NR ∧ match c with
        | .ksig procNr _ _ => INIT_PROC_NR ≤ procNr
        | _ => False
  | .hardware procNr _ _ _ => INIT_PROC_NR ≤ procNr

/-- A process may call, or the file system if it sends signals as it should. -/
abbrev Issuing (s : State) (who : Proc) (signals : Prop) : Prop :=
  INIT_PROC_NR ≤ who ∧ (s.mproc who).live = true ∧ (s.mproc who).suspended = false ∨
    who = FS_PROC_NR ∧ signals

instance (s : State) : (r : Request) → Decidable (AsIssued s r)
  | .call who .fork => inferInstanceAs (Decidable (Issuing s who False))
  | .call who (.exec _) => inferInstanceAs (Decidable (Issuing s who False))
  | .call who (.brk _ _) => inferInstanceAs (Decidable (Issuing s who False))
  | .call who (.exit _) => inferInstanceAs (Decidable (Issuing s who False))
  | .call who .wait => inferInstanceAs (Decidable (Issuing s who False))
  | .call who (.kill _ _ _) => inferInstanceAs (Decidable (Issuing s who False))
  | .call who (.signal _ _) => inferInstanceAs (Decidable (Issuing s who False))
  | .call who (.alarm _ _) => inferInstanceAs (Decidable (Issuing s who False))
  | .call who .pause => inferInstanceAs (Decidable (Issuing s who False))
  | .call who (.getset _) => inferInstanceAs (Decidable (Issuing s who False))
  | .call who (.ksig procNr _ _) =>
    inferInstanceAs (Decidable (Issuing s who (INIT_PROC_NR ≤ procNr)))
  | .call who (.other _) => inferInstanceAs (Decidable (Issuing s who False))
  | .hardware procNr _ _ _ => inferInstanceAs (Decidable (INIT_PROC_NR ≤ procNr))

/-- What must hold of a message for `A` and for `B`: that no signal goes to the dead, and that none
kills a process that waits, unless it is reaped at once. -/
def Aims (A B : Prop) (s : State) : Request → Prop
  | .call who (.kill pid killSig ans) => ∀ p, INIT_PROC_NR < p →
      Aimed A B ⟨pid, killSig, (s.mproc who).mpEffuid⟩ ans { s with mp := who } p
  | .call who (.ksig procNr sigMap ans) => who = FS_PROC_NR → B → KsigSpares s procNr sigMap ans
  | .hardware procNr sigMap ans _ => B → KsigSpares s procNr sigMap ans
  | _ => True

instance [Decidable A] [Decidable B] (c : SigCall) (ans : Answers) (s : State) (p : Proc) :
    Decidable (Aimed A B c ans s p) :=
  decidable_of_iff ((A → Reached c s p → (s.mproc p).hanging = false) ∧
    (B → Reached c s p → (s.mproc p).waiting = true →
      Caught (s.mproc p) c.sigNr (ans.sp c.sigNr p) ∨
        0 < c.procId ∧ (s.mproc (s.mproc p).mpParent).waiting = true))
    ⟨fun h => ⟨h.1, h.2⟩, fun h => ⟨h.dead, h.waiting⟩⟩

instance (s : State) (procNr : Proc) (sigMap : BitVec 16) (ans : Answers) :
    Decidable (KsigSpares s procNr sigMap ans) := by
  unfold KsigSpares SparesWaiting
  infer_instance

instance [Decidable A] [Decidable B] (s : State) (r : Request) : Decidable (Aims A B s r) := by
  cases r with
  | call who c => cases c <;> unfold Aims <;> infer_instance
  | hardware procNr sigMap ans below => unfold Aims; infer_instance

/-- No condition on a request. -/
theorem aims_false (s : State) (r : Request) : Aims False False s r := by
  cases r with
  | call who c =>
    cases c with
    | kill pid killSig ans => exact fun _ _ => ⟨False.elim, False.elim⟩
    | ksig procNr sigMap ans => exact fun _ => False.elim
    | _ => trivial
  | hardware procNr sigMap ans below => exact False.elim

/-- An EXEC that goes through. -/
def Loads (s : State) (r : Request) (who : Proc) : Prop :=
  ∃ a im, r = .call who (.exec a) ∧ execImage a = .ok im ∧ roomFor s.table im = some OK

/-- A turn of the main loop. -/
theorem serve_effects {r : Request} (hs : Sound [] s) (hi : AsIssued s r) (ha : Aims A B s r)
    (hE : ∀ who s₁, SameTable s s₁ → Loads s r who → E s₁ who) (hW : ∀ who, W who)
    (h : serve s r = some s') :
    ∃ s₁ s₂, SameTable s s₁ ∧ Effects A B E W ([], s₁) ([], s₂) ∧ SameTable s₂ s' := by
  cases r with
  | call who c =>
    obtain ⟨⟨e, s₂⟩, hc, h⟩ := Option.bind_eq_some_iff.mp h
    obtain rfl := Option.some.inj h
    rcases hi with ⟨hp, hl, hn⟩ | ⟨rfl, hi⟩
    · have hne : who ≠ FS_PROC_NR := fun he => absurd (he ▸ hp) (by decide)
      rw [if_neg hne] at hc
      have hsame : SameTable s (({ s with mp := who, dontReply := false } : State).setOwed who true) :=
        ⟨rfl, rfl, rfl, rfl, rfl⟩
      refine ⟨_, s₂, hsame, perform_effects (hW who) (hs.same hsame) hp hl hn (Function.update_self ..) ?_
        (fun a im hx hi hroom => hE who _ hsame ⟨a, im, hx ▸ rfl, hi, hroom⟩) hc, answer_same ..⟩
      rintro pid killSig ans rfl p hp'
      exact ⟨(ha p hp').dead, (ha p hp').waiting⟩
    · rw [if_pos rfl] at hc
      have hsame : SameTable s { s with mp := FS_PROC_NR, dontReply := false } :=
        ⟨rfl, rfl, rfl, rfl, rfl⟩
      cases c with
      | ksig procNr sigMap ans =>
        exact ⟨_, s₂, hsame, doKsig_effects (hW FS_PROC_NR) (hs.same hsame) hi (ha rfl) hc, answer_same ..⟩
      | _ => exact hi.elim
  | hardware procNr sigMap ans below =>
    obtain ⟨⟨e, s₂⟩, hc, h⟩ := Option.bind_eq_some_iff.mp h
    obtain rfl := Option.some.inj h
    have hsame : SameTable s { s with dontReply := false } := ⟨rfl, rfl, rfl, rfl, rfl⟩
    exact ⟨_, s₂, hsame, doKsig_effects (hW MM_PROC_NR) (hs.same hsame) hi ha hc, answerHardware_same ..⟩

end Minix.MM
