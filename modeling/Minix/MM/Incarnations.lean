import Minix.Lib.Run
import Minix.MM.Calls

/-!
# The dead stay dead

A slot is used by one process after the other, and `mm_exit` is to run once for each.
Only a signal can reach a process that has terminated: a superuser who signals
everybody is let past the test for it.
-/

namespace Minix.MM

open Function Transition

/-- The processes in use are different ones, and those that have not terminated are not among those
that have. -/
structure Incarnate (s : State) : Prop where
  births : ∀ p, (s.mproc p).inUse = true → s.hist.born p < s.hist.births
  distinct : ∀ p q, (s.mproc p).inUse = true → (s.mproc q).inUse = true →
    s.hist.born p = s.hist.born q → p = q
  exited : ∀ x ∈ s.hist.exits, x.born < s.hist.births
  fresh : ∀ p, (s.mproc p).live = true → ∀ x ∈ s.hist.exits, x.born ≠ s.hist.born p
  nodup : (s.hist.exits.map Exit.born).Nodup
  acts : ∀ a ∈ s.hist.acts, a.live = true

namespace Incarnate

variable {s s' : State}

/-- Processes may only terminate, and none is made. -/
theorem mono (h : Incarnate s) (hu : ∀ q, (s'.mproc q).inUse = true → (s.mproc q).inUse = true)
    (hl : ∀ q, (s'.mproc q).live = true → (s.mproc q).live = true)
    (hbirths : s'.hist.births = s.hist.births) (hborn : s'.hist.born = s.hist.born)
    (hexits : s'.hist.exits = s.hist.exits) (hacts : s'.hist.acts = s.hist.acts) :
    Incarnate s' := by
  refine ⟨fun p hp => ?_, fun p q hp hq he => ?_, fun x hx => ?_, fun p hp x hx => ?_, ?_, ?_⟩
  · rw [hborn, hbirths]
    exact h.births p (hu p hp)
  · rw [hborn] at he
    exact h.distinct p q (hu p hp) (hu q hq) he
  · rw [hexits] at hx
    rw [hbirths]
    exact h.exited x hx
  · rw [hexits] at hx
    rw [hborn]
    exact h.fresh p (hl p hp) x hx
  · rw [hexits]
    exact h.nodup
  · rw [hacts]
    exact h.acts

/-- A change that leaves every process where it is. -/
theorem congr (h : Incarnate s) (hm : ∀ q, (s'.mproc q).flow = (s.mproc q).flow)
    (hbirths : s'.hist.births = s.hist.births) (hborn : s'.hist.born = s.hist.born)
    (hexits : s'.hist.exits = s.hist.exits) (hacts : s'.hist.acts = s.hist.acts) :
    Incarnate s' := by
  have hu : ∀ q, (s'.mproc q).inUse = (s.mproc q).inUse := fun q => congrArg (·.1) (hm q)
  have hh : ∀ q, (s'.mproc q).hanging = (s.mproc q).hanging := fun q => congrArg (·.2.1) (hm q)
  refine h.mono (fun q hq => by rwa [hu] at hq) (fun q hq => ?_) hbirths hborn hexits hacts
  rw [Mproc.live_eq_true, hu, hh] at hq
  exact Mproc.live_eq_true.mpr hq

/-- A process that has not terminated does so, and nothing is left but processes there were
before. -/
theorem exit (h : Incarnate s) {p : Proc} (hp : (s.mproc p).live = true) {st : Nat}
    (hu : ∀ q, (s'.mproc q).inUse = true → (s.mproc q).inUse = true)
    (hl : ∀ q, (s'.mproc q).live = true → q ≠ p ∧ (s.mproc q).live = true)
    (hbirths : s'.hist.births = s.hist.births) (hborn : s'.hist.born = s.hist.born)
    (hexits : s'.hist.exits = ⟨s.hist.born p, st⟩ :: s.hist.exits)
    (hacts : s'.hist.acts = s.hist.acts) : Incarnate s' := by
  have hpu := (Mproc.live_eq_true.mp hp).1
  refine ⟨fun q hq => ?_, fun q r hq hr he => ?_, fun x hx => ?_, fun q hq x hx => ?_, ?_, ?_⟩
  · rw [hborn, hbirths]
    exact h.births q (hu q hq)
  · rw [hborn] at he
    exact h.distinct q r (hu q hq) (hu r hr) he
  · rw [hexits] at hx
    rw [hbirths]
    rcases List.mem_cons.mp hx with rfl | hx
    · exact h.births p hpu
    · exact h.exited x hx
  · obtain ⟨hne, hq⟩ := hl q hq
    rw [hexits] at hx
    rw [hborn]
    rcases List.mem_cons.mp hx with rfl | hx
    · exact fun he => hne (h.distinct p q hpu (Mproc.live_eq_true.mp hq).1 he).symm
    · exact h.fresh q hq x hx
  · rw [hexits, List.map_cons, List.nodup_cons]
    refine ⟨fun hx => ?_, h.nodup⟩
    obtain ⟨x, hx, he⟩ := List.mem_map.mp hx
    exact h.fresh p hp x hx he
  · rw [hacts]
    exact h.acts

/-- A slot is taken by a new process. -/
theorem birth (h : Incarnate s) {child : Proc}
    (hm : ∀ q, q ≠ child → s'.mproc q = s.mproc q)
    (hbirths : s'.hist.births = s.hist.births + 1)
    (hborn : s'.hist.born = update s.hist.born child s.hist.births)
    (hexits : s'.hist.exits = s.hist.exits) (hacts : s'.hist.acts = s.hist.acts) :
    Incarnate s' := by
  have hold : ∀ q, q ≠ child → s'.hist.born q = s.hist.born q := by
    intro q hq
    rw [hborn, update_of_ne hq]
  have hnew : s'.hist.born child = s.hist.births := by rw [hborn, update_self]
  have hlt : ∀ q, q ≠ child → (s'.mproc q).inUse = true → s'.hist.born q < s.hist.births := by
    intro q hq hqu
    rw [hm q hq] at hqu
    rw [hold q hq]
    exact h.births q hqu
  refine ⟨fun q hq => ?_, fun q r hq hr he => ?_, fun x hx => ?_, fun q hq x hx => ?_, ?_, ?_⟩
  · rw [hbirths]
    by_cases hqc : q = child
    · rw [hqc, hnew]
      exact Nat.lt_succ_self _
    · exact (hlt q hqc hq).trans (Nat.lt_succ_self _)
  · by_cases hqc : q = child
    · by_cases hrc : r = child
      · rw [hqc, hrc]
      · have := hlt r hrc hr
        rw [← he, hqc, hnew] at this
        exact absurd this (lt_irrefl _)
    · by_cases hrc : r = child
      · have := hlt q hqc hq
        rw [he, hrc, hnew] at this
        exact absurd this (lt_irrefl _)
      · rw [hold q hqc, hold r hrc] at he
        rw [hm q hqc] at hq
        rw [hm r hrc] at hr
        exact h.distinct q r hq hr he
  · rw [hexits] at hx
    rw [hbirths]
    exact (h.exited x hx).trans (Nat.lt_succ_self _)
  · rw [hexits] at hx
    by_cases hqc : q = child
    · rw [hqc, hnew]
      exact (h.exited x hx).ne
    · rw [hm q hqc] at hq
      rw [hold q hqc]
      exact h.fresh q hq x hx
  · rw [hexits]
    exact h.nodup
  · rw [hacts]
    exact h.acts

/-- A released slot is in use no more. -/
theorem released (h : Incarnate s) (p : Proc) (t : HoleTable) : Incarnate (released s p t) :=
  h.mono (fun _ hq => (released_use.mp hq).2) (fun _ hq => (released_live.mp hq).2) rfl rfl rfl rfl

/-- A process is let go from PAUSE or WAIT. -/
theorem unpause (h : Incarnate s) (p : Proc) : Incarnate (unpause s p) := by
  obtain ⟨-, -, -, r, o, hh⟩ := unpause_rest s p
  refine h.mono (fun q hq => ?_) (fun q hq => ?_) (by rw [hh]) (by rw [hh]) (by rw [hh])
    (by rw [hh])
  all_goals
    obtain ⟨w, u, he, -⟩ := unpause_mproc s p q
    rwa [he] at hq

/-- A process comes to wait or to pause. -/
theorem suspend (h : Incarnate s) {p : Proc} {f : Mproc → Mproc}
    (hu : (f (s.mproc p)).inUse = (s.mproc p).inUse)
    (hh : (f (s.mproc p)).hanging = (s.mproc p).hanging) : Incarnate (s.modify p f) := by
  have hm : ∀ q, ((s.modify p f).mproc q).inUse = (s.mproc q).inUse ∧
      ((s.modify p f).mproc q).hanging = (s.mproc q).hanging := by
    intro q
    rw [State.modify_mproc]
    split
    · rename_i he
      rw [he]
      exact ⟨hu, hh⟩
    · exact ⟨rfl, rfl⟩
  refine h.mono (fun q hq => (hm q).1 ▸ hq) (fun q hq => ?_) rfl rfl rfl rfl
  rw [Mproc.live_eq_true, (hm q).1, (hm q).2] at hq
  exact Mproc.live_eq_true.mpr hq

theorem fork (h : Incarnate s) {who child : Proc} {base n : Nat} {t : HoleTable}
    (hpid : assignPid child n (placeChild s who child t base) = some s') :
    Incarnate (s'.reply child 0 0) := by
  obtain ⟨pid, hm, -, -, -, -, hhist⟩ := forkedState_mproc hpid
  refine @birth s _ h child (fun q hq => ?_) ?_ ?_ ?_ ?_
  · rw [State.reply_mproc, hm, if_neg hq]
  all_goals
    rw [State.reply_hist, hhist]
    rfl

/-- Every effect keeps the processes apart, if no signal goes to the dead. -/
theorem effect {A B : Prop} {E : State → Proc → Prop} {W : Proc → Prop} {x y : List Proc × State}
    (h : Incarnate x.2) (hA : A) (hs : Sound x.1 x.2) (he : Effect A B E W x y) : Incarnate y.2 := by
  cases he with
  | quiet p hf => exact h.congr (modify_flow (hf.flow _)) rfl rfl rfl rfl
  | vars mp d r hW => exact h.congr (fun _ => rfl) rfl rfl rfl rfl
  | @adjusted g s p d sp hp hu hd =>
    have hf : (adjust (s.mproc p) d sp).2.flow = (s.mproc p).flow := adjust_flow _ _ _
    exact h.congr (modify_flow (f := fun _ => (adjust (s.mproc p) d sp).2) hf) rfl rfl rfl rfl
  | @act g s p d hl =>
    refine ⟨h.births, h.distinct, h.exited, h.fresh, h.nodup, fun a ha => ?_⟩
    rcases List.mem_cons.mp ha with rfl | ha
    · exact hl hA
    · exact h.acts a ha
  | mark hf hl => exact h.congr (modify_flow (hf.flow _)) rfl rfl rfl rfl
  | @hang g s p hp hu hw hl hB =>
    have hm : ∀ q, (((s.noteExit p).modify p fun m => { m with hanging := true }).mproc q) =
        if q = p then { s.mproc p with hanging := true } else s.mproc q :=
      fun q => State.modify_mproc ..
    refine h.exit (Mproc.live_eq_true.mpr ⟨hu, hl hA⟩) (fun q hq => ?_) (fun q hq => ?_)
      rfl rfl rfl rfl
    · rw [hm] at hq
      split at hq
      · rename_i he
        rw [he]
        exact hu
      · exact hq
    · rw [hm] at hq
      split at hq
      · simp [Mproc.live] at hq
      · rename_i hne
        exact ⟨hne, hq⟩
  | @exitReap s s' p hp hu hw hl hr =>
    obtain ⟨t, -, rfl⟩ := release_eq hr
    have hp : (s.mproc p).live = true := Mproc.live_eq_true.mpr ⟨hu, hl hA⟩
    refine h.exit hp (fun q hq => ?_) (fun q hq => ?_) rfl rfl rfl rfl
    · exact (released_use (s := s.noteExit p) (t := t).mp hq).2
    · exact released_live (s := s.noteExit p) (t := t).mp hq
  | reap hW hp hh hl hn ho hr =>
    obtain ⟨t, -, rfl⟩ := release_eq hr
    exact h.released _ t
  | adopt hc hpar hh =>
    refine h.mono (fun q hq => ?_) (fun q hq => ?_) rfl rfl rfl rfl
    · exact (adopt_later _ _ q).inUse hq
    · exact (adopt_later _ _ q).live hq
  | adoptReap hc hpar hh hw hr =>
    obtain ⟨t, -, rfl⟩ := release_eq hr
    refine h.mono (fun q hq => ?_) (fun q hq => ?_) rfl rfl rfl rfl
    · exact (adopt_later _ _ q).inUse (released_use.mp hq).2
    · exact (adopt_later _ _ q).live (released_live.mp hq).2
  | settle hc => exact h
  | unpause p => exact MM.Incarnate.unpause h p
  | wait hW hp hl hn ho hc => exact h.suspend (f := fun m => { m with waiting := true }) rfl rfl
  | pause hW hp hl hn ho => exact h.suspend (f := fun m => { m with paused := true }) rfl rfl
  | noMem hp hu ha => exact h.congr (fun _ => rfl) rfl rfl rfl rfl
  | fork hW hp hl hn hfull ha hb hc hpid => exact h.fork hpid
  | exec hp hl hi hE hm =>
    obtain ⟨t₁, base, t₂, -, -, -, -, hs'⟩ := newMem_ok hm
    refine h.congr (exec_flow hm) ?_ ?_ ?_ ?_
    all_goals
      rw [hs']
      rfl

theorem effects {A B : Prop} {E : State → Proc → Prop} {W : Proc → Prop} {x y : List Proc × State}
    (h : Incarnate x.2) (hA : A) (hs : Sound x.1 x.2) (he : Effects A B E W x y) :
    Incarnate y.2 := by
  induction he with
  | refl => exact h
  | tail he₁ he ih => exact ih.effect hA (hs.effects he₁) he

theorem same (h : Incarnate s) (he : SameTable s s') : Incarnate s' :=
  h.congr (fun q => by rw [he.mproc]) (congrArg (·.births) he.hist :) (congrArg (·.born) he.hist :)
    (congrArg (·.exits) he.hist :) (congrArg (·.acts) he.hist :)

/-- The processes that the system starts with. -/
theorem boot {t : HoleTable} {totMem : Nat} {b : Boot} (h : boot t totMem b = some s) :
    Incarnate s := by
  have hq := boot_flow h
  simp only [Mproc.flow, Prod.mk.injEq] at hq
  obtain ⟨base, t', -, -, rfl⟩ := boot_eq h
  refine ⟨fun p hp => ?_, fun p q _ _ he => Fin.ext he, fun _ hx => absurd hx List.not_mem_nil,
    fun _ _ _ hx => absurd hx List.not_mem_nil, List.nodup_nil,
    fun _ ha => absurd ha List.not_mem_nil⟩
  rw [(hq p).1] at hp
  exact Nat.lt_succ_of_le (of_decide_eq_true hp)

end Incarnate

/-- `mm_exit` has not run twice for any process, and `sig_proc` has done nothing to a process that
had terminated. -/
structure DeadStayDead (s : State) : Prop where
  exits : (s.hist.exits.map Exit.born).Nodup
  acts : ∀ a ∈ s.hist.acts, a.live = true

/-- In every run in which no signal is let past the test for the dead, they stay dead. -/
theorem dead_stay_dead {t : HoleTable} {totMem : Nat} {b : Boot} {s : State}
    (hr : Reach serve (fun s r => AsIssued s r ∧ Aims True False s r)
      (fun s => boot t totMem b = some s) s) : DeadStayDead s := by
  have hinv : Sound [] s ∧ Incarnate s := by
    refine hr.invariant (fun s => Sound [] s ∧ Incarnate s) (fun s hs => ⟨.boot hs, .boot hs⟩) ?_
    rintro s r s' ⟨hs, h⟩ ⟨hi, ha⟩ he
    obtain ⟨s₁, s₂, hsame₁, heff, hsame₂⟩ :=
      serve_effects (E := fun _ _ => True) (W := fun _ => True) hs hi ha (fun _ _ _ _ => trivial)
        (fun _ => trivial) he
    have hs₁ := hs.same hsame₁
    exact ⟨(hs₁.effects heff).same hsame₂, ((h.same hsame₁).effects trivial hs₁ heff).same hsame₂⟩
  exact ⟨hinv.2.nodup, hinv.2.acts⟩

/-- What the kernel and the file system answer: no stack is ever in the way, and no core image is
written. -/
private def noCore : Answers := ⟨fun _ _ => 0, fun _ _ => false⟩

/-- A child that has been killed is not reached by a signal to its group. -/
theorem dead_stay_dead_example :
    ∃ s, ((boot blankHoles 4096 ⟨0, 5, 105, 100⟩).bind fun s =>
        run serve (fun s r => AsIssued s r ∧ Aims True False s r) s
          [.call 2 .fork, .call 2 .fork, .call 2 (.kill 4 SIGKILL noCore),
            .call 2 (.kill 0 SIGALRM noCore), .call 4 (.kill 0 SIGINT noCore)]) = some s ∧
      s.hist.exits.map Exit.born = [4, 3] ∧ DeadStayDead s := by
  refine ⟨_, rfl, rfl, ?_⟩
  have hr : Reach serve (fun s r => AsIssued s r ∧ Aims True False s r)
      (fun s => boot blankHoles 4096 ⟨0, 5, 105, 100⟩ = some s) _ :=
    Reach.of_run (.init rfl) (l := [.call 2 .fork, .call 2 .fork,
      .call 2 (.kill 4 SIGKILL noCore), .call 2 (.kill 0 SIGALRM noCore),
      .call 4 (.kill 0 SIGINT noCore)]) rfl
  exact dead_stay_dead hr

/-- A superuser who signals everybody makes a child that has exited do so again. -/
theorem dead_stay_dead_counterexample :
    ∃ s, Reach serve AsIssued (fun s => boot blankHoles 4096 ⟨0, 5, 105, 100⟩ = some s) s ∧
      ¬(s.hist.exits.map Exit.born).Nodup ∧ ¬∀ a ∈ s.hist.acts, a.live = true := by
  have hr : Reach serve AsIssued (fun s => boot blankHoles 4096 ⟨0, 5, 105, 100⟩ = some s) _ :=
    Reach.of_run (.init rfl) (l := [.call 2 .fork, .call 3 (.exit 0),
      .call 2 (.kill (-1) SIGINT noCore)]) rfl
  refine ⟨_, hr, ?_, fun h => (nomatch h _ (List.mem_cons_self ..))⟩
  show ¬[3, 3].Nodup
  decide

end Minix.MM
