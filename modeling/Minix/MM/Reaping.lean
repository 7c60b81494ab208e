import Minix.MM.Incarnations
import Minix.MM.Pids

/-!
# Every process that terminates is reaped once

A process that has terminated hangs until its parent waits for it, and is INIT's
when the parent is gone. This relies on a waiting parent being alive: a process
that is killed while it waits keeps the flag, and what its children have to tell
goes to nobody.
-/

namespace Minix.MM

open Function Transition

/-- The process has terminated. -/
def Ended (s : State) (n : Nat) : Prop := ∃ x ∈ s.hist.exits, x.born = n

/-- A process that waits has not terminated. -/
def WaitersLive (s : State) : Prop :=
  ∀ p, (s.mproc p).waiting = true → (s.mproc p).inUse = true → (s.mproc p).hanging = false

/-- The processes that have terminated and those that were reaped are accounted for, when the
children of the slots in `g` are still to be disinherited. -/
structure Accounted (g : List Proc) (s : State) : Prop where
  line : ∀ q, INIT_PROC_NR < q → (s.mproc q).inUse = true →
    s.hist.born (s.mproc q).mpParent = s.hist.father q ∨
      (s.mproc q).mpParent = INIT_PROC_NR ∧ Ended s (s.hist.father q)
  younger : ∀ q, INIT_PROC_NR < q → (s.mproc q).inUse = true → s.hist.father q < s.hist.born q
  ended : ∀ c ∈ g, Ended s (s.hist.born c)
  status : ∀ p, (s.mproc p).hanging = true → ⟨s.hist.born p, (s.mproc p).status⟩ ∈ s.hist.exits
  kept : ∀ x ∈ s.hist.exits, (∃ r ∈ s.hist.reaps, r.born = x.born) ∨
    ∃ p, (s.mproc p).inUse = true ∧ s.hist.born p = x.born
  once : (s.hist.reaps.map Reap.born).Nodup
  known : ∀ r ∈ s.hist.reaps, ⟨r.born, r.status⟩ ∈ s.hist.exits
  left : ∀ p, (s.mproc p).inUse = true → ∀ r ∈ s.hist.reaps, r.born ≠ s.hist.born p
  sent : ∀ r ∈ s.hist.reaps, r.sent = true ∧
    if r.orphan then r.dest = INIT_PROC_NR else r.destBorn = r.father

namespace WaitersLive

variable {s s' : State}

/-- A change by which nobody comes to wait, and nobody who waits terminates. -/
theorem mono (h : WaitersLive s) (hm : ∀ q, (s'.mproc q).waiting = true →
    (s'.mproc q).inUse = true → (s.mproc q).waiting = true ∧ (s.mproc q).inUse = true ∧
      ((s.mproc q).hanging = false → (s'.mproc q).hanging = false)) : WaitersLive s' := by
  intro q hw hu
  obtain ⟨hw', hu', hh⟩ := hm q hw hu
  exact hh (h q hw' hu')

theorem congr (h : WaitersLive s) (hm : ∀ q, (s'.mproc q).flow = (s.mproc q).flow) :
    WaitersLive s' := by
  refine h.mono fun q hw hu => ?_
  have hq := hm q
  simp only [Mproc.flow, Prod.mk.injEq] at hq
  rw [hq.2.2.1] at hw
  rw [hq.1] at hu
  rw [hq.2.1]
  exact ⟨hw, hu, id⟩

theorem released (h : WaitersLive s) (p : Proc) (t : HoleTable) :
    WaitersLive (released s p t) := by
  refine h.mono fun q hw hu => ⟨(released_waiting.mp hw).2, (released_use.mp hu).2, fun hh => ?_⟩
  rw [Bool.eq_false_iff]
  exact fun hq => (nomatch hh.symm.trans (released_hanging.mp hq).2)

theorem hang (h : WaitersLive s) {p : Proc} (hp : (s.mproc p).waiting = false) :
    WaitersLive (s.modify p fun m => { m with hanging := true }) := by
  refine h.mono fun q hw hu => ?_
  rw [State.modify_mproc] at hw hu ⊢
  split at hw
  · exact (nomatch hp.symm.trans hw)
  · rename_i hne
    rw [if_neg hne] at hu ⊢
    exact ⟨hw, hu, id⟩

theorem adopt (h : WaitersLive s) (p : Proc) : WaitersLive (adopt s p) := by
  refine h.mono fun q hw hu => ?_
  have hl := adopt_later s p q
  exact ⟨hl.waiting hw, hl.inUse hu, fun hh => (hl.hanging hu).trans hh⟩

theorem suspend (h : WaitersLive s) {who : Proc} (hl : (s.mproc who).live = true) {f : Mproc → Mproc}
    (hf : (f (s.mproc who)).hanging = (s.mproc who).hanging) : WaitersLive (s.modify who f) := by
  intro q hw hu
  rw [State.modify_mproc] at hw hu ⊢
  split
  · rw [hf]
    exact (Mproc.live_eq_true.mp hl).2
  · rename_i hne
    rw [if_neg hne] at hw hu
    exact h q hw hu

theorem unpause (h : WaitersLive s) (p : Proc) : WaitersLive (unpause s p) := by
  refine h.mono fun q hw hu => ?_
  obtain ⟨w, u, he, hw', -⟩ := unpause_mproc s p q
  rw [he] at hw hu ⊢
  exact ⟨hw' hw, hu, id⟩

theorem fork (h : WaitersLive s) {who child : Proc} {base n : Nat} {t : HoleTable}
    (hn : (s.mproc who).suspended = false)
    (hpid : assignPid child n (placeChild s who child t base) = some s') : WaitersLive s' := by
  obtain ⟨pid, hm, -⟩ := forkedState_mproc hpid
  intro q hw hu
  rw [hm] at hw hu ⊢
  split at hw
  · exact (nomatch (Mproc.suspended_eq_false.mp hn).1.symm.trans hw)
  · rename_i hne
    rw [if_neg hne] at hu ⊢
    exact h q hw hu

/-- Every effect keeps those who wait alive, if no signal kills them. -/
theorem effect {A B : Prop} {E : State → Proc → Prop} {W : Proc → Prop} {x y : List Proc × State}
    (h : WaitersLive x.2) (hB : B) (he : Effect A B E W x y) : WaitersLive y.2 := by
  cases he with
  | quiet p hf => exact h.congr (modify_flow (hf.flow _))
  | vars mp d r hW => exact h.congr fun _ => rfl
  | @adjusted g s p d sp hp hu hd =>
    have hf : (adjust (s.mproc p) d sp).2.flow = (s.mproc p).flow := adjust_flow _ _ _
    exact h.congr (modify_flow (f := fun _ => (adjust (s.mproc p) d sp).2) hf)
  | act d hA => exact h.congr fun _ => rfl
  | mark hf hA => exact h.congr (modify_flow (hf.flow _))
  | @hang g s p hp hu hw hA hb =>
    have h' : WaitersLive (s.noteExit p) := h.congr fun _ => rfl
    exact h'.hang (hb hB)
  | @exitReap s s' p hp hu hw hA hr =>
    have h' : WaitersLive (s.noteExit p) := h.congr fun _ => rfl
    obtain ⟨t, -, rfl⟩ := release_eq hr
    exact h'.released p t
  | reap hW hp hh hl hn ho hr =>
    obtain ⟨t, -, rfl⟩ := release_eq hr
    exact MM.WaitersLive.released h _ t
  | adopt hc hpar hh => exact MM.WaitersLive.adopt h _
  | adoptReap hc hpar hh hw hr =>
    obtain ⟨t, -, rfl⟩ := release_eq hr
    exact (MM.WaitersLive.adopt h _).released _ t
  | settle hc => exact h
  | unpause p => exact MM.WaitersLive.unpause h p
  | wait hW hp hl hn ho hc => exact MM.WaitersLive.suspend h hl (f := fun m => { m with waiting := true }) rfl
  | pause hW hp hl hn ho => exact MM.WaitersLive.suspend h hl (f := fun m => { m with paused := true }) rfl
  | noMem hp hu ha => exact h.congr fun _ => rfl
  | fork hW hp hl hn hfull ha hb hc hpid =>
    have h' := MM.WaitersLive.fork h hn hpid
    exact h'.congr fun q => by rw [State.reply_mproc]
  | exec hp hl hi hE hm => exact h.congr (exec_flow hm)

theorem boot {t : HoleTable} {totMem : Nat} {b : Boot} (h : boot t totMem b = some s) :
    WaitersLive s := fun q hq _ => by
  have hf := boot_flow h q
  simp only [Mproc.flow, Prod.mk.injEq] at hf
  exact hf.2.1

end WaitersLive

namespace Accounted

variable {g : List Proc} {s s' : State}

/-- A change by which nobody terminates, and nobody who has terminated changes. -/
theorem congr (h : Accounted g s) (hm : ∀ q, (s'.mproc q).inUse = (s.mproc q).inUse ∧
      (s'.mproc q).mpParent = (s.mproc q).mpParent ∧ ((s'.mproc q).hanging = true →
        (s.mproc q).hanging = true ∧ (s'.mproc q).status = (s.mproc q).status))
    (hborn : s'.hist.born = s.hist.born) (hfather : s'.hist.father = s.hist.father)
    (hexits : s'.hist.exits = s.hist.exits) (hreaps : s'.hist.reaps = s.hist.reaps) :
    Accounted g s' := by
  have hended : ∀ n, Ended s' n ↔ Ended s n := fun n => by
    unfold Ended
    rw [hexits]
  refine ⟨fun q hq hu => ?_, fun q hq hu => ?_, fun c hc => ?_, fun p hp => ?_, fun x hx => ?_, ?_,
    fun r hr => ?_, fun p hp r hr => ?_, fun r hr => ?_⟩
  · rw [(hm q).1] at hu
    rw [hborn, hfather, (hm q).2.1, hended]
    exact h.line q hq hu
  · rw [(hm q).1] at hu
    rw [hborn, hfather]
    exact h.younger q hq hu
  · rw [hborn, hended]
    exact h.ended c hc
  · obtain ⟨hh, hst⟩ := (hm p).2.2 hp
    rw [hborn, hexits, hst]
    exact h.status p hh
  · rw [hexits] at hx
    rw [hborn, hreaps]
    refine (h.kept x hx).imp id fun ⟨p, hp, he⟩ => ⟨p, ?_, he⟩
    rw [(hm p).1]
    exact hp
  · rw [hreaps]
    exact h.once
  · rw [hreaps] at hr
    rw [hexits]
    exact h.known r hr
  · rw [(hm p).1] at hp
    rw [hreaps] at hr
    rw [hborn]
    exact h.left p hp r hr
  · rw [hreaps] at hr
    exact h.sent r hr

/-- A change of the flags and segments that leaves the status alone. -/
theorem flow (h : Accounted g s) (hm : ∀ q, (s'.mproc q).flow = (s.mproc q).flow ∧
      (s'.mproc q).status = (s.mproc q).status)
    (hborn : s'.hist.born = s.hist.born) (hfather : s'.hist.father = s.hist.father)
    (hexits : s'.hist.exits = s.hist.exits) (hreaps : s'.hist.reaps = s.hist.reaps) :
    Accounted g s' := by
  refine h.congr (fun q => ?_) hborn hfather hexits hreaps
  obtain ⟨hf, hst⟩ := hm q
  simp only [Mproc.flow, Prod.mk.injEq] at hf
  rw [hf.1, hf.2.1]
  exact ⟨rfl, hf.2.2.2.2, fun hh => ⟨hh, hst⟩⟩

/-- A write to one slot, by which its process does not terminate, and that does not change what
has been told of it if it has. -/
theorem modify (h : Accounted g s) {p : Proc} {f : Mproc → Mproc}
    (hu : (f (s.mproc p)).inUse = (s.mproc p).inUse)
    (hp : (f (s.mproc p)).mpParent = (s.mproc p).mpParent)
    (hh : (f (s.mproc p)).hanging = true →
      (s.mproc p).hanging = true ∧ (f (s.mproc p)).status = (s.mproc p).status) :
    Accounted g (s.modify p f) := by
  refine h.congr (fun q => ?_) rfl rfl rfl rfl
  rw [State.modify_mproc]
  split
  · rename_i hq
    rw [hq]
    exact ⟨hu, hp, hh⟩
  · exact ⟨rfl, rfl, fun hh => ⟨hh, rfl⟩⟩

/-- `mm_exit` has stored the status. -/
theorem noteExit (h : Accounted g s) {p : Proc} (hp : (s.mproc p).inUse = true) :
    Accounted g (s.noteExit p) := by
  have hended : ∀ n, Ended s n → Ended (s.noteExit p) n :=
    fun n ⟨x, hx, he⟩ => ⟨x, List.mem_cons_of_mem _ hx, he⟩
  refine ⟨fun q hq hu => (h.line q hq hu).imp id fun hi => ⟨hi.1, hended _ hi.2⟩, h.younger,
    fun c hc => hended _ (h.ended c hc), fun q hq => List.mem_cons_of_mem _ (h.status q hq),
    fun x hx => ?_, h.once, fun r hr => List.mem_cons_of_mem _ (h.known r hr), h.left, h.sent⟩
  rcases List.mem_cons.mp hx with rfl | hx
  · exact Or.inr ⟨p, hp, rfl⟩
  · exact h.kept x hx

/-- A process hangs whose status has been stored. -/
theorem hang (h : Accounted g s) {p : Proc}
    (hp : ⟨s.hist.born p, (s.mproc p).status⟩ ∈ s.hist.exits) :
    Accounted g (s.modify p fun m => { m with hanging := true }) := by
  have hm : ∀ q, ∃ b, (s.modify p fun m => { m with hanging := true }).mproc q =
      { s.mproc q with hanging := b } ∧ (b = true → q = p ∨ (s.mproc q).hanging = true) := by
    intro q
    rw [State.modify_mproc]
    split
    · rename_i he
      exact ⟨true, by rw [he], fun _ => Or.inl he⟩
    · exact ⟨_, rfl, Or.inr⟩
  refine ⟨fun q hq hu => ?_, fun q hq hu => ?_, h.ended, fun q hq => ?_, fun x hx => ?_, h.once,
    h.known, fun q hu => ?_, h.sent⟩
  · obtain ⟨b, he, -⟩ := hm q
    rw [he] at hu ⊢
    exact h.line q hq hu
  · obtain ⟨b, he, -⟩ := hm q
    rw [he] at hu
    exact h.younger q hq hu
  · obtain ⟨b, he, hb⟩ := hm q
    rw [he] at hq ⊢
    rcases hb hq with rfl | hq
    · exact hp
    · exact h.status q hq
  · refine (h.kept x hx).imp id fun ⟨q, hu, hb⟩ => ⟨q, ?_, hb⟩
    obtain ⟨b, he, -⟩ := hm q
    rw [he]
    exact hu
  · obtain ⟨b, he, -⟩ := hm q
    rw [he] at hu
    exact h.left q hu

/-- A process whose status has been stored is reaped by a live parent. -/
theorem released (h : Accounted g s) {p : Proc} (hlt : INIT_PROC_NR < p)
    (hu : (s.mproc p).inUse = true)
    (hp : ⟨s.hist.born p, (s.mproc p).status⟩ ∈ s.hist.exits)
    (hd : ∀ q, (s.mproc q).inUse = true → s.hist.born q = s.hist.born p → q = p)
    (hl : (s.mproc (s.mproc p).mpParent).live = true)
    (hf : ¬Ended s (s.hist.born (s.mproc p).mpParent)) (t : HoleTable) :
    Accounted (p :: g) (released s p t) := by
  refine ⟨fun q hq hqu => h.line q hq (released_use.mp hqu).2,
    fun q hq hqu => h.younger q hq (released_use.mp hqu).2, fun c hc => ?_,
    fun q hq => h.status q (released_hanging.mp hq).2, fun x hx => ?_, ?_, fun r hr => ?_,
    fun q hqu r hr => ?_, fun r hr => ?_⟩
  · rcases List.mem_cons.mp hc with rfl | hc
    · exact ⟨_, hp, rfl⟩
    · exact h.ended c hc
  · rcases h.kept x hx with ⟨r, hr, he⟩ | ⟨q, hq, he⟩
    · exact Or.inl ⟨r, List.mem_cons_of_mem _ hr, he⟩
    · by_cases hqp : q = p
      · exact Or.inl ⟨_, List.mem_cons_self .., hqp ▸ he⟩
      · exact Or.inr ⟨q, released_use.mpr ⟨hqp, hq⟩, he⟩
  · show (s.hist.born p :: s.hist.reaps.map Reap.born).Nodup
    rw [List.nodup_cons]
    refine ⟨fun hr => ?_, h.once⟩
    obtain ⟨r, hr, he⟩ := List.mem_map.mp hr
    exact h.left p hu r hr he
  · rcases List.mem_cons.mp hr with rfl | hr
    · exact hp
    · exact h.known r hr
  · obtain ⟨hne, hqu⟩ := released_use.mp hqu
    rcases List.mem_cons.mp hr with rfl | hr
    · exact fun he => hne (hd q hqu he.symm)
    · exact h.left q hqu r hr
  · rcases List.mem_cons.mp hr with rfl | hr
    · refine ⟨hl, ?_⟩
      dsimp only
      split
      · rename_i ho
        obtain ⟨x, hx, he⟩ := List.any_eq_true.mp ho
        rcases h.line p hlt hu with hb | ⟨hi, -⟩
        · exact absurd ⟨x, hx, (of_decide_eq_true he).trans hb.symm⟩ hf
        · exact hi
      · rename_i ho
        rcases h.line p hlt hu with hb | ⟨-, x, hx, he⟩
        · exact hb
        · exact absurd (List.any_eq_true.mpr ⟨x, hx, decide_eq_true he⟩) ho
    · exact h.sent r hr

/-- INIT takes over a child of a slot that was released. -/
theorem adopt (h : Accounted g s) {c p : Proc} (hc : c ∈ g)
    (hp : (s.mproc p).mpParent = c) : Accounted g (adopt s p) := by
  have hm : ∀ q, ∃ r, (MM.adopt s p).mproc q = { s.mproc q with mpParent := r } ∧
      (r = (s.mproc q).mpParent ∨ q = p ∧ r = INIT_PROC_NR) := by
    intro q
    rw [MM.adopt, State.modify_mproc]
    split
    · rename_i he
      exact ⟨INIT_PROC_NR, by rw [he], Or.inr ⟨he, rfl⟩⟩
    · exact ⟨_, rfl, Or.inl rfl⟩
  refine ⟨fun q hq hu => ?_, fun q hq hu => ?_, h.ended, fun q hq => ?_, fun x hx => ?_, h.once,
    h.known, fun q hu => ?_, h.sent⟩
  · obtain ⟨r, he, hr⟩ := hm q
    rw [he] at hu ⊢
    rcases hr with rfl | ⟨rfl, rfl⟩
    · exact h.line q hq hu
    · refine Or.inr ⟨rfl, ?_⟩
      rcases h.line q hq hu with hb | ⟨-, hb⟩
      · rw [hp] at hb
        exact hb ▸ h.ended c hc
      · exact hb
  · obtain ⟨r, he, -⟩ := hm q
    rw [he] at hu
    exact h.younger q hq hu
  · obtain ⟨r, he, -⟩ := hm q
    rw [he] at hq ⊢
    exact h.status q hq
  · rcases h.kept x hx with hr | ⟨q, hu, hb⟩
    · exact Or.inl hr
    obtain ⟨r, he, -⟩ := hm q
    exact Or.inr ⟨q, by rw [he]; exact hu, hb⟩
  · obtain ⟨r, he, -⟩ := hm q
    rw [he] at hu
    exact h.left q hu

theorem unpause (h : Accounted g s) (p : Proc) : Accounted g (unpause s p) := by
  obtain ⟨-, -, -, r, o, hh⟩ := unpause_rest s p
  refine h.congr (fun q => ?_) (by rw [hh]) (by rw [hh]) (by rw [hh]) (by rw [hh])
  obtain ⟨w, u, he, -⟩ := unpause_mproc s p q
  rw [he]
  exact ⟨rfl, rfl, fun hq => ⟨hq, rfl⟩⟩

theorem answered (h : Accounted g s) (p : Proc) (r x : Int) : Accounted g (s.reply p r x) := by
  have hh := State.reply_hist s p r x
  refine h.congr (fun q => ?_) (by rw [hh]) (by rw [hh]) (by rw [hh]) (by rw [hh])
  rw [State.reply_mproc]
  exact ⟨rfl, rfl, fun hq => ⟨hq, rfl⟩⟩

theorem exec (h : Accounted g s) {who : Proc} {im : Image} {a : ExecCall} {ft : Bool}
    (hm : newMem s who im = some (OK, s')) : Accounted g (s'.modify who (execDone a ft)) := by
  obtain ⟨t₁, base, t₂, -, -, -, -, rfl⟩ := newMem_ok hm
  refine h.congr (fun q => ?_) rfl rfl rfl rfl
  rw [State.modify_mproc]
  split
  · rename_i hq
    dsimp only
    rw [hq, update_self]
    exact ⟨rfl, rfl, fun hh => ⟨hh, rfl⟩⟩
  · rename_i hq
    dsimp only
    rw [update_of_ne hq]
    exact ⟨rfl, rfl, fun hh => ⟨hh, rfl⟩⟩

/-- A child is made by a process that has not terminated. -/
theorem fork (h : Accounted [] s) (hs : Sound [] s) (hi : Incarnate s) {who child : Proc}
    {base n : Nat} {t : HoleTable} (hl : (s.mproc who).live = true)
    (hc : freeSlot s = some child)
    (hpid : assignPid child n (placeChild s who child t base) = some s') : Accounted [] s' := by
  obtain ⟨hu, hh⟩ := Mproc.live_eq_true.mp hl
  obtain ⟨-, hfree⟩ := hs.freeSlot hc
  obtain ⟨pid, hm, -, -, -, -, hhist⟩ := forkedState_mproc hpid
  have hborn : ∀ q, s'.hist.born q = if q = child then s.hist.births else s.hist.born q := by
    intro q
    rw [hhist]
    exact update_apply ..
  have hfather : ∀ q, s'.hist.father q = if q = child then s.hist.born who else s.hist.father q := by
    intro q
    rw [hhist]
    exact update_apply ..
  have hexits : s'.hist.exits = s.hist.exits := by
    rw [hhist]
    rfl
  have hreaps : s'.hist.reaps = s.hist.reaps := by
    rw [hhist]
    rfl
  have hwho : who ≠ child := by
    rintro rfl
    exact (nomatch hfree.symm.trans hu)
  have hself : s'.mproc child = { forked (s.mproc who) who base with mpPid := pid } := by
    rw [hm, if_pos rfl]
  have hold : ∀ q, q ≠ child → s'.mproc q = s.mproc q ∧ s'.hist.born q = s.hist.born q ∧
      s'.hist.father q = s.hist.father q := by
    intro q hq
    rw [hm, hborn, hfather, if_neg hq, if_neg hq, if_neg hq]
    exact ⟨rfl, rfl, rfl⟩
  refine ⟨fun q hq hqu => ?_, fun q hq hqu => ?_, fun _ hq => (nomatch hq), fun q hq => ?_,
    fun x hx => ?_, ?_, fun r hr => ?_, fun q hqu r hr => ?_, fun r hr => ?_⟩
  · by_cases hqc : q = child
    · subst hqc
      rw [hself, hfather, if_pos rfl]
      exact Or.inl (hold who hwho).2.1
    · obtain ⟨hmq, -, hfq⟩ := hold q hqc
      rw [hmq] at hqu
      have hpar := hs.parent_ne hfree hqu
      unfold Ended
      rw [hmq, hfq, (hold _ hpar).2.1, hexits]
      exact h.line q hq hqu
  · by_cases hqc : q = child
    · rw [hfather, hborn, if_pos hqc, if_pos hqc]
      exact hi.births who hu
    · obtain ⟨hmq, hbq, hfq⟩ := hold q hqc
      rw [hmq] at hqu
      rw [hfq, hbq]
      exact h.younger q hq hqu
  · have hqc : q ≠ child := by
      rintro rfl
      rw [hself] at hq
      exact (nomatch hh.symm.trans hq)
    obtain ⟨hmq, hbq, -⟩ := hold q hqc
    rw [hmq] at hq ⊢
    rw [hbq, hexits]
    exact h.status q hq
  · rw [hexits] at hx
    rw [hreaps]
    refine (h.kept x hx).imp id fun ⟨q, hqu, he⟩ => ⟨q, ?_⟩
    have hqc : q ≠ child := by
      rintro rfl
      exact (nomatch hfree.symm.trans hqu)
    obtain ⟨hmq, hbq, -⟩ := hold q hqc
    rw [hmq, hbq]
    exact ⟨hqu, he⟩
  · rw [hreaps]
    exact h.once
  · rw [hreaps] at hr
    rw [hexits]
    exact h.known r hr
  · rw [hreaps] at hr
    by_cases hqc : q = child
    · rw [hborn, if_pos hqc]
      exact (hi.exited _ (h.known r hr)).ne
    · obtain ⟨hmq, hbq, -⟩ := hold q hqc
      rw [hmq] at hqu
      rw [hbq]
      exact h.left q hqu r hr
  · rw [hreaps] at hr
    exact h.sent r hr

/-- Nobody is his own parent. -/
theorem parent_ne (h : Accounted g s) {p : Proc} (hlt : INIT_PROC_NR < p)
    (hu : (s.mproc p).inUse = true) : (s.mproc p).mpParent ≠ p := by
  intro he
  have hy := h.younger p hlt hu
  rcases h.line p hlt hu with hb | ⟨hi, -⟩
  · rw [he] at hb
    exact absurd hb hy.ne'
  · exact absurd (he.symm.trans hi) hlt.ne'

/-- A process terminates while its parent waits for it. -/
theorem exitReap (h : Accounted [] s) (hs : Sound [] s) (hi : Incarnate s) (hw : WaitersLive s)
    {p : Proc} (hlt : INIT_PROC_NR < p) (hu : (s.mproc p).inUse = true)
    (hpw : (s.mproc (s.mproc p).mpParent).waiting = true) (t : HoleTable) :
    Accounted [p] (MM.released (s.noteExit p) p t) := by
  have hpu : (s.mproc (s.mproc p).mpParent).inUse = true :=
    (hs.parent p hlt hu).2.resolve_right List.not_mem_nil
  have hl : (s.mproc (s.mproc p).mpParent).live = true :=
    Mproc.live_eq_true.mpr ⟨hpu, hw _ hpw hpu⟩
  refine (h.noteExit hu).released hlt hu (List.mem_cons_self ..)
    (fun q hq he => hi.distinct q p hq hu he) hl ?_ t
  rintro ⟨x, hx, he⟩
  rcases List.mem_cons.mp hx with rfl | hx
  · exact h.parent_ne hlt hu (hi.distinct p _ hu hpu he).symm
  · exact hi.fresh _ hl x hx he

/-- Every effect keeps the account, if the dead are left alone and those who wait are alive. -/
theorem effect {A B : Prop} {E : State → Proc → Prop} {W : Proc → Prop} {x y : List Proc × State}
    (h : Accounted x.1 x.2) (hA : A) (hs : Sound x.1 x.2) (hi : Incarnate x.2)
    (hw : WaitersLive x.2) (he : Effect A B E W x y) : Accounted y.1 y.2 := by
  have hfresh : ∀ p, (x.2.mproc p).live = true → ¬Ended x.2 (x.2.hist.born p) :=
    fun p hp ⟨e, hx, he⟩ => hi.fresh p hp e hx he
  cases he with
  | @quiet g s p f hf =>
    have hb : (f (s.mproc p)).bare = (s.mproc p).bare := hf _
    refine h.modify (congrArg Mproc.inUse hb :) (congrArg Mproc.mpParent hb :) fun hh => ?_
    exact ⟨(congrArg Mproc.hanging hb :) ▸ hh, (congrArg Mproc.status hb :)⟩
  | vars mp d r hW => exact h.congr (fun _ => ⟨rfl, rfl, fun hh => ⟨hh, rfl⟩⟩) rfl rfl rfl rfl
  | @adjusted g s p d sp hp hu hd =>
    refine h.modify (f := fun _ => (adjust (s.mproc p) d sp).2) ?_ ?_ fun hh => ?_
    all_goals
      dsimp only at *
      rw [adjust_eq] at *
    exact ⟨hh, rfl⟩
  | act d hl => exact h.congr (fun _ => ⟨rfl, rfl, fun hh => ⟨hh, rfl⟩⟩) rfl rfl rfl rfl
  | mark hf hl =>
    have hd := (Mproc.live_eq_true.mp (hl hA)).2
    refine h.modify (by rw [hf]) (by rw [hf]) fun hh => ?_
    rw [hf] at hh
    exact (nomatch hd.symm.trans hh)
  | @hang g s p hp hu hwait hl hB =>
    have h' : Accounted g (s.noteExit p) := h.noteExit hu
    exact h'.hang (List.mem_cons_self ..)
  | @exitReap s s' p hp hu hwait hl hr =>
    obtain ⟨t, -, rfl⟩ := release_eq hr
    exact h.exitReap hs hi hw hp hu hwait t
  | @reap g s s' p hW hp hh hl hn ho hr =>
    obtain ⟨t, -, rfl⟩ := release_eq hr
    have hu := hs.hanging p hh
    exact h.released hp hu (h.status p hh) (fun q hq he => hi.distinct q p hq hu he) hl
      (hfresh _ hl) t
  | adopt hc hpar hh => exact MM.Accounted.adopt h hc hpar
  | @adoptReap g s s' c p hc hpar hh hiw hr =>
    have hu := hs.hanging p hh
    have hp : INIT_PROC_NR < p := hs.above_of_gone hc hpar
    have hl : (s.mproc INIT_PROC_NR).live = true :=
      Mproc.live_eq_true.mpr ⟨(hs.system _ le_rfl).1, hw _ hiw (hs.system _ le_rfl).1⟩
    have hm : ∀ q, ∃ r, (MM.adopt s p).mproc q = { s.mproc q with mpParent := r } := by
      intro q
      rw [MM.adopt, State.modify_mproc]
      split
      · rename_i he
        exact ⟨INIT_PROC_NR, by rw [he]⟩
      · exact ⟨_, rfl⟩
    have hpi : ((MM.adopt s p).mproc p).mpParent = INIT_PROC_NR := by
      rw [MM.adopt, State.modify_mproc, if_pos rfl]
    obtain ⟨t, -, rfl⟩ := release_eq hr
    have h' : Accounted g (MM.adopt s p) := MM.Accounted.adopt h hc hpar
    refine h'.released hp ?_ ?_ (fun q hq he => ?_) ?_ ?_ t
    · obtain ⟨r, he⟩ := hm p
      rw [he]
      exact hu
    · obtain ⟨r, he⟩ := hm p
      rw [he]
      exact h.status p hh
    · obtain ⟨r, hr⟩ := hm q
      rw [hr] at hq
      exact hi.distinct q p hq hu he
    · obtain ⟨r, he⟩ := hm INIT_PROC_NR
      rw [hpi, he]
      exact hl
    · rw [hpi]
      exact hfresh _ hl
  | settle hc => exact ⟨h.line, h.younger, fun q hq => h.ended q (List.mem_cons_of_mem _ hq),
      h.status, h.kept, h.once, h.known, h.left, h.sent⟩
  | unpause p => exact MM.Accounted.unpause h p
  | wait hW hp hl hn ho hc =>
    exact h.modify (f := fun m => { m with waiting := true }) rfl rfl fun hh => ⟨hh, rfl⟩
  | pause hW hp hl hn ho =>
    exact h.modify (f := fun m => { m with paused := true }) rfl rfl fun hh => ⟨hh, rfl⟩
  | noMem hp hu ha => exact h.congr (fun _ => ⟨rfl, rfl, fun hh => ⟨hh, rfl⟩⟩) rfl rfl rfl rfl
  | fork hW hp hl hn hfull ha hb hc hpid =>
    have h' := h.fork hs hi hl hc hpid
    exact MM.Accounted.answered h' _ _ _
  | exec hp hl hload hE hm => exact MM.Accounted.exec h hm

theorem boot {t : HoleTable} {totMem : Nat} {b : Boot} (h : boot t totMem b = some s) :
    Accounted [] s := by
  have hq := boot_flow h
  simp only [Mproc.flow, Prod.mk.injEq] at hq
  have hno : ∀ q, INIT_PROC_NR < q → (s.mproc q).inUse = true → False := fun q hlt hu => by
    rw [(hq q).1] at hu
    exact absurd (of_decide_eq_true hu) (not_le.mpr hlt)
  have hhist : s.hist.exits = [] ∧ s.hist.reaps = [] := by
    obtain ⟨base, t', -, -, rfl⟩ := boot_eq h
    exact ⟨rfl, rfl⟩
  refine ⟨fun q hlt hu => (hno q hlt hu).elim, fun q hlt hu => (hno q hlt hu).elim,
    fun _ hc => absurd hc List.not_mem_nil, fun p hp => ?_, fun x hx => ?_, ?_,
    fun r hr => ?_, fun p _ r hr => ?_, fun r hr => ?_⟩
  · rw [(hq p).2.1] at hp
    cases hp
  · rw [hhist.1] at hx
    cases hx
  · rw [hhist.2]
    exact List.nodup_nil
  all_goals
    rw [hhist.2] at hr
    cases hr

end Accounted

/-- All that is kept of the processes, in every run in which the dead are left alone and nobody is
killed who waits. -/
structure Alive (g : List Proc) (s : State) : Prop where
  sound : Sound g s
  incarnate : Incarnate s
  waiters : WaitersLive s
  accounted : Accounted g s
  patient : Patient s

theorem Alive.effects {E : State → Proc → Prop} {W : Proc → Prop} {x y : List Proc × State} (h : Alive x.1 x.2)
    (he : Effects True True E W x y) : Alive y.1 y.2 := by
  induction he with
  | refl => exact h
  | tail _ he ih =>
    exact ⟨ih.sound.effect he, ih.incarnate.effect trivial ih.sound he,
      ih.waiters.effect trivial he, ih.accounted.effect trivial ih.sound ih.incarnate ih.waiters he,
      MM.Patient.effect ih.patient ih.sound he⟩

theorem Alive.same {g : List Proc} {s s' : State} (h : Alive g s) (he : SameTable s s') :
    Alive g s' := by
  have hm : ∀ q, s'.mproc q = s.mproc q := fun q => by rw [he.mproc]
  refine ⟨h.sound.same he, h.incarnate.same he, h.waiters.congr fun q => by rw [hm], ?_,
    h.patient.congr fun q => by rw [hm]⟩
  exact h.accounted.flow (fun q => by rw [hm]; exact ⟨rfl, rfl⟩)
    (congrArg (·.born) he.hist :) (congrArg (·.father) he.hist :) (congrArg (·.exits) he.hist :)
    (congrArg (·.reaps) he.hist :)

theorem Alive.boot {t : HoleTable} {totMem : Nat} {b : Boot} {s : State}
    (h : boot t totMem b = some s) : Alive [] s :=
  ⟨.boot h, .boot h, .boot h, .boot h, .boot h⟩

/-- The number of processes is right, the pids above INIT are distinct and a free one is always
found, nobody waits whose child has terminated, and every process that has terminated is reaped
once, with the status it has left, by its parent or else by INIT, or still hangs. -/
structure ReapedOnce (s : State) : Prop where
  count : s.procsInUse = inUseCount s
  pids : ∀ p q, INIT_PROC_NR < p → INIT_PROC_NR < q → (s.mproc p).inUse = true →
    (s.mproc q).inUse = true → (s.mproc p).mpPid = (s.mproc q).mpPid → p = q
  search : ∀ who child t base, ∃ s', assignPid child 30000 (placeChild s who child t base) = some s'
  waits : ∀ p q, (s.mproc p).live = true → (s.mproc p).waiting = true →
    (s.mproc q).mpParent = p → (s.mproc q).hanging = false
  exits : (s.hist.exits.map Exit.born).Nodup
  reaps : (s.hist.reaps.map Reap.born).Nodup
  status : ∀ r ∈ s.hist.reaps, ⟨r.born, r.status⟩ ∈ s.hist.exits
  kept : ∀ x ∈ s.hist.exits, (∃ r ∈ s.hist.reaps, r.born = x.born) ∨
    ∃ p, (s.mproc p).hanging = true ∧ s.hist.born p = x.born
  sent : ∀ r ∈ s.hist.reaps, r.sent = true ∧
    if r.orphan then r.dest = INIT_PROC_NR else r.destBorn = r.father

theorem Alive.reapedOnce {s : State} (h : Alive [] s) (hn : Numbered s) : ReapedOnce s := by
  refine ⟨hn.count, hn.pids, fun who child t base => ?_, fun p q _ hw hp => ?_, h.incarnate.nodup,
    h.accounted.once, h.accounted.known, fun x hx => ?_, h.accounted.sent⟩
  · have hnext : (placeChild s who child t base).nextPid = s.nextPid := rfl
    exact assignPid_some (n := 29983) (hnext ▸ hn.low) (hnext ▸ hn.high)
  · rw [Bool.eq_false_iff]
    intro hh
    rw [← hp, h.patient q hh] at hw
    cases hw
  · refine (h.accounted.kept x hx).imp id fun ⟨p, hp, he⟩ => ⟨p, ?_, he⟩
    by_contra hh
    exact h.incarnate.fresh p (Mproc.live_eq_true.mpr ⟨hp, Bool.eq_false_iff.mpr hh⟩) x hx he.symm

/-- In every run in which the dead are left alone and nobody is killed who waits, every process
that terminates is reaped once. -/
theorem reaped_once {t : HoleTable} {totMem : Nat} {b : Boot} {s : State}
    (hr : Reach serve (fun s r => AsIssued s r ∧ Aims True True s r)
      (fun s => boot t totMem b = some s) s) : ReapedOnce s := by
  have hinv : Alive [] s ∧ Numbered s := by
    refine hr.invariant (fun s => Alive [] s ∧ Numbered s) (fun s hs => ⟨.boot hs, .boot hs⟩) ?_
    rintro s r s' ⟨h, hn⟩ ⟨hi, ha⟩ he
    obtain ⟨s₁, s₂, hsame₁, heff, hsame₂⟩ :=
      serve_effects (E := fun _ _ => True) (W := fun _ => True) h.sound hi ha (fun _ _ _ _ => trivial)
        (fun _ => trivial) he
    have h₁ := h.same hsame₁
    exact ⟨(h₁.effects heff).same hsame₂,
      ((hn.same hsame₁).effects h₁.sound heff).same hsame₂⟩
  exact hinv.1.reapedOnce hinv.2

/-- A child is reaped while INIT waits, and its own child later. -/
theorem reaped_once_example :
    ∃ s, ((boot blankHoles 4096 ⟨0, 5, 105, 100⟩).bind fun s =>
        run serve (fun s r => AsIssued s r ∧ Aims True True s r) s
          [.call 2 .fork, .call 3 .fork, .call 2 .wait, .call 3 (.exit 1), .call 4 (.exit 2),
            .call 2 .wait]) = some s ∧
      (s.hist.reaps.map fun r => (r.born, r.status, r.orphan, r.dest)) =
        [(4, 512, true, 2), (3, 256, false, 2)] ∧ ReapedOnce s := by
  refine ⟨_, rfl, rfl, ?_⟩
  have hr : Reach serve (fun s r => AsIssued s r ∧ Aims True True s r)
      (fun s => boot blankHoles 4096 ⟨0, 5, 105, 100⟩ = some s) _ :=
    Reach.of_run (.init rfl) (l := [.call 2 .fork, .call 3 .fork, .call 2 .wait, .call 3 (.exit 1),
      .call 4 (.exit 2), .call 2 .wait]) rfl
  exact reaped_once hr

/-- A child of INIT is killed while it waits, and the status of its own child goes to nobody. -/
theorem reaped_once_counterexample :
    ∃ s, Reach serve AsIssued (fun s => boot blankHoles 4096 ⟨0, 5, 105, 100⟩ = some s) s ∧
      ¬ReapedOnce s := by
  have hr : Reach serve AsIssued
      (fun s => boot blankHoles 4096 ⟨0, 5, 105, 100⟩ = some s) _ :=
    Reach.of_run (.init rfl) (l := [.call 2 .fork, .call 3 .fork, .call 3 .wait,
      .call 2 (.kill 4 SIGKILL ⟨fun _ _ => 0, fun _ _ => false⟩), .call 4 (.exit 2)]) rfl
  refine ⟨_, hr, fun h => ?_⟩
  exact (nomatch (h.sent _ (List.mem_cons_self ..)).1)

end Minix.MM
