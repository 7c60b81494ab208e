import Mathlib.Algebra.Order.Group.Nat
import Mathlib.Data.Finset.Card
import Mathlib.Data.Fintype.Pigeonhole
import Minix.MM.Calls

/-!
# The process table: slots, pids and waiting parents

The number of slots in use is kept beside the table, the pids are handed out in a
circle that is far larger than the table, and no process waits while a child of it
has something to tell.
-/

namespace Minix.MM

open Function

/-- The number of processes. -/
def inUseCount (s : State) : Nat := (Finset.univ.filter fun p => (s.mproc p).inUse = true).card

/-- The `n`-th pid after `x` in the circle of the pids. -/
theorem pidAfter_iterate {x : Nat} (hlo : 3 ≤ x) (hhi : x ≤ 30000) (n : Nat) :
    pidAfter^[n] x = 3 + (x - 3 + n) % 29998 := by
  induction n with
  | zero =>
    rw [iterate_zero, id_eq]
    omega
  | succ n ih =>
    rw [iterate_succ_apply', ih]
    unfold pidAfter
    split <;> omega

theorem pidAfter_range {x : Nat} (hlo : 3 ≤ x) (hhi : x ≤ 30000) :
    3 ≤ pidAfter x ∧ pidAfter x ≤ 30000 ∧ pidAfter x ≠ pidAfter (pidAfter x) := by
  unfold pidAfter
  refine ⟨?_, ?_, ?_⟩
  · split <;> omega
  · split <;> omega
  · split <;> split <;> omega

/-- The search stays on the circle. -/
theorem assignPid_range {child : Proc} {n : Nat} {s s' : State} (hlo : 3 ≤ s.nextPid)
    (hhi : s.nextPid ≤ 30000) (h : assignPid child n s = some s') :
    3 ≤ s'.nextPid ∧ s'.nextPid ≤ 30000 := by
  induction n generalizing s with
  | zero => cases h
  | succ n ih =>
    obtain ⟨hlo', hhi', -⟩ := pidAfter_range hlo hhi
    unfold assignPid at h
    dsimp only at h
    split at h
    · exact ih hlo' hhi' h
    · obtain rfl := Option.some.inj h
      exact ⟨hlo', hhi'⟩

/-- When the search has failed `n` times, the next `n` pids are all taken by other slots. -/
theorem assignPid_none {child : Proc} {n : Nat} {s : State} (hlo : 3 ≤ s.nextPid)
    (hhi : s.nextPid ≤ 30000) (hc : (s.mproc child).mpPid ≠ pidAfter s.nextPid)
    (h : assignPid child n s = none) :
    ∀ i < n, ∃ q, q ≠ child ∧ (s.mproc q).mpPid = pidAfter^[i + 1] s.nextPid := by
  induction n generalizing s with
  | zero => exact fun i hi => absurd hi (Nat.not_lt_zero i)
  | succ n ih =>
    unfold assignPid at h
    dsimp only at h
    split at h
    · rename_i ht
      obtain ⟨q, -, hq⟩ := List.any_eq_true.mp ht
      replace hq := of_decide_eq_true hq
      have hqc : q ≠ child := by
        rintro rfl
        exact hc hq
      have hnext := pidAfter_range hlo hhi
      rintro (_ | i) hi
      · exact ⟨q, hqc, hq⟩
      · obtain ⟨r, hr, hri⟩ := ih hnext.1 hnext.2.1 (by
          rw [State.modify_mproc, if_pos rfl]
          exact hnext.2.2) h i (Nat.lt_of_succ_lt_succ hi)
        rw [State.modify_mproc, if_neg hr] at hri
        exact ⟨r, hr, hri⟩
    · cases h

/-- The search for a pid comes to an end: there are far more pids than slots. -/
theorem assignPid_some {child : Proc} {n : Nat} {s : State} (hlo : 3 ≤ s.nextPid)
    (hhi : s.nextPid ≤ 30000) : ∃ s', assignPid child (n + 17) s = some s' := by
  -- after one turn the child's own pid is the one that was tried last
  have hturn : ∀ s : State, 3 ≤ s.nextPid → s.nextPid ≤ 30000 →
      (s.mproc child).mpPid ≠ pidAfter s.nextPid → assignPid child (n + 16) s ≠ none := by
    intro s hlo hhi hc h
    have hall := assignPid_none hlo hhi hc h
    choose f hf using fun i : Fin 16 => hall i.val (by omega)
    have hcard : Fintype.card {q : Proc // q ≠ child} < Fintype.card (Fin 16) := by
      rw [Fintype.card_subtype_compl, Fintype.card_fin, Fintype.card_subtype_eq]
      decide
    obtain ⟨i, j, hne, he⟩ := Fintype.exists_ne_map_eq_of_card_lt
      (fun i => (⟨f i, (hf i).1⟩ : {q : Proc // q ≠ child})) hcard
    have hfe : f i = f j := congrArg Subtype.val he
    have hpid := (hf i).2
    rw [hfe, (hf j).2, pidAfter_iterate hlo hhi, pidAfter_iterate hlo hhi] at hpid
    refine hne (Fin.ext ?_)
    omega
  cases h : assignPid child (n + 17) s with
  | some s' => exact ⟨s', rfl⟩
  | none =>
    unfold assignPid at h
    dsimp only at h
    split at h
    · obtain ⟨hlo', hhi', hne⟩ := pidAfter_range hlo hhi
      refine absurd h (hturn _ hlo' hhi' ?_)
      rw [State.modify_mproc, if_pos rfl]
      exact hne
    · cases h

/-- The number of processes is right, and the pids above INIT are distinct and in range. -/
structure Numbered (s : State) : Prop where
  count : s.procsInUse = inUseCount s
  low : 3 ≤ s.nextPid
  high : s.nextPid ≤ 30000
  pids : ∀ p q, INIT_PROC_NR < p → INIT_PROC_NR < q → (s.mproc p).inUse = true →
    (s.mproc q).inUse = true → (s.mproc p).mpPid = (s.mproc q).mpPid → p = q

namespace Numbered

variable {s s' : State}

/-- A change that leaves slots and pids alone. -/
theorem congr (h : Numbered s) (hm : ∀ q, (s'.mproc q).inUse = (s.mproc q).inUse ∧
    (s'.mproc q).mpPid = (s.mproc q).mpPid) (hc : s'.procsInUse = s.procsInUse)
    (hn : s'.nextPid = s.nextPid) : Numbered s' := by
  refine ⟨?_, ?_, ?_, fun p q hp hq hpu hqu he => ?_⟩
  · unfold inUseCount
    simp only [fun q => (hm q).1]
    rw [hc, h.count]
    rfl
  · rw [hn]
    exact h.low
  · rw [hn]
    exact h.high
  · rw [(hm p).1] at hpu
    rw [(hm q).1] at hqu
    rw [(hm p).2, (hm q).2] at he
    exact h.pids p q hp hq hpu hqu he

/-- A write to one slot of that kind. -/
theorem modify (h : Numbered s) {p : Proc} {f : Mproc → Mproc}
    (hu : (f (s.mproc p)).inUse = (s.mproc p).inUse)
    (hpid : (f (s.mproc p)).mpPid = (s.mproc p).mpPid) : Numbered (s.modify p f) := by
  refine h.congr (fun q => ?_) rfl rfl
  rw [State.modify_mproc]
  split
  · rename_i hq
    rw [hq]
    exact ⟨hu, hpid⟩
  · exact ⟨rfl, rfl⟩

/-- A slot that was in use is released. -/
theorem released (h : Numbered s) {p : Proc} (hp : (s.mproc p).inUse = true) (t : HoleTable) :
    Numbered (released s p t) := by
  refine ⟨?_, h.low, h.high, fun q r hq hr hqu hru he => ?_⟩
  · have hset : (Finset.univ.filter fun q => ((MM.released s p t).mproc q).inUse = true) =
        (Finset.univ.filter fun q => (s.mproc q).inUse = true).erase p := by
      ext q
      simp only [Finset.mem_filter, Finset.mem_univ, true_and, Finset.mem_erase, released_use]
    show s.procsInUse - 1 = inUseCount (MM.released s p t)
    unfold inUseCount
    rw [hset, Finset.card_erase_of_mem (by simp [hp]), h.count]
    rfl
  · exact h.pids q r hq hr (released_use.mp hqu).2 (released_use.mp hru).2 he

/-- A child is in a slot that was not in use, under a pid that no other slot has. -/
theorem fork (h : Numbered s) (hs : Sound [] s) {who child : Proc} {base n : Nat} {t : HoleTable}
    (hl : (s.mproc who).live = true) (hc : freeSlot s = some child)
    (hpid : assignPid child n (placeChild s who child t base) = some s') :
    Numbered (s'.reply child 0 0) := by
  obtain ⟨-, hfree⟩ := hs.freeSlot hc
  obtain ⟨hlo, hhi⟩ := assignPid_range (s := placeChild s who child t base) h.low h.high hpid
  obtain ⟨pid, hm, hother, -, hcount, -, -⟩ := forkedState_mproc hpid
  have hself : s'.mproc child = { forked (s.mproc who) who base with mpPid := pid } := by
    rw [hm, if_pos rfl]
  have hold : ∀ q, q ≠ child → s'.mproc q = s.mproc q := fun q hq => by rw [hm, if_neg hq]
  have huse : ∀ q, (s'.mproc q).inUse = true ↔ q = child ∨ (s.mproc q).inUse = true := by
    intro q
    by_cases hq : q = child
    · rw [hq, hself]
      exact iff_of_true (Mproc.live_eq_true.mp hl).1 (Or.inl rfl)
    · rw [hold q hq]
      exact ⟨Or.inr, fun h => h.resolve_left hq⟩
  refine ⟨?_, ?_, ?_, fun q r hq hr hqu hru he => ?_⟩
  · have hset : (Finset.univ.filter fun q => (s'.mproc q).inUse = true) =
        insert child (Finset.univ.filter fun q => (s.mproc q).inUse = true) := by
      ext q
      simp only [Finset.mem_filter, Finset.mem_univ, true_and, Finset.mem_insert, huse]
    unfold inUseCount
    rw [State.reply_procsInUse, State.reply_mproc, hcount, hset,
      Finset.card_insert_of_notMem (by simp [hfree]), h.count]
    rfl
  · rwa [State.reply_nextPid]
  · rwa [State.reply_nextPid]
  · rw [State.reply_mproc] at hqu hru he
    by_cases hqc : q = child
    · by_cases hrc : r = child
      · rw [hqc, hrc]
      · rw [hqc, hself, hold r hrc] at he
        exact absurd he.symm (hother r hrc)
    · by_cases hrc : r = child
      · rw [hrc, hself, hold q hqc] at he
        exact absurd he (hother q hqc)
      · rw [hold q hqc] at hqu he
        rw [hold r hrc] at hru he
        exact h.pids q r hq hr hqu hru he

theorem unpause (h : Numbered s) (p : Proc) : Numbered (unpause s p) := by
  obtain ⟨-, hc, hn, -⟩ := unpause_rest s p
  refine h.congr (fun q => ?_) hc hn
  obtain ⟨w, u, he, -⟩ := unpause_mproc s p q
  rw [he]
  exact ⟨rfl, rfl⟩

/-- Every effect keeps the slots counted and the pids distinct. -/
theorem effect {A B : Prop} {E : State → Proc → Prop} {W : Proc → Prop} {x y : List Proc × State}
    (h : Numbered x.2) (hs : Sound x.1 x.2) (he : Effect A B E W x y) : Numbered y.2 := by
  cases he with
  | @quiet g s p f hf =>
    have hb : (f (s.mproc p)).bare = (s.mproc p).bare := hf _
    exact h.modify (congrArg Mproc.inUse hb :) (congrArg Mproc.mpPid hb :)
  | vars mp d r hW => exact h.congr (fun _ => ⟨rfl, rfl⟩) rfl rfl
  | @adjusted g s p d sp hp hu hd =>
    refine h.modify (f := fun _ => (adjust (s.mproc p) d sp).2) ?_ ?_
    all_goals
      dsimp only
      rw [adjust_eq]
  | act d hA => exact h.congr (fun _ => ⟨rfl, rfl⟩) rfl rfl
  | mark hf hA => exact h.modify (by rw [hf]) (by rw [hf])
  | @hang g s p hp hu hw hA hB =>
    have h' : Numbered (s.noteExit p) := h.congr (fun _ => ⟨rfl, rfl⟩) rfl rfl
    exact h'.modify (f := fun m => { m with hanging := true }) rfl rfl
  | @exitReap s s' p hp hu hw hA hr =>
    have h' : Numbered (s.noteExit p) := h.congr (fun _ => ⟨rfl, rfl⟩) rfl rfl
    obtain ⟨t, -, rfl⟩ := release_eq hr
    exact h'.released hu t
  | @reap g s s' p hW hp hh hl hn ho hr =>
    obtain ⟨t, -, rfl⟩ := release_eq hr
    exact h.released (hs.hanging p hh) t
  | adopt hc hpar hh => exact h.modify (f := fun m => { m with mpParent := INIT_PROC_NR }) rfl rfl
  | @adoptReap g s s' c p hc hpar hh hw hr =>
    have h' : Numbered (MM.adopt s p) :=
      h.modify (f := fun m => { m with mpParent := INIT_PROC_NR }) rfl rfl
    obtain ⟨t, -, rfl⟩ := release_eq hr
    refine h'.released ?_ t
    rw [MM.adopt, State.modify_mproc, if_pos rfl]
    exact hs.hanging p hh
  | settle hc => exact h
  | unpause p => exact MM.Numbered.unpause h p
  | wait hW hp hl hn ho hc => exact h.modify (f := fun m => { m with waiting := true }) rfl rfl
  | pause hW hp hl hn ho => exact h.modify (f := fun m => { m with paused := true }) rfl rfl
  | noMem hp hu ha => exact h.congr (fun _ => ⟨rfl, rfl⟩) rfl rfl
  | fork hW hp hl hn hfull ha hb hc hpid => exact h.fork hs hl hc hpid
  | exec hp hl hi hE hm =>
    obtain ⟨t₁, base, t₂, -, -, -, -, rfl⟩ := newMem_ok hm
    refine h.congr (fun q => ?_) rfl rfl
    rw [State.modify_mproc]
    split
    · rename_i hq
      dsimp only
      rw [hq, update_self]
      exact ⟨rfl, rfl⟩
    · rename_i hq
      dsimp only
      rw [update_of_ne hq]
      exact ⟨rfl, rfl⟩

theorem effects {A B : Prop} {E : State → Proc → Prop} {W : Proc → Prop} {x y : List Proc × State}
    (h : Numbered x.2) (hs : Sound x.1 x.2) (he : Effects A B E W x y) : Numbered y.2 := by
  induction he with
  | refl => exact h
  | tail he₁ he ih => exact ih.effect (hs.effects he₁) he

theorem same (h : Numbered s) (he : SameTable s s') : Numbered s' :=
  h.congr (fun q => by rw [he.mproc]; exact ⟨rfl, rfl⟩) he.procsInUse he.nextPid

/-- MM, FS and INIT are three. -/
theorem boot {t : HoleTable} {totMem : Nat} {b : Boot} (h : boot t totMem b = some s) :
    Numbered s := by
  have hq := boot_flow h
  simp only [Mproc.flow, Prod.mk.injEq] at hq
  have hn : s.procsInUse = 3 ∧ s.nextPid = 3 := by
    obtain ⟨base, t', -, -, rfl⟩ := boot_eq h
    exact ⟨rfl, rfl⟩
  refine ⟨?_, hn.2.ge, hn.2.trans_le (by decide), fun p q hp _ hpu _ _ => ?_⟩
  · unfold inUseCount
    simp only [fun q => (hq q).1]
    rw [hn.1]
    decide
  · rw [(hq p).1] at hpu
    exact absurd (of_decide_eq_true hpu) (not_le.mpr hp)

end Numbered

/-- Nobody waits who has a child that has terminated. -/
def Patient (s : State) : Prop :=
  ∀ q, (s.mproc q).hanging = true → (s.mproc (s.mproc q).mpParent).waiting = false

namespace Patient

variable {s s' : State}

/-- A change by which nobody terminates, goes to another parent or comes to wait. -/
theorem mono (h : Patient s) (hm : ∀ q, (s'.mproc q).hanging = true →
    (s.mproc q).hanging = true ∧ (s'.mproc q).mpParent = (s.mproc q).mpParent)
    (hw : ∀ q, (s'.mproc q).waiting = true → (s.mproc q).waiting = true) : Patient s' := by
  intro q hq
  obtain ⟨hh, hp⟩ := hm q hq
  rw [hp, Bool.eq_false_iff]
  exact fun hw' => (nomatch (h q hh).symm.trans (hw _ hw'))

theorem congr (h : Patient s) (hm : ∀ q, (s'.mproc q).flow = (s.mproc q).flow) : Patient s' := by
  refine h.mono (fun q hq => ?_) fun q hq => ?_
  · have hh : (s'.mproc q).hanging = (s.mproc q).hanging := congrArg (·.2.1) (hm q)
    exact ⟨hh ▸ hq, congrArg (·.2.2.2.2) (hm q)⟩
  · have hw : (s'.mproc q).waiting = (s.mproc q).waiting := congrArg (·.2.2.1) (hm q)
    exact hw ▸ hq

theorem released (h : Patient s) (p : Proc) (t : HoleTable) : Patient (released s p t) :=
  h.mono (fun _ hq => ⟨(released_hanging.mp hq).2, rfl⟩) fun _ hq => (released_waiting.mp hq).2

/-- A process terminates while its parent does not wait for it. -/
theorem hang (h : Patient s) {p : Proc} (hw : (s.mproc (s.mproc p).mpParent).waiting = false) :
    Patient (s.modify p fun m => { m with hanging := true }) := by
  have hwait : ∀ q, ((s.modify p fun m => { m with hanging := true }).mproc q).waiting =
      (s.mproc q).waiting := by
    intro q
    rw [State.modify_mproc]
    split
    · rename_i he
      rw [he]
    · rfl
  intro q hq
  rw [hwait, State.modify_mproc]
  rw [State.modify_mproc] at hq
  split at hq
  · rename_i he
    rw [if_pos he]
    exact hw
  · rename_i hne
    rw [if_neg hne]
    exact h q hq

theorem adopt_mproc (s : State) (p q : Proc) : (MM.adopt s p).mproc q =
    if q = p then { s.mproc p with mpParent := INIT_PROC_NR } else s.mproc q := State.modify_mproc ..

theorem adopt_waiting (s : State) (p q : Proc) :
    ((MM.adopt s p).mproc q).waiting = (s.mproc q).waiting := by
  rw [adopt_mproc]
  split
  · rename_i he
    rw [he]
  · rfl

/-- A child goes to INIT. -/
theorem adopt (h : Patient s) {p : Proc}
    (hp : (s.mproc p).hanging = true → (s.mproc INIT_PROC_NR).waiting = false) :
    Patient (adopt s p) := by
  intro q hq
  rw [adopt_waiting]
  rw [adopt_mproc] at hq ⊢
  split at hq
  · rename_i he
    rw [if_pos he]
    exact hp hq
  · rename_i hne
    rw [if_neg hne]
    exact h q hq

/-- A child goes to INIT and is reaped by it. -/
theorem adoptReap (h : Patient s) (p : Proc) (t : HoleTable) :
    Patient (MM.released (MM.adopt s p) p t) := by
  refine h.mono (fun q hq => ?_) fun q hq => ?_
  · obtain ⟨hne, hq⟩ := released_hanging.mp hq
    rw [adopt_mproc, if_neg hne] at hq
    refine ⟨hq, ?_⟩
    show ((MM.adopt s p).mproc q).mpParent = _
    rw [adopt_mproc, if_neg hne]
  · rw [← adopt_waiting s p]
    exact (released_waiting.mp hq).2

/-- A process comes to wait that has no child that has terminated. -/
theorem wait (h : Patient s) {who : Proc}
    (hc : ∀ p, (s.mproc p).mpParent = who → (s.mproc p).hanging = false) :
    Patient (s.modify who fun m => { m with waiting := true }) := by
  have hm : ∀ q, ((s.modify who fun m => { m with waiting := true }).mproc q).hanging =
      (s.mproc q).hanging ∧ ((s.modify who fun m => { m with waiting := true }).mproc q).mpParent =
      (s.mproc q).mpParent := by
    intro q
    rw [State.modify_mproc]
    split
    · rename_i he
      rw [he]
      exact ⟨rfl, rfl⟩
    · exact ⟨rfl, rfl⟩
  intro q hq
  rw [(hm q).1] at hq
  rw [(hm q).2, State.modify_mproc]
  split
  · rename_i he
    exact (nomatch (hc q he).symm.trans hq)
  · exact h q hq

theorem pause (h : Patient s) (who : Proc) :
    Patient (s.modify who fun m => { m with paused := true }) := by
  have hm : ∀ q, ∃ u, (s.modify who fun m => { m with paused := true }).mproc q =
      { s.mproc q with paused := u } := by
    intro q
    rw [State.modify_mproc]
    split
    · rename_i he
      exact ⟨true, by rw [he]⟩
    · exact ⟨_, rfl⟩
  refine h.mono (fun q hq => ?_) fun q hq => ?_
  all_goals obtain ⟨u, he⟩ := hm q
  · rw [he] at hq ⊢
    exact ⟨hq, rfl⟩
  · rw [he] at hq
    exact hq

/-- The slot of a new child was not in use, so it is nobody's parent. -/
theorem fork (h : Patient s) (hs : Sound [] s) {who child : Proc} {base n : Nat} {t : HoleTable}
    (hl : (s.mproc who).live = true) (hc : freeSlot s = some child)
    (hpid : assignPid child n (placeChild s who child t base) = some s') : Patient s' := by
  obtain ⟨-, hfree⟩ := hs.freeSlot hc
  obtain ⟨pid, hm, -⟩ := forkedState_mproc hpid
  intro q hq
  have hqc : q ≠ child := by
    rintro rfl
    rw [hm, if_pos rfl] at hq
    exact (nomatch (Mproc.live_eq_true.mp hl).2.symm.trans hq)
  rw [hm, if_neg hqc] at hq
  have hpar := hs.parent_ne hfree (hs.hanging q hq)
  rw [hm q, if_neg hqc, hm, if_neg hpar]
  exact h q hq

theorem unpause (h : Patient s) (p : Proc) : Patient (unpause s p) := by
  refine h.mono (fun q hq => ?_) fun q hq => ?_
  all_goals obtain ⟨w, u, he, hw, -⟩ := unpause_mproc s p q
  · rw [he] at hq ⊢
    exact ⟨hq, rfl⟩
  · rw [he] at hq
    exact hw hq

theorem effect {A B : Prop} {E : State → Proc → Prop} {W : Proc → Prop} {x y : List Proc × State} (h : Patient x.2)
    (hs : Sound x.1 x.2) (he : Effect A B E W x y) : Patient y.2 := by
  cases he with
  | quiet p hf => exact h.congr (modify_flow (hf.flow _))
  | vars mp d r hW => exact h.congr fun _ => rfl
  | @adjusted g s p d sp hp hu hd =>
    have hf : (adjust (s.mproc p) d sp).2.flow = (s.mproc p).flow := adjust_flow _ _ _
    exact h.congr (modify_flow (f := fun _ => (adjust (s.mproc p) d sp).2) hf)
  | act d hA => exact h.congr fun _ => rfl
  | mark hf hA => exact h.congr (modify_flow (hf.flow _))
  | @hang g s p hp hu hw hA hB =>
    have h' : Patient (s.noteExit p) := h.congr fun _ => rfl
    exact h'.hang hw
  | @exitReap s s' p hp hu hw hA hr =>
    have h' : Patient (s.noteExit p) := h.congr fun _ => rfl
    obtain ⟨t, -, rfl⟩ := release_eq hr
    exact h'.released p t
  | reap hW hp hh hl hn ho hr =>
    obtain ⟨t, -, rfl⟩ := release_eq hr
    exact MM.Patient.released h _ t
  | adopt hc hpar hh => exact MM.Patient.adopt h hh
  | adoptReap hc hpar hh hw hr =>
    obtain ⟨t, -, rfl⟩ := release_eq hr
    exact MM.Patient.adoptReap h _ t
  | settle hc => exact h
  | unpause p => exact MM.Patient.unpause h p
  | wait hW hp hl hn ho hc => exact MM.Patient.wait h hc
  | pause hW hp hl hn ho => exact MM.Patient.pause h _
  | noMem hp hu ha => exact h.congr fun _ => rfl
  | fork hW hp hl hn hfull ha hb hc hpid =>
    have h' := MM.Patient.fork h hs hl hc hpid
    exact h'.congr fun q => by rw [State.reply_mproc]
  | exec hp hl hi hE hm => exact h.congr (exec_flow hm)

theorem boot {t : HoleTable} {totMem : Nat} {b : Boot} (h : boot t totMem b = some s) :
    Patient s := fun q hq => by
  have hf := boot_flow h q
  simp only [Mproc.flow, Prod.mk.injEq] at hf
  rw [hf.2.1] at hq
  cases hq

end Patient

end Minix.MM
