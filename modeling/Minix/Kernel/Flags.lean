import Minix.Kernel.Sched

/-!
# The interrupt flag

`ready`, `unready` and `sched` once more, with the interrupt-enable bit of the processor and
the one word in which `lock` saves the flags. What they do between `lock` and `restore` is
what they do to the queues; the paths of `unready` that return in between leave interrupts
disabled.
-/

namespace Minix.Kernel

open Intrusive Function

/-- The interrupt-enable bit of the flags, and that bit of the flags in `lockvar`. -/
structure Cpu where
  intFlag : Bool
  lockvar : Bool
  deriving DecidableEq

/-- Disable CPU interrupts. -/
def lock (c : Cpu) : Cpu := { intFlag := false, lockvar := c.intFlag }

/-- Restore enable/disable bit to the value it had before last `lock`. -/
def restore (c : Cpu) : Cpu := { c with intFlag := c.lockvar }

theorem restore_lock (c : Cpu) : (restore (lock c)).intFlag = c.intFlag := rfl

/-- The queues, and the processor that works on them. -/
structure Locked where
  k : Sched
  cpu : Cpu

namespace Locked

/-- Add `rp` to the end of one of the queues, with interrupts disabled. -/
def ready (m : Locked) (rp : Slot) : Locked :=
  let cpu := lock m.cpu
  { k := Kernel.ready m.k rp, cpu := restore cpu }

/-- A process has blocked. Two returns are not preceded by `restore`. -/
def unready (m : Locked) (rp : Slot) : Option Locked :=
  let cpu := lock m.cpu
  let k := m.k
  let q := queueOf rp
  match k.rdyHead q with
  | none => some { k, cpu }
  | some xp =>
    if xp = rp then
      let k := pickProc { k with rdyHead := update k.rdyHead q (k.pNextready xp) }
      some { k, cpu := restore cpu }
    else match search k.pNextready (fun x => k.pNextready x = some rp) 25 none (some xp) with
      | none => none
      | some (_, none) => some { k, cpu }
      | some (_, some xp) =>
        let k := { k with pNextready := update k.pNextready xp (k.pNextready rp) }
        (search k.pNextready (fun x => k.pNextready x = none) 25 none (some xp)).map fun r =>
          { k := { k with rdyTail := update k.rdyTail q r.2 }, cpu := restore cpu }

/-- The current process has run too long. -/
def sched (m : Locked) : Locked :=
  let cpu := lock m.cpu
  if m.k.rdyHead .USER_Q = none then { m with cpu := restore cpu }
  else { k := Kernel.sched m.k, cpu := restore cpu }

variable {m m' : Locked} {rp : Slot}

/-- The flags decide nothing about the queues. -/
theorem unready_k (m : Locked) (rp : Slot) :
    (unready m rp).map Locked.k = Kernel.unready m.k rp := by
  unfold unready Kernel.unready
  cases hhead : m.k.rdyHead (queueOf rp) with
  | none => simp only [hhead, Option.map_some]
  | some xp =>
    simp only [hhead]
    by_cases hxp : xp = rp
    · simp only [if_pos hxp, Option.map_some]
    · simp only [if_neg hxp]
      rcases search m.k.pNextready _ 25 none (some xp) with _ | ⟨_, _ | yp⟩
      · rfl
      · rfl
      · simp only [Option.map_map, comp_def]

/-- `rp` is reached by the links from the head of the queue of its class. -/
def OnQueue (k : Sched) (rp : Slot) : Prop :=
  ∃ l t, Seg k.pNextready (k.rdyHead (queueOf rp)) (l ++ [rp]) t

/-- Where the queues are lists, the processes on a queue are the members of its list. -/
theorem onQueue_iff {X : Slot → Prop} {L : Queue → List Slot} {k : Sched} (h : Queued k X L) :
    OnQueue k rp ↔ rp ∈ L (queueOf rp) := by
  have hc := h.chain (queueOf rp)
  constructor
  · rintro ⟨l, t, hs⟩
    exact hc.subset hs (by simp)
  · intro hm
    obtain ⟨l₁, l₂, hl⟩ := List.append_of_mem hm
    rw [hl, List.append_cons] at hc
    obtain ⟨t, hs, -⟩ := seg_append.mp hc
    exact ⟨l₁, t, hs⟩

/-- A process at no place of a chain that links to it, and not at its head, is not reached. -/
theorem not_onQueue {k : Sched} {xp : Slot} {l : List Slot}
    (hhead : k.rdyHead (queueOf rp) = some xp) (hxp : xp ≠ rp)
    (hc : Chain k.pNextready (some xp) l) (hl : ∀ a ∈ l, k.pNextready a ≠ some rp) :
    ¬OnQueue k rp := by
  rintro ⟨l', t, hs⟩
  rw [hhead] at hs
  rcases List.eq_nil_or_concat l' with rfl | ⟨l', p, rfl⟩
  · exact hxp (Option.some.inj hs.1)
  · rw [List.concat_eq_append, List.append_assoc] at hs
    have hp : p ∈ l := hc.subset hs (by simp)
    obtain ⟨_, _, _, hnext, _⟩ := seg_append.mp hs
    exact hl p hp hnext

/-- `restore` is reached exactly when the process is found on its queue. -/
theorem unready_cases (h : unready m rp = some m') :
    m'.cpu = lock m.cpu ∧ ¬OnQueue m.k rp ∨
      m'.cpu = restore (lock m.cpu) ∧ OnQueue m.k rp := by
  unfold unready at h
  cases hhead : m.k.rdyHead (queueOf rp) with
  | none =>
    simp only [hhead, Option.some.injEq] at h
    refine Or.inl ⟨h ▸ rfl, ?_⟩
    rintro ⟨l, t, hs⟩
    rw [hhead] at hs
    cases l <;> exact nomatch hs.1
  | some xp =>
    simp only [hhead] at h
    by_cases hxp : xp = rp
    · simp only [if_pos hxp, Option.some.injEq] at h
      exact Or.inr ⟨h ▸ rfl, [], m.k.pNextready rp, hxp ▸ hhead, rfl⟩
    · simp only [if_neg hxp] at h
      cases hsearch : search m.k.pNextready (fun x => m.k.pNextready x = some rp) 25 none
          (some xp) with
      | none => simp only [hsearch, reduceCtorEq] at h
      | some r =>
        obtain ⟨q, _ | yp⟩ := r
        · simp only [hsearch, Option.some.injEq] at h
          obtain ⟨l, hc, hl⟩ := search_chain hsearch
          exact Or.inl ⟨h ▸ rfl, not_onQueue hhead hxp hc fun a ha => of_decide_eq_false (hl a ha)⟩
        · simp only [hsearch, Option.map_eq_some_iff] at h
          obtain ⟨r, -, rfl⟩ := h
          -- the process behind `yp` is the one that was looked for
          obtain ⟨l, hs⟩ := search_seg hsearch
          have hnext : m.k.pNextready yp = some rp := by
            simpa using search_sound hsearch
          refine Or.inr ⟨rfl, l ++ [yp], m.k.pNextready rp, hhead ▸ seg_append.mpr ⟨_, hs, ?_⟩⟩
          exact ⟨hnext, rfl⟩

/-- `unready` returns whenever the queues are lists. -/
theorem unready_returns {X : Slot → Prop} {L : Queue → List Slot} (h : Queued m.k X L)
    (rp : Slot) : (unready m rp).isSome := by
  obtain ⟨k', hk', -⟩ := h.unready rp
  rw [← unready_k] at hk'
  obtain ⟨m', hm', -⟩ := Option.map_eq_some_iff.mp hk'
  rw [hm', Option.isSome_some]

/-- `ready` and `sched` return with the interrupt flag as it was. `unready` returns with the flag
as it was exactly when the flag was clear or the process was on its queue. -/
theorem flag_kept_iff (m : Locked) (rp : Slot) :
    (ready m rp).cpu.intFlag = m.cpu.intFlag ∧ (sched m).cpu.intFlag = m.cpu.intFlag ∧
      (∀ m', unready m rp = some m' →
        (m'.cpu.intFlag = m.cpu.intFlag ↔ m.cpu.intFlag = false ∨ OnQueue m.k rp)) ∧
      ∀ X L, Queued m.k X L → (unready m rp).isSome := by
  refine ⟨restore_lock m.cpu, ?_, fun m' h => ?_, fun X L h => unready_returns h rp⟩
  · unfold sched
    split <;> exact restore_lock m.cpu
  · rcases unready_cases h with ⟨hcpu, hnot⟩ | ⟨hcpu, hon⟩
    · rw [hcpu, or_iff_left hnot]
      exact eq_comm
    · rw [hcpu, restore_lock]
      exact iff_of_true rfl (Or.inr hon)

/-- The system task runs with interrupts enabled while every process is blocked. -/
def taskRuns : Locked :=
  { k :=
      { pNextready := fun _ => none
        rdyHead := fun q => if q = .TASK_Q then some 6 else none
        rdyTail := fun q => if q = .TASK_Q then some 6 else none
        curProc := -2
        prevProc := IDLE
        procPtr := 6
        billPtr := HARDWARE }
    cpu := { intFlag := true, lockvar := true } }

/-- Taking a blocked process off its queue, as its exit does, leaves interrupts disabled. -/
theorem flag_lost : ∃ m', unready taskRuns 11 = some m' ∧ taskRuns.cpu.intFlag = true ∧
    m'.cpu.intFlag = false := ⟨_, rfl, rfl, rfl⟩

end Locked

end Minix.Kernel
