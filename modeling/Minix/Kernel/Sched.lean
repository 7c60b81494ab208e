import Minix.Lib.DList

/-!
# Scheduling

The three queues of processes that can run, threaded through `p_nextready`, and the
choice of the next process. A queue has a tail pointer that is only kept while the
queue is not empty.

A call that follows links for ever has no result.
-/

namespace Minix.Kernel

open Intrusive Function

/-- Tasks in the transfer vector. -/
abbrev NR_TASKS : Nat := 8

/-- A literal stands for the number of a task. -/
instance (priority := 2000) taskNumbers : NeZero (NR_TASKS + 1) := ⟨by decide⟩

/-- Slots for user processes in the process table. -/
abbrev NR_PROCS : Nat := 16

/-- A `struct proc *` that is not `NIL_PROC`: the slots of the tasks, then those of the processes. -/
abbrev Slot : Type := Fin (NR_TASKS + NR_PROCS)

/-- The first user not part of operating system. -/
abbrev LOW_USER : Int := 2

/-- Nobody is running. -/
abbrev IDLE : Int := -999

/-- The process number of a slot. -/
def procNr (rp : Slot) : Int := rp.val - NR_TASKS

/-- The slot that stands for the hardware: it sends interrupt messages and never runs. -/
abbrev HARDWARE : Slot := 7

/-- The memory manager. -/
abbrev MM : Slot := 8

/-- The scheduling queues. -/
inductive Queue where
  | TASK_Q
  | SERVER_Q
  | USER_Q
  deriving DecidableEq

/-- The queue on which a process waits for its turn. -/
def queueOf (rp : Slot) : Queue :=
  if procNr rp < 0 then .TASK_Q else if procNr rp < LOW_USER then .SERVER_Q else .USER_Q

/-- The scheduling state. -/
structure Sched where
  /-- pointer to next ready process -/
  pNextready : Slot → Option Slot
  /-- pointers to ready list headers -/
  rdyHead : Queue → Option Slot
  /-- pointers to ready list tails -/
  rdyTail : Queue → Option Slot
  curProc : Int
  prevProc : Int
  /-- &proc[cur_proc] -/
  procPtr : Slot
  /-- ptr to process to bill for clock ticks -/
  billPtr : Slot

/-- The queue from which the next process is taken. -/
def pickQueue (k : Sched) : Queue :=
  if k.rdyHead .TASK_Q ≠ none then .TASK_Q
  else if k.rdyHead .SERVER_Q ≠ none then .SERVER_Q
  else .USER_Q

/-- Decide who to run now. -/
def pickProc (k : Sched) : Sched :=
  match k.rdyHead (pickQueue k) with
  | some rp =>
    { k with
      prevProc := k.curProc
      curProc := procNr rp
      procPtr := rp
      billPtr := if procNr rp ≥ LOW_USER then rp else k.billPtr }
  | none =>
    { k with prevProc := k.curProc, curProc := IDLE, procPtr := HARDWARE, billPtr := HARDWARE }

/-- Add `rp` to the end of one of the queues of runnable processes. -/
def ready (k : Sched) (rp : Slot) : Sched :=
  let q := queueOf rp
  let k : Sched :=
    if k.rdyHead q = none then { k with rdyHead := update k.rdyHead q (some rp) }
    else { k with pNextready := relink k.pNextready (k.rdyTail q) (some rp) }
  { k with
    rdyTail := update k.rdyTail q (some rp)
    pNextready := update k.pNextready rp none }

/-- A process has blocked. It is looked for in the body of its queue when it is not the head, and
need not be there. -/
def unready (k : Sched) (rp : Slot) : Option Sched :=
  let q := queueOf rp
  match k.rdyHead q with
  | none => some k
  | some xp =>
    if xp = rp then some (pickProc { k with rdyHead := update k.rdyHead q (k.pNextready xp) })
    else match search k.pNextready (fun x => k.pNextready x = some rp) 25 none (some xp) with
      | none => none
      | some (_, none) => some k
      | some (_, some xp) =>
        let k := { k with pNextready := update k.pNextready xp (k.pNextready rp) }
        -- the last process behind the gap becomes the tail
        (search k.pNextready (fun x => k.pNextready x = none) 25 none (some xp)).map fun r =>
          { k with rdyTail := update k.rdyTail q r.2 }

/-- The current process has run too long: put it on the end of the user queue. -/
def sched (k : Sched) : Sched :=
  match k.rdyHead .USER_Q with
  | none => k
  | some hd =>
    let k := { k with
      pNextready := relink k.pNextready (k.rdyTail .USER_Q) (some hd)
      rdyTail := update k.rdyTail .USER_Q (some hd) }
    let k := { k with rdyHead := update k.rdyHead .USER_Q (k.pNextready hd) }
    pickProc { k with pNextready := update k.pNextready hd none }

/-- The queues are the lists `L`, and on them are exactly the processes in `X`, each on the queue
of its class. -/
structure Queued (k : Sched) (X : Slot → Prop) (L : Queue → List Slot) : Prop where
  chain : ∀ q, Chain k.pNextready (k.rdyHead q) (L q)
  tail : ∀ q t, (L q).getLast? = some t → k.rdyTail q = some t
  mem : ∀ q rp, rp ∈ L q ↔ queueOf rp = q ∧ X rp

variable {k k' : Sched} {X : Slot → Prop} {L : Queue → List Slot} {rp : Slot}

/-- Choosing who runs moves nobody. -/
theorem pickProc_queues (k : Sched) : (pickProc k).pNextready = k.pNextready ∧
    (pickProc k).rdyHead = k.rdyHead ∧ (pickProc k).rdyTail = k.rdyTail := by
  unfold pickProc
  split <;> exact ⟨rfl, rfl, rfl⟩

theorem Queued.pickProc (h : Queued k X L) : Queued (pickProc k) X L := by
  obtain ⟨h₁, h₂, h₃⟩ := pickProc_queues k
  refine ⟨?_, ?_, h.mem⟩
  · rw [h₁, h₂]
    exact h.chain
  · rw [h₃]
    exact h.tail

/-- The head of the highest queue that is not empty. -/
def firstReady (k : Sched) : Option Slot :=
  (k.rdyHead .TASK_Q).or ((k.rdyHead .SERVER_Q).or (k.rdyHead .USER_Q))

theorem rdyHead_pickQueue (k : Sched) : k.rdyHead (pickQueue k) = firstReady k := by
  unfold pickQueue firstReady
  cases ht : k.rdyHead .TASK_Q with
  | some rp => rw [if_pos (by simp), ht, Option.some_or]
  | none =>
    rw [if_neg (by simp), Option.none_or]
    cases hs : k.rdyHead .SERVER_Q with
    | some rp => rw [if_pos (by simp), hs, Option.some_or]
    | none => rw [if_neg (by simp), Option.none_or]

/-- `pick_proc` runs the head of the highest queue that is not empty, or nobody. -/
theorem pickProc_spec (k : Sched) :
    (pickProc k).procPtr = (firstReady k).getD HARDWARE ∧
      (pickProc k).curProc = ((firstReady k).map procNr).getD IDLE := by
  unfold pickProc
  rw [rdyHead_pickQueue]
  cases firstReady k <;> exact ⟨rfl, rfl⟩

/-- A queue fits the fuel of a walk. -/
theorem Queued.length_lt (h : Queued k X L) (q : Queue) : (L q).length < 25 := by
  have := (h.chain q).length_le
  rw [Fintype.card_fin] at this
  exact Nat.lt_succ_of_le this

/-- No process is on two queues. -/
theorem Queued.disjoint (h : Queued k X L) {q q' : Queue} (hq : rp ∈ L q) (hq' : rp ∈ L q') :
    q = q' := ((h.mem q rp).mp hq).1.symm.trans ((h.mem q' rp).mp hq').1

/-- `ready` adds a process that is on no queue. -/
theorem Queued.ready (h : Queued k X L) (hX : ¬X rp) :
    Queued (ready k rp) (fun s => s = rp ∨ X s)
      (update L (queueOf rp) (L (queueOf rp) ++ [rp])) := by
  have hout : ∀ q, rp ∉ L q := fun q hm => hX ((h.mem q rp).mp hm).2
  have hmem : ∀ q s, s ∈ update L (queueOf rp) (L (queueOf rp) ++ [rp]) q ↔
      queueOf s = q ∧ (s = rp ∨ X s) := by
    intro q s
    by_cases hq : q = queueOf rp
    · rw [hq, update_self, List.mem_append, List.mem_singleton, h.mem]
      constructor
      · rintro (⟨hs, hx⟩ | rfl)
        · exact ⟨hs, Or.inr hx⟩
        · exact ⟨rfl, Or.inl rfl⟩
      · rintro ⟨hs, rfl | hx⟩
        · exact Or.inr rfl
        · exact Or.inl ⟨hs, hx⟩
    · rw [update_of_ne hq, h.mem]
      constructor
      · exact fun ⟨hs, hx⟩ => ⟨hs, Or.inr hx⟩
      · rintro ⟨hs, rfl | hx⟩
        · exact absurd hs.symm hq
        · exact ⟨hs, hx⟩
  unfold Kernel.ready
  rcases List.eq_nil_or_concat (L (queueOf rp)) with hnil | ⟨l, t, hl⟩
  · have hhead : k.rdyHead (queueOf rp) = none := by
      have hc := h.chain (queueOf rp)
      rw [hnil] at hc
      exact hc
    simp only [if_pos hhead]
    refine ⟨fun q => ?_, fun q t ht => ?_, hmem⟩ <;> dsimp only
    · by_cases hq : q = queueOf rp
      · rw [hq, update_self, update_self, hnil]
        exact ⟨rfl, update_self ..⟩
      · rw [update_of_ne hq, update_of_ne hq]
        exact (h.chain q).update (hout q)
    · by_cases hq : q = queueOf rp
      · rw [hq, update_self, List.getLast?_concat] at ht
        rw [hq, update_self, ht]
      · rw [update_of_ne hq] at ht ⊢
        exact h.tail q t ht
  · rw [List.concat_eq_append] at hl
    have hc := h.chain (queueOf rp)
    have htail := h.tail (queueOf rp) t (by rw [hl, List.getLast?_concat])
    have hhead : ¬k.rdyHead (queueOf rp) = none := by
      rw [hc.head_eq, hl]
      cases l <;> simp
    simp only [if_neg hhead, htail, relink_some]
    refine ⟨fun q => ?_, fun q t ht => ?_, hmem⟩ <;> dsimp only
    · by_cases hq : q = queueOf rp
      · rw [hq, update_self, hl, List.append_assoc]
        rw [hl] at hc
        exact hc.append (hl ▸ hout _)
      · have ht : t ∉ L q := fun hm => hq (h.disjoint hm (hl ▸ by simp))
        rw [update_of_ne hq]
        exact ((h.chain q).update ht).update (hout q)
    · by_cases hq : q = queueOf rp
      · rw [hq, update_self, List.getLast?_concat] at ht
        rw [hq, update_self, ht]
      · rw [update_of_ne hq] at ht ⊢
        exact h.tail q t ht

/-- Who is on the queues without one process. -/
theorem Queued.mem_erase (h : Queued k X L) (rp : Slot) (q : Queue) (s : Slot) :
    s ∈ (L q).erase rp ↔ queueOf s = q ∧ s ≠ rp ∧ X s := by
  rw [(h.chain q).nodup.mem_erase_iff, h.mem]
  exact and_left_comm

/-- The other queues are the same. -/
theorem Queued.erase_other (h : Queued k X L) {rp : Slot} {q : Queue} (hq : q ≠ queueOf rp) :
    (L q).erase rp = L q :=
  List.erase_of_not_mem fun hm => hq ((h.mem q rp).mp hm).1.symm

/-- The head of its queue is removed: somebody else runs now. -/
theorem Queued.unready_head (h : Queued k X L) {rp : Slot} {l : List Slot}
    (hl : L (queueOf rp) = rp :: l) :
    ∃ k', unready k rp = some k' ∧
      Queued k' (fun s => s ≠ rp ∧ X s) (fun q => (L q).erase rp) := by
  have hc := h.chain (queueOf rp)
  rw [hl] at hc
  have herase : (L (queueOf rp)).erase rp = l := by rw [hl, List.erase_cons_head]
  have hhead : k.rdyHead (queueOf rp) = some rp := hc.head_eq
  unfold Kernel.unready
  simp only [hhead, if_true]
  refine ⟨_, rfl, Queued.pickProc ⟨fun q => ?_, fun q t ht => ?_, h.mem_erase rp⟩⟩ <;> dsimp only
  · by_cases hq : q = queueOf rp
    · rw [hq, update_self, herase]
      exact hc.2
    · rw [update_of_ne hq, h.erase_other hq]
      exact h.chain q
  · refine h.tail q t ?_
    by_cases hq : q = queueOf rp
    · rw [hq, herase] at ht
      rw [hq, hl, List.getLast?_cons, ht]
      rfl
    · rwa [h.erase_other hq] at ht

/-- A process that has another one in front of it is removed: the walk along the queue finds the gap,
and goes on from there to the last process. -/
theorem Queued.unready_inner (h : Queued k X L) {rp p : Slot} {l l₂ : List Slot}
    (hl : L (queueOf rp) = l ++ p :: rp :: l₂) :
    ∃ k', unready k rp = some k' ∧
      Queued k' (fun s => s ≠ rp ∧ X s) (fun q => (L q).erase rp) := by
  have hc := h.chain (queueOf rp)
  have hlen := h.length_lt (queueOf rp)
  have hnd := hc.nodup
  rw [hl] at hc hnd hlen
  have hl₁ : rp ∉ l ++ [p] := by
    rw [← List.singleton_append, ← List.append_assoc] at hnd
    exact fun hm => (List.nodup_append.mp hnd).2.2 rp hm rp (List.mem_cons_self ..) rfl
  have herase : (L (queueOf rp)).erase rp = l ++ p :: l₂ := by
    rw [hl, ← List.singleton_append, ← List.append_assoc, List.erase_append_right _ hl₁,
      List.erase_cons_head, List.append_assoc, List.singleton_append]
  have hnext : k.pNextready p = some rp := by
    obtain ⟨_, _, _, hp⟩ := seg_append.mp hc
    exact hp.1
  have hrp : k.pNextready rp = l₂.head? := by
    rw [← List.singleton_append, ← List.append_assoc] at hc
    exact hc.next_eq
  have hfuel : l.length < 25 := by
    rw [List.length_append] at hlen
    omega
  have hsearch := search_some (p := fun x => k.pNextready x = some rp) none hc hfuel
    (fun b hb => decide_eq_false (hc.next_ne_of_mem hb)) (decide_eq_true hnext)
  obtain ⟨x, hhead, hne⟩ : ∃ x, k.rdyHead (queueOf rp) = some x ∧ x ≠ rp := by
    rw [hc.head_eq]
    cases l with
    | nil => exact ⟨p, rfl, fun e => hl₁ (by simp [e])⟩
    | cons x l => exact ⟨x, rfl, fun e => hl₁ (by simp [e])⟩
  have hgap : Chain (update k.pNextready p (k.pNextready rp)) (k.rdyHead (queueOf rp))
      (l ++ p :: l₂) := hc.unlink
  have htail : Chain (update k.pNextready p (k.pNextready rp)) (some p) (p :: l₂) :=
    Seg.suffix hgap
  have hfuel' : (p :: l₂).length < 25 := by
    simp only [List.length_append, List.length_cons] at hlen ⊢
    omega
  obtain ⟨r, hr, hlast⟩ := Option.map_eq_some_iff.mp
    (search_find (p := fun x => update k.pNextready p (k.pNextready rp) x = none) none htail hfuel')
  rw [htail.find_last] at hlast
  rw [hhead] at hsearch
  unfold Kernel.unready
  simp only [hhead, if_neg hne, hsearch, hr, Option.map_some]
  refine ⟨_, rfl, fun q => ?_, fun q t ht => ?_, h.mem_erase rp⟩ <;> dsimp only
  · by_cases hq : q = queueOf rp
    · rw [hq, herase]
      exact hgap
    · have hp : p ∉ L q := fun hm => hq (h.disjoint hm (hl ▸ by simp))
      rw [h.erase_other hq]
      exact (h.chain q).update hp
  · by_cases hq : q = queueOf rp
    · rw [hq, herase, List.getLast?_append] at ht
      rw [hq, update_self, hlast]
      cases hz : (p :: l₂).getLast? with
      | none => simp at hz
      | some z => rwa [hz, Option.some_or] at ht
    · rw [update_of_ne hq]
      rw [h.erase_other hq] at ht
      exact h.tail q t ht

/-- Nothing is removed when the process is on no queue. -/
theorem Queued.unready_absent (h : Queued k X L) {rp : Slot} (hin : rp ∉ L (queueOf rp)) :
    ∃ k', unready k rp = some k' ∧
      Queued k' (fun s => s ≠ rp ∧ X s) (fun q => (L q).erase rp) := by
  have hc := h.chain (queueOf rp)
  have hlen := h.length_lt (queueOf rp)
  have hsame : (fun q => (L q).erase rp) = L := by
    funext q
    by_cases hq : q = queueOf rp
    · rw [hq, List.erase_of_not_mem hin]
    · exact h.erase_other hq
  have hk : Queued k (fun s => s ≠ rp ∧ X s) (fun q => (L q).erase rp) := by
    refine ⟨fun q => ?_, fun q t ht => h.tail q t (congrFun hsame q ▸ ht), h.mem_erase rp⟩
    exact (congrFun hsame q).symm ▸ h.chain q
  refine ⟨k, ?_, hk⟩
  unfold Kernel.unready
  simp only [hc.head_eq]
  cases hl : L (queueOf rp) with
  | nil => rfl
  | cons x l =>
    rw [hl] at hc hin hlen
    have hne : x ≠ rp := fun e => hin (by simp [e])
    -- nobody on the queue links to a process that is not on it
    have hno : ∀ y ∈ x :: l, decide (k.pNextready y = some rp) = false := by
      intro y hy
      obtain ⟨m₁, m₂, hm⟩ := List.append_of_mem hy
      rw [hm] at hc hin
      refine decide_eq_false ?_
      rw [hc.next_eq]
      cases m₂ with
      | nil => simp
      | cons z m₂ => exact fun e => hin (by simp [Option.some.inj e])
    have hx : Chain k.pNextready (some x) (x :: l) := ⟨rfl, hc.2⟩
    have hsearch := search_none none hx hlen hno
    simp only [List.head?_cons, if_neg hne, hsearch]

/-- `unready` removes a process, whether it is on a queue or not. -/
theorem Queued.unready (h : Queued k X L) (rp : Slot) :
    ∃ k', unready k rp = some k' ∧
      Queued k' (fun s => s ≠ rp ∧ X s) (fun q => (L q).erase rp) := by
  by_cases hin : rp ∈ L (queueOf rp)
  · obtain ⟨l₁, l₂, hl⟩ := List.append_of_mem hin
    rcases List.eq_nil_or_concat l₁ with rfl | ⟨l, p, rfl⟩
    · exact h.unready_head hl
    · rw [List.concat_eq_append, List.append_assoc, List.singleton_append] at hl
      exact h.unready_inner hl
  · exact h.unready_absent hin

/-- `sched` keeps everybody on the queue. -/
theorem Queued.sched (h : Queued k X L) : ∃ L', Queued (sched k) X L' := by
  have hc := h.chain .USER_Q
  unfold Kernel.sched
  rw [hc.head_eq]
  cases hl : L .USER_Q with
  | nil => exact ⟨L, h⟩
  | cons a l =>
    rw [hl] at hc
    obtain ⟨t, ht⟩ : ∃ t, (a :: l).getLast? = some t := ⟨_, List.getLast?_eq_some_getLast (by simp)⟩
    have htail : k.rdyTail .USER_Q = some t := h.tail .USER_Q t (hl ▸ ht)
    have hmem : ∀ q s, s ∈ update L .USER_Q (l ++ [a]) q ↔ queueOf s = q ∧ X s := by
      intro q s
      by_cases hq : q = .USER_Q
      · rw [hq, update_self, ← h.mem, hl, List.mem_append, List.mem_singleton, List.mem_cons, or_comm]
      · rw [update_of_ne hq, h.mem]
    -- moving the head behind the last process closes the ring and opens it one process further
    have hrot : Chain (update (update k.pNextready t (some a)) a none)
        (update k.pNextready t (some a) a) (l ++ [a]) := by
      have ha := (List.nodup_cons.mp hc.nodup).1
      rcases List.eq_nil_or_concat l with rfl | ⟨l, z, rfl⟩
      · obtain rfl : a = t := Option.some.inj ht
        rw [update_self]
        exact ⟨rfl, update_self ..⟩
      · rw [List.concat_eq_append] at hc ht ha ⊢
        rw [← List.cons_append, List.getLast?_concat] at ht
        obtain rfl : z = t := Option.some.inj ht
        have hne : a ≠ z := fun e => ha (by simp [e])
        rw [update_of_ne hne, List.append_assoc]
        exact hc.2.append ha
    simp only [List.head?_cons, htail, relink_some]
    refine ⟨update L .USER_Q (l ++ [a]), Queued.pickProc ⟨fun q => ?_, fun q z hz => ?_, hmem⟩⟩ <;>
      dsimp only
    · by_cases hq : q = .USER_Q
      · rw [hq, update_self, update_self]
        exact hrot
      · have hnot : ∀ s ∈ L .USER_Q, s ∉ L q := fun s hs hm => hq (h.disjoint hm hs)
        have hta : t ∈ L .USER_Q := hl ▸ List.mem_of_getLast? ht
        rw [update_of_ne hq, update_of_ne hq]
        exact ((h.chain q).update (hnot t hta)).update (hnot a (hl ▸ List.mem_cons_self ..))
    · by_cases hq : q = .USER_Q
      · rw [hq, update_self, List.getLast?_concat] at hz
        rw [hq, update_self, hz]
      · rw [update_of_ne hq] at hz ⊢
        exact h.tail q z hz

end Minix.Kernel
