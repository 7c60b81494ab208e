import Minix.Kernel.Sched

/-!
# Processes that wait to send

Every process heads a queue of the processes that are blocked sending to it, threaded
through `p_sendlink`. Senders are added at the end, a receiver takes the first sender that
it accepts, and a process that exits is looked for on the queues of all others.
-/

namespace Minix.Kernel

open Intrusive Function

/-- Accepts a message from any source. -/
abbrev ANY : Int := NR_PROCS + 100

/-- A receiver that asks for messages from `src` accepts one from `sender`. -/
def accepts (src : Int) (sender : Slot) : Bool := src == ANY || src == procNr sender

/-- The queues of the processes that wait to send. -/
structure Callers where
  /-- head of list of procs wishing to send -/
  pCallerq : Slot → Option Slot
  /-- link to next proc wishing to send -/
  pSendlink : Slot → Option Slot

/-- Put `caller` at the end of the queue of `dest`. -/
def enqueue (c : Callers) (caller dest : Slot) : Option Callers :=
  let linked : Option Callers :=
    match c.pCallerq dest with
    | none => some { c with pCallerq := update c.pCallerq dest (some caller) }
    | some nextPtr =>
      (search c.pSendlink (fun x => c.pSendlink x = none) 25 none (some nextPtr)).map fun r =>
        { c with pSendlink := relink c.pSendlink r.2 (some caller) }
  linked.map fun c => { c with pSendlink := update c.pSendlink caller none }

/-- Look for an acceptable sender on the queue of `caller`, with the sender in front of it. -/
def findSender (c : Callers) (caller : Slot) (src : Int) : Option (Option Slot × Option Slot) :=
  search c.pSendlink (accepts src) 25 none (c.pCallerq caller)

/-- Take `sender` off the queue of `caller`. -/
def takeSender (c : Callers) (caller : Slot) (prevPtr : Option Slot) (sender : Slot) : Callers :=
  if c.pCallerq caller = some sender then
    { c with pCallerq := update c.pCallerq caller (c.pSendlink sender) }
  else { c with pSendlink := relink c.pSendlink prevPtr (c.pSendlink sender) }

/-- Check the given slots to see if the exiting process is queued. The search ends when it is at
the front of a queue, but not when it is in the middle of one. -/
def dropSender (rc : Slot) : List Slot → Callers → Option Callers
  | [], c => some c
  | rp :: l, c =>
    match c.pCallerq rp with
    | none => dropSender rc l c
    | some np =>
      if np = rc then some { c with pCallerq := update c.pCallerq rp (c.pSendlink rc) }
      else match search c.pSendlink (fun np => c.pSendlink np = some rc) 25 none (some np) with
        | none => none
        | some (_, none) => dropSender rc l c
        | some (_, some np) =>
          dropSender rc l { c with pSendlink := update c.pSendlink np (c.pSendlink rc) }

/-- The fields of the child are those of the parent. -/
def copyCallers (c : Callers) (parent child : Slot) : Callers where
  pCallerq := update c.pCallerq child (c.pCallerq parent)
  pSendlink := update c.pSendlink child (c.pSendlink parent)

/-- The queues are the lists `W`, and no process is on two of them. -/
structure Waiting (c : Callers) (W : Slot → List Slot) : Prop where
  chain : ∀ d, Chain c.pSendlink (c.pCallerq d) (W d)
  apart : ∀ s d d', s ∈ W d → s ∈ W d' → d = d'

variable {c : Callers} {W : Slot → List Slot} {caller dest sender parent child rc rp : Slot}

/-- A queue fits the fuel of a walk. -/
theorem Waiting.length_lt (h : Waiting c W) (d : Slot) : (W d).length < 25 := by
  have := (h.chain d).length_le
  rw [Fintype.card_fin] at this
  exact Nat.lt_succ_of_le this

/-- Nobody waits on a queue without a head. -/
theorem Waiting.nil {d : Slot} (h : Waiting c W) (hd : c.pCallerq d = none) : W d = [] := by
  have hc := (h.chain d).head_eq
  rw [hd] at hc
  exact List.head?_eq_none_iff.mp hc.symm

/-- A sender is queued behind those that wait already. -/
theorem Waiting.enqueue (h : Waiting c W) (hout : ∀ d, caller ∉ W d) (dest : Slot) :
    ∃ c', enqueue c caller dest = some c' ∧
      Waiting c' (update W dest (W dest ++ [caller])) := by
  have hother : ∀ s d, s ∈ update W dest (W dest ++ [caller]) d → s ∈ W d ∨ s = caller ∧ d = dest := by
    intro s d hs
    by_cases hd : d = dest
    · rw [hd, update_self, List.mem_append, List.mem_singleton] at hs
      exact hs.imp (hd ▸ id) fun e => ⟨e, hd⟩
    · rw [update_of_ne hd] at hs
      exact Or.inl hs
  have hapart : ∀ s d d', s ∈ update W dest (W dest ++ [caller]) d →
      s ∈ update W dest (W dest ++ [caller]) d' → d = d' := by
    intro s d d' hs hs'
    rcases hother s d hs with hw | ⟨rfl, rfl⟩ <;> rcases hother s d' hs' with hw' | ⟨e, rfl⟩
    · exact h.apart s d d' hw hw'
    · exact absurd (e ▸ hw) (hout d)
    · exact absurd hw' (hout d')
    · rfl
  unfold Kernel.enqueue
  rcases List.eq_nil_or_concat (W dest) with hnil | ⟨l, t, hl⟩
  · have hhead : c.pCallerq dest = none := (h.chain dest).head_eq.trans (by rw [hnil]; rfl)
    simp only [hhead, Option.map_some]
    refine ⟨_, rfl, fun d => ?_, hapart⟩
    dsimp only
    by_cases hd : d = dest
    · rw [hd, update_self, update_self, hnil]
      exact ⟨rfl, update_self ..⟩
    · rw [update_of_ne hd, update_of_ne hd]
      exact (h.chain d).update (hout d)
  · rw [List.concat_eq_append] at hl
    have hc := h.chain dest
    obtain ⟨x, hx⟩ : ∃ x, c.pCallerq dest = some x := by
      rw [hc.head_eq, hl]
      cases l <;> exact ⟨_, rfl⟩
    obtain ⟨r, hr, hlast⟩ := Option.map_eq_some_iff.mp
      (search_find (p := fun x => c.pSendlink x = none) none hc (h.length_lt dest))
    rw [hc.find_last, hl, List.getLast?_concat] at hlast
    rw [hx] at hr
    simp only [hx, hr, hlast, relink_some, Option.map_some]
    refine ⟨_, rfl, fun d => ?_, hapart⟩
    dsimp only
    by_cases hd : d = dest
    · rw [hd, update_self, hl, List.append_assoc]
      rw [hl] at hc
      exact hc.append (hl ▸ hout dest)
    · have ht : t ∉ W d := fun hm => hd (h.apart t d dest hm (hl ▸ by simp))
      rw [update_of_ne hd]
      exact ((h.chain d).update ht).update (hout d)

/-- The search finds the first acceptable sender, and none only when there is none. -/
theorem Waiting.findSender (h : Waiting c W) (caller : Slot) (src : Int) :
    ∃ l₁ l₂, W caller = l₁ ++ l₂ ∧ (∀ s ∈ l₁, accepts src s = false) ∧
      (∀ s ∈ l₂.head?, accepts src s = true) ∧
      findSender c caller src = some (l₁.getLast?, l₂.head?) := by
  obtain ⟨l₁, l₂, hl, h₁, h₂⟩ := exists_split (accepts src) (W caller)
  have hc := h.chain caller
  have hn := h.length_lt caller
  rw [hl] at hc hn
  refine ⟨l₁, l₂, hl, h₁, h₂, ?_⟩
  rw [Kernel.findSender, search_split none hc hn h₁ h₂, Option.or_none]

/-- The search of a receiver gives the first sender on its queue that it accepts. -/
theorem Waiting.findSender_some {src : Int} {prevPtr : Option Slot}
    (h : Waiting c W) (hf : Kernel.findSender c caller src = some (prevPtr, some sender)) :
    ∃ l₁ l₂, W caller = l₁ ++ sender :: l₂ ∧ (∀ s ∈ l₁, accepts src s = false) ∧
      accepts src sender = true ∧ prevPtr = l₁.getLast? := by
  obtain ⟨l₁, l₂, hl, h₁, h₂, he⟩ := h.findSender caller src
  rw [hf, Option.some.injEq, Prod.mk.injEq] at he
  obtain ⟨rfl, hhead⟩ := he
  cases l₂ with
  | nil => cases hhead
  | cons x l₂ =>
    obtain rfl : sender = x := Option.some.inj hhead
    exact ⟨l₁, l₂, hl, h₁, h₂ sender rfl, rfl⟩

theorem Waiting.findSender_none {src : Int} {prevPtr : Option Slot}
    (h : Waiting c W) (hf : Kernel.findSender c caller src = some (prevPtr, none)) :
    ∀ s ∈ W caller, accepts src s = false := by
  obtain ⟨l₁, l₂, hl, h₁, -, he⟩ := h.findSender caller src
  rw [hf, Option.some.injEq, Prod.mk.injEq] at he
  cases l₂ with
  | nil =>
    rw [hl, List.append_nil]
    exact h₁
  | cons x l₂ => cases he.2

/-- Taking one sender leaves the others in their order. -/
theorem Waiting.takeSender (h : Waiting c W) {l₁ l₂ : List Slot}
    (hl : W caller = l₁ ++ sender :: l₂) :
    Waiting (takeSender c caller l₁.getLast? sender) (update W caller (l₁ ++ l₂)) := by
  have hc := h.chain caller
  rw [hl] at hc
  have hsub : ∀ s d, s ∈ update W caller (l₁ ++ l₂) d → s ∈ W d := by
    intro s d hs
    by_cases hd : d = caller
    · rw [hd, update_self, List.mem_append] at hs
      rw [hd, hl, List.mem_append, List.mem_cons]
      exact hs.imp_right Or.inr
    · rwa [update_of_ne hd] at hs
  refine ⟨fun d => ?_, fun s d d' hs hs' => h.apart s d d' (hsub s d hs) (hsub s d' hs')⟩
  unfold Kernel.takeSender
  rcases List.eq_nil_or_concat l₁ with rfl | ⟨l, p, rfl⟩
  · have hhead : c.pCallerq caller = some sender := hc.head_eq
    rw [if_pos hhead]
    dsimp only
    by_cases hd : d = caller
    · rw [hd, update_self, update_self]
      exact hc.2
    · rw [update_of_ne hd, update_of_ne hd]
      exact h.chain d
  · rw [List.concat_eq_append] at hc hl ⊢
    have hhead : ¬c.pCallerq caller = some sender := by
      have hnd := hc.nodup
      rw [hc.head_eq]
      intro e
      cases l with
      | nil =>
        obtain rfl : p = sender := Option.some.inj e
        simp at hnd
      | cons x l =>
        obtain rfl : x = sender := Option.some.inj e
        simp at hnd
    rw [if_neg hhead, List.getLast?_concat, relink_some]
    dsimp only
    simp only [List.append_assoc, List.singleton_append] at hc ⊢
    by_cases hd : d = caller
    · rw [hd, update_self]
      exact hc.unlink
    · have hp : p ∉ W d := fun hm => hd (h.apart p d caller hm (hl ▸ by simp))
      rw [update_of_ne hd]
      exact (h.chain d).update hp

/-- On one queue, the exiting process is taken off or is not there. -/
theorem Waiting.dropSender_cons (h : Waiting c W) (rc rp : Slot) (l : List Slot) :
    ∃ c', Waiting c' (update W rp ((W rp).erase rc)) ∧
      (dropSender rc (rp :: l) c = dropSender rc l c' ∨
        rc ∈ W rp ∧ dropSender rc (rp :: l) c = some c') := by
  have hc := h.chain rp
  by_cases hin : rc ∈ W rp
  · obtain ⟨l₁, l₂, hl⟩ := List.append_of_mem hin
    have hnd := hc.nodup
    rw [hl] at hnd
    simp only [List.nodup_append, List.nodup_cons, List.mem_cons] at hnd
    have hl₁ : rc ∉ l₁ := fun hm => hnd.2.2 rc hm rc (Or.inl rfl) rfl
    have herase : (W rp).erase rc = l₁ ++ l₂ := by
      rw [hl, List.erase_append_right _ hl₁, List.erase_cons_head]
    have hw := h.takeSender hl
    rw [← herase] at hw
    refine ⟨_, hw, ?_⟩
    rw [hl] at hc
    unfold Kernel.takeSender
    rcases List.eq_nil_or_concat l₁ with rfl | ⟨m, p, rfl⟩
    · have hhead : c.pCallerq rp = some rc := hc.head_eq
      rw [if_pos hhead]
      refine Or.inr ⟨hin, ?_⟩
      rw [Kernel.dropSender]
      simp only [hhead, if_true]
    · rw [List.concat_eq_append] at hc hl₁ ⊢
      have hlen := h.length_lt rp
      rw [hl] at hlen
      simp only [List.concat_eq_append, List.append_assoc, List.singleton_append,
        List.length_append] at hc hlen
      have hnext : c.pSendlink p = some rc := by
        obtain ⟨_, _, _, hp⟩ := seg_append.mp hc
        exact hp.1
      obtain ⟨x, hhead, hne⟩ : ∃ x, c.pCallerq rp = some x ∧ x ≠ rc := by
        rw [hc.head_eq]
        cases m with
        | nil => exact ⟨p, rfl, fun e => hl₁ (by simp [e])⟩
        | cons x m => exact ⟨x, rfl, fun e => hl₁ (by simp [e])⟩
      have hsearch := search_some (p := fun np => c.pSendlink np = some rc) (n := 25) none hc
        (by omega) (fun b hb => decide_eq_false (hc.next_ne_of_mem hb)) (decide_eq_true hnext)
      rw [hhead] at hsearch
      rw [hhead, if_neg fun e => hne (Option.some.inj e), List.getLast?_concat, relink_some]
      refine Or.inl ?_
      rw [Kernel.dropSender]
      simp only [hhead, if_neg hne, hsearch]
  · refine ⟨c, ?_, Or.inl ?_⟩
    · rw [List.erase_of_not_mem hin, update_eq_self]
      exact h
    · rw [Kernel.dropSender]
      cases hl : W rp with
      | nil =>
        have hhead : c.pCallerq rp = none := hc.head_eq.trans (by rw [hl]; rfl)
        simp only [hhead]
      | cons x m =>
        have hlen := h.length_lt rp
        rw [hl] at hc hin hlen
        have hhead : c.pCallerq rp = some x := hc.head_eq
        have hno : ∀ y ∈ x :: m, decide (c.pSendlink y = some rc) = false := by
          intro y hy
          obtain ⟨m₁, m₂, hm⟩ := List.append_of_mem hy
          rw [hm] at hc hin
          refine decide_eq_false ?_
          rw [hc.next_eq]
          cases m₂ with
          | nil => simp
          | cons z m₂ => exact fun e => hin (by simp [Option.some.inj e])
        have hsearch := search_none none hc hlen hno
        rw [hhead] at hsearch
        simp only [hhead, if_neg fun e : x = rc => hin (by simp [e]), hsearch]

/-- The exiting process leaves the queue it is on, and the others keep their order. -/
theorem Waiting.dropSender (h : Waiting c W) (rc : Slot) (l : List Slot) :
    ∃ c' W', dropSender rc l c = some c' ∧ Waiting c' W' ∧
      ∀ d, W' d = if d ∈ l then (W d).erase rc else W d := by
  induction l generalizing c W with
  | nil => exact ⟨c, W, rfl, h, fun d => rfl⟩
  | cons rp l ih =>
    obtain ⟨c₁, h₁, hgo | ⟨hin, hend⟩⟩ := h.dropSender_cons rc rp l
    · obtain ⟨c', W', he, hw, hW⟩ := ih h₁
      refine ⟨c', W', hgo.trans he, hw, fun d => ?_⟩
      rw [hW]
      by_cases hd : d = rp
      · rw [hd, update_self, if_pos (List.mem_cons_self ..),
          List.erase_of_not_mem ((h.chain rp).nodup.not_mem_erase), ite_self]
      · rw [update_of_ne hd]
        simp only [List.mem_cons, hd, false_or]
    · refine ⟨c₁, _, hend, h₁, fun d => ?_⟩
      by_cases hd : d = rp
      · rw [hd, update_self, if_pos (List.mem_cons_self ..)]
      · have hout : rc ∉ W d := fun hm => hd (h.apart rc d rp hm hin)
        rw [update_of_ne hd, List.erase_of_not_mem hout, ite_self]

/-- A child of a process for which nobody waits has no waiting senders either. -/
theorem Waiting.copyCallers (h : Waiting c W) (hp : W parent = []) (hout : ∀ d, child ∉ W d) :
    Waiting (copyCallers c parent child) (update W child []) := by
  have hsub : ∀ s d, s ∈ update W child [] d → s ∈ W d := by
    intro s d hs
    by_cases hd : d = child
    · rw [hd, update_self] at hs
      cases hs
    · rwa [update_of_ne hd] at hs
  refine ⟨fun d => ?_, fun s d d' hs hs' => h.apart s d d' (hsub s d hs) (hsub s d' hs')⟩
  unfold Kernel.copyCallers
  dsimp only
  by_cases hd : d = child
  · rw [hd, update_self, update_self]
    exact (h.chain parent).head_eq.trans (by rw [hp]; rfl)
  · rw [update_of_ne hd, update_of_ne hd]
    exact (h.chain d).update (hout d)

end Minix.Kernel
