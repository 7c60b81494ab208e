import Minix.MM.Partition
import Minix.MM.Pids

/-!
# The room in the hole table

As long as memory is partitioned there are hardly more holes than processes, so a slot is there
for every block that is returned, and EXEC finds the memory that it has seen before it gave up
its own. Then no call of the memory manager panics.
-/

namespace Minix.MM

open Extents Function Transition

/-! ## The number of holes -/

/-- Where something ends that is not free: what a process holds, or what was set aside. -/
def ends (b : Boot) (s : State) : List Nat :=
  (List.finRange NR_PROCS).map (fun p => (s.hist.held p).elim 0 Extent.stop) ++ [b.tot, b.initOrg]

/-- There are two places more than slots at which a stretch of taken clicks can end. -/
theorem ends_length (b : Boot) (s : State) : (ends b s).length = NR_PROCS + 2 := by
  unfold ends
  rw [List.length_append, List.length_map, List.length_finRange]
  rfl

/-- What was set aside ends at its end, or where INIT has given its part back. -/
theorem Kept.ends {b : Boot} {held : Proc → Option Extent} {c : Nat} (h : Kept b held c)
    (hn : ¬Kept b held (c + 1)) : c + 1 = b.tot ∨ c + 1 = b.initOrg := by
  obtain ⟨hlt, hout⟩ := h
  by_cases hle : c + 1 < b.tot
  · refine Or.inr ?_
    have hin : held INIT_PROC_NR ≠ none ∧ (bootRegion b).Has (c + 1) := by
      by_contra hnot
      exact hn ⟨hle, hnot⟩
    have hc : ¬(bootRegion b).Has c := fun hc => hout ⟨hin.1, hc⟩
    obtain ⟨hbase, hstop⟩ := hin.2
    rw [bootRegion_base] at hbase
    by_contra hne
    exact hc ⟨by rw [bootRegion_base]; omega, by omega⟩
  · exact Or.inl (by omega)

namespace Partition

variable {total : Nat} {b : Boot} {s s' : State} {p : Proc}

/-- Every taken click before a free one ends one of these stretches. -/
theorem mem_ends (c : Nat) (hu : Taken s.hist.held (Kept b s.hist.held) c)
    (hn : ¬Taken s.hist.held (Kept b s.hist.held) (c + 1)) : c + 1 ∈ ends b s := by
  unfold ends
  rw [List.mem_append]
  rcases hu.ends hn with ⟨p, e, he, hstop⟩ | ⟨hk, hkn⟩
  · refine Or.inl (List.mem_map.mpr ⟨p, List.mem_finRange p, ?_⟩)
    rw [he]
    exact hstop
  · refine Or.inr ?_
    rcases hk.ends hkn with h | h
    · rw [h]
      exact List.mem_cons_self ..
    · rw [h]
      exact List.mem_cons_of_mem _ (List.mem_singleton_self _)

/-- There are at most two holes more than slots for processes. -/
theorem few (h : Partition total b s) (hb : b.WellFormed) :
    ∃ L F, Lists s.table L F ∧ L.length ≤ NR_PROCS + 2 := by
  obtain ⟨L, F, hl, -, -, hlen⟩ := h.holes.few (Or.inr (kept_zero hb _)) mem_ends
  exact ⟨L, F, hl, ends_length b s ▸ hlen⟩

/-- A slot is there for whatever is returned. -/
theorem freeMem_isSome (h : Partition total b s) (hb : b.WellFormed) (hlt : total < 65536)
    {base n : Nat} (hn : base + n ≤ total) : (freeMem s.table base n).isSome = true := by
  refine h.holes.free_isSome hlt (Or.inr (kept_zero hb _)) mem_ends ?_ hn
  rw [ends_length]
  decide

/-- The slot of a process above INIT can be released. -/
theorem release_isSome (h : Partition total b s) (hb : b.WellFormed) (hlt : total < 65536)
    (hp : INIT_PROC_NR < p) (hu : (s.mproc p).inUse = true) : (release s p).isSome = true := by
  have hstop := (h.held p _ (h.held_some hp hu)).2.2.2
  obtain ⟨t, ht⟩ := Option.isSome_iff_exists.mp (h.freeMem_isSome hb hlt hstop)
  unfold MM.release State.freeCore
  dsimp only
  rw [State.reply_mproc, State.reply_table]
  change ((freeMem s.table (s.mproc p).region.base (s.mproc p).region.len).map _ >>= _).isSome = true
  rw [ht]
  rfl

/-- A process that is adopted keeps its memory. -/
theorem adopt (h : Partition total b s) (p : Proc) : Partition total b (MM.adopt s p) :=
  h.modify (f := fun m => { m with mpParent := INIT_PROC_NR }) rfl

end Partition

/-! ## Termination of processes -/

section Cleanup

variable {total : Nat} {b : Boot} {s s₁ : State} {p child : Proc} {g : List Proc}

/-- Unless INIT waits, children are only handed over. -/
theorem disinherit_idle (clean : State → Proc → Option State) (child : Proc) (l : List Proc)
    (s : State) : (l.foldlM (disinherit clean child) (s, false)).isSome = true := by
  induction l generalizing s with
  | nil => rfl
  | cons q l ih =>
    rw [List.foldlM_cons]
    have hone : disinherit clean child (s, false) q = some (s, false) ∨
        disinherit clean child (s, false) q = some (adopt s q, false) := by
      unfold disinherit
      split
      · rw [if_neg fun h => Bool.noConfusion h.1]
        exact Or.inr rfl
      · exact Or.inl rfl
    rcases hone with hone | hone
    · rw [hone]
      exact ih s
    · rw [hone]
      exact ih (adopt s q)

/-- A slot is cleaned up without recursion when INIT does not wait after its release. -/
theorem cleanup_idle (n : Nat) (hr : release s p = some s₁)
    (hw : (s₁.mproc INIT_PROC_NR).waiting = false) : (cleanup (n + 1) s p).isSome = true := by
  obtain ⟨r, hfold⟩ := Option.isSome_iff_exists.mp
    (disinherit_idle (cleanup n) p (List.finRange NR_PROCS) s₁)
  unfold cleanup
  rw [hr]
  change Option.isSome ((List.finRange NR_PROCS).foldlM _
    (s₁, (s₁.mproc INIT_PROC_NR).waiting) >>= _) = true
  rw [hw, hfold]
  rfl

/-- INIT gets one child that has exited, and does not wait any more then. -/
theorem disinherit_isSome (hb : b.WellFormed) (hlt : total < 65536) (n : Nat) {l : List Proc}
    {w : Bool} (hs : Sound (child :: g) s) (h : Partition total b s) :
    (l.foldlM (disinherit (cleanup (n + 1)) child) (s, w)).isSome = true := by
  induction l generalizing s with
  | nil => rfl
  | cons q l ih =>
    rw [List.foldlM_cons]
    unfold disinherit
    dsimp only
    split
    · rename_i hpar
      have hq : INIT_PROC_NR < q := hs.above_of_gone (List.mem_cons_self ..) hpar
      split
      · rename_i hwh
        have hu : ((adopt s q).mproc q).inUse = true := by
          rw [adopt, State.modify_mproc, if_pos rfl]
          exact hs.hanging q hwh.2
        obtain ⟨s₂, hr⟩ := Option.isSome_iff_exists.mp ((h.adopt q).release_isSome hb hlt hq hu)
        have hidle : (s₂.mproc INIT_PROC_NR).waiting = false := by
          obtain ⟨t, -, rfl⟩ := release_eq hr
          rw [← Bool.not_eq_true, released_waiting]
          rintro ⟨hne, -⟩
          rw [adopt, State.modify_mproc, if_pos rfl] at hne
          exact hne rfl
        obtain ⟨s₃, hclean⟩ := Option.isSome_iff_exists.mp (cleanup_idle n hr hidle)
        rw [hclean]
        exact disinherit_idle _ child l s₃
      · exact ih (hs.adopt hq) (h.adopt q)
    · exact ih hs h

/-- A process that is gone can be cleaned up: the recursion is at most one level deep. -/
theorem cleanup_isSome (hb : b.WellFormed) (hlt : total < 65536) (n : Nat) (hs : Sound g s)
    (h : Partition total b s) (hp : INIT_PROC_NR < p) (hu : (s.mproc p).inUse = true) :
    (cleanup (n + 2) s p).isSome = true := by
  obtain ⟨s₁, hr⟩ := Option.isSome_iff_exists.mp (h.release_isSome hb hlt hp hu)
  have h₁ : Sound (p :: g) s₁ ∧ Partition total b s₁ := by
    obtain ⟨t, ht, rfl⟩ := release_eq hr
    exact ⟨hs.released hp t, h.released hlt hp hu ht⟩
  obtain ⟨r, hfold⟩ := Option.isSome_iff_exists.mp
    (disinherit_isSome hb hlt n (l := List.finRange NR_PROCS)
      (w := (s₁.mproc INIT_PROC_NR).waiting) h₁.1 h₁.2)
  rw [MM.cleanup, hr]
  change Option.isSome ((List.finRange NR_PROCS).foldlM _
    (s₁, (s₁.mproc INIT_PROC_NR).waiting) >>= _) = true
  rw [hfold]
  rfl

/-- The exit of a process in use finds a slot for the memory it gives back. -/
theorem mmExit_isSome (hb : b.WellFormed) (hlt : total < 65536) (hs : Sound [] s)
    (h : Partition total b s) (hp : INIT_PROC_NR ≤ p) (hu : (s.mproc p).inUse = true)
    (st : BitVec 8) : (mmExit s p st).isSome = true := by
  have hs₁ : Sound [] (s.modify p fun m => { m with mpExitstatus := st }) := hs.modify rfl
  have h₁ : Partition total b (s.modify p fun m => { m with mpExitstatus := st }) := h.modify rfl
  unfold mmExit
  rw [Option.isSome_map]
  split
  · rename_i hw
    have hlow : INIT_PROC_NR < p := by
      refine lt_of_le_of_ne hp ?_
      rintro rfl
      -- the parent of INIT never waits
      have hpar := (hs₁.system INIT_PROC_NR le_rfl).2
      rw [noteExit_mproc, hpar, (Mproc.suspended_eq_false.mp
        (hs₁.managers MM_PROC_NR (by decide)).1).1] at hw
      cases hw
    have hu₁ : ((s.modify p fun m => { m with mpExitstatus := st }).mproc p).inUse = true := by
      rw [State.modify_mproc, if_pos rfl]
      exact hu
    have hs₂ : Sound [] ((s.modify p fun m => { m with mpExitstatus := st }).noteExit p) :=
      hs₁.congr fun _ => rfl
    have h₂ : Partition total b ((s.modify p fun m => { m with mpExitstatus := st }).noteExit p) :=
      h₁.congr (fun _ => rfl) rfl rfl rfl
    exact cleanup_isSome hb hlt 14 hs₂ h₂ hlow hu₁
  · rfl

end Cleanup

/-! ## Calls -/

/-- What the memory manager relies on between the parts of a call. -/
structure Orderly (total : Nat) (b : Boot) (s : State) : Prop where
  sound : Sound [] s
  partition : Partition total b s

section Calls

variable {total : Nat} {b : Boot} {s s' : State} {p who : Proc} {ans : Answers}

/-- An orderly table stays so under everything that MM does. -/
theorem Orderly.effects {A B : Prop} {W : Proc → Prop} (h : Orderly total b s)
    (hb : b.WellFormed) (hlt : total < 65536) (he : Effects A B (Fits b) W ([], s) ([], s')) :
    Orderly total b s' :=
  ⟨h.sound.effects he, h.partition.effects hlt hb h.sound he⟩

/-- A fatal signal finds a slot for the memory of its victim. -/
theorem Orderly.sigKill (h : Orderly total b s) (hb : b.WellFormed) (hlt : total < 65536)
    (hp : INIT_PROC_NR ≤ p) (hu : (s.mproc p).inUse = true) (sigNr : Nat) (ans : Answers) :
    (MM.sigKill s p sigNr ans).isSome = true := by
  have hs : Sound [] (s.modify p fun m =>
      { m with mpSigstatus := sigStatus m sigNr (ans.core sigNr p) }) := h.sound.modify rfl
  have hpart : Partition total b (s.modify p fun m =>
      { m with mpSigstatus := sigStatus m sigNr (ans.core sigNr p) }) := h.partition.modify rfl
  have hs₁ : Sound [] ((s.modify p fun m =>
      { m with mpSigstatus := sigStatus m sigNr (ans.core sigNr p) }).noteAct .mmExit p) :=
    hs.congr fun _ => rfl
  have hpart₁ : Partition total b ((s.modify p fun m =>
      { m with mpSigstatus := sigStatus m sigNr (ans.core sigNr p) }).noteAct .mmExit p) :=
    hpart.congr (fun _ => rfl) rfl rfl rfl
  refine mmExit_isSome hb hlt hs₁ hpart₁ hp ?_ 0
  rw [noteAct_mproc, State.modify_mproc, if_pos rfl]
  exact hu

/-- A signal can be sent to any process from INIT on. -/
theorem Orderly.sigProc (h : Orderly total b s) (hb : b.WellFormed) (hlt : total < 65536)
    (hp : INIT_PROC_NR ≤ p) (sigNr : Nat) (ans : Answers) :
    ∃ s', MM.sigProc s p sigNr ans = some s' ∧ Orderly total b s' := by
  have hsome : (MM.sigProc s p sigNr ans).isSome = true := by
    unfold MM.sigProc
    split
    · rfl
    · rename_i hu
      rw [not_not] at hu
      split
      · obtain ⟨he, -, hflow, -⟩ := catchSig_cases (A := False) (B := False) (E := Fits b)
          (W := fun _ => True) sigNr (ans.sp sigNr p) hp hu False.elim
        have hcatch := h.effects hb hlt he
        have hu' : ((catchSig s p sigNr (ans.sp sigNr p)).2.mproc p).inUse = true :=
          (congrArg (·.1) hflow).trans hu
        dsimp only
        split
        · rfl
        · exact hcatch.sigKill hb hlt hp hu' sigNr ans
      · exact h.sigKill hb hlt hp hu sigNr ans
  obtain ⟨s', hs'⟩ := Option.isSome_iff_exists.mp hsome
  have he := (sigProc_cases (A := False) (B := False) (E := Fits b) (W := fun _ => True) h.sound hp
    False.elim False.elim hs').1
  exact ⟨s', hs', h.effects hb hlt he⟩

/-- The search for processes to signal comes to its end. -/
theorem Orderly.signalAll (h : Orderly total b s) (hb : b.WellFormed) (hlt : total < 65536)
    (c : SigCall) (ans : Answers) {l : List Proc} (hl : ∀ p ∈ l, INIT_PROC_NR < p) (n : Nat) :
    (MM.signalAll c ans l (s, n)).isSome = true := by
  induction l generalizing s n with
  | nil => rfl
  | cons p l ih =>
    have hl' : ∀ q ∈ l, INIT_PROC_NR < q := fun q hq => hl q (List.mem_cons_of_mem _ hq)
    unfold MM.signalAll
    split
    · exact ih h hl' n
    · split
      · exact ih h hl' n
      · have hoff : Orderly total b (timerOff s c p) :=
          h.effects (A := False) (B := False) (W := fun _ => True) hb hlt (timerOff_cases s c p).1
        split
        · exact ih hoff hl' n
        · obtain ⟨s₁, hsig, h₁⟩ := hoff.sigProc hb hlt (hl p (List.mem_cons_self ..)).le c.sigNr ans
          have h₂ : Orderly total b (unpause s₁ p) :=
            h₁.effects (A := False) (B := False) (W := fun _ => True) hb hlt (.single (.unpause p))
          rw [hsig]
          change Option.isSome (if 0 < c.procId then some (unpause s₁ p, n + 1)
            else MM.signalAll c ans l (unpause s₁ p, n + 1)) = true
          split
          · rfl
          · exact ih h₂ hl' (n + 1)

/-- KILL returns and leaves an orderly table. -/
theorem Orderly.checkSig (h : Orderly total b s) (hb : b.WellFormed) (hlt : total < 65536)
    (c : SigCall) (ans : Answers) : ∃ r s', MM.checkSig s c ans = some (r, s') ∧
      Orderly total b s' := by
  have hsome : (MM.checkSig s c ans).isSome = true := by
    unfold MM.checkSig
    split
    · rfl
    · rw [Option.isSome_map]
      exact h.signalAll hb hlt c ans (fun p hp => (mem_aboveInit p).mp hp) 0
  obtain ⟨⟨r, s'⟩, hs'⟩ := Option.isSome_iff_exists.mp hsome
  have he := (checkSig_effects (A := False) (B := False) (E := Fits b) (W := fun _ => True)
    (u := INIT_PROC_NR) trivial h.sound (fun _ _ => ⟨False.elim, False.elim⟩) hs').1
  exact ⟨r, s', hs', h.effects hb hlt he⟩

/-- So does a stack fault. -/
theorem Orderly.stackFault (h : Orderly total b s) (hb : b.WellFormed) (hlt : total < 65536)
    (hp : INIT_PROC_NR ≤ p) (ans : Answers) :
    (MM.stackFault s p ans).isSome = true := by
  by_cases hok : (adjust (s.mproc p) (s.mproc p).segD.memLen (ans.sp STACK_FAULT p)).1 = OK
  · unfold MM.stackFault
    rw [if_pos hok]
    rfl
  · unfold MM.stackFault
    rw [if_neg hok, adjust_fail hok, State.modify_same]
    have hquiet : Effect False False (Fits b) (fun _ => True) ([], s)
        ([], s.modify p fun m => { m with mpCatch := 0 }) := .quiet p fun _ => rfl
    obtain ⟨s', hs', -⟩ := (h.effects hb hlt (.single hquiet)).sigProc hb hlt hp SIGSEGV ans
    exact Option.isSome_iff_exists.mpr ⟨s', hs'⟩

/-- And each signal of a map that the kernel sends. -/
theorem Orderly.ksigBits (h : Orderly total b s) (hb : b.WellFormed) (hlt : total < 65536)
    (sigMap : BitVec 16) (procId : Nat) (ans : Answers) (l : List Nat) :
    (l.foldlM (ksigBit sigMap procId ans) s).isSome = true := by
  induction l generalizing s with
  | nil => rfl
  | cons i l ih =>
    rw [List.foldlM_cons]
    unfold ksigBit
    split
    · obtain ⟨r, s', hs', h'⟩ := h.checkSig hb hlt (ksigCall procId i) ans
      rw [hs']
      exact ih h'
    · exact ih h

/-- And the message KSIG as a whole. -/
theorem Orderly.doKsig (h : Orderly total b s) (hb : b.WellFormed) (hlt : total < 65536)
    (hp : INIT_PROC_NR ≤ p) (from' : Option Proc) (sigMap : BitVec 16) (ans : Answers) :
    (MM.doKsig s from' p sigMap ans).isSome = true := by
  unfold MM.doKsig
  split
  · rfl
  · split
    · rfl
    · have hmp : Orderly total b { s with mp := MM_PROC_NR } :=
        ⟨h.sound.congr fun _ => rfl, h.partition.congr (fun _ => rfl) rfl rfl rfl⟩
      dsimp only
      split
      · rw [Option.isSome_map]
        exact hmp.stackFault hb hlt hp ans
      · rw [Option.isSome_map]
        exact hmp.ksigBits hb hlt _ _ _ _

/-- WAIT finds a slot for what the child leaves. -/
theorem Orderly.doWait (h : Orderly total b s) (hb : b.WellFormed) (hlt : total < 65536)
    (hp : INIT_PROC_NR ≤ who) : (MM.doWait s who).isSome = true := by
  unfold MM.doWait
  dsimp only
  split
  · rename_i rp hf
    have hmem := List.mem_of_find?_eq_some hf
    simp only [List.mem_filter, List.mem_finRange, true_and, decide_eq_true_eq] at hmem
    have hlow : INIT_PROC_NR < rp := by
      refine lt_of_not_ge fun hle => ?_
      rw [← hmem.2, (h.sound.system rp hle).2] at hp
      exact absurd hp (by decide)
    rw [Option.isSome_map]
    exact cleanup_isSome hb hlt 14 h.sound h.partition hlow hmem.1
  · split
    · rfl
    · rfl

/-- A slot is free when the table is not full. -/
theorem Numbered.freeSlot_isSome (h : Numbered s) (hn : s.procsInUse ≠ NR_PROCS) :
    (freeSlot s).isSome = true := by
  by_contra hnone
  rw [Bool.not_eq_true, Option.isSome_eq_false_iff, Option.isNone_iff_eq_none] at hnone
  have hall := List.find?_eq_none.mp hnone
  refine hn ?_
  rw [h.count]
  unfold inUseCount
  rw [Finset.filter_true_of_mem fun q _ => ?_, Finset.card_univ, Fintype.card_fin]
  simpa using hall q (List.mem_finRange q)

/-- FORK takes memory and never has to give any back. -/
theorem Orderly.doFork (h : Orderly total b s) (hlt : total < 65536)
    (hn : Numbered s) (hp : INIT_PROC_NR ≤ who) (hu : (s.mproc who).inUse = true) :
    (MM.doFork s who).isSome = true := by
  have hsize : progClicks (s.mproc who) = (s.mproc who).region.len :=
    (h.partition.shaped who hp hu).progClicks
  have halloc : ∃ base t, allocMem s.table (progClicks (s.mproc who)) = some (base, t) := by
    rw [hsize]
    rcases h.partition.holes.alloc hlt (h.partition.region_pos hp hu) with ⟨ha, -⟩ |
      ⟨base, t, ha, -⟩
    · exact ⟨_, _, ha⟩
    · exact ⟨base, t, ha⟩
  obtain ⟨base, t, ha⟩ := halloc
  unfold MM.doFork
  dsimp only
  split
  · rfl
  · rename_i hfull
    split
    · rfl
    · obtain ⟨child, hc⟩ := Option.isSome_iff_exists.mp (hn.freeSlot_isSome hfull)
      obtain ⟨s₁, h₁⟩ := @assignPid_some child 29983 (placeChild s who child t base) hn.low hn.high
      rw [ha]
      change Option.isSome (if base = NO_MEM then some (EAGAIN, { s with table := t })
        else freeSlot s >>= _) = true
      split
      · rfl
      · rw [hc]
        change Option.isSome (assignPid child 30000 (placeChild s who child t base) >>= _) = true
        rw [h₁]
        rfl

/-- `new_mem` goes through when a slot is there for the old image, and a hole for the new one. -/
theorem newMem_done {im : Image} {base : Nat} {t₁ t₂ : HoleTable}
    (hroom : roomFor s.table im = some OK)
    (hf : freeMem s.table (s.mproc who).region.base (s.mproc who).region.len = some t₁)
    (ha : allocMem t₁ im.clicks = some (base, t₂)) (hne : base ≠ NO_MEM) :
    ∃ s', MM.newMem s who im = some (OK, s') ∧ s'.table = t₂ ∧
      s'.mproc = update s.mproc who (im.mapped base (s.mproc who)) := by
  have hfree : ∃ s₁, s.freeCore who = some s₁ ∧ s₁.table = t₁ ∧ s₁.mproc = s.mproc := by
    unfold State.freeCore
    dsimp only
    rw [hf]
    exact ⟨_, rfl, rfl, rfl⟩
  obtain ⟨s₁, hs₁, rfl, hm⟩ := hfree
  refine ⟨(s₁.grant who t₂ ⟨base, im.clicks⟩).modify who (im.mapped base), ?_, rfl, ?_⟩
  · unfold MM.newMem
    rw [hroom]
    change s.freeCore who >>= _ = _
    rw [hs₁]
    change allocMem s₁.table im.clicks >>= _ = _
    rw [ha]
    exact if_neg hne
  · change update s₁.mproc who (im.mapped base (s₁.mproc who)) = _
    rw [hm]

/-- It panics when there is no slot for the old image. -/
theorem newMem_full {im : Image} (hroom : roomFor s.table im = some OK)
    (hf : freeMem s.table (s.mproc who).region.base (s.mproc who).region.len = none) :
    MM.newMem s who im = none := by
  have hfree : s.freeCore who = none := by
    unfold State.freeCore
    dsimp only
    rw [hf]
    rfl
  unfold MM.newMem
  rw [hroom]
  change s.freeCore who >>= _ = _
  rw [hfree]
  rfl

/-- What is used once a process has given up its memory was used before. -/
theorem taken_vacated {held : Proc → Option Extent} {e : Extent} {c : Nat}
    (h : Taken (update held who none) (Kept b (update held who (some e))) c) :
    Taken held (Kept b held) c := by
  rcases h with ⟨q, f, hf, hc⟩ | ⟨hlt, hout⟩
  · by_cases hq : q = who
    · rw [hq, update_self] at hf
      cases hf
    · rw [update_of_ne hq] at hf
      exact Or.inl ⟨q, f, hf, hc⟩
  · refine Or.inr ⟨hlt, fun hin => hout ⟨?_, hin.2⟩⟩
    by_cases hq : INIT_PROC_NR = who
    · rw [hq, update_self]
      exact Option.some_ne_none e
    · rw [update_of_ne hq]
      exact hin.1

/-- Once EXEC has seen a hole that is big enough, it gets its memory. -/
theorem Orderly.newMem_through (h : Orderly total b s) (hb : b.WellFormed) (hlt : total < 65536)
    {im : Image} (hp : INIT_PROC_NR ≤ who) (hu : (s.mproc who).inUse = true)
    (hpos : 0 < im.totClicks) (hr : roomFor s.table im = some OK) (hfits : Fits b s who) :
    ∃ base s', MM.newMem s who im = some (OK, s') ∧ base ≠ NO_MEM ∧ base + im.clicks ≤ total ∧
      s'.mproc = update s.mproc who (im.mapped base (s.mproc who)) := by
  obtain ⟨hgap, max, hmax, hle⟩ := roomFor_ok hr
  have hin : (s.mproc who).region.stop ≤ total := by
    cases hheld : s.hist.held who with
    | some e =>
      obtain ⟨-, -, rfl, hstop⟩ := h.partition.held who e hheld
      exact hstop
    | none =>
      have hinit : who = INIT_PROC_NR := by
        by_contra hne
        exact h.partition.above who (lt_of_le_of_ne hp (Ne.symm hne)) hu hheld
      subst hinit
      rw [h.partition.image hheld]
      exact (hfits rfl hheld).trans h.partition.aside
  obtain ⟨t₁, hf⟩ := Option.isSome_iff_exists.mp (h.partition.freeMem_isSome hb hlt hin)
  -- the memory that is given up only adds to the holes
  obtain ⟨-, hholes, -⟩ := h.partition.vacate hlt hp hu hfits ⟨0, 0⟩ hf
  have hclicks : 0 < im.clicks := by
    rw [Image.clicks_eq hgap]
    exact Nat.add_pos_right _ hpos
  rcases hholes.alloc hlt hclicks with ⟨-, m, hm, hsmall⟩ | ⟨base, t₂, ha, -, hend, hnew, -⟩
  · have hmono := h.partition.holes.maxHole_mono hholes (fun c => taken_vacated) hmax hm
    omega
  · have hne : base ≠ NO_MEM := by
      rintro rfl
      exact hnew 0 ⟨le_rfl, by simpa [Extent.stop] using hclicks⟩ (Or.inr (kept_zero hb _))
    obtain ⟨s', hs', -, hm⟩ := newMem_done hr hf ha hne
    exact ⟨base, s', hs', hne, hend, hm⟩

/-- EXEC finds a slot for the old image. -/
theorem Orderly.newMem (h : Orderly total b s) (hb : b.WellFormed) (hlt : total < 65536)
    {a : ExecCall} {im : Image} (hp : INIT_PROC_NR ≤ who) (hu : (s.mproc who).inUse = true)
    (hi : execImage a = .ok im) (hfits : roomFor s.table im = some OK → Fits b s who) :
    (MM.newMem s who im).isSome = true := by
  obtain ⟨L, F, hlists, -, -⟩ := h.partition.holes
  obtain ⟨max, hmax, -⟩ := maxHole_spec hlists
  have hroom : (roomFor s.table im).isSome = true := by
    unfold roomFor
    split
    · rfl
    · rw [hmax]
      rfl
  obtain ⟨r, hr⟩ := Option.isSome_iff_exists.mp hroom
  by_cases hok : r = OK
  · subst hok
    obtain ⟨base, s', hs', -⟩ := h.newMem_through hb hlt hp hu (execImage_ok hi).2 hr (hfits hr)
    rw [hs']
    rfl
  · unfold MM.newMem
    rw [hr]
    change Option.isSome (if r ≠ OK then some (r, s) else _) = true
    rw [if_pos hok]
    rfl

/-- And so does the call as a whole. -/
theorem Orderly.doExec (h : Orderly total b s) (hb : b.WellFormed) (hlt : total < 65536)
    {a : ExecCall} (hp : INIT_PROC_NR ≤ who) (hu : (s.mproc who).inUse = true)
    (hfits : ∀ im, execImage a = .ok im → roomFor s.table im = some OK → Fits b s who) :
    (MM.doExec s who a).isSome = true := by
  unfold MM.doExec
  split
  · rfl
  · rename_i im hi
    obtain ⟨⟨r, s₁⟩, hm⟩ := Option.isSome_iff_exists.mp (h.newMem hb hlt hp hu hi (hfits im hi))
    rw [hm]
    change Option.isSome (if r ≠ OK then some (r, s₁) else some (OK, _)) = true
    split
    · rfl
    · rfl

/-- A call of a process that runs returns. -/
theorem Orderly.perform (h : Orderly total b s) (hb : b.WellFormed) (hlt : total < 65536)
    (hn : Numbered s) {c : MMCall} (hp : INIT_PROC_NR ≤ who) (hu : (s.mproc who).inUse = true)
    (hfits : ∀ a im, c = .exec a → execImage a = .ok im → roomFor s.table im = some OK →
      Fits b s who) : (MM.perform s who c).isSome = true := by
  cases c with
  | fork => exact h.doFork hlt hn hp hu
  | exec a => exact h.doExec hb hlt hp hu fun im => hfits a im rfl
  | exit status =>
    change (doMmExit s who status).isSome = true
    unfold doMmExit
    rw [Option.isSome_map]
    exact mmExit_isSome hb hlt h.sound h.partition hp hu status
  | wait => exact h.doWait hb hlt hp
  | kill pid killSig ans =>
    obtain ⟨r, s', hs', -⟩ := h.checkSig hb hlt ⟨pid, killSig, (s.mproc s.mp).mpEffuid⟩ ans
    exact Option.isSome_iff_exists.mpr ⟨_, hs'⟩
  | ksig procNr sigMap ans =>
    -- only kernel and FS may make this call
    have hne : some who ≠ none ∧ some who ≠ some FS_PROC_NR :=
      ⟨nofun, fun he => absurd (Option.some.inj he ▸ hp) (by decide)⟩
    change (MM.doKsig s (some who) procNr sigMap ans).isSome = true
    unfold MM.doKsig
    rw [if_pos hne]
    rfl
  | brk addr sp => rfl
  | signal sig f => rfl
  | alarm sec left => rfl
  | pause => rfl
  | getset c => rfl
  | other nr => rfl

/-- So does a turn of the main loop. -/
theorem Orderly.serve (h : Orderly total b s) (hb : b.WellFormed) (hlt : total < 65536)
    (hn : Numbered s) {r : Request} (hi : AsIssued s r) (hfits : InitFits b s r) :
    (MM.serve s r).isSome = true := by
  cases r with
  | call who c =>
    rcases hi with ⟨hp, hl, -⟩ | ⟨rfl, hi⟩
    · have hne : who ≠ FS_PROC_NR := fun he => absurd (he ▸ hp) (by decide)
      have hsame : SameTable s (({ s with mp := who, dontReply := false } : State).setOwed who true) :=
        ⟨rfl, rfl, rfl, rfl, rfl⟩
      have hstart : Orderly total b (({ s with mp := who, dontReply := false } : State).setOwed who
          true) := ⟨h.sound.same hsame, h.partition.same hsame⟩
      obtain ⟨⟨error, s'⟩, hs'⟩ := Option.isSome_iff_exists.mp
        (hstart.perform hb hlt (hn.same hsame) (c := c) hp (Mproc.live_eq_true.mp hl).1
          fun a im hc hi hroom hwho hheld => by
            subst hc hwho
            exact hfits ⟨a, im, rfl, hi, hroom⟩ hheld)
      unfold MM.serve
      dsimp only
      rw [if_neg hne, hs']
      rfl
    · have hsame : SameTable s { s with mp := FS_PROC_NR, dontReply := false } :=
        ⟨rfl, rfl, rfl, rfl, rfl⟩
      have hstart : Orderly total b { s with mp := FS_PROC_NR, dontReply := false } :=
        ⟨h.sound.same hsame, h.partition.same hsame⟩
      cases c with
      | ksig procNr sigMap ans =>
        obtain ⟨⟨error, s'⟩, hs'⟩ := Option.isSome_iff_exists.mp
          (hstart.doKsig hb hlt hi (some FS_PROC_NR) sigMap ans)
        unfold MM.serve
        dsimp only
        rw [if_pos rfl]
        change Option.isSome (MM.doKsig _ (some FS_PROC_NR) procNr sigMap ans >>= _) = true
        rw [hs']
        rfl
      | _ => exact hi.elim
  | hardware procNr sigMap ans below =>
    have hsame : SameTable s { s with dontReply := false } := ⟨rfl, rfl, rfl, rfl, rfl⟩
    have hstart : Orderly total b { s with dontReply := false } :=
      ⟨h.sound.same hsame, h.partition.same hsame⟩
    obtain ⟨⟨error, s'⟩, hs'⟩ := Option.isSome_iff_exists.mp
      (hstart.doKsig hb hlt hi none sigMap ans)
    unfold MM.serve
    dsimp only
    rw [hs']
    rfl

end Calls

/-- In every run in which INIT gives back no more than was set aside, there are at most two holes
more than slots for processes, and the next call does not panic: `free_mem` finds a slot, and
EXEC gets the memory that `max_hole` has promised. -/
theorem hole_table_suffices {t : HoleTable} {totMem : Nat} {b : Boot} (hb : b.WellFormed)
    (htot : b.tot < 65536) (hlt : totMem < 65536) {s : State}
    (hr : Reach serve (fun s r => AsIssued s r ∧ InitFits b s r)
      (fun s => boot t totMem b = some s) s) :
    (∃ L F, Lists s.table L F ∧ L.length ≤ NR_PROCS + 2) ∧
      ∀ r, AsIssued s r → InitFits b s r → (serve s r).isSome = true := by
  have hinv : Orderly totMem b s ∧ Numbered s := by
    refine hr.invariant (fun s => Orderly totMem b s ∧ Numbered s) (fun s hs => ?_) ?_
    · exact ⟨⟨.boot hs, .boot hb htot hlt hs⟩, .boot hs⟩
    · rintro s r s' ⟨h, hn⟩ ⟨hi, hfit⟩ he
      have hE : ∀ who s₁, SameTable s s₁ → Loads s r who → Fits b s₁ who := by
        rintro who s₁ hsame hload rfl hheld
        rw [(congrArg (·.held) hsame.hist :)] at hheld
        exact hfit hload hheld
      obtain ⟨s₁, s₂, hsame₁, heff, hsame₂⟩ := serve_effects (W := fun _ => True) h.sound hi
        (aims_false s r) hE (fun _ => trivial) he
      have hs₁ := h.sound.same hsame₁
      exact ⟨⟨(hs₁.effects heff).same hsame₂,
        ((h.partition.same hsame₁).effects hlt hb hs₁ heff).same hsame₂⟩,
        ((hn.same hsame₁).effects hs₁ heff).same hsame₂⟩
  obtain ⟨h, hn⟩ := hinv
  exact ⟨h.partition.few hb, fun r hi hfit => h.serve hb hlt hn hi hfit⟩

/-- A program of `n` clicks without separate I & D space, five of them data and stack. -/
def program (n : Nat) : ExecCall where
  stackBytes := 16
  execLen := 5
  nameCopy := OK
  fd := 3
  header := some fun i => [0x04100301, 32, 32, 32, 0, 0, 16 * n, 0].getD i 0
  stackCopy := OK
  stMode := 0
  stUid := 0
  stGid := 0

/-- A child is made, both it and INIT go through EXEC, and INIT waits for it. -/
theorem hole_table_suffices_example :
    ∃ s, ((boot blankHoles 4096 ⟨0, 5, 105, 100⟩).bind fun s => run serve AsIssued s
        [.call 2 .fork, .call 3 (.exec (program 10)), .call 2 (.exec (program 7)), .call 2 .wait]) =
          some s ∧ (serve s (.call 3 (.exit 7))).isSome = true := by
  refine ⟨_, rfl, ?_⟩
  have hr : Reach serve AsIssued (fun s => boot blankHoles 4096 ⟨0, 5, 105, 100⟩ = some s) _ :=
    Reach.of_run (.init rfl) (l := [.call 2 .fork, .call 3 (.exec (program 10)),
      .call 2 (.exec (program 7)), .call 2 .wait]) rfl
  exact (hole_table_suffices ⟨by decide, by decide, by decide, by decide, by decide, by decide⟩
    (by decide) (by decide) (hr.mono (fun _ _ hi => ⟨hi, fun _ _ => by decide⟩) fun _ => id)).2 _
    (by decide) fun _ _ => by decide

/-! ## INIT with separate I & D space -/

section Squeeze

variable {s : State} {who : Proc} {n : Nat}

/-- What EXEC makes of such a program. -/
def programImage (n : Nat) : Image := ⟨false, 0, 64, 0, 16, 16 * n⟩

/-- Without separate I & D space text and data are one segment. -/
theorem headerImage_combined {buf : Fin 8 → Nat} {stk : Nat} (h : ¬buf 0 &&& 0x00200000 ≠ 0) :
    headerImage buf stk =
      ⟨false, 0, (buf 3 % 65536 + buf 2 % 65536) % 65536, buf 4 % 65536, stk, buf 6⟩ := by
  unfold headerImage
  dsimp only
  rw [if_neg h, if_neg h, decide_eq_false h]

/-- The header of `program n`, read. -/
theorem readHeader_program {buf : Fin 8 → Nat} (h₀ : buf 0 = 0x04100301)
    (h₂ : buf 2 = 32) (h₃ : buf 3 = 32) (h₄ : buf 4 = 0) (h₆ : buf 6 = 16 * n) (h5 : 5 ≤ n)
    (hn : n < 4096) : readHeader buf 16 = .ok (programImage n) := by
  have himage : headerImage buf 16 = programImage n := by
    rw [headerImage_combined (by rw [h₀]; decide), h₂, h₃, h₄, h₆]
    rfl
  have htot : physClicks (16 * n) = n := by
    unfold physClicks
    omega
  have hsub : subClicks n 1 = n - 1 := subClicks_eq (by omega) (by omega)
  have hadd : addClicks 0 (n - 1) = n - 1 := by
    rw [addClicks_eq (by omega), Nat.zero_add]
  have hsize : sizeOk false 0 4 1 0 (n - 1) = OK := by
    have hdc : addClicks 0 4 = 4 := rfl
    unfold sizeOk
    rw [if_neg (by decide), if_neg (by decide), hdc, if_neg (by omega)]
  have hnpos : ¬16 * n = 0 := by omega
  have hmore : ¬n ≤ 4 := by omega
  have htc : (0 + 3) % 65536 / 16 = 0 := rfl
  have hdc : (64 + 0 + 3) % 65536 / 16 = 4 := rfl
  have hsc : virClicks 16 = 1 := rfl
  unfold readHeader
  rw [if_neg (by rw [h₀]; decide), himage]
  simp only [programImage, htot, hnpos, hmore, if_false, htc, hdc, hsc, ite_self, hsub, hadd, hsize]
  rfl

/-- The image that `program n` asks for. -/
theorem execImage_program (h5 : 5 ≤ n) (hn : n < 4096) :
    execImage (program n) = .ok (programImage n) := by
  have hread : readHeader (fun i => [0x04100301, 32, 32, 32, 0, 0, 16 * n, 0].getD i 0) 16 =
      .ok (programImage n) := readHeader_program rfl rfl rfl rfl rfl h5 hn
  unfold execImage program
  dsimp only
  rw [if_neg (by decide), if_neg (by decide), if_neg (by decide), if_neg (by decide), hread]
  rfl

/-- It takes `n` clicks. -/
theorem program_clicks (h5 : 5 ≤ n) (hn : n < 4096) :
    (programImage n).gapClicks < 32768 ∧ (programImage n).clicks = n := by
  have htot : (programImage n).totClicks = n := by
    unfold Image.totClicks programImage physClicks
    dsimp only
    omega
  have hgap : (programImage n).gapClicks < 32768 := by
    have hdata : (programImage n).dataClicks = 4 := by
      unfold Image.dataClicks programImage
      dsimp only
      decide
    have hstack : (programImage n).stackClicks = 1 := by
      unfold Image.stackClicks programImage
      dsimp only
      decide
    unfold Image.gapClicks
    rw [htot, hdata, hstack]
    unfold subClicks
    omega
  refine ⟨hgap, ?_⟩
  have htext : (programImage n).textClicks = 0 := by
    unfold Image.textClicks programImage
    dsimp only
    decide
  rw [Image.clicks_eq hgap, htot, htext, Nat.zero_add]

/-- A turn of the main loop for an EXEC that goes through. -/
theorem serve_exec {a : ExecCall} {im : Image} {base : Nat} {t₁ t₂ : HoleTable}
    (hwho : who ≠ FS_PROC_NR) (hi : execImage a = .ok im) (hroom : roomFor s.table im = some OK)
    (hf : freeMem s.table (s.mproc who).region.base (s.mproc who).region.len = some t₁)
    (ha : allocMem t₁ im.clicks = some (base, t₂)) (hne : base ≠ NO_MEM) :
    ∃ s', serve s (.call who (.exec a)) = some s' ∧ s'.table = t₂ ∧
      s'.mproc = update s.mproc who (execDone a im.ft (im.mapped base (s.mproc who))) := by
  obtain ⟨s₁, hs₁, ht, hm⟩ := newMem_done
    (s := ({ s with mp := who, dontReply := false } : State).setOwed who true) hroom hf ha hne
  have hdone : MM.doExec (({ s with mp := who, dontReply := false } : State).setOwed who true) who a =
      some (OK, s₁.modify who (execDone a im.ft)) := by
    unfold MM.doExec
    rw [hi]
    dsimp only
    rw [hs₁]
    rfl
  have hsame := answer_same (s₁.modify who (execDone a im.ft)) who true OK
  refine ⟨answer (s₁.modify who (execDone a im.ft)) who true OK, ?_, ?_, ?_⟩
  · unfold MM.serve
    dsimp only
    rw [if_neg hwho]
    change MM.doExec _ who a >>= _ = _
    rw [hdone]
    rfl
  · rw [hsame.table]
    exact ht
  · rw [hsame.mproc]
    change update s₁.mproc who (execDone a im.ft (s₁.mproc who)) = _
    rw [hm, update_self, update_idem]
    rfl

/-- A turn for one that finds no slot. -/
theorem serve_exec_full {a : ExecCall} {im : Image} (hwho : who ≠ FS_PROC_NR)
    (hi : execImage a = .ok im) (hroom : roomFor s.table im = some OK)
    (hf : freeMem s.table (s.mproc who).region.base (s.mproc who).region.len = none) :
    MM.serve s (.call who (.exec a)) = none := by
  have hnone : MM.doExec (({ s with mp := who, dontReply := false } : State).setOwed who true) who a =
      none := by
    unfold MM.doExec
    rw [hi]
    dsimp only
    rw [newMem_full (s := ({ s with mp := who, dontReply := false } : State).setOwed who true)
      hroom hf]
    rfl
  unfold MM.serve
  dsimp only
  rw [if_neg hwho]
  change MM.doExec _ who a >>= _ = _
  rw [hnone]
  rfl

/-- Whether a process runs and is not suspended is a matter of the fields in `flow`. -/
theorem runs_congr {m m' : Mproc} (hf : m'.flow = m.flow)
    (h : m.live = true ∧ m.suspended = false) : m'.live = true ∧ m'.suspended = false := by
  simp only [Mproc.flow, Prod.mk.injEq] at hf
  obtain ⟨hu, hh, hw, hp, -⟩ := hf
  unfold Mproc.live Mproc.suspended at h ⊢
  rwa [hu, hh, hw, hp]

/-- There is room for such a program when a hole is as large. -/
theorem roomFor_program {t : HoleTable} {L F : List HolePtr} (hl : Lists t L F) (h5 : 5 ≤ n)
    (hn : n < 4096) (hbig : ∃ e ∈ L.map t.extent, n ≤ e.len) :
    roomFor t (programImage n) = some OK := by
  obtain ⟨hgap, hclicks⟩ := program_clicks h5 hn
  obtain ⟨max, hmax, hspec⟩ := maxHole_spec hl
  obtain ⟨e, he, hle⟩ := hbig
  have hmax' : ¬max < n := fun h => absurd ((hspec n (by omega)).mp h e he) (by omega)
  unfold roomFor
  rw [if_neg (by omega), hmax, hclicks, Option.map_some, if_neg hmax']

/-- EXEC of a process whose memory lies below all holes. -/
theorem exec_front {L F : List HolePtr} {base m b : Nat} {l : List Extent}
    (hl : Lists s.table L F) (hlen : L.length < NR_HOLES) (hwho : INIT_PROC_NR ≤ who)
    (h5 : 5 ≤ n) (hn : n < 4096) (hbig : ∃ e ∈ L.map s.table.extent, n ≤ e.len)
    (hreg : (s.mproc who).region = ⟨base, m⟩)
    (hfront : ∀ e ∈ (L.map s.table.extent).head?, base ≤ e.base)
    (hbelow : ∀ e ∈ L.map s.table.extent, e.stop ≤ 4096)
    (hmerged : ∀ e ∈ mergeExtents ⟨base, m⟩ (L.map s.table.extent), e.stop ≤ 4096)
    (hend : base + m ≤ 4096)
    (hfit : firstFit n (mergeExtents ⟨base, m⟩ (L.map s.table.extent)) = some (b, l))
    (hb : b ≠ NO_MEM) (hbn : b + n < 65536) :
    ∃ s', serve s (.call who (.exec (program n))) = some s' ∧
      (∃ L' F', Lists s'.table L' F' ∧ L'.map s'.table.extent = l) ∧
      (s'.mproc who).region = ⟨b, n⟩ ∧ (s'.mproc who).flow = (s.mproc who).flow ∧
      ∀ q, q ≠ who → s'.mproc q = s.mproc q := by
  obtain ⟨i, F, rfl⟩ := hl.free_cons hlen
  obtain ⟨hgap, hclicks⟩ := program_clicks h5 hn
  have hroom := roomFor_program hl h5 hn hbig
  have hbl : Below s.table L 4096 := fun i hi => hbelow _ (List.mem_map_of_mem hi)
  have hgoes : goesOnFront s.table base = true := by
    unfold goesOnFront
    rw [hl.used.head_eq]
    cases L with
    | nil => rfl
    | cons j L => simpa using hfront (s.table.extent j) rfl
  obtain ⟨t₁, L₁, F₁, hf, hl₁, hmap₁⟩ := freeMem_front hl hbl (by decide) hend hgoes
  have hbl₁ : Below t₁ L₁ 4096 := fun i hi => hmerged _ (hmap₁ ▸ List.mem_map_of_mem hi)
  have hspec := allocMem_spec n hl₁ hbl₁ (by decide)
  rw [hmap₁, hfit] at hspec
  obtain ⟨t₂, L₂, F₂, ha, hl₂, hmap₂⟩ := hspec
  have hne : who ≠ FS_PROC_NR := fun he => absurd (he ▸ hwho) (by decide)
  obtain ⟨s', hserve, ht, hm⟩ := serve_exec hne (execImage_program h5 hn) hroom
    (by rw [hreg]; exact hf) (hclicks.symm ▸ ha) hb
  refine ⟨s', hserve, ⟨L₂, F₂, ht ▸ hl₂, ht ▸ hmap₂⟩, ?_, ?_, fun q hq => ?_⟩
  · rw [hm, update_self, (Shaped.loaded (execImage_program h5 hn) hgap
      (by rw [hclicks]; exact hbn) _).2, hclicks]
  · rw [hm, update_self]
    rfl
  · rw [hm, update_of_ne hq]

/-- The holes after `k` rounds: pieces of two clicks, each a click into the next, and the rest of
memory behind them. -/
def tails : Nat → List Extent
  | 0 => [⟨509, 3587⟩]
  | k + 1 => ⟨508 - k, 2⟩ :: tails k

/-- There are `k + 1` holes in `tails k`. -/
theorem tails_length (k : Nat) : (tails k).length = k + 1 := by
  induction k with
  | zero => rfl
  | succ k ih => rw [tails, List.length_cons, ih]

/-- The first hole of `tails k` begins at click `509 - k`. -/
theorem tails_head (k : Nat) : ∃ e l, tails k = e :: l ∧ e.base = 509 - k := by
  cases k with
  | zero => exact ⟨_, _, rfl, rfl⟩
  | succ k => exact ⟨_, _, rfl, by dsimp only; omega⟩

/-- All of them end within memory. -/
theorem tails_stop {k : Nat} {e : Extent} (he : e ∈ tails k) : e.stop ≤ 4096 := by
  induction k with
  | zero =>
    obtain rfl := List.mem_singleton.mp he
    decide
  | succ k ih =>
    rcases List.mem_cons.mp he with rfl | he
    · unfold Extent.stop
      dsimp only
      omega
    · exact ih he

/-- The last one is the large hole above. -/
theorem tails_long (k : Nat) : ⟨509, 3587⟩ ∈ tails k := by
  induction k with
  | zero => exact List.mem_singleton_self _
  | succ k ih => exact List.mem_cons_of_mem _ ih

/-- A block that ends one click behind the start of the first hole is not merged. -/
theorem tails_merge {k base m : Nat} (hk : k < 400) (he : base + m = 510 - k) :
    mergeExtents ⟨base, m⟩ (tails k) = ⟨base, m⟩ :: tails k := by
  have happart : ∀ (e : Extent) (j : Nat), e.stop ≠ 509 - j → join e (tails j) = e :: tails j := by
    intro e j hne
    obtain ⟨f, l, hl, hf⟩ := tails_head j
    rw [hl, join, if_neg (by omega)]
  have hstop : (⟨base, m⟩ : Extent).stop = 510 - k := he
  cases k with
  | zero => exact happart ⟨base, m⟩ 0 (by omega)
  | succ k =>
    have hnext : join ⟨508 - k, 2⟩ (tails k) = ⟨508 - k, 2⟩ :: tails k := by
      refine happart _ k ?_
      unfold Extent.stop
      dsimp only
      omega
    rw [tails, mergeExtents, hnext]
    exact happart ⟨base, m⟩ (k + 1) (by omega)

/-- INIT and its child after `k` rounds: both lie below the holes, and what they cover overlaps. -/
structure Squeezed (k : Nat) (s : State) : Prop where
  holes : ∃ L F, Lists s.table L F ∧ L.map s.table.extent = tails k
  init : (s.mproc 2).region = ⟨100, 410 - 2 * ((k + 1) / 2)⟩
  child : (s.mproc 3).region = ⟨310, 199 - 2 * (k / 2)⟩
  runs : ∀ p, p = 2 ∨ p = 3 → (s.mproc p).live = true ∧ (s.mproc p).suspended = false

/-- Who goes through EXEC next, and how large its program is. -/
def squeezer (k : Nat) : Proc := if k % 2 = 0 then 2 else 3
/-- Where the process of round `k` has its image. -/
def squeezeBase (k : Nat) : Nat := if k % 2 = 0 then 100 else 310
/-- How many clicks it still has. -/
def squeezeSize (k : Nat) : Nat := 508 - k - squeezeBase k

/-- The memory of that process, in round `k`. -/
theorem Squeezed.region {k : Nat} (h : Squeezed k s) (hk : k < 128) :
    (s.mproc (squeezer k)).region = ⟨squeezeBase k, squeezeSize k + 2⟩ := by
  unfold squeezer squeezeSize squeezeBase
  split
  · rw [h.init]
    congr 1
    omega
  · rw [h.child]
    congr 1
    omega

/-- The rounds are played by processes 2 and 3 in turn. -/
theorem squeezer_cases (k : Nat) : squeezer k = 2 ∨ squeezer k = 3 := by
  unfold squeezer
  split
  · exact Or.inl rfl
  · exact Or.inr rfl

/-- Each round leaves one more hole. -/
theorem Squeezed.next {k : Nat} (h : Squeezed k s) (hk : k < 127) :
    ∃ s', AsIssued s (.call (squeezer k) (.exec (program (squeezeSize k)))) ∧
      serve s (.call (squeezer k) (.exec (program (squeezeSize k)))) = some s' ∧
      Squeezed (k + 1) s' := by
  obtain ⟨L, F, hl, hmap⟩ := h.holes
  have hbase : squeezeBase k = 100 ∨ squeezeBase k = 310 := by
    unfold squeezeBase
    split
    · exact Or.inl rfl
    · exact Or.inr rfl
  have hend : squeezeBase k + (squeezeSize k + 2) = 510 - k := by
    unfold squeezeSize
    omega
  have hmerge := tails_merge (by omega) hend
  have hlen : L.length < NR_HOLES := by
    rw [← List.length_map s.table.extent, hmap, tails_length]
    change k + 1 < 128
    omega
  have hwho : INIT_PROC_NR ≤ squeezer k := by
    rcases squeezer_cases k with he | he
    · rw [he]
    · rw [he]
      decide
  have hfit : firstFit (squeezeSize k) (⟨squeezeBase k, squeezeSize k + 2⟩ :: tails k) =
      some (squeezeBase k, tails (k + 1)) := by
    have hrest : (⟨squeezeBase k + squeezeSize k, squeezeSize k + 2 - squeezeSize k⟩ : Extent) =
        ⟨508 - k, 2⟩ := by
      congr 1
      · omega
      · omega
    rw [firstFit, if_pos (by dsimp only; omega), if_neg (by dsimp only; omega), hrest]
    rfl
  have hfront : ∀ e ∈ (tails k).head?, squeezeBase k ≤ e.base := by
    obtain ⟨f, l, htails, hf⟩ := tails_head k
    intro e he
    rw [htails, List.head?_cons] at he
    obtain rfl := Option.some.inj he
    omega
  rw [← hmap] at hmerge hfit hfront
  obtain ⟨s', hserve, hholes, hreg, hflow, hother⟩ := exec_front hl hlen hwho (by omega) (by omega)
    (hmap ▸ ⟨_, tails_long k, by dsimp only; omega⟩) (h.region (by omega)) hfront
    (fun e he => tails_stop (hmap ▸ he))
    (by
      rw [hmerge, hmap]
      refine List.forall_mem_cons.mpr ⟨?_, fun e => tails_stop⟩
      unfold Extent.stop
      dsimp only
      omega)
    (by omega) (hmerge ▸ hfit) (by change squeezeBase k ≠ 0; omega) (by omega)
  have hruns := h.runs (squeezer k) (squeezer_cases k)
  refine ⟨s', Or.inl ⟨hwho, hruns⟩, hserve, hholes, ?_, ?_, fun p hp => ?_⟩
  · by_cases hpar : k % 2 = 0
    · have hwho₂ : squeezer k = 2 := if_pos hpar
      have hb₂ : squeezeBase k = 100 := if_pos hpar
      rw [hwho₂, hb₂] at hreg
      rw [hreg]
      unfold squeezeSize
      congr 1
      omega
    · have hwho₃ : squeezer k = 3 := if_neg hpar
      rw [hother 2 (by rw [hwho₃]; decide), h.init]
      congr 1
      omega
  · by_cases hpar : k % 2 = 0
    · have hwho₂ : squeezer k = 2 := if_pos hpar
      rw [hother 3 (by rw [hwho₂]; decide), h.child]
      congr 1
      omega
    · have hwho₃ : squeezer k = 3 := if_neg hpar
      have hb₃ : squeezeBase k = 310 := if_neg hpar
      rw [hwho₃, hb₃] at hreg
      rw [hreg]
      unfold squeezeSize
      congr 1
      omega
  · by_cases he : p = squeezer k
    · rw [he]
      exact runs_congr hflow hruns
    · rw [hother p he]
      exact h.runs p hp

/-- INIT with 200 clicks of text and 10 of data, and no RAM disk behind it. -/
def textBoot : Boot := ⟨200, 10, 310, 100⟩

/-- INIT makes a child, and both go through EXEC once. -/
theorem squeezed_start :
    ∃ s, Reach serve AsIssued (fun s => boot blankHoles 4096 textBoot = some s) s ∧
      Squeezed 0 s := by
  obtain ⟨s₁, hr₁, hholes, hinit, hchild, hruns⟩ : ∃ s₁,
      Reach serve AsIssued (fun s => boot blankHoles 4096 textBoot = some s) s₁ ∧
      s₁.table = ((memInit blankHoles 4096).setExtent 0 310 3786).setExtent 0 720 3376 ∧
      (s₁.mproc 2).region = ⟨100, 410⟩ ∧ (s₁.mproc 3).region = ⟨310, 410⟩ ∧
      ∀ p, p = 2 ∨ p = 3 → (s₁.mproc p).live = true ∧ (s₁.mproc p).suspended = false := by
    refine ⟨_, .of_run (.init rfl) (l := [.call 2 .fork]) rfl, rfl, rfl, rfl, ?_⟩
    rintro p (rfl | rfl)
    · exact ⟨rfl, rfl⟩
    · exact ⟨rfl, rfl⟩
  have hl₁ : Lists s₁.table [0] ((List.finRange NR_HOLES).drop 1) := by
    rw [hholes]
    exact ((memInit_lists blankHoles 4096).1.setExtent 0 310 3786).setExtent 0 720 3376
  have hmap₁ : [0].map s₁.table.extent = [⟨720, 3376⟩] := by
    rw [hholes]
    rfl
  have hbelow : ∀ e ∈ [(⟨720, 3376⟩ : Extent)], e.stop ≤ 4096 := by decide
  obtain ⟨s₂, he₂, ⟨L, F, hl₂, hmap₂⟩, hreg₂, hflow₂, hother₂⟩ := exec_front (n := 410) (b := 100)
    (l := [⟨720, 3376⟩]) hl₁ (by decide) (le_refl INIT_PROC_NR) (by decide) (by decide)
    (by rw [hmap₁]; decide) hinit (by rw [hmap₁]; decide) (by rw [hmap₁]; exact hbelow)
    (by rw [hmap₁]; decide) (by decide) (by rw [hmap₁]; rfl) (by decide) (by decide)
  have hlen₂ : L.length < NR_HOLES := by
    rw [← List.length_map s₂.table.extent, hmap₂]
    decide
  have hrun₂ : ∀ p, p = 2 ∨ p = 3 →
      (s₂.mproc p).live = true ∧ (s₂.mproc p).suspended = false := by
    rintro p (rfl | rfl)
    · exact runs_congr hflow₂ (hruns 2 (Or.inl rfl))
    · rw [hother₂ 3 (by decide)]
      exact hruns 3 (Or.inr rfl)
  have hchild₂ : (s₂.mproc 3).region = ⟨310, 410⟩ := by rw [hother₂ 3 (by decide), hchild]
  have hthree : INIT_PROC_NR ≤ (3 : Proc) := by decide
  obtain ⟨s₃, he₃, hholes₃, hreg₃, hflow₃, hother₃⟩ := exec_front (n := 199) (b := 310)
    (l := [⟨509, 3587⟩]) hl₂ hlen₂ hthree (by decide) (by decide) (by rw [hmap₂]; decide) hchild₂
    (by rw [hmap₂]; decide)
    (by rw [hmap₂]; exact hbelow) (by rw [hmap₂]; decide) (by decide) (by rw [hmap₂]; rfl)
    (by decide) (by decide)
  have hi₁ : AsIssued s₁ (.call INIT_PROC_NR (.exec (program 410))) :=
    Or.inl ⟨le_rfl, hruns 2 (Or.inl rfl)⟩
  have hi₂ : AsIssued s₂ (.call 3 (.exec (program 199))) :=
    Or.inl ⟨by decide, hrun₂ 3 (Or.inr rfl)⟩
  refine ⟨s₃, (hr₁.next hi₁ he₂).next hi₂ he₃, hholes₃, ?_, hreg₃, ?_⟩
  · rw [hother₃ 2 (by decide), hreg₂]
  · rintro p (rfl | rfl)
    · rw [hother₃ 2 (by decide)]
      exact hrun₂ 2 (Or.inl rfl)
    · exact runs_congr hflow₃ (hrun₂ 3 (Or.inr rfl))

/-- Every round of the play up to the last one is reached. -/
theorem squeezed_reach {k : Nat} (hk : k ≤ 127) :
    ∃ s, Reach serve AsIssued (fun s => boot blankHoles 4096 textBoot = some s) s ∧
      Squeezed k s := by
  induction k with
  | zero => exact squeezed_start
  | succ k ih =>
    obtain ⟨s, hr, h⟩ := ih (by omega)
    obtain ⟨s', hi, he, h'⟩ := h.next (by omega)
    exact ⟨s', hr.next hi he, h'⟩

/-- After 127 rounds no slot is left, and the next EXEC panics. -/
theorem hole_table_full : ∃ (b : Boot) (s : State) (r : Request), b.WellFormed ∧ b.tot < 65536 ∧
    Reach serve AsIssued (fun s => boot blankHoles 4096 b = some s) s ∧
    (∃ L, Lists s.table L []) ∧ AsIssued s r ∧ serve s r = none := by
  obtain ⟨s, hr, h⟩ := squeezed_reach (le_refl 127)
  obtain ⟨L, F, hl, hmap⟩ := h.holes
  have hlen : NR_HOLES ≤ L.length := by
    rw [← List.length_map s.table.extent, hmap, tails_length]
  obtain rfl := hl.free_nil hlen
  have hroom : roomFor s.table (programImage 50) = some OK :=
    roomFor_program hl (by decide) (by decide) (hmap ▸ ⟨_, tails_long 127, by decide⟩)
  refine ⟨textBoot, s, .call 3 (.exec (program 50)),
    ⟨by decide, by decide, by decide, by decide, by decide, by decide⟩, by decide, hr, ⟨L, hl⟩,
    Or.inl ⟨by decide, h.runs 3 (Or.inr rfl)⟩, ?_⟩
  refine serve_exec_full (by decide) (execImage_program (by decide) (by decide)) hroom ?_
  have hnil : s.table.freeSlots = none := hl.free
  rw [freeMem, hnil]

end Squeeze

end Minix.MM
