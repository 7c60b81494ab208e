import Minix.Alarms
import Minix.Kernel.System
import Minix.MM.Partition
import Minix.MM.Timers

/-!
# Memory maps

The kernel keeps a copy of the segments that the memory manager has for each process, and learns
of changes by messages only. At the start each of the two sets up INIT on its own.
-/

namespace Minix.Maps

open Function Kernel Transition
open Alarms (slotOf slotOf_inj procNr_slotOf)

/-- A segment, as the kernel stores it. -/
def segOf (m : MM.MemMap) : MemMap := ⟨m.memVir, m.memPhys, m.memLen⟩

/-- `mp_seg`, as the kernel stores it in `p_map`. -/
def mapOf (m : MM.Mproc) : ProcMap := ⟨segOf m.segT, segOf m.segD, segOf m.segS⟩

/-- What a message of the memory manager does to the maps of the kernel. -/
def remap (pMap : Slot → ProcMap) : MM.Tell → Slot → ProcMap
  | .sysFork parent child => update pMap (slotOf child) (pMap (slotOf parent))
  | .sysNewmap p m => update pMap (slotOf p) (mapOf m)
  | _ => pMap

/-- The memory manager, and `p_map`. -/
structure System where
  mm : MM.State
  pMap : Slot → ProcMap

/-- A turn of the main loop of the memory manager, with the messages that it sends. -/
def step (st : System) (r : MM.Request) : Option System :=
  (MM.serve st.mm r).map fun mm => ⟨mm, (MM.serveTells st.mm r).foldl remap st.pMap⟩

/-- `build` has told the kernel and FS the same of INIT. -/
structure Built (b : MM.Boot) (base : Nat) (sizes : Nat → Nat) : Prop where
  org : b.initOrg = textBase base sizes 2
  text : b.initText = sizes 6
  data : b.initData = sizes 7

/-- The memory manager has been told of INIT, and the kernel has set up its table. -/
def Started (t : MM.HoleTable) (totMem : Nat) (b : MM.Boot) (base : Nat) (sizes : Nat → Nat)
    (st : System) : Prop :=
  MM.boot t totMem b = some st.mm ∧ st.pMap = startMap base sizes

/-- The map of a process is the same on both sides, and its segments follow each other. -/
structure Mapped (st : System) (p : MM.Proc) : Prop where
  kernel : st.pMap (slotOf p) = mapOf (st.mm.mproc p)
  dVir : (st.mm.mproc p).segD.memVir = 0
  dPhys : (st.mm.mproc p).segD.memPhys =
    (st.mm.mproc p).segT.memPhys + (st.mm.mproc p).segT.memLen
  sPhys : (st.mm.mproc p).segS.memPhys =
    (st.mm.mproc p).segD.memPhys + (st.mm.mproc p).segS.memVir
  dLen : (st.mm.mproc p).segD.memLen ≤ (st.mm.mproc p).segS.memVir

/-- So it is with every live process from INIT on. -/
def AllMapped (st : System) : Prop :=
  ∀ p, MM.INIT_PROC_NR ≤ p → (st.mm.mproc p).live = true → Mapped st p

/-! ## What the system task does -/

section SystemTask

variable {k k' : State} {r : Int}

/-- `proc_addr` of a user process is its slot. -/
theorem procAddr_slotOf (p : MM.Proc) : procAddr p.val = some (slotOf p) := by
  have htasks : NR_TASKS = 8 := rfl
  have hprocs : Kernel.NR_PROCS = 16 := rfl
  have hp : p.val < 16 := p.isLt
  unfold procAddr
  rw [dif_pos ⟨by omega, by omega⟩]
  refine congrArg some (Fin.ext ?_)
  unfold slotOf
  dsimp only
  omega

/-- The number of a user process passes the kernel's test. -/
theorem goodProc (p : MM.Proc) : ¬badProc p.val := by
  have hprocs : Kernel.NR_PROCS = 16 := rfl
  have hp : p.val < 16 := p.isLt
  unfold badProc
  omega

/-- A process that is made ready keeps its map. -/
theorem wake_pMap (k : State) (rp : Slot) : (wake k rp).pMap = k.pMap := by
  unfold wake
  split
  · rfl
  · rfl

/-- SYS_FORK copies the map of the parent. -/
theorem doFork_pMap {parent child : MM.Proc} {pid : Int}
    (h : Kernel.doFork k parent.val child.val pid = some (r, k')) :
    k'.pMap = remap k.pMap (.sysFork parent child) := by
  unfold Kernel.doFork at h
  rw [if_neg (not_or.mpr ⟨goodProc parent, goodProc child⟩), procAddr_slotOf,
    procAddr_slotOf] at h
  exact (Prod.mk.inj (Option.some.inj h)).2 ▸ rfl

/-- SYS_NEWMAP stores the map that it is given. -/
theorem doNewmap_pMap {p : MM.Proc} {m : MM.Mproc}
    (h : doNewmap k p.val (mapOf m) = some (r, k')) :
    k'.pMap = remap k.pMap (.sysNewmap p m) := by
  have hp : ¬((p.val : Int) < -NR_TASKS ∨ (p.val : Int) ≥ Kernel.NR_PROCS) := by
    have htasks : NR_TASKS = 8 := rfl
    have hgood := not_or.mp (goodProc p)
    omega
  unfold doNewmap at h
  rw [if_neg hp, procAddr_slotOf] at h
  rw [← (Prod.mk.inj (Option.some.inj h)).2]
  split
  · exact wake_pMap _ _
  · rfl

/-- EXEC leaves the maps alone. -/
theorem doExec_pMap {p : MM.Proc} {sp : Nat} (h : Kernel.doExec k p.val sp = some (r, k')) :
    k'.pMap = remap k.pMap (.sysExec p) := by
  unfold Kernel.doExec at h
  rw [if_neg (goodProc p), procAddr_slotOf] at h
  rw [← (Prod.mk.inj (Option.some.inj h)).2]
  exact wake_pMap _ _

/-- So does EXIT. -/
theorem doXit_pMap {parent p : MM.Proc} (h : doXit k parent.val p.val = some (r, k')) :
    k'.pMap = remap k.pMap (.sysXit p) := by
  unfold doXit at h
  rw [if_neg (not_or.mpr ⟨goodProc parent, goodProc p⟩), procAddr_slotOf, procAddr_slotOf] at h
  obtain ⟨k₁, h₁, he⟩ := Option.map_eq_some_iff.mp h
  obtain ⟨s, -, h₁⟩ := Option.bind_eq_some_iff.mp h₁
  obtain ⟨c, -, h₁⟩ := Option.bind_eq_some_iff.mp h₁
  rw [← (Prod.mk.inj he).2, ← Option.some.inj h₁]
  rfl

end SystemTask

/-! ## Agreement -/

/-- The kernel has the segments of every live process from INIT on. -/
def Tracks (pMap : Slot → ProcMap) (s : MM.State) : Prop :=
  ∀ p, MM.INIT_PROC_NR ≤ p → (s.mproc p).live = true → pMap (slotOf p) = mapOf (s.mproc p)

/-- A slot that fades keeps its map. -/
theorem mapOf_fades {m m' : MM.Mproc} (h : m.Fades m') : mapOf m' = mapOf m := by
  unfold mapOf
  rw [h.segT, h.segD, h.segS]

/-- A failure of `adjust`, and a success that changes no segment, are not reported. -/
theorem adjustTells_cases (m : MM.Mproc) (p : MM.Proc) (d sp : Nat) :
    MM.adjustTells m p d sp = [] ∧ mapOf (MM.adjust m d sp).2 = mapOf m ∨
    MM.adjustTells m p d sp = [.sysNewmap p (MM.adjust m d sp).2] := by
  unfold MM.adjustTells
  dsimp only
  split
  · exact Or.inr rfl
  · rename_i hsame
    refine Or.inl ⟨rfl, ?_⟩
    rcases MM.adjust_cases m d sp with he | ⟨-, he⟩
    · rw [he]
    · rw [he] at hsame ⊢
      have hboth := not_or.mp fun h => hsame ⟨rfl, h⟩
      unfold MM.growStack
      dsimp only
      rw [if_neg hboth.2, not_not.mp hboth.1]

/-- The exit of a process tells the kernel no map. -/
theorem mmExitTells_remap (pMap : Slot → ProcMap) (s : MM.State) (p : MM.Proc) :
    (MM.mmExitTells s p).foldl remap pMap = pMap := by
  unfold MM.mmExitTells
  split
  · rfl
  · rfl

section Tracks

variable {pMap : Slot → ProcMap} {s s' : MM.State} {p : MM.Proc} {ans : MM.Answers}

/-- The kernel's maps are still those of MM after some processes have faded. -/
theorem Tracks.fade (h : Tracks pMap s) (hf : MM.Fade s s') : Tracks pMap s' := fun q hq hl =>
  (h q hq ((hf q).live hl)).trans (mapOf_fades (hf q)).symm

/-- The map of one process is reported when its slot is written. -/
theorem Tracks.newmap (h : Tracks pMap s) (m : MM.Mproc) (hp : s'.mproc p = m)
    (hq : ∀ q, q ≠ p → s'.mproc q = s.mproc q) :
    Tracks (remap pMap (.sysNewmap p m)) s' := by
  intro q hle hl
  change update pMap (slotOf p) (mapOf m) (slotOf q) = _
  by_cases he : q = p
  · rw [he, update_self, hp]
  · rw [update_of_ne fun heq => he (slotOf_inj heq), hq q he]
    rw [hq q he] at hl
    exact h q hle hl

/-- `adjust` writes the slot, and reports the map unless it is as before. -/
theorem Tracks.adjust (h : Tracks pMap s) {m : MM.Mproc} (hm : (s.mproc p).Fades m) (d sp : Nat) :
    Tracks ((MM.adjustTells m p d sp).foldl remap pMap)
      (s.modify p fun _ => (MM.adjust m d sp).2) := by
  rcases adjustTells_cases m p d sp with ⟨htells, hsame⟩ | htells
  · rw [htells]
    intro q hle hl
    change pMap (slotOf q) = _
    rw [MM.State.modify_mproc] at hl ⊢
    split at hl
    · rename_i he
      rw [if_pos he, hsame, mapOf_fades hm, he]
      have hlive : (MM.adjust m d sp).2.live = m.live := by
        rw [MM.adjust_eq]
        rfl
      exact h p (he ▸ hle) (hm.live (hlive ▸ hl))
    · rename_i he
      rw [if_neg he]
      exact h q hle hl
  · rw [htells]
    exact h.newmap _ (by rw [MM.State.modify_mproc, if_pos rfl])
      fun q hq => by rw [MM.State.modify_mproc, if_neg hq]

/-- And after an exit. -/
theorem Tracks.mmExit {st : BitVec 8} (h : Tracks pMap s) (s₀ : MM.State)
    (he : MM.mmExit s p st = some s') : Tracks ((MM.mmExitTells s₀ p).foldl remap pMap) s' := by
  rw [mmExitTells_remap]
  exact h.fade (.mmExit he)

/-- And after a signal that is caught. -/
theorem Tracks.catchSig (h : Tracks pMap s) (sigNr sp : Nat) :
    Tracks ((MM.adjustTells { s.mproc p with
        mpCatch := (s.mproc p).mpCatch &&& ~~~MM.sigMask sigNr } p (s.mproc p).segD.memLen
        (MM.subClicks sp 8)).foldl remap pMap) (MM.catchSig s p sigNr sp).2 := by
  have hself : (s.modify p fun m => { m with mpCatch := m.mpCatch &&& ~~~MM.sigMask sigNr }).mproc p =
      { s.mproc p with mpCatch := (s.mproc p).mpCatch &&& ~~~MM.sigMask sigNr } := by
    rw [MM.State.modify_mproc, if_pos rfl]
  have hmask : Tracks pMap (s.modify p fun m =>
      { m with mpCatch := m.mpCatch &&& ~~~MM.sigMask sigNr }) :=
    h.fade (.modify ⟨rfl, rfl, rfl, id, id⟩)
  have hnote : Tracks pMap ((s.modify p fun m =>
      { m with mpCatch := m.mpCatch &&& ~~~MM.sigMask sigNr }).noteAct .adjust p) :=
    hmask.fade (.of_mproc rfl)
  unfold MM.catchSig
  dsimp only
  rw [hself]
  refine hnote.adjust ?_ _ _
  rw [MM.noteAct_mproc, hself]
  exact .refl _

/-- And after any signal. -/
theorem Tracks.sigProc {sigNr : Nat} (h : Tracks pMap s) (he : MM.sigProc s p sigNr ans = some s') :
    Tracks ((MM.sigProcTells s p sigNr ans).foldl remap pMap) s' := by
  unfold MM.sigProc at he
  unfold MM.sigProcTells
  rw [List.foldl_cons]
  dsimp only at he
  split at he
  · rename_i hu
    rw [if_pos hu]
    exact Option.some.inj he ▸ h
  · rename_i hu
    rw [if_neg hu]
    split at he
    · rename_i hc
      rw [if_pos hc, List.foldl_append]
      have hcatch := h.catchSig (p := p) sigNr (ans.sp sigNr p)
      split at he
      · rename_i hok
        rw [if_pos hok]
        exact Option.some.inj he ▸ hcatch.fade (.of_mproc rfl)
      · rename_i hok
        rw [if_neg hok, mmExitTells_remap]
        exact hcatch.fade (.sigKill he)
    · rename_i hc
      rw [if_neg hc, mmExitTells_remap]
      exact h.fade (.sigKill he)

/-- And after signals to a list of processes. -/
theorem Tracks.signalAll {c : MM.SigCall} {l : List MM.Proc} {n n' : Nat} (h : Tracks pMap s)
    (he : MM.signalAll c ans l (s, n) = some (s', n')) :
    Tracks ((MM.signalAllTells c ans l s).foldl remap pMap) s' := by
  induction l generalizing pMap s n with
  | nil => exact (Prod.mk.inj (Option.some.inj he)).1 ▸ h
  | cons q l ih =>
    unfold MM.signalAll at he
    unfold MM.signalAllTells
    split at he
    · rename_i hu
      rw [if_pos hu]
      exact ih h he
    · rename_i hu
      rw [if_neg hu]
      split at he
      · rename_i ha
        rw [if_pos ha]
        exact ih h he
      · rename_i ha
        rw [if_neg ha]
        have hoff := h.fade (.timerOff s c q)
        split at he
        · rename_i hc
          rw [if_pos hc]
          exact ih hoff he
        · rename_i hc
          rw [if_neg hc, List.foldl_append]
          obtain ⟨s₁, h₁, he⟩ := Option.bind_eq_some_iff.mp he
          rw [h₁]
          have hsig := (hoff.sigProc h₁).fade (.unpause s₁ q)
          dsimp only at he ⊢
          split at he
          · rename_i hone
            rw [if_pos hone]
            exact (Prod.mk.inj (Option.some.inj he)).1 ▸ hsig
          · rename_i hone
            rw [if_neg hone]
            exact ih hsig he

/-- And after KILL. -/
theorem Tracks.checkSig {c : MM.SigCall} {r : Int} (h : Tracks pMap s)
    (he : MM.checkSig s c ans = some (r, s')) :
    Tracks ((MM.checkSigTells s c ans).foldl remap pMap) s' := by
  unfold MM.checkSig at he
  unfold MM.checkSigTells
  split at he
  · rename_i hnr
    rw [if_pos hnr]
    exact (Prod.mk.inj (Option.some.inj he)).2 ▸ h
  · rename_i hnr
    rw [if_neg hnr]
    obtain ⟨⟨s₁, n⟩, h₁, he⟩ := Option.map_eq_some_iff.mp he
    rw [← (Prod.mk.inj he).2]
    have hall := h.signalAll h₁
    dsimp only
    split
    · exact hall
    · exact hall.fade (.of_mproc rfl)

/-- And after a stack fault. -/
theorem Tracks.stackFault (h : Tracks pMap s) (he : MM.stackFault s p ans = some s') :
    Tracks ((MM.stackFaultTells s p ans).foldl remap pMap) s' := by
  unfold MM.stackFault at he
  unfold MM.stackFaultTells
  have hadj := h.adjust (.refl (s.mproc p)) (s.mproc p).segD.memLen (ans.sp MM.STACK_FAULT p)
  dsimp only at he ⊢
  rw [List.foldl_append]
  split at he
  · rename_i hok
    rw [if_pos hok]
    exact Option.some.inj he ▸ hadj
  · rename_i hok
    rw [if_neg hok]
    exact (hadj.fade (.modify ⟨rfl, rfl, rfl, id, id⟩)).sigProc he

/-- And after each signal of a map that the kernel sends. -/
theorem Tracks.ksigBits {sigMap : BitVec 16} {procId : Nat} {l : List Nat} (h : Tracks pMap s)
    (he : l.foldlM (MM.ksigBit sigMap procId ans) s = some s') :
    Tracks ((MM.ksigTells sigMap procId ans l s).foldl remap pMap) s' := by
  induction l generalizing pMap s with
  | nil => exact Option.some.inj he ▸ h
  | cons i l ih =>
    rw [List.foldlM_cons] at he
    obtain ⟨s₁, h₁, he⟩ := Option.bind_eq_some_iff.mp he
    unfold MM.ksigTells
    rw [List.foldl_append, h₁]
    refine ih ?_ he
    unfold MM.ksigBit at h₁
    split at h₁
    · rename_i hbit
      rw [if_pos hbit]
      obtain ⟨⟨r, s₂⟩, h₂, rfl⟩ := Option.map_eq_some_iff.mp h₁
      exact h.checkSig h₂
    · rename_i hbit
      rw [if_neg hbit]
      exact Option.some.inj h₁ ▸ h

/-- And after the message KSIG. -/
theorem Tracks.doKsig {who : Option MM.Proc} {sigMap : BitVec 16} {r : Int} (h : Tracks pMap s)
    (he : MM.doKsig s who p sigMap ans = some (r, s')) :
    Tracks ((MM.doKsigTells s who p sigMap ans).foldl remap pMap) s' := by
  unfold MM.doKsig at he
  unfold MM.doKsigTells
  split at he
  · rename_i hwho
    rw [if_pos hwho]
    exact (Prod.mk.inj (Option.some.inj he)).2 ▸ h
  · rename_i hwho
    rw [if_neg hwho]
    split at he
    · rename_i hu
      rw [if_pos hu]
      exact (Prod.mk.inj (Option.some.inj he)).2 ▸ h
    · rename_i hu
      rw [if_neg hu]
      have hmp : Tracks pMap { s with mp := MM.MM_PROC_NR } := h
      dsimp only at he ⊢
      split at he
      · rename_i hstk
        rw [if_pos hstk]
        obtain ⟨s₁, h₁, he⟩ := Option.map_eq_some_iff.mp he
        exact (Prod.mk.inj he).2 ▸ hmp.stackFault h₁
      · rename_i hstk
        rw [if_neg hstk]
        obtain ⟨s₁, h₁, he⟩ := Option.map_eq_some_iff.mp he
        exact (Prod.mk.inj he).2 ▸ (hmp.ksigBits h₁).fade (.of_mproc rfl)

/-- FORK reports the map of the child, after the kernel has copied the one of the parent. -/
theorem Tracks.doFork {r : Int} (h : Tracks pMap s) (he : MM.doFork s p = some (r, s')) :
    Tracks ((MM.forkTells s p).foldl remap pMap) s' := by
  have hfail : r < 0 → MM.forkTells s p = [] := by
    intro hr
    unfold MM.forkTells
    rw [he]
    split
    · rename_i heq _
      rw [← (Prod.mk.inj (Option.some.inj heq)).1, if_pos hr]
    · rfl
  have hdone := he
  unfold MM.doFork at he
  dsimp only at he
  split at he
  · obtain ⟨rfl, rfl⟩ := Prod.mk.inj (Option.some.inj he)
    rw [hfail (by decide)]
    exact h
  · split at he
    · obtain ⟨rfl, rfl⟩ := Prod.mk.inj (Option.some.inj he)
      rw [hfail (by decide)]
      exact h
    · obtain ⟨⟨base, t⟩, -, he⟩ := Option.bind_eq_some_iff.mp he
      dsimp only at he
      split at he
      · obtain ⟨rfl, rfl⟩ := Prod.mk.inj (Option.some.inj he)
        rw [hfail (by decide)]
        exact h.fade (.of_mproc rfl)
      · obtain ⟨child, hc, he⟩ := Option.bind_eq_some_iff.mp he
        obtain ⟨s₁, h₁, he⟩ := Option.bind_eq_some_iff.mp he
        obtain ⟨rfl, rfl⟩ := Prod.mk.inj (Option.some.inj he)
        obtain ⟨pid, hm, -⟩ := MM.forkedState_mproc h₁
        have hpid : ¬(s₁.nextPid : Int) < 0 := by omega
        unfold MM.forkTells
        rw [hdone, hc]
        dsimp only
        rw [if_neg hpid]
        change Tracks (update (update pMap (slotOf child) _) (slotOf child) (mapOf _)) _
        rw [update_idem]
        refine h.newmap _ rfl fun q hq => ?_
        rw [MM.State.reply_mproc, hm, if_neg hq]

/-- EXEC reports the new map, unless it fails and changes nothing. -/
theorem Tracks.doExec {a : MM.ExecCall} {r : Int} (h : Tracks pMap s)
    (he : MM.doExec s p a = some (r, s')) :
    Tracks ((MM.execTells s p a).foldl remap pMap) s' := by
  unfold MM.execTells
  rw [he]
  dsimp only
  unfold MM.doExec at he
  split at he
  · rename_i e hi
    obtain ⟨rfl, rfl⟩ := Prod.mk.inj (Option.some.inj he)
    rw [if_neg (MM.execImage_error hi)]
    exact h
  · rename_i im _
    obtain ⟨⟨r₁, s₁⟩, h₁, he⟩ := Option.bind_eq_some_iff.mp he
    dsimp only at he
    split at he
    · rename_i hr
      obtain ⟨rfl, rfl⟩ := Prod.mk.inj (Option.some.inj he)
      rw [if_neg hr, (MM.newMem_fail h₁ hr).1]
      exact h
    · rename_i hr
      obtain ⟨rfl, rfl⟩ := Prod.mk.inj (Option.some.inj he)
      obtain rfl := not_not.mp hr
      rw [if_pos rfl]
      refine h.newmap _ rfl fun q hq => ?_
      obtain ⟨t₁, base, t₂, -, -, -, -, rfl⟩ := MM.newMem_ok h₁
      rw [MM.State.modify_mproc, if_neg hq]
      exact update_of_ne hq _ _

/-- Every call keeps the agreement. -/
theorem Tracks.perform {who : MM.Proc} {c : MM.MMCall} {r : Int} (h : Tracks pMap s)
    (he : MM.perform s who c = some (r, s')) :
    Tracks ((MM.performTells s who c).foldl remap pMap) s' := by
  cases c with
  | fork => exact h.doFork he
  | exec a => exact h.doExec he
  | brk addr sp =>
    rw [← (Prod.mk.inj (Option.some.inj he)).2]
    exact h.adjust (.refl _) _ _
  | exit status =>
    obtain ⟨s₁, h₁, he⟩ := Option.map_eq_some_iff.mp he
    change Tracks ((MM.mmExitTells s who).foldl remap pMap) s'
    rw [mmExitTells_remap, ← (Prod.mk.inj he).2]
    exact (h.fade (.mmExit h₁)).fade (.of_mproc rfl)
  | wait => exact h.fade (.doWait he)
  | kill pid killSig ans => exact h.checkSig he
  | signal sig f => exact (Prod.mk.inj (Option.some.inj he)).2 ▸ h.fade (.doSignal s who sig f)
  | alarm sec left =>
    rw [← (Prod.mk.inj (Option.some.inj he)).2]
    intro q hq hl
    change pMap (slotOf q) = _
    change ((s.modify who fun m => { m with alarmOn := sec ≠ 0 }).mproc q).live = true at hl
    rw [MM.State.modify_mproc] at hl ⊢
    split at hl
    · rename_i hwho
      rw [if_pos hwho]
      exact hwho ▸ h who (hwho ▸ hq) hl
    · rename_i hwho
      rw [if_neg hwho]
      exact h q hq hl
  | pause => exact (Prod.mk.inj (Option.some.inj he)).2 ▸ h.fade (.doPause s who)
  | getset c => exact (Prod.mk.inj (Option.some.inj he)).2 ▸ h.fade (.doGetset s who c)
  | ksig procNr sigMap ans => exact h.doKsig he
  | other nr =>
    rw [← (Prod.mk.inj (Option.some.inj he)).2]
    exact h

/-- So does every turn of the main loop. -/
theorem Tracks.serve {r : MM.Request} (h : Tracks pMap s) (he : MM.serve s r = some s') :
    Tracks ((MM.serveTells s r).foldl remap pMap) s' := by
  cases r with
  | call who c =>
    obtain ⟨⟨error, s₂⟩, h₂, he⟩ := Option.bind_eq_some_iff.mp he
    obtain rfl := Option.some.inj he
    have hstart : Tracks pMap (if who = MM.FS_PROC_NR then
        ({ s with mp := who, dontReply := false } : MM.State)
        else ({ s with mp := who, dontReply := false } : MM.State).setOwed who true) := by
      split
      · exact h
      · exact h
    exact (hstart.perform h₂).fade (.of_mproc (MM.answer_same s₂ who c.isExec error).mproc)
  | hardware procNr sigMap ans below =>
    obtain ⟨⟨error, s₁⟩, h₁, he⟩ := Option.bind_eq_some_iff.mp he
    obtain rfl := Option.some.inj he
    have hstart : Tracks pMap { s with dontReply := false } := h
    exact (hstart.doKsig h₁).fade (.of_mproc (MM.answerHardware_same s₁ below error).mproc)

end Tracks

/-! ## Contiguity -/

/-- The stack segment lies where its virtual address says, as far as 16 bits tell. -/
def Level (m : MM.Mproc) : Prop :=
  m.segS.memPhys % 65536 = (m.segD.memPhys + m.segS.memVir) % 65536

/-- So it does for every process from INIT on. -/
def Flat (s : MM.State) : Prop :=
  ∀ p, MM.INIT_PROC_NR ≤ p → (s.mproc p).inUse = true → Level (s.mproc p)

section Level

variable {m : MM.Mproc}

/-- In a core image no more than 16 bits matter. -/
theorem Level.exact (h : Level m) (hs : MM.Shaped m) :
    m.segS.memPhys = m.segD.memPhys + m.segS.memVir := by
  have hfits := hs.fits
  have hd := hs.dPhys
  have hlow := hs.sLow
  have hhigh := hs.sHigh
  unfold Level at h
  omega

/-- The stack moves by as much in physical as in virtual memory. -/
theorem Level.growStack (h : Level m) (hv : m.segS.memVir < 65536) (sp : Nat) :
    Level (MM.growStack m sp) := by
  unfold MM.growStack
  split
  · unfold Level MM.subClicks at *
    dsimp only
    omega
  · exact h

/-- `adjust` moves the boundary in steps that leave the image level. -/
theorem Level.adjust (h : Level m) (hs : MM.Shaped m) (d sp : Nat) :
    Level (MM.adjust m d sp).2 := by
  rcases MM.adjust_cases m d sp with he | ⟨-, he⟩
  · rw [he]
    exact h
  · have hfits := hs.fits
    have hd : Level { m with segD := { m.segD with memLen := d } } := h
    rw [he]
    exact hd.growStack (by dsimp only; omega) _

/-- A child is as level as its parent. -/
theorem Level.forked (h : Level m) (hs : MM.Shaped m) (who : MM.Proc) (base pid : Nat) :
    Level { MM.forked m who base with mpPid := pid } := by
  have hd := hs.dEnd
  unfold MM.forked
  unfold Level MM.addClicks MM.subClicks at *
  dsimp only
  omega

/-- A new image is level. -/
theorem Level.loaded (a : MM.ExecCall) (im : MM.Image) (base : Nat) (m : MM.Mproc) :
    Level (MM.execDone a im.ft (im.mapped base m)) := by
  unfold MM.execDone MM.Image.mapped
  unfold Level MM.addClicks
  dsimp only
  omega

end Level

section Flat

variable {s s' : MM.State} {total : Nat} {b : MM.Boot}

/-- No segment is changed, and no slot is taken. -/
theorem Flat.keep (h : Flat s) (hm : ∀ q, (s'.mproc q).segD = (s.mproc q).segD ∧
      (s'.mproc q).segS = (s.mproc q).segS ∧
      ((s'.mproc q).inUse = true → (s.mproc q).inUse = true)) : Flat s' := by
  intro p hp hu
  obtain ⟨hd, hs, huse⟩ := hm p
  have hlevel := h p hp (huse hu)
  unfold Level at hlevel ⊢
  rwa [hd, hs]

/-- Flatness is a matter of where the processes have their memory. -/
theorem Flat.congr (h : Flat s) (hm : ∀ q, (s'.mproc q).room = (s.mproc q).room) : Flat s' :=
  h.keep fun q => by
    obtain ⟨-, hd, hs, -, hu⟩ := MM.Mproc.room_eq (hm q)
    exact ⟨hd, hs, fun h => hu ▸ h⟩

/-- A write to one slot. -/
theorem Flat.modify (h : Flat s) {p : MM.Proc} {f : MM.Mproc → MM.Mproc}
    (hf : (f (s.mproc p)).room = (s.mproc p).room ∨ Level (f (s.mproc p))) :
    Flat (s.modify p f) := by
  intro q hq hu
  rw [MM.State.modify_mproc] at hu ⊢
  split at hu
  · rename_i he
    rw [if_pos he]
    rcases hf with hf | hf
    · obtain ⟨-, hd, hs, -, huse⟩ := MM.Mproc.room_eq hf
      have hlevel := h p (he ▸ hq) (huse ▸ hu)
      unfold Level at hlevel ⊢
      rwa [hd, hs]
    · exact hf
  · rename_i he
    rw [if_neg he]
    exact h q hq hu

/-- It is kept when a process gives its memory back. -/
theorem Flat.released (h : Flat s) (p : MM.Proc) (t : MM.HoleTable) : Flat (MM.released s p t) :=
  h.keep fun _ => ⟨rfl, rfl, fun hu => (MM.released_use.mp hu).2⟩

/-- Every effect keeps the stack segments where they belong. -/
theorem Flat.effect {A B : Prop} {E : MM.State → MM.Proc → Prop} {W : MM.Proc → Prop}
    {x y : List MM.Proc × MM.State} (h : Flat x.2) (hp : MM.Partition total b x.2)
    (he : MM.Effect A B E W x y) : Flat y.2 := by
  cases he with
  | quiet p hf => exact h.modify (.inl (hf.room _))
  | vars mp d r hW => exact h
  | @adjusted g s p d sp hle hu hd =>
    have hlevel : Level (MM.adjust (s.mproc p) d sp).2 :=
      (h p hle hu).adjust (hp.shaped p hle hu) d sp
    exact h.modify (f := fun _ => (MM.adjust (s.mproc p) d sp).2) (.inr hlevel)
  | act d hA => exact h
  | mark hf hA => exact h.modify (.inl (hf.room _))
  | @hang g s p hle hu hw hA hB =>
    have h' : Flat (s.noteExit p) := h
    exact h'.modify (f := fun m => { m with hanging := true }) (.inl rfl)
  | @exitReap s s' p hlt hu hw hA hr =>
    have h' : Flat (s.noteExit p) := h
    obtain ⟨t, -, rfl⟩ := MM.release_eq hr
    exact h'.released p t
  | @reap g s s' p hW hlt hh hl hs' ho hr =>
    obtain ⟨t, -, rfl⟩ := MM.release_eq hr
    exact h.released p t
  | adopt hc hpar hh => exact h.modify (f := fun m => { m with mpParent := MM.INIT_PROC_NR }) (.inl rfl)
  | @adoptReap g s s' c p hc hpar hh hw hr =>
    have h' : Flat (MM.adopt s p) :=
      h.modify (f := fun m => { m with mpParent := MM.INIT_PROC_NR }) (.inl rfl)
    obtain ⟨t, -, rfl⟩ := MM.release_eq hr
    exact h'.released p t
  | settle hc => exact h
  | @unpause g s p =>
    refine h.congr fun q => ?_
    obtain ⟨w, u, he, -⟩ := MM.unpause_mproc s p q
    rw [he]
    rfl
  | wait hW hle hl hs' ho hc => exact h.modify (f := fun m => { m with waiting := true }) (.inl rfl)
  | pause hW hle hl hs' ho => exact h.modify (f := fun m => { m with paused := true }) (.inl rfl)
  | noMem hle hu ha => exact h
  | @fork s s' who child base t hW hle hl hn hfull ha hne hc hpid =>
    have hu := (MM.Mproc.live_eq_true.mp hl).1
    obtain ⟨pid, hm, -⟩ := MM.forkedState_mproc hpid
    intro q hq hqu
    dsimp only at hqu ⊢
    rw [MM.State.reply_mproc, hm] at hqu ⊢
    split at hqu
    · rename_i he
      rw [if_pos he]
      exact (h who hle hu).forked (hp.shaped who hle hu) who base pid
    · rename_i he
      rw [if_neg he]
      exact h q hq hqu
  | @exec s s' who a im hle hl hi hE hm =>
    obtain ⟨t₁, base, t₂, -, -, -, -, rfl⟩ := MM.newMem_ok hm
    intro q hq hqu
    dsimp only at hqu ⊢
    rw [MM.State.modify_mproc] at hqu ⊢
    split at hqu
    · rename_i he
      rw [if_pos he]
      dsimp only
      rw [update_self]
      exact .loaded a im base _
    · rename_i he
      rw [if_neg he]
      dsimp only at hqu ⊢
      rw [update_of_ne he] at hqu ⊢
      exact h q hq hqu

/-- And under everything that MM does. -/
theorem Flat.effects {A B : Prop} {W : MM.Proc → Prop} {x y : List MM.Proc × MM.State}
    (h : Flat x.2) (hp : MM.Partition total b x.2) (hlt : total < 65536) (hb : b.WellFormed)
    (hs : MM.Sound x.1 x.2) (he : MM.Effects A B (MM.Fits b) W x y) : Flat y.2 := by
  induction he with
  | refl => exact h
  | tail he₁ he ih => exact ih.effect (hp.effects hlt hb hs he₁) he

end Flat

/-! ## From the start on -/

section Start

variable {t : MM.HoleTable} {totMem base : Nat} {b : MM.Boot} {sizes : Nat → Nat} {st : System}

/-- INIT as both sides set it up. -/
theorem startMap_init (base : Nat) (sizes : Nat → Nat) :
    startMap base sizes (slotOf MM.INIT_PROC_NR) =
      ⟨⟨0, textBase base sizes 2, sizes 6⟩, ⟨0, textBase base sizes 2 + sizes 6, sizes 7⟩,
        ⟨sizes 7, textBase base sizes 2 + sizes 6 + sizes 7, 0⟩⟩ := rfl

/-- The map that MM gives INIT at the start. -/
theorem mapOf_initSlot (hb : b.WellFormed) :
    mapOf (MM.initSlot b MM.blankSlot) =
      ⟨⟨0, b.initOrg, b.initText⟩, ⟨0, b.initOrg + b.initText, b.initData⟩,
        ⟨b.initText + b.initData, b.initOrg + b.initText + b.initData, 0⟩⟩ := by
  have hroom := hb.room
  unfold MM.initSlot
  dsimp only
  rw [MM.addClicks_eq (a := b.initText) (by omega), MM.addClicks_eq (a := b.initOrg) (by omega),
    MM.addClicks_eq (a := b.initOrg) (by omega), ← Nat.add_assoc]
  rfl

/-- The two agree on INIT exactly when it has no text segment of its own. -/
theorem init_agrees (hb : b.WellFormed) (hbuilt : Built b base sizes) :
    startMap base sizes (slotOf MM.INIT_PROC_NR) = mapOf (MM.initSlot b MM.blankSlot) ↔
      b.initText = 0 := by
  have hdata := hbuilt.data
  have htext := hbuilt.text
  rw [startMap_init, mapOf_initSlot hb, hbuilt.org, htext, hdata]
  refine ⟨fun h => ?_, fun h => by rw [h, Nat.zero_add]⟩
  have hvir := congrArg (fun map => map.s.memVir) h
  dsimp only at hvir
  omega

/-- After the start INIT is the only process from INIT on. -/
theorem boot_mproc {s : MM.State} (h : MM.boot t totMem b = some s) {p : MM.Proc}
    (hp : MM.INIT_PROC_NR ≤ p) (hu : (s.mproc p).inUse = true) :
    p = MM.INIT_PROC_NR ∧ mapOf (s.mproc p) = mapOf (MM.initSlot b MM.blankSlot) := by
  obtain ⟨base, t', -, -, rfl⟩ := MM.boot_eq h
  rw [MM.State.modify_mproc] at hu ⊢
  split at hu
  · rename_i he
    rw [if_pos he]
    exact ⟨he, rfl⟩
  · rename_i he
    exact absurd (le_antisymm (of_decide_eq_true hu) hp) he

/-- INIT is alive from the start. -/
theorem init_live {s : MM.State} (h : MM.boot t totMem b = some s) :
    (s.mproc MM.INIT_PROC_NR).live = true := by
  obtain ⟨base, t', -, -, rfl⟩ := MM.boot_eq h
  rw [MM.State.modify_mproc, if_pos rfl]
  rfl

/-- INIT without a text segment gives back no more than was set aside. -/
theorem bootRegion_le (hb : b.WellFormed) (h : b.initText = 0) :
    (MM.bootRegion b).stop ≤ b.tot := by
  have hbehind := hb.behind
  have hroom := hb.room
  have hlen : (MM.bootRegion b).len = b.initData := by
    unfold MM.bootRegion MM.Mproc.region MM.Mproc.coreClicks MM.initSlot
    rw [h, MM.addClicks_eq (a := 0) (by omega), Nat.zero_add]
    dsimp only [MM.blankSlot]
    rw [if_neg (by decide), MM.addClicks_eq (by omega), Nat.add_zero]
  unfold Extents.Extent.stop
  rw [hlen, MM.bootRegion_base]
  omega

/-- What holds of the memory manager and the kernel in every run with such an INIT. -/
structure Kept (totMem : Nat) (b : MM.Boot) (st : System) : Prop where
  sound : MM.Sound [] st.mm
  partition : MM.Partition totMem b st.mm
  flat : Flat st.mm
  tracks : Tracks st.pMap st.mm

/-- While it is kept, the maps of all live processes agree. -/
theorem Kept.mapped (h : Kept totMem b st) : AllMapped st := by
  intro p hp hl
  have hu := (MM.Mproc.live_eq_true.mp hl).1
  have hs := h.partition.shaped p hp hu
  exact ⟨h.tracks p hp hl, hs.dVir, hs.dPhys, (h.flat p hp hu).exact hs, hs.dLen⟩

/-- It holds at the start of a system whose INIT has no separate text. -/
theorem Kept.started (hb : b.WellFormed) (htot : b.tot < 65536) (hlt : totMem < 65536)
    (hbuilt : Built b base sizes) (htext : b.initText = 0)
    (h : Started t totMem b base sizes st) : Kept totMem b st := by
  obtain ⟨hboot, hmap⟩ := h
  refine ⟨.boot hboot, .boot hb htot hlt hboot, fun p hp hu => ?_, fun p hp hl => ?_⟩
  · obtain ⟨-, hslot⟩ := boot_mproc hboot hp hu
    rw [mapOf_initSlot hb] at hslot
    have hphys := congrArg (fun map => map.s.memPhys) hslot
    have hvir := congrArg (fun map => map.s.memVir) hslot
    have hd := congrArg (fun map => map.d.memPhys) hslot
    unfold mapOf segOf at hphys hvir hd
    dsimp only at hphys hvir hd
    unfold Level
    rw [hphys, hvir, hd]
    congr 1
    omega
  · obtain ⟨rfl, hslot⟩ := boot_mproc hboot hp (MM.Mproc.live_eq_true.mp hl).1
    rw [hmap, hslot]
    exact (init_agrees hb hbuilt).mpr htext

/-- And each message that MM serves keeps it. -/
theorem Kept.step {st' : System} {r : MM.Request} (h : Kept totMem b st) (hb : b.WellFormed)
    (hlt : totMem < 65536) (htext : b.initText = 0) (hi : MM.AsIssued st.mm r)
    (he : Maps.step st r = some st') : Kept totMem b st' := by
  obtain ⟨mm, hserve, rfl⟩ := Option.map_eq_some_iff.mp he
  obtain ⟨s₁, s₂, hsame₁, heff, hsame₂⟩ := MM.serve_effects (A := False) (B := False)
    (E := MM.Fits b) (W := fun _ => True) h.sound hi (MM.aims_false _ _)
    (fun _ _ _ _ _ _ => bootRegion_le hb htext) (fun _ => trivial) hserve
  have hs₁ := h.sound.same hsame₁
  have hp₁ := h.partition.same hsame₁
  have hf₁ : Flat s₁ := h.flat.congr fun q => by rw [hsame₁.mproc]
  have hf₂ : Flat s₂ := hf₁.effects hp₁ hlt hb hs₁ heff
  exact ⟨(hs₁.effects heff).same hsame₂, (hp₁.effects hlt hb hs₁ heff).same hsame₂,
    hf₂.congr fun q => by rw [hsame₂.mproc], h.tracks.serve hserve⟩

/-- The memory maps are in order in every run exactly when INIT has no text segment of its own. -/
theorem maps_agree (hb : b.WellFormed) (htot : b.tot < 65536) (hlt : totMem < 65536)
    (hbuilt : Built b base sizes) (hboot : (MM.boot t totMem b).isSome = true) :
    (∀ st, Reach step (fun st r => MM.AsIssued st.mm r) (Started t totMem b base sizes) st →
      AllMapped st) ↔ b.initText = 0 := by
  refine ⟨fun h => ?_, fun htext st hr => ?_⟩
  · obtain ⟨mm, hmm⟩ := Option.isSome_iff_exists.mp hboot
    have hinit := h ⟨mm, startMap base sizes⟩ (.init ⟨hmm, rfl⟩) _ le_rfl (init_live hmm)
    have hslot := (boot_mproc hmm le_rfl (MM.Mproc.live_eq_true.mp (init_live hmm)).1).2
    exact (init_agrees hb hbuilt).mp (hinit.kernel.trans hslot)
  · have hkept := hr.invariant (Kept totMem b) (fun _ => .started hb htot hlt hbuilt htext)
      fun _ _ _ h hi he => h.step hb hlt htext hi he
    exact hkept.mapped

/-- The sizes of a small system, by which INIT starts at click 100. -/
def smallSizes (text data : Nat) (i : Nat) : Nat := [1, 1, 2, 2, 2, 2, text, data].getD i 0

/-- INIT without a text segment forks, its child changes its data segment, and INIT waits. -/
theorem maps_agree_example : ∃ mm st, MM.boot MM.blankHoles 4096 ⟨0, 5, 105, 100⟩ = some mm ∧
    run step (fun st r => MM.AsIssued st.mm r) ⟨mm, startMap 90 (smallSizes 0 5)⟩
      [.call 2 .fork, .call 3 (.brk 48 80), .call 2 .wait] = some st ∧ AllMapped st := by
  refine ⟨(MM.boot MM.blankHoles 4096 ⟨0, 5, 105, 100⟩).get rfl, ?_⟩
  have hrun : (run step (fun st r => MM.AsIssued st.mm r)
      ⟨(MM.boot MM.blankHoles 4096 ⟨0, 5, 105, 100⟩).get rfl, startMap 90 (smallSizes 0 5)⟩
      [.call 2 .fork, .call 3 (.brk 48 80), .call 2 .wait]).isSome = true := by
    decide +kernel
  obtain ⟨st, hst⟩ := Option.isSome_iff_exists.mp hrun
  have hall : ∀ st, Reach step (fun st r => MM.AsIssued st.mm r)
      (Started MM.blankHoles 4096 ⟨0, 5, 105, 100⟩ 90 (smallSizes 0 5)) st → AllMapped st :=
    (maps_agree ⟨by decide, by decide, by decide, by decide, by decide, by decide⟩ (by decide)
      (by decide) ⟨rfl, rfl, rfl⟩ rfl).mpr rfl
  exact ⟨st, rfl, hst, hall st (.of_run (.init ⟨rfl, rfl⟩) hst)⟩

/-- INIT with two clicks of text: the memory manager has its stack at click 5 of the data, the kernel
at click 3, and it lies three clicks behind the start of the data. -/
theorem maps_disagree : ∃ st,
    Reach step (fun st r => MM.AsIssued st.mm r)
      (Started MM.blankHoles 4096 ⟨2, 3, 105, 100⟩ 90 (smallSizes 2 3)) st ∧ ¬AllMapped st ∧
    (st.pMap (slotOf 2)).s = ⟨3, 105, 0⟩ ∧
    (st.mm.mproc 2).segD = ⟨0, 102, 3⟩ ∧ (st.mm.mproc 2).segS = ⟨5, 105, 0⟩ := by
  refine ⟨⟨(MM.boot MM.blankHoles 4096 ⟨2, 3, 105, 100⟩).get rfl, startMap 90 (smallSizes 2 3)⟩,
    .init ⟨rfl, rfl⟩, fun h => ?_, rfl, rfl, rfl⟩
  have hphys := (h 2 (by decide) rfl).sPhys
  exact absurd hphys (by decide)

end Start

end Minix.Maps
