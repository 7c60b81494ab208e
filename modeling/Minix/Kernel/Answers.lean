import Minix.Kernel.Switching

/-!
# What the kernel answers

Of the registers that the process table holds, `sys_call` and `interrupt` write only the one with
the return code of the caller. The rest is left to the tasks.
-/

namespace Minix.Kernel

open Function

section Frame

variable {k k' : State} {rp caller dest : Slot} {n src : Int} {mPtr function : Nat}

theorem wake_data (k : State) (rp : Slot) : (wake k rp).data = k.data := by
  unfold wake
  split <;> rfl

theorem endSend_data (k : State) (rp : Slot) : (endSend k rp).data = k.data := wake_data ..

theorem endReceive_data (k : State) (rp : Slot) : (endReceive k rp).data = k.data := wake_data ..

theorem block_data (he : block k caller dest mPtr = some k') : k'.data = k.data := by
  obtain ⟨s, -, he⟩ := Option.bind_eq_some_iff.mp he
  obtain ⟨c, -, he⟩ := Option.bind_eq_some_iff.mp he
  exact Option.some.inj he ▸ rfl

theorem miniSend_data (he : miniSend k caller src mPtr = some (n, k')) : k'.data = k.data := by
  unfold miniSend at he
  split at he
  · obtain ⟨-, rfl⟩ := Prod.mk.inj (Option.some.inj he)
    rfl
  · split at he
    · cases he
    · split at he
      · obtain ⟨-, rfl⟩ := Prod.mk.inj (Option.some.inj he)
        rfl
      · split at he
        · obtain ⟨-, rfl⟩ := Prod.mk.inj (Option.some.inj he)
          rfl
        · split at he
          · obtain ⟨-, rfl⟩ := Prod.mk.inj (Option.some.inj he)
            exact endReceive_data ..
          · split at he
            · obtain ⟨-, rfl⟩ := Prod.mk.inj (Option.some.inj he)
              rfl
            · obtain ⟨k₁, hblock, he⟩ := Option.map_eq_some_iff.mp he
              obtain ⟨-, rfl⟩ := Prod.mk.inj he
              exact block_data hblock

theorem tellMM_data (he : tellMM k caller rp = some k') : k'.data = k.data := by
  unfold tellMM at he
  split at he
  · rename_i hsend
    have hk := miniSend_data hsend
    exact Option.some.inj he ▸ hk
  · cases he

theorem informBlocked_data (he : informBlocked k caller src = some k') : k'.data = k.data := by
  unfold informBlocked at he
  split at he
  · unfold inform at he
    split at he
    · exact Option.some.inj he ▸ rfl
    · split at he
      · exact Option.some.inj he ▸ rfl
      · exact tellMM_data he
  · exact Option.some.inj he ▸ rfl

theorem miniRec_data (he : miniRec k caller src mPtr = some (n, k')) : k'.data = k.data := by
  unfold miniRec at he
  split at he
  · cases he
  · obtain ⟨-, rfl⟩ := Prod.mk.inj (Option.some.inj he)
    exact endSend_data ..
  · obtain ⟨k₁, hawait, he⟩ := Option.bind_eq_some_iff.mp he
    obtain ⟨k₂, hinform, he⟩ := Option.bind_eq_some_iff.mp he
    obtain ⟨-, rfl⟩ := Prod.mk.inj (Option.some.inj he)
    obtain ⟨s, -, rfl⟩ := Option.map_eq_some_iff.mp hawait
    have hdata : k₂.data = (startReceive k caller src mPtr s).data := informBlocked_data hinform
    exact hdata

/-- Only the return code of a process has been written. -/
def Answered (caller : Slot) (k k' : State) : Prop :=
  ∃ n, k'.data = update k.data caller { k.data caller with retReg := n }

theorem answered_of_data (caller : Slot) (he : k'.data = k.data) : Answered caller k k' :=
  ⟨(k.data caller).retReg, he.trans (update_eq_self caller k.data).symm⟩

theorem Answered.setRet (h : Answered caller k k') (n : Int) :
    Answered caller k (setRet k' caller n) := by
  obtain ⟨m, hm⟩ := h
  refine ⟨n, ?_⟩
  change update k'.data caller { k'.data caller with retReg := n } = _
  rw [hm, update_self, update_idem]

theorem Answered.congr {k₁ : State} (h : Answered caller k k₁) (he : k'.data = k₁.data) :
    Answered caller k k' := by
  obtain ⟨m, hm⟩ := h
  exact ⟨m, he.trans hm⟩

/-- A system call writes the return code of its caller. -/
theorem sysCall_answers (he : sysCall k function caller src mPtr = some k') :
    Answered caller k k' := by
  have hsame : Answered caller k k := answered_of_data caller rfl
  unfold sysCall at he
  split at he
  · exact Option.some.inj he ▸ hsame.setRet _
  · split at he
    · exact Option.some.inj he ▸ hsame.setRet _
    · split at he
      · cases he
      · rename_i n k₁ hhalf
        have h₁ : Answered caller k k₁ := by
          unfold sendHalf at hhalf
          split at hhalf
          · obtain ⟨⟨m, k₂⟩, hsend, hhalf⟩ := Option.map_eq_some_iff.mp hhalf
            obtain ⟨-, rfl⟩ := Prod.mk.inj hhalf
            have h₂ : Answered caller k k₂ := answered_of_data caller (miniSend_data hsend)
            split
            · exact h₂.setRet m
            · exact h₂
          · obtain ⟨-, rfl⟩ := Prod.mk.inj (Option.some.inj hhalf)
            exact hsame
        split at he
        · exact Option.some.inj he ▸ h₁
        · split at he
          · obtain ⟨⟨m, k₂⟩, hrec, rfl⟩ := Option.map_eq_some_iff.mp he
            exact (h₁.congr (miniRec_data hrec)).setRet m
          · exact Option.some.inj he ▸ h₁

theorem retryBusy_data {oldMap : Fin (NR_TASKS + 1) → Bool} {l : List (Fin (NR_TASKS + 1))}
    (he : retryBusy oldMap l k = some k') : k'.data = k.data := by
  induction l generalizing k with
  | nil => exact Option.some.inj he ▸ rfl
  | cons i l ih =>
    unfold retryBusy at he
    split at he
    · split at he
      · cases he
      · rename_i hsend
        have hk := miniSend_data hsend
        have hrest := ih he
        split at hrest
        · exact hrest.trans hk
        · exact hrest.trans hk
    · exact ih he

/-- An interrupt writes no register. -/
theorem interrupt_data {i : Fin (NR_TASKS + 1)} (he : interrupt k i mPtr = some k') :
    k'.data = k.data := by
  unfold interrupt at he
  obtain ⟨⟨oldMap, k₁⟩, hoffer, he⟩ := Option.bind_eq_some_iff.mp he
  obtain ⟨k₂, hretry, he⟩ := Option.bind_eq_some_iff.mp he
  have h₁ : k₁.data = k.data := by
    unfold offerInterrupt at hoffer
    split at hoffer
    · cases hoffer
    · rename_i hsend
      have hk := miniSend_data hsend
      split at hoffer
      · split at hoffer
        · obtain ⟨-, rfl⟩ := Prod.mk.inj (Option.some.inj hoffer)
          exact hk
        · obtain ⟨-, rfl⟩ := Prod.mk.inj (Option.some.inj hoffer)
          exact hk
      · obtain ⟨-, rfl⟩ := Prod.mk.inj (Option.some.inj hoffer)
        exact hk
  have h₂ : k₂.data = k.data := (retryBusy_data hretry).trans h₁
  split at he
  · exact Option.some.inj he ▸ h₂
  · exact Option.some.inj he ▸ h₂

end Frame

namespace Mpx

open I8088 (Word)
open I8088.Segments

/-- The registers as the table of the C code has them. It has no name for the others. -/
structure Shows (k : State) (f : Slot → Regs) : Prop where
  ax : ∀ rp, (f rp).ax = BitVec.ofInt 16 (k.data rp).retReg
  cs : ∀ rp, (f rp).cs = BitVec.ofNat 16 (k.data rp).csReg
  ds : ∀ rp, (f rp).ds = BitVec.ofNat 16 (k.data rp).dsReg
  ss : ∀ rp, (f rp).ss = BitVec.ofNat 16 (k.data rp).ssReg
  es : ∀ rp, (f rp).es = BitVec.ofNat 16 (k.data rp).esReg
  sp : ∀ rp, (f rp).sp = BitVec.ofNat 16 (k.data rp).sp
  ip : ∀ rp, (f rp).ip = BitVec.ofNat 16 (k.data rp).pc

/-- The registers that the C code does not touch. -/
def SameRest (r r' : Regs) : Prop :=
  r'.bx = r.bx ∧ r'.cx = r.cx ∧ r'.dx = r.dx ∧ r'.si = r.si ∧ r'.di = r.di ∧ r'.bp = r.bp ∧
    r'.psw = r.psw

/-- The C code behind an entry point, with its parameters. `keyboard` and `pr_char` call `interrupt`
or do nothing to the table, and the routines for unexpected traps only print. -/
def Calls (p : Slot) (k k' : State) : Entry → List Word → Prop
  | .s_call, [function, _, srcDest, mPtr] =>
    sysCall k function.toNat p srcDest.toInt mPtr.toNat = some k'
  | .disk_int, [_, mPtr] => interrupt k 5 mPtr.toNat = some k'
  | .wini_int, [_, mPtr] => interrupt k 6 mPtr.toNat = some k'
  | .clock_int, [_, mPtr] => interrupt k Kernel.CLOCK mPtr.toNat = some k'
  | .tty_int, _ | .lpr_int, _ => k' = k ∨ ∃ i mPtr, interrupt k i mPtr = some k'
  | .surprise, _ | .trp, _ | .divide, _ => k' = k
  | _, _ => False

/-- What the kernel does to the registers in the table. -/
def kernelService : Service := fun e ps f p g q =>
  ∃ k k', Shows k f ∧ Calls p k k' e ps ∧ Shows k' g ∧ (∀ rp, SameRest (f rp) (g rp)) ∧
    q = k'.sched.procPtr

theorem Calls.answers {p : Slot} {k k' : State} {e : Entry} {ps : List Word}
    (h : Calls p k k' e ps) : Answered p k k' := by
  unfold Calls at h
  split at h
  · exact sysCall_answers h
  · exact answered_of_data p (interrupt_data h)
  · exact answered_of_data p (interrupt_data h)
  · exact answered_of_data p (interrupt_data h)
  · obtain rfl | ⟨i, mPtr, h⟩ := h
    · exact answered_of_data p rfl
    · exact answered_of_data p (interrupt_data h)
  · obtain rfl | ⟨i, mPtr, h⟩ := h
    · exact answered_of_data p rfl
    · exact answered_of_data p (interrupt_data h)
  · exact answered_of_data p (congrArg State.data h)
  · exact answered_of_data p (congrArg State.data h)
  · exact answered_of_data p (congrArg State.data h)
  · exact h.elim

/-- Of the registers of a process, the kernel writes none but the one with the return code. -/
theorem kernelService_answers {e : Entry} {ps : List Word} {f g : Slot → Regs} {p q : Slot}
    (h : kernelService e ps f p g q) (rp : Slot) : ∃ n, g rp = { f rp with ax := n } := by
  obtain ⟨k, k', hf, hcalls, hg, hrest, -⟩ := h
  obtain ⟨n, hn⟩ := hcalls.answers
  have hdata : ∃ m, k'.data rp = { k.data rp with retReg := m } := by
    rw [hn, update_apply]
    split
    · rename_i he
      exact ⟨n, by rw [he]⟩
    · exact ⟨_, rfl⟩
  obtain ⟨m, hm⟩ := hdata
  obtain ⟨hbx, hcx, hdx, hsi, hdi, hbp, hpsw⟩ := hrest rp
  have hcs : (g rp).cs = (f rp).cs := by rw [hg.cs, hf.cs, hm]
  have hds : (g rp).ds = (f rp).ds := by rw [hg.ds, hf.ds, hm]
  have hss : (g rp).ss = (f rp).ss := by rw [hg.ss, hf.ss, hm]
  have hes : (g rp).es = (f rp).es := by rw [hg.es, hf.es, hm]
  have hsp : (g rp).sp = (f rp).sp := by rw [hg.sp, hf.sp, hm]
  have hip : (g rp).ip = (f rp).ip := by rw [hg.ip, hf.ip, hm]
  refine ⟨(g rp).ax, ?_⟩
  generalize g rp = r' at hbx hcx hdx hsi hdi hbp hpsw hcs hds hss hes hsp hip ⊢
  generalize f rp = r at hbx hcx hdx hsi hdi hbp hpsw hcs hds hss hes hsp hip ⊢
  obtain ⟨⟩ := r
  obtain ⟨⟩ := r'
  subst hbx hcx hdx hsi hdi hbp hpsw hcs hds hss hes hsp hip
  rfl

end Mpx

end Minix.Kernel
