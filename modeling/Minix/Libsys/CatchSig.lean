import Minix.Lib.Segments

/-!
# Catching a signal

The kernel pushes what an interrupt would push, and the number of the signal, on the stack of a
process and lets it go on in `begsig`, which saves the registers and the status of the last system
call, calls the function that the process has given, and puts everything back.
-/

namespace Minix.Libsys

open I8088 (Word phys)
open I8088.Segments

/-- Words that are stored one after the other. -/
def putWords (mem : Ram) (seg off : Word) : List Word → Ram
  | [] => mem
  | w :: ws => putWords (setWord mem seg off w) seg (off + 2) ws

/-- `sig_stuff`, from the entry of the process in the table. -/
def build_sig (r : Regs) (sig : Word) : List Word := [sig, r.ip, r.cs, r.psw]

abbrev SIG_PUSH_BYTES : Word := 8

/-- A process is signalled: the words are pushed on its stack, and it will go on at `func`. -/
def do_sig (sig func : Word) (s : Machine) : Machine where
  regs := { s.regs with sp := s.regs.sp - SIG_PUSH_BYTES, ip := func }
  mem := putWords s.mem s.regs.ss (s.regs.sp - SIG_PUSH_BYTES) (build_sig s.regs sig)

/-- Where the variables of the process are in its data segment. -/
structure Data where
  vectab : Word
  M : Word
  dummy : Word

abbrev mtype : Word := 2

open Operand in
/-- Up to the call of the function, whose address is in `bx`. -/
def begsig (d : Data) : List Instr :=
  [.push Name.ax, .push Name.bx, .push Name.cx, .push Name.dx, .push Name.si, .push Name.di,
    .push Name.bp, .push Name.ds, .push Name.es, .mov Name.bp Name.sp,
    .mov Name.bx (word .ss (some .bp) 18), .dec Name.bx, .add Name.bx Name.bx,
    .mov Name.bx (word .ds (some .bx) d.vectab), .push (word .ds none (d.M + mtype)),
    .push Name.ax]

open Operand in
def back (d : Data) : List Instr :=
  [.pop Name.ax, .pop (word .ds none (d.M + mtype)), .pop Name.es, .pop Name.ds, .pop Name.bp,
    .pop Name.di, .pop Name.si, .pop Name.dx, .pop Name.cx, .pop Name.bx, .pop Name.ax,
    .pop (word .ds none d.dummy)]

/-- From the signal to the first instruction of the function; it returns to `ret`. -/
def caught (d : Data) (sig func ret : Word) (s : Machine) : Machine :=
  let t := run (do_sig sig func s) (begsig d)
  t.call t.regs.bx ret

/-- From the return of the function to the end. -/
def resumed (d : Data) (s : Machine) : Machine := (run s (back d)).iret

variable {d : Data} {s t u : Machine} {sig func ret : Word}

theorem putWords_of_ne {seg off : Word} {mem : Ram} {ws : List Word} {a : Nat}
    (h : ∀ j < 2 * ws.length, a ≠ phys seg (off + BitVec.ofNat 16 j)) :
    putWords mem seg off ws a = mem a := by
  induction ws generalizing mem off with
  | nil => rfl
  | cons w ws ih =>
    rw [List.length_cons, Nat.mul_add] at h
    have hrest : ∀ j < 2 * ws.length, a ≠ phys seg (off + 2 + BitVec.ofNat 16 j) := by
      intro j hj
      have := h (j + 2) (by omega)
      rwa [Nat.add_comm, BitVec.ofNat_add, ← BitVec.add_assoc] at this
    refine (ih hrest).trans (setWord_of_ne ?_ (h 1 (by omega)))
    exact (BitVec.add_zero off) ▸ h 0 (by omega)

/-- What is stored where the stack pointer points to is on top of the stack. -/
theorem topWords_putWords (r : Regs) (mem : Ram) (ws : List Word) (hn : 2 * ws.length < 65536) :
    topWords ⟨r, putWords mem r.ss r.sp ws⟩ ws.length = ws := by
  induction ws generalizing r mem with
  | nil => rfl
  | cons w ws ih =>
    rw [List.length_cons, topWords_drop]
    rw [List.length_cons] at hn
    have hrest := ih { r with sp := r.sp + 2 } (setWord mem r.ss r.sp w) (by omega)
    refine List.cons_eq_cons.mpr ⟨?_, hrest⟩
    have hkept {k : Word} (hk : k.toNat < 2) :
        putWords (setWord mem r.ss r.sp w) r.ss (r.sp + 2) ws (phys r.ss (r.sp + k)) =
          setWord mem r.ss r.sp w (phys r.ss (r.sp + k)) := by
      refine putWords_of_ne fun j hj e => ?_
      have := phys_inj e
      bv_omega
    refine Eq.trans ?_ (wordAt_setWord mem r.ss r.sp w)
    have h₀ := hkept (k := 0) (by decide)
    rw [show r.sp + 0 = r.sp from BitVec.add_zero _] at h₀
    exact congrArg₂ (fun x y : UInt8 => x.toBitVec ++ y.toBitVec) (hkept (k := 1) (by decide)) h₀

/-- Only what is below the stack pointer is changed by a signal. -/
theorem do_sig_frame {a : Nat} (h : Above s.regs 8 a) : (do_sig sig func s).mem a = s.mem a := by
  refine putWords_of_ne fun j hj => ?_
  have hj : j < 8 := hj
  have := h (8 - j) (by omega) (by omega)
  have he : s.regs.sp - SIG_PUSH_BYTES + BitVec.ofNat 16 j =
      s.regs.sp - BitVec.ofNat 16 (8 - j) := by
    bv_omega
  rwa [he]

theorem topWords_do_sig (sig func : Word) (s : Machine) :
    topWords (do_sig sig func s) 4 = build_sig s.regs sig :=
  topWords_putWords { s.regs with sp := s.regs.sp - SIG_PUSH_BYTES, ip := func } s.mem
    (build_sig s.regs sig) (show 8 < 65536 by decide)

/-- What `begsig` saves. -/
def saved (r : Regs) : List Word := [r.ax, r.bx, r.cx, r.dx, r.si, r.di, r.bp, r.ds, r.es]

/-- The words on the stack when the registers are saved. -/
theorem topWords_saved (sig func : Word) (s : Machine) :
    topWords ((do_sig sig func s).pushes (saved s.regs)) 13 =
      (saved s.regs).reverse ++ build_sig s.regs sig := by
  have := topWords_pushes (do_sig sig func s) (saved s.regs) (n := 4) (show 26 < 65536 by decide)
  rwa [topWords_do_sig] at this

/-- The function that the process has given for a signal: `vectab[0]` is for signal 1. -/
def handler (d : Data) (s : Machine) (sig : Word) : Word :=
  wordAt s.mem s.regs.ds (sig - 1 + (sig - 1) + d.vectab)

/-- The status of the last system call. -/
def status (d : Data) (s : Machine) : Word := wordAt s.mem s.regs.ds (d.M + mtype)

/-- The variables that are used when `sig` is caught lie away from the part of the stack that is. -/
structure Apart (d : Data) (s : Machine) (sig : Word) : Prop where
  vectab : Within (Above s.regs 32) s.regs.ds (sig - 1 + (sig - 1) + d.vectab)
  M : Within (Above s.regs 32) s.regs.ds (d.M + mtype)
  dummy : Within (Above s.regs 32) s.regs.ds d.dummy

/-- The stack after the call of the function. -/
def frame (d : Data) (sig func ret : Word) (s : Machine) : Ram :=
  (((do_sig sig func s).pushes (saved s.regs)).pushes [status d s, s.regs.ax, ret]).mem

theorem frame_saved (sig func : Word) {seg off : Word} (hw : Within (Above s.regs 32) seg off) :
    wordAt ((do_sig sig func s).pushes (saved s.regs)).mem seg off = wordAt s.mem seg off := by
  refine wordAt_congr (P := Above s.regs 32) (fun a ha => ?_) hw
  refine (pushes_frame fun j h₁ hn => ?_).trans (do_sig_frame fun j h₁ hn => ha j h₁ (by omega))
  have hn : j ≤ 18 := hn
  have hout := ha (j + 8) (by omega) (by omega)
  rw [← below_below] at hout
  exact hout

theorem begsig_saves (d : Data) (t : Machine) :
    run t ((begsig d).take 9) = t.pushes (saved t.regs) := by
  simp only [begsig, List.take, run, List.foldl, Instr.exec, Machine.get, Machine.push, Regs.get,
    Machine.pushes, saved]

theorem begsig_calls {r : Regs} {m : Ram} (hsig : wordAt m r.ss (r.sp + 18) = sig) (ret : Word) :
    ∃ psw, (run ⟨r, m⟩ ((begsig d).drop 9)).call (run ⟨r, m⟩ ((begsig d).drop 9)).regs.bx ret =
      ⟨{ r with
          bx := wordAt m r.ds (sig - 1 + (sig - 1) + d.vectab), bp := r.sp, sp := r.sp - 6
          ip := wordAt m r.ds (sig - 1 + (sig - 1) + d.vectab), psw := psw },
        (Machine.pushes ⟨r, m⟩ [wordAt m r.ds (d.M + mtype), r.ax, ret]).mem⟩ := by
  simp only [BitVec.ofNat_eq_ofNat] at hsig
  simp only [begsig, List.drop, run, List.foldl, Instr.exec, Machine.get, Machine.put, Regs.get,
    Regs.set, Machine.offset, Machine.store, Machine.call, Machine.push, Machine.pushes, hsig,
    sub_then_sub, BitVec.reduceAdd, BitVec.ofNat_eq_ofNat]
  exact ⟨_, rfl⟩

/-- `begsig` calls the function, whatever was going on. -/
theorem caught_eq (h : Apart d s sig) (func ret : Word) :
    ∃ psw, caught d sig func ret s =
      ⟨{ s.regs with
          bx := handler d s sig, bp := s.regs.sp - 26, sp := s.regs.sp - 32
          ip := handler d s sig, psw := psw }, frame d sig func ret s⟩ := by
  obtain ⟨P, hP⟩ : ∃ P, (do_sig sig func s).pushes (saved s.regs) = P := ⟨_, rfl⟩
  have hregs : P.regs = { s.regs with sp := s.regs.sp - 26, ip := func } := by
    rw [← hP, pushes_regs]
    refine congrArg (fun w => { s.regs with sp := w, ip := func }) ?_
    exact sub_then_sub ..
  have hsig : wordAt P.mem s.regs.ss (s.regs.sp - 26 + 18) = sig := by
    have := topWords_saved sig func s
    rw [hP] at this
    have := wordAt_of_topWords (s := P) (n := 13) (i := 9) (w := sig) (by rw [this]; rfl)
    rwa [hregs] at this
  have hvec := frame_saved sig func h.vectab
  have hM := frame_saved sig func h.M
  rw [hP] at hvec hM
  have hsplit : begsig d = (begsig d).take 9 ++ (begsig d).drop 9 := rfl
  have hpush : run (do_sig sig func s) ((begsig d).take 9) = P := by
    rw [begsig_saves, show saved (do_sig sig func s).regs = saved s.regs from rfl, hP]
  obtain ⟨r, m⟩ := P
  dsimp only at hregs hsig hvec hM
  subst hregs
  obtain ⟨psw, ht⟩ := begsig_calls (d := d)
    (r := { s.regs with sp := s.regs.sp - 26, ip := func }) (m := m) hsig ret
  unfold caught frame
  rw [hsplit, run_append, hpush, hP]
  refine ⟨psw, ht.trans ?_⟩
  dsimp only
  rw [hvec, hM, sub_then_sub]
  rfl

/-- What is on the stack then, from the return address on. -/
theorem topWords_frame (sig func ret : Word) (s : Machine) {r : Regs} (hss : r.ss = s.regs.ss)
    (hsp : r.sp = s.regs.sp - 32) :
    topWords ⟨r, frame d sig func ret s⟩ 16 =
      [ret, s.regs.ax, status d s] ++ ((saved s.regs).reverse ++ build_sig s.regs sig) := by
  have h := topWords_pushes ((do_sig sig func s).pushes (saved s.regs))
    [status d s, s.regs.ax, ret] (n := 13) (show 32 < 65536 by decide)
  rw [topWords_saved] at h
  unfold frame
  obtain ⟨P, hP⟩ : ∃ P, ((do_sig sig func s).pushes (saved s.regs)).pushes
    [status d s, s.regs.ax, ret] = P := ⟨_, rfl⟩
  have hregs : P.regs.ss = s.regs.ss ∧ P.regs.sp = s.regs.sp - 8 - 18 - 6 := by
    rw [← hP, pushes_regs, pushes_regs]
    exact ⟨rfl, rfl⟩
  rw [hP] at h ⊢
  refine Eq.trans (topWords_congr (hss.trans hregs.1.symm) ?_ fun _ _ => rfl) h
  rw [hsp, hregs.2, sub_then_sub, sub_then_sub]
  rfl

/-- A function returns the way functions do: the data and stack segments are the same, and above its
parameter the stack is. -/
structure Returned (t u : Machine) : Prop where
  sp : u.regs.sp = t.regs.sp + 2
  ss : u.regs.ss = t.regs.ss
  ds : u.regs.ds = t.regs.ds
  stack : ∀ j, 4 ≤ j → j < 32 → u.mem (phys t.regs.ss (t.regs.sp + BitVec.ofNat 16 j)) =
    t.mem (phys t.regs.ss (t.regs.sp + BitVec.ofNat 16 j))

theorem back_status (d : Data) (r : Regs) (m : Ram) :
    run ⟨r, m⟩ ((back d).take 2) =
      ⟨{ r with ax := wordAt m r.ss r.sp, sp := r.sp + 4 },
        setWord m r.ds (d.M + mtype) (wordAt m r.ss (r.sp + 2))⟩ := by
  simp only [back, List.take, run, List.foldl, Instr.exec, Machine.put, Machine.drop, Machine.top,
    Regs.get, Regs.set, Machine.offset, BitVec.add_assoc, BitVec.reduceAdd, BitVec.ofNat_eq_ofNat]

theorem back_regs (d : Data) (r : Regs) (m : Ram) :
    run ⟨r, m⟩ (((back d).drop 2).take 9) =
      ⟨{ r with
          es := wordAt m r.ss r.sp, ds := wordAt m r.ss (r.sp + 2), bp := wordAt m r.ss (r.sp + 4)
          di := wordAt m r.ss (r.sp + 6), si := wordAt m r.ss (r.sp + 8)
          dx := wordAt m r.ss (r.sp + 10), cx := wordAt m r.ss (r.sp + 12)
          bx := wordAt m r.ss (r.sp + 14), ax := wordAt m r.ss (r.sp + 16), sp := r.sp + 18 },
        m⟩ := by
  simp only [back, List.take, List.drop, run, List.foldl, Instr.exec, Machine.put, Machine.drop,
    Machine.top, Regs.set, BitVec.add_assoc, BitVec.reduceAdd, BitVec.ofNat_eq_ofNat]

theorem back_end (d : Data) (r : Regs) (m m' : Ram)
    (h : setWord m r.ds d.dummy (wordAt m r.ss r.sp) = m') :
    (run ⟨r, m⟩ ((back d).drop 11)).iret =
      ⟨{ r with
          ip := wordAt m' r.ss (r.sp + 2), cs := wordAt m' r.ss (r.sp + 4)
          psw := wordAt m' r.ss (r.sp + 6), sp := r.sp + 8 }, m'⟩ := by
  simp only [back, List.drop, run, List.foldl, Instr.exec, Machine.put, Machine.drop, Machine.top,
    Machine.iret, Regs.get, Machine.offset, BitVec.add_assoc, BitVec.reduceAdd,
    BitVec.ofNat_eq_ofNat, h]

/-- The words that are to be taken off behind the function are those that have been put there. -/
theorem Returned.words (h : Apart d s sig) (hret : Returned (caught d sig func ret s) u) :
    topWords ⟨{ u.regs with sp := s.regs.sp - 28 }, u.mem⟩ 14 =
      [status d s] ++ ((saved s.regs).reverse ++ build_sig s.regs sig) := by
  obtain ⟨psw, hc⟩ := caught_eq h func ret
  have hall := topWords_frame (d := d) sig func ret s
    (r := { u.regs with ss := s.regs.ss, sp := s.regs.sp - 32 }) rfl rfl
  obtain ⟨F, hF⟩ : ∃ F, frame d sig func ret s = F := ⟨_, rfl⟩
  rw [hF] at hc hall
  have hskip : topWords ⟨{ u.regs with ss := s.regs.ss, sp := s.regs.sp - 28 }, F⟩ 14 =
      [status d s] ++ ((saved s.regs).reverse ++ build_sig s.regs sig) :=
    topWords_skip (s := ⟨{ u.regs with ss := s.regs.ss, sp := s.regs.sp - 32 }, F⟩)
      (show _ = [ret, s.regs.ax] ++ _ from hall) rfl
      (show s.regs.sp - 28 = s.regs.sp - 32 + 4 by bv_omega)
  rw [← hskip]
  refine topWords_congr ?_ rfl fun j hj => ?_
  · have hss : (caught d sig func ret s).regs.ss = s.regs.ss := by rw [hc]
    exact hret.ss.trans hss
  · have := hret.stack (j + 4) (by omega) (by omega)
    rw [hc] at this
    have he : s.regs.sp - 32 + BitVec.ofNat 16 (j + 4) = s.regs.sp - 28 + BitVec.ofNat 16 j := by
      bv_omega
    dsimp only at this ⊢
    rwa [he] at this

/-- A variable is stored, and the words on the stack are as before. -/
theorem topWords_stored {r : Regs} {m : Ram} {off w : Word} (hss : r.ss = s.regs.ss)
    (hsp : r.sp = s.regs.sp - 28) (h : Within (Above s.regs 32) s.regs.ds off) :
    topWords ⟨r, setWord m s.regs.ds off w⟩ 14 = topWords ⟨r, m⟩ 14 := by
  refine topWords_congr rfl rfl fun j hj => ?_
  have he : s.regs.sp - 28 + BitVec.ofNat 16 j = s.regs.sp - BitVec.ofNat 16 (28 - j) := by bv_omega
  change setWord m s.regs.ds off w (phys r.ss (r.sp + BitVec.ofNat 16 j)) = m _
  rw [hss, hsp, he]
  exact setWord_of_ne (h.1 _ (by omega) (by omega)).symm (h.2 _ (by omega) (by omega)).symm

/-- When the function returns, everything is put back. -/
theorem resumed_eq (h : Apart d s sig) (hret : Returned (caught d sig func ret s) u) :
    resumed d u =
      ⟨s.regs,
        setWord (setWord u.mem s.regs.ds (d.M + mtype) (status d s)) s.regs.ds d.dummy sig⟩ := by
  have hwords := hret.words h
  obtain ⟨psw, hc⟩ := caught_eq h func ret
  have hregs : (caught d sig func ret s).regs.sp = s.regs.sp - 32 ∧
      (caught d sig func ret s).regs.ss = s.regs.ss ∧
      (caught d sig func ret s).regs.ds = s.regs.ds := by
    rw [hc]
    exact ⟨rfl, rfl, rfl⟩
  have hsp : u.regs.sp = s.regs.sp - 30 := by
    rw [hret.sp, hregs.1]
    exact sub_then_add s.regs.sp 32 2
  have hss : u.regs.ss = s.regs.ss := hret.ss.trans hregs.2.1
  have hds : u.regs.ds = s.regs.ds := hret.ds.trans hregs.2.2
  -- what is read after each of the two stores
  obtain ⟨m₁, hm₁⟩ : ∃ m, setWord u.mem s.regs.ds (d.M + mtype) (status d s) = m := ⟨_, rfl⟩
  obtain ⟨m₂, hm₂⟩ : ∃ m, setWord m₁ s.regs.ds d.dummy sig = m := ⟨_, rfl⟩
  have hwords₁ : topWords ⟨{ u.regs with sp := s.regs.sp - 28 }, m₁⟩ 14 =
      [status d s] ++ ((saved s.regs).reverse ++ build_sig s.regs sig) := by
    rw [← hm₁, topWords_stored (by exact hss) rfl h.M, hwords]
  have hwords₂ : topWords ⟨{ u.regs with sp := s.regs.sp - 28 }, m₂⟩ 14 =
      [status d s] ++ ((saved s.regs).reverse ++ build_sig s.regs sig) := by
    rw [← hm₂, topWords_stored (by exact hss) rfl h.dummy, hwords₁]
  have hread {m : Ram} {i : Nat} {w : Word} {k : Word}
      (hm : topWords ⟨{ u.regs with sp := s.regs.sp - 28 }, m⟩ 14 =
        [status d s] ++ ((saved s.regs).reverse ++ build_sig s.regs sig))
      (hi : ([status d s] ++ ((saved s.regs).reverse ++ build_sig s.regs sig))[i]? = some w)
      (hk : s.regs.sp - k = s.regs.sp - 28 + BitVec.ofNat 16 (2 * i)) :
      wordAt m s.regs.ss (s.regs.sp - k) = w := by
    rw [hk, ← hss]
    exact wordAt_of_topWords (s := ⟨{ u.regs with sp := s.regs.sp - 28 }, m⟩) (hm ▸ hi)
  have hstatus := hread (k := 28) hwords (i := 0) rfl (by bv_omega)
  have hes := hread (k := 26) hwords₁ (i := 1) rfl (by bv_omega)
  have hds' := hread (k := 24) hwords₁ (i := 2) rfl (by bv_omega)
  have hbp := hread (k := 22) hwords₁ (i := 3) rfl (by bv_omega)
  have hdi := hread (k := 20) hwords₁ (i := 4) rfl (by bv_omega)
  have hsi := hread (k := 18) hwords₁ (i := 5) rfl (by bv_omega)
  have hdx := hread (k := 16) hwords₁ (i := 6) rfl (by bv_omega)
  have hcx := hread (k := 14) hwords₁ (i := 7) rfl (by bv_omega)
  have hbx := hread (k := 12) hwords₁ (i := 8) rfl (by bv_omega)
  have hax := hread (k := 10) hwords₁ (i := 9) rfl (by bv_omega)
  have hsig := hread (k := 8) hwords₁ (i := 10) rfl (by bv_omega)
  have hip := hread (k := 6) hwords₂ (i := 11) rfl (by bv_omega)
  have hcs := hread (k := 4) hwords₂ (i := 12) rfl (by bv_omega)
  have hpsw := hread (k := 2) hwords₂ (i := 13) rfl (by bv_omega)
  have hsplit : back d = (back d).take 2 ++ (((back d).drop 2).take 9 ++ (back d).drop 11) := rfl
  simp only [BitVec.ofNat_eq_ofNat] at hstatus hes hds' hbp hdi hsi hdx hcx hbx hax
  simp only [BitVec.ofNat_eq_ofNat] at hsig hip hcs hpsw
  have h₁ : run u ((back d).take 2) =
      ⟨{ u.regs with ax := wordAt u.mem u.regs.ss u.regs.sp, sp := s.regs.sp - 26 }, m₁⟩ := by
    refine (back_status d u.regs u.mem).trans ?_
    simp only [hss, hds, hsp, sub_then_add, BitVec.reduceSub, BitVec.ofNat_eq_ofNat, hstatus]
    rw [← hm₁]
    rfl
  have h₂ (w : Word) : run ⟨{ u.regs with ax := w, sp := s.regs.sp - 26 }, m₁⟩
      (((back d).drop 2).take 9) =
        ⟨{ s.regs with sp := s.regs.sp - 8, cs := u.regs.cs, ip := u.regs.ip, psw := u.regs.psw },
          m₁⟩ := by
    refine (back_regs d _ m₁).trans ?_
    simp only [hss, sub_then_add, BitVec.reduceSub, BitVec.ofNat_eq_ofNat, hes, hds', hbp, hdi, hsi,
      hdx, hcx, hbx, hax]
  have h₃ := back_end d
    { s.regs with sp := s.regs.sp - 8, cs := u.regs.cs, ip := u.regs.ip, psw := u.regs.psw } m₁ m₂
    (by simp only [BitVec.ofNat_eq_ofNat, hsig, hm₂])
  unfold resumed
  rw [hsplit, run_append, h₁, run_append, h₂, h₃, hm₁, hm₂]
  simp only [sub_then_add, BitVec.reduceSub, BitVec.ofNat_eq_ofNat, hip, hcs, hpsw, BitVec.sub_zero]

/-- A signal that is caught is not noticed: the function that has been given for it is called, and
when it returns, the process goes on where it was, with all its registers and flags and the status
of its last system call. The parameter of the function is what was in `ax`, not the signal. -/
theorem signal_unnoticed (h : Apart d s sig) (func ret : Word)
    (hret : Returned (caught d sig func ret s) u) :
    (caught d sig func ret s).regs.ip = handler d s sig ∧
      topWords (caught d sig func ret s) 2 = [ret, s.regs.ax] ∧
      resumed d u =
        ⟨s.regs,
          setWord (setWord u.mem s.regs.ds (d.M + mtype) (status d s)) s.regs.ds d.dummy sig⟩ := by
  refine ⟨?_, ?_, resumed_eq h hret⟩
  · obtain ⟨psw, hc⟩ := caught_eq h func ret
    rw [hc]
  · obtain ⟨psw, hc⟩ := caught_eq h func ret
    have hall := topWords_frame (d := d) sig func ret s
      (r := { s.regs with
        bx := handler d s sig, bp := s.regs.sp - 26, sp := s.regs.sp - 32
        ip := handler d s sig, psw := psw }) rfl rfl
    rw [← hc, topWords_drop, topWords_drop] at hall
    obtain ⟨htop, hrest⟩ := List.cons.inj hall
    rw [topWords_drop, topWords_drop, htop, (List.cons.inj hrest).1]
    rfl

/-! A process with its stack below its variables gets the second signal, and does nothing. -/

def oneData : Data where
  vectab := 0x400
  M := 0x500
  dummy := 0x600

def signalled : Machine where
  regs := {
    ax := 1, bx := 2, cx := 3, dx := 4, si := 5, di := 6, bp := 7, sp := 0x200
    ds := 0x3000, es := 0x3000, ss := 0x3000, cs := 0x2000, ip := 8, psw := 0x0200 }
  mem := fun _ => 0

theorem signalled_apart : Apart oneData signalled 2 := by
  have hwithin {off : Word} (h : 0x200 ≤ off.toNat) (h' : off.toNat < 0xFFFF) :
      Within (Above signalled.regs 32) signalled.regs.ds off := by
    have hsp : signalled.regs.sp.toNat = 0x200 := rfl
    constructor
    · intro j h₁ hn e
      have := phys_inj (show phys signalled.regs.ds _ = phys signalled.regs.ds _ from e)
      bv_omega
    · intro j h₁ hn e
      have := phys_inj (show phys signalled.regs.ds _ = phys signalled.regs.ds _ from e)
      bv_omega
  exact ⟨hwithin (by decide) (by decide), hwithin (by decide) (by decide),
    hwithin (by decide) (by decide)⟩

theorem returned_ret (t : Machine) : Returned t t.ret := ⟨rfl, rfl, rfl, fun _ _ _ => rfl⟩

theorem signal_unnoticed_two :
    (resumed oneData (caught oneData 2 0x30 0x50 signalled).ret).regs = signalled.regs := by
  have h := signal_unnoticed signalled_apart 0x30 0x50 (returned_ret _)
  rw [h.2.2]

end Minix.Libsys
