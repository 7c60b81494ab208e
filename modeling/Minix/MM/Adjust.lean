import Minix.MM.Shape
import Minix.MM.Tells

/-!
# Adjusting segments

The data segment grows upward and the stack downward, and BRK, the signals and the faults of the
stack all go through `adjust`. It works on the map in place, and puts it back when the new sizes
do not fit.
-/

namespace Minix.MM

/-- A number that is kept in clicks. -/
def clicksOf (n : Int) : Nat := (n % 65536).toNat

/-- `mem_vir -= delta`, `mem_phys -= delta` and `mem_len += delta` for the stack segment. -/
def shiftStack (m : Mproc) (delta : Int) : Mproc :=
  { m with segS := ⟨clicksOf (m.segS.memVir - delta), clicksOf (m.segS.memPhys - delta),
    clicksOf (m.segS.memLen + delta)⟩ }

/-- The length of the data segment is stored. -/
def setData (m : Mproc) (dataClicks : Nat) : Mproc :=
  { m with segD := { m.segD with memLen := dataClicks } }

/-- Update the length of the data, and the length and origin of the stack, where they change. -/
def update (dataChanged stackChanged : Bool) (dataClicks : Nat) (delta : Int) (m : Mproc) : Mproc :=
  let m := if dataChanged then setData m dataClicks else m
  if stackChanged then shiftStack m delta else m

/-- `adjust`, statement by statement, with what it tells the kernel. -/
def adjustInPlace (p : Proc) (m : Mproc) (dataClicks sp : Nat) : Int × Mproc × List Tell :=
  let baseOfStack : Int := m.segS.memVir + m.segS.memLen
  let spClick := sp / 16
  if spClick ≥ baseOfStack then (ENOMEM, m, []) -- sp too high
  else
    let delta : Int := m.segS.memVir - spClick
    let lower := if delta > 0 then spClick else m.segS.memVir
    let gapBase := addClicks m.segD.memVir dataClicks
    if lower < gapBase then (ENOMEM, m, []) -- data and stack collided
    else
      let oldClicks := m.segD.memLen
      let dataChanged := decide (dataClicks ≠ oldClicks)
      let stackChanged := decide (delta > 0)
      let m := update dataChanged stackChanged dataClicks delta m
      if sizeOk m.separate m.segT.memLen m.segD.memLen m.segS.memLen m.segD.memVir m.segS.memVir =
          OK then
        (OK, m, if dataChanged || stackChanged then [.sysNewmap p m] else [])
      else (ENOMEM, update dataChanged stackChanged oldClicks (-delta) m, []) -- restore

variable {m m' : Mproc} {p : Proc} {dataClicks sp : Nat} {tells : List Tell}

/-- Shifting the stack back. -/
theorem shiftStack_back (hvir : m.segS.memVir < 65536) (hphys : m.segS.memPhys < 65536)
    (hlen : m.segS.memLen < 65536) (delta : Int) :
    shiftStack (shiftStack m delta) (-delta) = m := by
  have hback (n : Nat) (hn : n < 65536) (d : Int) : clicksOf (clicksOf (n - d) - -d) = n ∧
      clicksOf (clicksOf (n + d) + -d) = n := by
    unfold clicksOf
    omega
  unfold shiftStack
  dsimp only
  rw [(hback _ hvir _).1, (hback _ hphys _).1, (hback _ hlen _).2]

/-- What has been updated is restored. -/
theorem update_back (hvir : m.segS.memVir < 65536) (hphys : m.segS.memPhys < 65536)
    (hlen : m.segS.memLen < 65536) (a b : Bool) (d : Nat) (delta : Int) :
    update a b m.segD.memLen (-delta) (update a b d delta m) = m := by
  have hs := shiftStack_back hvir hphys hlen delta
  cases a <;> cases b
  · rfl
  · exact hs
  · rfl
  · have hdata : shiftStack (setData (shiftStack (setData m d) delta) m.segD.memLen) (-delta) =
        shiftStack (shiftStack m delta) (-delta) := rfl
    exact hdata.trans hs

/-- The segments after an update. -/
theorem update_eq (hvir : m.segS.memVir < 65536) (d sp : Nat) :
    update (decide (d ≠ m.segD.memLen)) (decide ((m.segS.memVir : Int) - (sp : Nat) > 0)) d
        (m.segS.memVir - sp) m =
      growStack { m with segD := { m.segD with memLen := d } } sp := by
  have hdata : (if d ≠ m.segD.memLen then setData m d else m) =
      { m with segD := { m.segD with memLen := d } } := by
    split
    · rfl
    · rename_i h
      rw [not_not.mp h]
  unfold update growStack
  simp only [decide_eq_true_eq]
  rw [hdata]
  by_cases hlt : sp < m.segS.memVir
  · have hdelta : clicksOf (m.segS.memVir - (m.segS.memVir - sp)) =
        m.segS.memVir - (m.segS.memVir - sp) := by
      unfold clicksOf
      omega
    have hphys : clicksOf (m.segS.memPhys - ((m.segS.memVir : Int) - sp)) =
        subClicks m.segS.memPhys (m.segS.memVir - sp) := by
      unfold clicksOf subClicks
      omega
    have hlen : clicksOf (m.segS.memLen + ((m.segS.memVir : Int) - sp)) =
        addClicks m.segS.memLen (m.segS.memVir - sp) := by
      unfold clicksOf addClicks
      omega
    rw [if_pos (by omega), if_pos hlt]
    unfold shiftStack
    dsimp only
    rw [hdelta, hphys, hlen]
  · rw [if_neg (by omega), if_neg hlt]

/-- `adjust` refuses or updates, and tells the kernel of what it has changed. -/
theorem adjustInPlace_eq (hvir : m.segS.memVir < 65536) (hphys : m.segS.memPhys < 65536)
    (hlen : m.segS.memLen < 65536) : adjustInPlace p m dataClicks sp =
      ((adjust m dataClicks sp).1, (adjust m dataClicks sp).2, adjustTells m p dataClicks sp) := by
  have hup := update_eq hvir dataClicks (sp / 16)
  unfold adjustInPlace adjustTells adjust
  dsimp only
  rw [update_back hvir hphys hlen, hup]
  have hlower : (if (m.segS.memVir : Int) - (sp / 16 : Nat) > 0 then sp / 16 else m.segS.memVir) =
      min (sp / 16) m.segS.memVir := by split <;> omega
  rw [hlower]
  by_cases htop : m.segS.memVir + m.segS.memLen ≤ sp / 16
  · rw [if_pos (by omega), if_pos htop]
    rfl
  rw [if_neg (by omega), if_neg htop]
  by_cases hgap : min (sp / 16) m.segS.memVir < addClicks m.segD.memVir dataClicks
  · rw [if_pos hgap, if_pos hgap]
    rfl
  rw [if_neg hgap, if_neg hgap]
  split
  · have hchange : (decide (dataClicks ≠ m.segD.memLen) ||
        decide ((m.segS.memVir : Int) - (sp / 16 : Nat) > 0)) = true ↔
        dataClicks ≠ m.segD.memLen ∨ sp / 16 < m.segS.memVir := by
      rw [Bool.or_eq_true, decide_eq_true_eq, decide_eq_true_eq]
      omega
    simp only [hchange, true_and]
  · rfl

/-- What `adjust` does to a map when it succeeds. -/
structure Adjusted (p : Proc) (m : Mproc) (dataClicks sp : Nat) (m' : Mproc) (tells : List Tell) :
    Prop where
  length : m'.segD = { m.segD with memLen := dataClicks }
  inside : m'.segS.memVir ≤ sp / 16 ∧ sp / 16 < m'.segS.memVir + m'.segS.memLen
  apart : addClicks m'.segD.memVir m'.segD.memLen ≤ m'.segS.memVir
  clear : m.segD.memVir + dataClicks < 65536 →
    m'.segD.memVir + m'.segD.memLen ≤ m'.segS.memVir
  top : m'.segS.memVir + m'.segS.memLen = m.segS.memVir + m.segS.memLen
  place : subClicks m'.segS.memPhys m'.segS.memVir = subClicks m.segS.memPhys m.segS.memVir
  rest : m' = { m with segD := m'.segD, segS := m'.segS }
  told : m' ≠ m → tells = [.sysNewmap p m']
  quiet : m' = m → tells = []

/-- Where the stack segment begins when it has the click of `sp`. -/
def stackBase (m : Mproc) (sp : Nat) : Nat := min (sp / 16) m.segS.memVir

/-- The map that `adjust` gives a process. -/
def withData (m : Mproc) (d sp : Nat) : Mproc :=
  { m with
    segD := { m.segD with memLen := d }
    segS := ⟨stackBase m sp, subClicks m.segS.memPhys (m.segS.memVir - stackBase m sp),
      m.segS.memVir + m.segS.memLen - stackBase m sp⟩ }

theorem growStack_eq (hphys : m.segS.memPhys < 65536)
    (htop : m.segS.memVir + m.segS.memLen ≤ 4096) (d sp : Nat) :
    growStack { m with segD := { m.segD with memLen := d } } (sp / 16) = withData m d sp := by
  unfold growStack withData stackBase
  dsimp only
  split
  · rename_i hlt
    rw [min_eq_left hlt.le, addClicks_eq (by omega), Nat.sub_sub_self hlt.le]
    congr 2
    omega
  · rename_i hge
    rw [min_eq_right (Nat.not_lt.mp hge), Nat.sub_self, subClicks_eq (Nat.zero_le _) hphys,
      Nat.add_sub_cancel_left]
    rfl

/-- The stack pointer is below the top of the stack, data and stack do not collide, and the sizes
are feasible. -/
def Adjustable (m : Mproc) (d sp : Nat) : Prop :=
  sp / 16 < m.segS.memVir + m.segS.memLen ∧ addClicks m.segD.memVir d ≤ stackBase m sp ∧
    sizeOk m.separate m.segT.memLen d (m.segS.memVir + m.segS.memLen - stackBase m sp) m.segD.memVir
      (stackBase m sp) = OK

instance (m : Mproc) (d sp : Nat) : Decidable (Adjustable m d sp) :=
  inferInstanceAs (Decidable (_ ∧ _ ∧ _))

theorem adjust_fits (hphys : m.segS.memPhys < 65536)
    (htop : m.segS.memVir + m.segS.memLen ≤ 4096) : adjust m dataClicks sp =
    if Adjustable m dataClicks sp then (OK, withData m dataClicks sp) else (ENOMEM, m) := by
  unfold adjust
  dsimp only
  rw [growStack_eq hphys htop]
  by_cases hsp : m.segS.memVir + m.segS.memLen ≤ sp / 16
  · rw [if_pos hsp, if_neg fun h => absurd h.1 (Nat.not_lt.mpr hsp)]
  rw [if_neg hsp]
  by_cases hcol : min (sp / 16) m.segS.memVir < addClicks m.segD.memVir dataClicks
  · rw [if_pos hcol, if_neg fun h => absurd h.2.1 (Nat.not_le.mpr hcol)]
  rw [if_neg hcol]
  exact if_congr ⟨fun h => ⟨Nat.not_le.mp hsp, Nat.not_lt.mp hcol, h⟩, fun h => h.2.2⟩ rfl rfl

theorem withData_same (hphys : m.segS.memPhys < 65536) : withData m dataClicks sp = m ↔
    ¬(dataClicks ≠ m.segD.memLen ∨ sp / 16 < m.segS.memVir) := by
  constructor
  · intro h
    have hlen : dataClicks = m.segD.memLen := congrArg (fun m => m.segD.memLen) h
    have hvir : min (sp / 16) m.segS.memVir = m.segS.memVir := congrArg (fun m => m.segS.memVir) h
    omega
  · intro h
    have hlen : dataClicks = m.segD.memLen := not_not.mp fun hne => h (Or.inl hne)
    have hbase : stackBase m sp = m.segS.memVir :=
      min_eq_right (Nat.not_lt.mp fun hlt => h (Or.inr hlt))
    unfold withData
    rw [hbase, Nat.sub_self, subClicks_eq (Nat.zero_le _) hphys, Nat.add_sub_cancel_left, hlen]
    rfl

/-- A new map that fits is what was asked for. -/
theorem Adjustable.adjusted (hphys : m.segS.memPhys < 65536)
    (htop : m.segS.memVir + m.segS.memLen ≤ 4096) (h : Adjustable m dataClicks sp)
    (htell : tells = if dataClicks ≠ m.segD.memLen ∨ sp / 16 < m.segS.memVir then
      [.sysNewmap p (withData m dataClicks sp)] else []) :
    Adjusted p m dataClicks sp (withData m dataClicks sp) tells := by
  obtain ⟨hsp, hgap, -⟩ := h
  have hbase : stackBase m sp ≤ sp / 16 ∧ stackBase m sp ≤ m.segS.memVir :=
    ⟨min_le_left _ _, min_le_right _ _⟩
  have hsame : withData m dataClicks sp = m ↔
      ¬(dataClicks ≠ m.segD.memLen ∨ sp / 16 < m.segS.memVir) := withData_same hphys
  refine ⟨rfl, ⟨hbase.1, ?_⟩, hgap, fun hreq => ?_, ?_, ?_, rfl, fun hne => ?_, fun he => ?_⟩
  · change sp / 16 < stackBase m sp + (m.segS.memVir + m.segS.memLen - stackBase m sp)
    omega
  · rwa [addClicks_eq hreq] at hgap
  · change stackBase m sp + (m.segS.memVir + m.segS.memLen - stackBase m sp) = _
    omega
  · change subClicks (subClicks m.segS.memPhys (m.segS.memVir - stackBase m sp))
      (stackBase m sp) = _
    unfold subClicks
    omega
  · rw [htell, if_pos (not_not.mp fun hc => hne (hsame.mpr hc))]
  · rw [htell, if_neg (hsame.mp he)]

/-- `adjust` succeeds if the stack pointer, the gap and the sizes allow it. Then the map is what was
asked for, and the kernel has it if it is new. Otherwise the map is as before, and the kernel has
not been told. -/
theorem adjust_correct (hphys : m.segS.memPhys < 65536)
    (htop : m.segS.memVir + m.segS.memLen ≤ 4096) {r : Int}
    (he : adjustInPlace p m dataClicks sp = (r, m', tells)) :
    (r = OK → Adjusted p m dataClicks sp m' tells) ∧
      (r ≠ OK → r = ENOMEM ∧ m' = m ∧ tells = []) ∧ (r = OK ↔ Adjustable m dataClicks sp) := by
  rw [adjustInPlace_eq (by omega) hphys (by omega)] at he
  unfold adjustTells at he
  dsimp only at he
  rw [adjust_fits hphys htop] at he
  by_cases hfits : Adjustable m dataClicks sp
  · rw [if_pos hfits] at he
    obtain ⟨rfl, rfl, htell⟩ := he
    refine ⟨fun _ => hfits.adjusted hphys htop ?_, fun h => absurd rfl h, iff_of_true rfl hfits⟩
    simp only [true_and]
  · rw [if_neg hfits] at he
    obtain ⟨rfl, rfl, rfl⟩ := he
    refine ⟨fun h => (by cases h), fun _ => ⟨rfl, rfl, ?_⟩,
      iff_of_false (fun h => by cases h) hfits⟩
    exact if_neg fun h => by cases h.1

/-- The data of a program begins at address 0, so that no request goes around. -/
theorem Shaped.clear (h : Shaped m) {d : Nat} (hd : d < 65536) : m.segD.memVir + d < 65536 := by
  rwa [h.dVir, Nat.zero_add]

/-- A process with ten clicks of data, a gap of twenty, and two clicks of stack. -/
def exampleSlot : Mproc := { blankSlot with
  segD := ⟨0, 100, 10⟩
  segS := ⟨30, 130, 2⟩ }

/-- The data grows by five clicks, and the stack by ten. -/
theorem adjust_correct_grown : ∃ m' tells, adjustInPlace 3 exampleSlot 15 320 = (OK, m', tells) ∧
    Adjusted 3 exampleSlot 15 320 m' tells := by
  refine ⟨_, _, rfl, (adjust_correct (by decide) (by decide) rfl).1 (by decide)⟩

/-- A process whose data begins at the first click. -/
def wrapSlot : Mproc := { blankSlot with
  segD := ⟨1, 100, 10⟩
  segS := ⟨30, 130, 1⟩ }

/-- A request of 65535 clicks goes around, so that it is granted although data and stack collide. -/
theorem adjust_collides :
    (wrapSlot.segD.memVir + wrapSlot.segD.memLen ≤ wrapSlot.segS.memVir ∧
      wrapSlot.segS.memVir + wrapSlot.segS.memLen ≤ 4096) ∧
    ∃ m' tells, adjustInPlace 3 wrapSlot 65535 480 = (OK, m', tells) ∧
      ¬m'.segD.memVir + m'.segD.memLen ≤ m'.segS.memVir := by
  refine ⟨by decide, withData wrapSlot 65535 480, adjustTells wrapSlot 3 65535 480, ?_, by decide⟩
  rw [adjustInPlace_eq (by decide) (by decide) (by decide), adjust_fits (by decide) (by decide),
    if_pos (by decide +kernel)]

end Minix.MM
