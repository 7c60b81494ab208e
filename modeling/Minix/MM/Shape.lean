import Minix.MM.Effects

/-!
# The shape of a core image

How the segments of a process lie in its region. The size of the region can be
worked out from the segments at any time, since what BRK, the growth of the stack
and FORK do to them leaves it as it is.
-/

namespace Minix.MM

open Extents

theorem addClicks_eq {a b : Nat} (h : a + b < 65536) : addClicks a b = a + b := Nat.mod_eq_of_lt h

theorem subClicks_eq {a b : Nat} (hb : b ≤ a) (ha : a < 65536) : subClicks a b = a - b := by
  unfold subClicks
  omega

/-- A process has no text segment unless it has separate I & D space; its data lies behind its
text, and its stack lies behind its data, at most a text segment below the place where the sizes
would put it. -/
structure Shaped (m : Mproc) : Prop where
  sep : m.separate = false → m.segT.memLen = 0
  fits : m.segT.memLen + m.segS.memVir + m.segS.memLen < 65536
  pos : 0 < m.segT.memLen + m.segS.memVir + m.segS.memLen
  dVir : m.segD.memVir = 0
  dPhys : m.segD.memPhys = m.segT.memPhys + m.segT.memLen
  dLen : m.segD.memLen ≤ m.segS.memVir
  sLow : m.segT.memPhys + m.segS.memVir ≤ m.segS.memPhys
  sHigh : m.segS.memPhys ≤ m.segT.memPhys + m.segT.memLen + m.segS.memVir
  sPhys : m.segS.memPhys < 65536
  dEnd : m.segD.memPhys < 65536

namespace Shaped

variable {m : Mproc}

/-- The size that `cleanup` and `new_mem` work out. -/
theorem coreClicks (h : Shaped m) :
    m.coreClicks = m.segT.memLen + m.segS.memVir + m.segS.memLen := by
  have hfits := h.fits
  have hs : addClicks m.segS.memVir m.segS.memLen = m.segS.memVir + m.segS.memLen :=
    addClicks_eq (by omega)
  unfold Mproc.coreClicks
  dsimp only
  rw [hs]
  split
  · rw [addClicks_eq (by omega)]
    omega
  · rename_i hsep
    have := h.sep (Bool.eq_false_iff.mpr hsep)
    omega

/-- The size that FORK asks for is the size of the parent. -/
theorem progClicks (h : Shaped m) : progClicks m = m.coreClicks := by
  have hfits := h.fits
  have hd := h.dLen
  rw [h.coreClicks]
  unfold MM.progClicks
  rw [subClicks_eq hd (by omega), addClicks_eq (a := m.segT.memLen) (by omega),
    addClicks_eq (b := m.segS.memLen) (by omega), addClicks_eq (by omega)]
  omega

/-- The segments lie inside the region. -/
theorem inside (h : Shaped m) : ∀ seg ∈ [m.segT, m.segD, m.segS],
    m.region.base ≤ seg.memPhys ∧ seg.memPhys + seg.memLen ≤ m.region.stop := by
  have hd := h.dPhys
  have hdl := h.dLen
  have hl := h.sLow
  have hh := h.sHigh
  simp only [Mproc.region, Extent.stop, h.coreClicks, List.forall_mem_cons]
  refine ⟨⟨le_rfl, by omega⟩, ⟨by omega, by omega⟩, ⟨by omega, by omega⟩,
    fun _ h => absurd h List.not_mem_nil⟩

/-- The stack can be grown down to the data. -/
theorem growStack (h : Shaped m) {d sp : Nat} (hd : d ≤ min sp m.segS.memVir) :
    Shaped (growStack { m with segD := { m.segD with memLen := d } } sp) ∧
      (MM.growStack { m with segD := { m.segD with memLen := d } } sp).region = m.region := by
  have hd' := le_min_iff.mp hd
  have hfits := h.fits
  have hpos := h.pos
  have hl := h.sLow
  have hh := h.sHigh
  have hp := h.sPhys
  unfold MM.growStack
  dsimp only
  split
  · rename_i hlt
    have hphys : subClicks m.segS.memPhys (m.segS.memVir - sp) =
        m.segS.memPhys - (m.segS.memVir - sp) := subClicks_eq (by omega) (by omega)
    have hlen : addClicks m.segS.memLen (m.segS.memVir - sp) =
        m.segS.memLen + (m.segS.memVir - sp) := addClicks_eq (by omega)
    have hs : Shaped { m with
        segD := { m.segD with memLen := d }
        segS := ⟨m.segS.memVir - (m.segS.memVir - sp),
          subClicks m.segS.memPhys (m.segS.memVir - sp),
          addClicks m.segS.memLen (m.segS.memVir - sp)⟩ } := by
      rw [hphys, hlen]
      refine ⟨h.sep, ?_, ?_, h.dVir, h.dPhys, ?_, ?_, ?_, ?_, h.dEnd⟩ <;> dsimp only <;> omega
    refine ⟨hs, ?_⟩
    unfold Mproc.region
    rw [hs.coreClicks, h.coreClicks, hlen]
    dsimp only
    congr 1
    omega
  · have hs : Shaped { m with segD := { m.segD with memLen := d } } :=
      ⟨h.sep, hfits, hpos, h.dVir, h.dPhys, hd'.2, hl, hh, hp, h.dEnd⟩
    refine ⟨hs, ?_⟩
    unfold Mproc.region
    rw [hs.coreClicks, h.coreClicks]

/-- BRK and the growth of the stack leave the region as it is. -/
theorem adjust (h : Shaped m) {d : Nat} (sp : Nat) (hd : d = m.segD.memLen ∨ d < 65536) :
    Shaped (adjust m d sp).2 ∧ (MM.adjust m d sp).2.region = m.region := by
  rcases adjust_cases m d sp with he | ⟨hgap, he⟩
  · rw [he]
    exact ⟨h, rfl⟩
  · rw [he]
    have hlt : d < 65536 := by
      have := h.dLen
      have := h.fits
      omega
    rw [h.dVir, addClicks_eq (by omega), Nat.zero_add] at hgap
    exact h.growStack hgap

/-- The child of a process with such an image has one too, at its own place. -/
theorem forked (h : Shaped m) {who : Proc} {base pid : Nat} (hb : base + m.coreClicks < 65536) :
    Shaped { forked m who base with mpPid := pid } ∧
      ({ MM.forked m who base with mpPid := pid } : Mproc).region = ⟨base, m.coreClicks⟩ := by
  have hcore := h.coreClicks
  have hl := h.sLow
  have hh := h.sHigh
  have hp := h.sPhys
  have hd := h.dPhys
  have he := h.dEnd
  have hdPhys : addClicks base m.segT.memLen = base + m.segT.memLen := addClicks_eq (by omega)
  -- the difference is taken modulo 2^16, and so is the sum
  have hsPhys : addClicks (base + m.segT.memLen) (subClicks m.segS.memPhys m.segD.memPhys) =
      base + (m.segS.memPhys - m.segT.memPhys) := by
    unfold addClicks subClicks
    omega
  have hs : Shaped { MM.forked m who base with mpPid := pid } := by
    unfold MM.forked
    dsimp only
    rw [hdPhys, hsPhys]
    refine ⟨h.sep, h.fits, h.pos, h.dVir, rfl, h.dLen, ?_, ?_, ?_, ?_⟩ <;> dsimp only <;> omega
  refine ⟨hs, ?_⟩
  unfold Mproc.region
  rw [hs.coreClicks, hcore]
  rfl

end Shaped

theorem virClicks_le (n : Nat) : virClicks n ≤ 4095 := by
  unfold virClicks
  omega

/-- The header of a program without separate I & D space leaves it no text, and no program is
empty. -/
theorem readHeader_ok {buf : Fin 8 → Nat} {stk : Nat} {im : Image}
    (h : readHeader buf stk = .ok im) :
    (im.ft = false → im.textBytes = 0) ∧ 0 < im.totClicks := by
  unfold readHeader at h
  dsimp only at h
  split at h
  · cases h
  · split at h
    · cases h
    · split at h
      · cases h
      · rename_i hdc
        generalize sizeOk _ _ _ _ _ _ = m at h
        split at h
        · cases h
        · obtain rfl := Except.ok.inj h
          refine ⟨fun hft => ?_, ?_⟩
          · unfold headerImage at hft ⊢
            simp only [decide_eq_false_iff_not] at hft
            exact if_neg hft
          · exact Nat.pos_of_ne_zero fun h0 => hdc (h0.trans_le (Nat.zero_le _))

theorem execImage_ok {a : ExecCall} {im : Image} (h : execImage a = .ok im) :
    (im.ft = false → im.textBytes = 0) ∧ 0 < im.totClicks := by
  unfold execImage at h
  repeat' split at h
  all_goals cases h
  exact readHeader_ok ‹_›

/-- The parts of a program that `new_mem` accepts add up to what the file asks for. -/
theorem Image.totClicks_eq {im : Image} (h : im.gapClicks < 32768) :
    im.totClicks = im.dataClicks + im.gapClicks + im.stackClicks := by
  have hd : im.dataClicks ≤ 4095 := virClicks_le _
  have hk : im.stackClicks ≤ 4095 := virClicks_le _
  have ht : im.totClicks < 65536 := Nat.mod_lt _ (by decide)
  have hg : im.gapClicks = subClicks (subClicks im.totClicks im.dataClicks) im.stackClicks := rfl
  unfold subClicks at hg
  omega

/-- What `new_mem` asks for, without a carry. -/
theorem Image.clicks_eq {im : Image} (h : im.gapClicks < 32768) :
    im.clicks = im.textClicks + im.totClicks := by
  have ht : im.textClicks ≤ 4095 := virClicks_le _
  have hd : im.dataClicks ≤ 4095 := virClicks_le _
  have hk : im.stackClicks ≤ 4095 := virClicks_le _
  have htot := Image.totClicks_eq h
  exact addClicks_eq (by omega)

theorem roomFor_ok {t : HoleTable} {im : Image} (h : roomFor t im = some OK) :
    im.gapClicks < 32768 ∧ ∃ max, maxHole t = some max ∧ im.clicks ≤ max := by
  unfold roomFor at h
  split at h
  · exact absurd (Option.some.inj h) (by decide)
  · rename_i hg
    obtain ⟨max, hm, he⟩ := Option.map_eq_some_iff.mp h
    refine ⟨Nat.not_le.mp hg, max, hm, ?_⟩
    split at he
    · exact absurd he (by decide)
    · exact Nat.not_lt.mp ‹_›

/-- A program that has been loaded has such an image, of the size that was asked for. -/
theorem Shaped.loaded {a : ExecCall} {im : Image} (hi : execImage a = .ok im)
    (hg : im.gapClicks < 32768) {base : Nat} (hb : base + im.clicks < 65536) (m : Mproc) :
    Shaped (execDone a im.ft (im.mapped base m)) ∧
      (execDone a im.ft (im.mapped base m)).region = ⟨base, im.clicks⟩ := by
  obtain ⟨hsep, hpos⟩ := execImage_ok hi
  have hclicks := Image.clicks_eq hg
  have htot := Image.totClicks_eq hg
  have hdPhys : addClicks base im.textClicks = base + im.textClicks := addClicks_eq (by omega)
  have hvir : addClicks (addClicks 0 im.dataClicks) im.gapClicks = im.dataClicks + im.gapClicks := by
    rw [addClicks_eq (a := 0) (by omega), Nat.zero_add, addClicks_eq (by omega)]
  have hphys : addClicks (addClicks (base + im.textClicks) im.dataClicks) im.gapClicks =
      base + im.textClicks + (im.dataClicks + im.gapClicks) := by
    rw [addClicks_eq (a := base + im.textClicks) (by omega), addClicks_eq (by omega)]
    omega
  have hs : Shaped (execDone a im.ft (im.mapped base m)) := by
    unfold execDone Image.mapped
    dsimp only
    rw [hdPhys, hvir, hphys]
    refine ⟨fun hft => ?_, ?_, ?_, rfl, rfl, ?_, ?_, ?_, ?_, ?_⟩ <;> dsimp only
    · unfold Image.textClicks
      rw [hsep hft]
      rfl
    all_goals omega
  refine ⟨hs, ?_⟩
  unfold Mproc.region
  rw [hs.coreClicks]
  unfold execDone Image.mapped
  dsimp only
  rw [hvir]
  congr 1
  omega

end Minix.MM
