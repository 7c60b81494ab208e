import Minix.MM.Main
import Minix.MM.Shape

/-!
# The sizes of a program

The header of a program gives its sizes as longs. They are kept in 16 bits before they are rounded
to clicks, which happens once to see if they are feasible and once to allocate the memory.
-/

namespace Minix.MM

open Extents

/-- A long of a header. -/
def longOf (n : Nat) : Int := (n : Int).bmod 4294967296

/-- The bytes of text in a header. If I & D space is not separated, it is all considered data. -/
def textOf (buf : Fin 8 → Nat) : Int := if buf 0 &&& 0x00200000 ≠ 0 then longOf (buf 2) else 0

/-- The bytes of data and bss in a header. -/
def dataOf (buf : Fin 8 → Nat) : Int :=
  longOf (buf 3) + longOf (buf 4) + if buf 0 &&& 0x00200000 ≠ 0 then 0 else longOf (buf 2)

namespace Image

/-- The clicks of text, of data and bss, of stack and in all that `read_header` checks. -/
def headerClicks (im : Image) : Nat × Nat × Nat × Nat :=
  ((im.textBytes + 3) % 65536 / 16, (im.dataBytes + im.bssBytes + 3) % 65536 / 16,
    virClicks im.stkBytes, physClicks im.totBytes)

/-- Those that `new_mem` uses. -/
def memClicks (im : Image) : Nat × Nat × Nat × Nat :=
  (im.textClicks, im.dataClicks, im.stackClicks, im.totClicks)

end Image

/-- What `read_header` checks. -/
theorem readHeader_eq (buf : Fin 8 → Nat) (stk : Nat) : readHeader buf stk =
    if buf 0 &&& 0xFF0FFFFF ≠ 0x04000301 then .error ENOEXEC
    else if (headerImage buf stk).totBytes = 0 then .error ENOEXEC
    else match (headerImage buf stk).headerClicks with
      | (tc, dc, sc, totc) =>
        if totc ≤ dc then .error ENOEXEC
        else
          let dvir := if (headerImage buf stk).ft then 0 else tc
          let m := sizeOk (headerImage buf stk).ft tc dc sc dvir (addClicks dvir (subClicks totc sc))
          if m < 0 then .error m else .ok (headerImage buf stk) := rfl

theorem readHeader_image {buf : Fin 8 → Nat} {stk : Nat} {im : Image}
    (h : readHeader buf stk = .ok im) : im = headerImage buf stk := by
  rw [readHeader_eq] at h
  dsimp only at h
  repeat' split at h
  all_goals cases h
  all_goals rfl

/-- A long fits in the clicks that its low 16 bits are rounded up to. -/
theorem le_virClicks_iff {x : Int} {n : Nat} (h : (x - n) % 65536 = 0) :
    x ≤ 16 * virClicks n ↔ x ≤ 65520 := by
  unfold virClicks
  omega

/-- When the two roundings agree. -/
theorem rounded_eq_iff (n : Nat) :
    (n + 3) % 65536 / 16 = virClicks n ↔ n % 16 = 0 ∨ 13 ≤ n % 16 := by
  unfold virClicks
  omega

/-- The low 16 bits of a long. -/
theorem longOf_mod (n : Nat) : (longOf n - n) % 65536 = 0 := by
  unfold longOf Int.bmod
  dsimp only
  split <;> omega

variable {s s' : State} {who : Proc} {buf : Fin 8 → Nat} {stk : Nat} {im : Image}

theorem headerImage_text (buf : Fin 8 → Nat) (stk : Nat) :
    (textOf buf - (headerImage buf stk).textBytes) % 65536 = 0 := by
  have h := longOf_mod (buf 2)
  unfold textOf headerImage
  dsimp only
  generalize longOf (buf 2) = x at h
  split <;> omega

theorem headerImage_data (buf : Fin 8 → Nat) (stk : Nat) : (dataOf buf -
    ((headerImage buf stk).dataBytes + (headerImage buf stk).bssBytes : Nat)) % 65536 = 0 := by
  have h₂ := longOf_mod (buf 2)
  have h₃ := longOf_mod (buf 3)
  have h₄ := longOf_mod (buf 4)
  unfold dataOf headerImage
  dsimp only
  generalize longOf (buf 2) = x₂ at h₂
  generalize longOf (buf 3) = x₃ at h₃
  generalize longOf (buf 4) = x₄ at h₄
  split <;> omega

/-- The map is large enough for the program, its segments do not overlap and lie in the address
space, the block is of its size, and this is what has been checked. -/
structure Sized (buf : Fin 8 → Nat) (stk : Nat) (im : Image) (m : Mproc) (core : Extent) :
    Prop where
  text : textOf buf ≤ 16 * m.segT.memLen
  data : dataOf buf ≤ 16 * m.segD.memLen
  stack : stk ≤ 16 * m.segS.memLen
  apart : m.segD.memVir + m.segD.memLen ≤ m.segS.memVir
  top : m.segS.memVir + m.segS.memLen ≤ 4096
  block : core.len = m.segT.memLen + m.segS.memVir + m.segS.memLen
  checked : im.headerClicks = im.memClicks

/-- The sizes can be rounded up in 16 bits, and are rounded up to the same numbers twice. The
address space has room for them. -/
structure Feasible (buf : Fin 8 → Nat) (im : Image) : Prop where
  text : textOf buf ≤ 65520
  data : dataOf buf ≤ 65520
  top : physClicks (buf 6) ≤ 4096
  textEnd : im.textBytes % 16 = 0 ∨ 13 ≤ im.textBytes % 16
  dataEnd : (im.dataBytes + im.bssBytes) % 16 = 0 ∨ 13 ≤ (im.dataBytes + im.bssBytes) % 16

/-- The map that `new_mem` makes for a header. -/
theorem sized_iff (hstk : stk ≤ 1024) (hgap : (headerImage buf stk).gapClicks < 32768)
    {base : Nat} {m : Mproc} :
    Sized buf stk (headerImage buf stk) ((headerImage buf stk).mapped base m)
      ⟨base, (headerImage buf stk).clicks⟩ ↔ Feasible buf (headerImage buf stk) := by
  have htext := le_virClicks_iff (headerImage_text buf stk)
  have hdata := le_virClicks_iff (headerImage_data buf stk)
  have hd : (headerImage buf stk).dataClicks ≤ 4095 := virClicks_le _
  have hk : (headerImage buf stk).stackClicks = (stk + 15) / 16 := by
    have h : (headerImage buf stk).stackClicks = virClicks stk := rfl
    rw [h]
    unfold virClicks
    omega
  have htot := Image.totClicks_eq hgap
  have hclicks := Image.clicks_eq hgap
  have hvir : ((headerImage buf stk).mapped base m).segS.memVir =
      (headerImage buf stk).dataClicks + (headerImage buf stk).gapClicks := by
    have h : ((headerImage buf stk).mapped base m).segS.memVir =
      addClicks (addClicks 0 (headerImage buf stk).dataClicks) (headerImage buf stk).gapClicks := rfl
    rw [h, addClicks_eq (a := 0) (by omega), Nat.zero_add, addClicks_eq (by omega)]
  have hchecked : (headerImage buf stk).headerClicks = (headerImage buf stk).memClicks ↔
      ((headerImage buf stk).textBytes + 3) % 65536 / 16 = (headerImage buf stk).textClicks ∧
        ((headerImage buf stk).dataBytes + (headerImage buf stk).bssBytes + 3) % 65536 / 16 =
          (headerImage buf stk).dataClicks := by
    unfold Image.headerClicks Image.memClicks
    rw [Prod.mk.injEq, Prod.mk.injEq]
    exact and_congr_right fun _ => and_iff_left rfl
  constructor
  · rintro ⟨ht, hda, -, -, htop, -, hch⟩
    obtain ⟨hct, hcd⟩ := hchecked.mp hch
    refine ⟨htext.mp ht, hdata.mp hda, ?_, (rounded_eq_iff _).mp hct, (rounded_eq_iff _).mp hcd⟩
    rw [hvir] at htop
    exact htot.trans_le htop
  · rintro ⟨ht, hda, htop, hte, hde⟩
    refine ⟨htext.mpr ht, hdata.mpr hda, ?_, ?_, ?_, ?_,
      hchecked.mpr ⟨(rounded_eq_iff _).mpr hte, (rounded_eq_iff _).mpr hde⟩⟩
    · change stk ≤ 16 * (headerImage buf stk).stackClicks
      omega
    · rw [hvir]
      change 0 + (headerImage buf stk).dataClicks ≤ _
      omega
    · rw [hvir]
      exact htot.symm.trans_le htop
    · rw [hvir]
      change (headerImage buf stk).clicks = (headerImage buf stk).textClicks +
        ((headerImage buf stk).dataClicks + (headerImage buf stk).gapClicks) +
          (headerImage buf stk).stackClicks
      omega

/-- EXEC gives a program what its header asks for if the sizes are feasible, and not otherwise. -/
theorem exec_sizing_iff (hstk : stk ≤ 1024) (hr : readHeader buf stk = .ok im)
    (hn : newMem s who im = some (OK, s')) :
    (∃ core, s'.hist.held who = some core ∧ Sized buf stk im (s'.mproc who) core) ↔
      Feasible buf im := by
  obtain ⟨t₁, base, t₂, hroom, -, -, -, rfl⟩ := newMem_ok hn
  obtain rfl := readHeader_image hr
  have hgap := (roomFor_ok hroom).1
  simp only [Function.update_self, Option.some.injEq, exists_eq_left']
  exact sized_iff hstk hgap

/-- The header of a program with 32 bytes of text and of data each, not separated. -/
private def smallHeader (tot : Nat) : Fin 8 → Nat :=
  fun i => [0x04100301, 32, 32, 32, 0, 0, tot, 0].getD i 0

/-- The program in ten clicks. -/
theorem exec_sizing_iff_small : ∃ s s' im core, boot blankHoles 4096 ⟨0, 5, 105, 100⟩ = some s ∧
    readHeader (smallHeader 160) 16 = .ok im ∧ newMem s 2 im = some (OK, s') ∧
      s'.hist.held 2 = some core ∧ Sized (smallHeader 160) 16 im (s'.mproc 2) core := by
  have hf : Feasible (smallHeader 160) (headerImage (smallHeader 160) 16) :=
    ⟨by decide, by decide, by decide, by decide, by decide⟩
  have hstk : 16 ≤ 1024 := by decide
  obtain ⟨s, hs⟩ : ∃ s, boot blankHoles 4096 ⟨0, 5, 105, 100⟩ = some s := ⟨_, rfl⟩
  obtain ⟨s', hn⟩ : ∃ s', newMem s 2 (headerImage (smallHeader 160) 16) = some (OK, s') := by
    obtain rfl := Option.some.inj hs
    exact ⟨_, rfl⟩
  obtain ⟨core, hheld, hsized⟩ := (exec_sizing_iff hstk rfl hn).mpr hf
  exact ⟨s, s', _, core, hs, rfl, hn, hheld, hsized⟩

/-- In all it asks for more than there is in the address space. -/
theorem exec_oversized : ∃ s s' im, boot blankHoles 16384 ⟨0, 5, 105, 100⟩ = some s ∧
    readHeader (smallHeader 100000) 16 = .ok im ∧ newMem s 2 im = some (OK, s') ∧
      ¬∃ core, s'.hist.held 2 = some core ∧
        Sized (smallHeader 100000) 16 im (s'.mproc 2) core := by
  refine ⟨_, _, _, rfl, rfl, rfl, ?_⟩
  rintro ⟨core, -, h⟩
  exact absurd h.top (by decide)

end Minix.MM
