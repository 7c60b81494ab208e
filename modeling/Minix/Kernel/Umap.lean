import Minix.Kernel.Calls

/-!
# Addresses in user space

Before the kernel copies to or from a process, `umap` turns the virtual address into a
physical one. It looks at the first click of the range, so the copy stays inside the memory
of the process as long as the last one lies there too.

A virtual address and a count have 16 bits, a physical address is a long.
-/

namespace Minix.Kernel

/-- `proc[i].mem_map[T]` is for text. -/
abbrev T : Int := 0

/-- `proc[i].mem_map[D]` is for data. -/
abbrev D : Int := 1

/-- The last click of data, as the code computes it in 16 bits. -/
def lastClick (virAddr bytes : Nat) : Nat := (virAddr + bytes - 1) % 65536 / 16

/-- If 'seg' is D it could really be S and vice versa. T really means T. The gap is called S. -/
def chosenSeg (map : ProcMap) (seg : Int) (vc : Nat) : MemMap :=
  if seg = T then map.t
  else if vc < (map.d.memVir + map.d.memLen) % 65536 then map.d else map.s

/-- The physical address of a virtual address in a segment, or 0 if it lies beyond the segment. -/
def segAddr (m : MemMap) (virAddr : Nat) : Int :=
  if virAddr / 16 ≥ (m.memVir + m.memLen) % 65536 then 0
  else (m.memPhys * 16 : Int) + (virAddr - (m.memVir * 16 % 65536 : Nat))

/-- Calculate the physical memory address for a given virtual address. -/
def umap (map : ProcMap) (seg : Int) (virAddr bytes : Nat) : Int :=
  if bytes = 0 then 0 else segAddr (chosenSeg map seg (lastClick virAddr bytes)) virAddr

/-- The numbers of clicks are 16-bit words. -/
structure Words (map : ProcMap) : Prop where
  t : map.t.memVir < 65536 ∧ map.t.memPhys < 65536 ∧ map.t.memLen < 65536
  d : map.d.memVir < 65536 ∧ map.d.memPhys < 65536 ∧ map.d.memLen < 65536
  s : map.s.memVir < 65536 ∧ map.s.memPhys < 65536 ∧ map.s.memLen < 65536

/-- Data, gap and stack are one piece of memory. -/
structure Contiguous (map : ProcMap) : Prop where
  data : map.d.memVir = 0
  stack : map.s.memPhys = map.d.memPhys + map.s.memVir
  gap : map.d.memLen ≤ map.s.memVir

/-- The bytes from `pa` on lie in the text, or in the data, the gap and the stack. -/
def Inside (map : ProcMap) (seg pa bytes : Int) : Prop :=
  if seg = T then map.t.memPhys * 16 ≤ pa ∧ pa + bytes ≤ (map.t.memPhys + map.t.memLen) * 16
  else map.d.memPhys * 16 ≤ pa ∧ pa + bytes ≤ (map.s.memPhys + map.s.memLen) * 16

/-- The physical address that belongs to a virtual one. -/
def image (map : ProcMap) (seg : Int) (virAddr : Nat) : Int :=
  let m := if seg = T then map.t else map.d
  m.memPhys * 16 + (virAddr - m.memVir * 16)

/-- A range that is not refused lies in the memory of the process, where it belongs. -/
def Confined (map : ProcMap) (seg : Int) (virAddr bytes : Nat) : Prop :=
  umap map seg virAddr bytes ≠ 0 →
    Inside map seg (umap map seg virAddr bytes) bytes ∧
      umap map seg virAddr bytes = image map seg virAddr

/-- The range, which does not wrap around here, ends in the text or below the end of the stack. It
starts in the text, and a stack that it is taken to be in starts below 64K. -/
def Fits (map : ProcMap) (seg : Int) (virAddr bytes : Nat) : Prop :=
  if seg = T then
    map.t.memVir * 16 ≤ virAddr ∧ virAddr + bytes ≤ (map.t.memVir + map.t.memLen) * 16
  else virAddr + bytes ≤ (map.s.memVir + map.s.memLen) * 16 ∧
    (lastClick virAddr bytes < map.d.memLen ∨ map.s.memVir < 4096)

/-- The first click lies beyond the segment, or the address is the physical address 0. -/
def Beyond (m : MemMap) (virAddr : Nat) : Prop :=
  (m.memVir + m.memLen) % 65536 ≤ virAddr / 16 ∨
    m.memPhys * 16 + virAddr = m.memVir * 16 % 65536

/-- The range is refused for the segment that its last click chooses. -/
def Refused (map : ProcMap) (seg : Int) (virAddr bytes : Nat) : Prop :=
  Beyond (chosenSeg map seg (lastClick virAddr bytes)) virAddr

section Confinement

variable {map : ProcMap} {m : MemMap} {seg : Int} {virAddr bytes : Nat}

theorem segAddr_beyond (h : Beyond m virAddr) : segAddr m virAddr = 0 := by
  unfold segAddr
  split
  · rfl
  · have := h.resolve_left ‹_›
    omega

theorem segAddr_eq (h : ¬Beyond m virAddr) : segAddr m virAddr ≠ 0 ∧
    segAddr m virAddr = (m.memPhys * 16 : Int) + (virAddr - (m.memVir * 16 % 65536 : Nat)) := by
  obtain ⟨hend, hzero⟩ := not_or.mp h
  have he : segAddr m virAddr =
      (m.memPhys * 16 : Int) + (virAddr - (m.memVir * 16 % 65536 : Nat)) := if_neg hend
  refine ⟨?_, he⟩
  rw [he]
  omega

theorem umap_eq (hb : 0 < bytes) : umap map seg virAddr bytes =
    segAddr (chosenSeg map seg (lastClick virAddr bytes)) virAddr :=
  if_neg hb.ne'

/-- In the text: the range has to start and end there. -/
theorem confined_text (hva : virAddr < 65536) (hb : 0 < bytes)
    (hr : ¬Refused map T virAddr bytes) :
    Confined map T virAddr bytes ↔ Fits map T virAddr bytes := by
  have hc : chosenSeg map T (lastClick virAddr bytes) = map.t := if_pos rfl
  unfold Refused at hr
  rw [hc] at hr
  obtain ⟨hne, he⟩ := segAddr_eq hr
  have hu : umap map T virAddr bytes = segAddr map.t virAddr := by rw [umap_eq hb, hc]
  have hfits : Fits map T virAddr bytes ↔
      map.t.memVir * 16 ≤ virAddr ∧ virAddr + bytes ≤ (map.t.memVir + map.t.memLen) * 16 :=
    iff_of_eq (if_pos rfl)
  have hin : ∀ pa : Int, Inside map T pa bytes ↔ map.t.memPhys * 16 ≤ pa ∧
      pa + bytes ≤ (map.t.memPhys + map.t.memLen) * 16 := fun pa => iff_of_eq (if_pos rfl)
  have him : image map T virAddr = map.t.memPhys * 16 + (virAddr - map.t.memVir * 16) := rfl
  unfold Confined
  rw [hu, hfits, hin, him]
  constructor
  · intro h
    have := h hne
    omega
  · intro h _
    omega

/-- In data, gap and stack: the range has to end below the end of the stack. -/
theorem confined_data (hw : Words map) (hc : Contiguous map) (hs : seg ≠ T)
    (hva : virAddr < 65536) (hb : 0 < bytes) (hr : ¬Refused map seg virAddr bytes) :
    Confined map seg virAddr bytes ↔ Fits map seg virAddr bytes := by
  obtain ⟨hdata, hstack, -⟩ := hc
  obtain ⟨-, -, hlen⟩ := hw.d
  have hfits : Fits map seg virAddr bytes ↔
      virAddr + bytes ≤ (map.s.memVir + map.s.memLen) * 16 ∧
        (lastClick virAddr bytes < map.d.memLen ∨ map.s.memVir < 4096) :=
    iff_of_eq (if_neg hs)
  have hin : ∀ pa : Int, Inside map seg pa bytes ↔ map.d.memPhys * 16 ≤ pa ∧
      pa + bytes ≤ (map.s.memPhys + map.s.memLen) * 16 := fun pa => iff_of_eq (if_neg hs)
  have him : image map seg virAddr = map.d.memPhys * 16 + (virAddr - map.d.memVir * 16) := by
    unfold image
    rw [if_neg hs]
  have hend : (map.d.memVir + map.d.memLen) % 65536 = map.d.memLen := by omega
  unfold Refused at hr
  obtain ⟨hne, he⟩ := segAddr_eq hr
  unfold Confined
  rw [umap_eq hb, hfits, hin, him]
  by_cases hd : lastClick virAddr bytes < map.d.memLen
  · have hch : chosenSeg map seg (lastClick virAddr bytes) = map.d := by
      unfold chosenSeg
      rw [if_neg hs, hend, if_pos hd]
    rw [hch] at hne he ⊢
    constructor
    · intro h
      have := h hne
      omega
    · intro h _
      omega
  · have hch : chosenSeg map seg (lastClick virAddr bytes) = map.s := by
      unfold chosenSeg
      rw [if_neg hs, hend, if_neg hd]
    rw [hch] at hne he ⊢
    constructor
    · intro h
      have := h hne
      omega
    · intro h _
      omega

/-- Addresses are confined just to the memory of the process when the range fits in there, or is
refused. -/
theorem confined_iff (hw : Words map) (hc : Contiguous map) (hva : virAddr < 65536)
    (hb : 0 < bytes) : Confined map seg virAddr bytes ↔
      Fits map seg virAddr bytes ∨ Refused map seg virAddr bytes := by
  by_cases hr : Refused map seg virAddr bytes
  · refine iff_of_true (fun hne => absurd ?_ hne) (Or.inr hr)
    rw [umap_eq hb]
    exact segAddr_beyond hr
  · rw [or_iff_left hr]
    by_cases hs : seg = T
    · subst hs
      exact confined_text hva hb hr
    · exact confined_data hw hc hs hva hb hr

end Confinement

end Minix.Kernel
