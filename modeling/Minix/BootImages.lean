import Minix.Kernel.StartMaps
import Minix.Tools.Build

/-!
# The kernel in the boot image

The boot block loads the image at `PROG_ORG`. The kernel then finds in its data the sizes that the
tool stored there, and its `main` computes from them where MM, FS and INIT are. FS finds the place
of INIT in its own data.

The tool counts the bytes of a program in 16 bits when it copies them, and in long words elsewhere.
The two agree, and the programs are where the kernel looks for them, as long as no program has 64K.
-/

namespace Minix

open Tools.Build

/-- The size of a program, rounded up to 16. -/
def padded (h : Header) : Nat := (h.textBytes + h.dataBytes + h.bssBytes + 15) / 16 * 16

/-- The sizes of the programs before one, rounded up to 16. -/
def before (files : Nat → List UInt8) (n : Nat) : Nat :=
  ∑ j ∈ Finset.range n, padded (header (files j))

/-- The text and data of an executable. -/
def body (f : List UInt8) : List UInt8 :=
  (f.drop (headerLen f)).take ((header f).textBytes + (header f).dataBytes)

/-- The bytes of the text of a program that has a segment of its own. -/
def ownText (h : Header) : Nat := if h.sepid then h.textBytes else 0

/-- What build stores in a program: in the kernel its ds and the sizes, in FS where INIT is. -/
def Patch (files : Nat → List UInt8) (i k : Nat) : Prop :=
  let text := (header (files i)).textBytes
  (i = KERN ∧ (k = DS_OFFSET ∨ k = DS_OFFSET + 1 ∨ text ≤ k ∧ k < text + 16)) ∨
    (i = FS ∧ text + 4 ≤ k ∧ k < text + 10)

/-- The array `sizes` of the kernel, at the start of its data. -/
def kernelSizes (s : State) (k : Nat) : Nat := wordAt s.image.content (dataOffset s + 2 * k)

/-- The boot image as it is meant to be. -/
structure LaidOut (boot : List UInt8) (files : Nat → List UInt8) (s : State) : Prop where
  /-- each program is written to its place -/
  place : ∀ i < PROGRAMS, ∃ s₀ s₁, copied boot files i = some s₀ ∧
    copied boot files (i + 1) = some s₁ ∧ s₀.image.pos = 512 + before files i ∧
      s₁.image.pos = 512 + before files i + padded (header (files i))
  /-- its text and data lie there, followed by zeros -/
  bytes : ∀ i < PROGRAMS, ∀ k < padded (header (files i)), ¬Patch files i k →
    s.image.content (512 + before files i + k) = (body (files i)).getD k 0
  /-- what is stored in a program is stored in its own text or data -/
  dsRoom : DS_OFFSET + 2 ≤ (header (files KERN)).textBytes
  tableRoom : 16 ≤ (header (files KERN)).dataBytes
  fsRoom : 10 ≤ (header (files FS)).dataBytes
  /-- the kernel finds MM, FS and INIT where they are loaded -/
  text : ∀ t : Nat, t < 3 → (Kernel.startMaps (kernelSizes s) t).t.memPhys * 16 =
    PROG_ORG + before files (t + 1)
  data : ∀ t : Nat, t < 3 → (Kernel.startMaps (kernelSizes s) t).d.memPhys * 16 =
    PROG_ORG + before files (t + 1) + ownText (header (files (t + 1)))
  stack : ∀ t : Nat, t < 3 → (Kernel.startMaps (kernelSizes s) t).s.memPhys * 16 =
    PROG_ORG + before files (t + 1) + padded (header (files (t + 1)))
  /-- FS finds the same about INIT -/
  initOrg : wordAt s.image.content (fsData s + 4) = (Kernel.startMaps (kernelSizes s) 2).t.memPhys
  initText : wordAt s.image.content (fsData s + 6) = (Kernel.startMaps (kernelSizes s) 2).t.memLen
  initData : wordAt s.image.content (fsData s + 8) = (Kernel.startMaps (kernelSizes s) 2).d.memLen

/-- The sizes that 16 bits are enough for. -/
structure Sized (files : Nat → List UInt8) : Prop where
  body : ∀ i < PROGRAMS, (header (files i)).textBytes + (header (files i)).dataBytes < 65536
  bss : ∀ i < PROGRAMS, padded (header (files i)) <
    (header (files i)).textBytes + (header (files i)).dataBytes + 65536
  init : padded (header (files INIT)) < ownText (header (files INIT)) + 65536
  dsRoom : 6 ≤ (header (files KERN)).textBytes
  tableRoom : 16 ≤ (header (files KERN)).dataBytes
  fsRoom : 10 ≤ (header (files FS)).dataBytes

/-! ## The sizes of a program -/

section Sizes

variable {h : Header} {f : List UInt8} {files : Nat → List UInt8} {boot : List UInt8}
  {s s' : State} {i n : Nat}

theorem filler_uword (n : Nat) : filler (uword n) = (n + 15) / 16 * 16 - n := by
  unfold filler uword
  split_ifs <;> omega

theorem bssSize_eq : (sizesOf h).bssSize =
    uword (padded h - (h.textBytes + h.dataBytes)) := by
  change uword (h.bssBytes + filler (uword _)) = _
  rw [filler_uword, padded]
  congr 1
  omega

theorem le_padded : h.textBytes + h.dataBytes + h.bssBytes ≤ padded h ∧
    padded h < h.textBytes + h.dataBytes + h.bssBytes + 16 ∧ padded h % 16 = 0 := by
  unfold padded
  omega

theorem written_length (hf : Executable f) : (written f).length =
    uword ((header f).textBytes + (header f).dataBytes) + (sizesOf (header f)).bssSize := by
  have hw := hf.whole
  have hle : uword ((header f).textBytes + (header f).dataBytes) ≤
      (header f).textBytes + (header f).dataBytes := Nat.mod_le ..
  rw [written, List.length_append, List.length_replicate, List.length_take, List.length_drop,
    Nat.min_eq_left (by omega)]

/-- A program fills its place exactly when its sizes are small enough. -/
theorem written_length_iff (hf : Executable f) : (written f).length = padded (header f) ↔
    (header f).textBytes + (header f).dataBytes < 65536 ∧
      padded (header f) < (header f).textBytes + (header f).dataBytes + 65536 := by
  have hp := le_padded (h := header f)
  rw [written_length hf, bssSize_eq]
  unfold uword
  omega

theorem written_getD
    (hb : (header f).textBytes + (header f).dataBytes < 65536) (k : Nat) :
    (written f).getD k 0 = (body f).getD k 0 := by
  rw [written, body, show uword _ = _ from Nat.mod_eq_of_lt hb]
  rcases lt_or_ge k (List.take ((header f).textBytes + (header f).dataBytes)
    (f.drop (headerLen f))).length with hk | hk
  · rw [List.getD_append _ _ _ _ hk]
  · rw [List.getD_append_right _ _ _ _ hk, List.getD_eq_default _ _ hk,
      List.getD_eq_getElem?_getD, List.getElem?_getD_replicate_default_eq]

/-- The clicks that the tool stores for the kernel. -/
theorem clicks_padded (hs : h.sepid = true → h.textBytes % 16 = 0) (ht : h.textBytes < 65536)
    (hd : h.dataBytes < 65536)
    (hb : padded h < h.textBytes + h.dataBytes + 65536) :
    textClicks (sizesOf h) * 16 = ownText h ∧
      dataClicks (sizesOf h) * 16 = padded h - ownText h := by
  have hp := le_padded (h := h)
  have hbss : (sizesOf h).bssSize = padded h - (h.textBytes + h.dataBytes) := by
    rw [bssSize_eq]
    exact Nat.mod_eq_of_lt (by omega)
  have hw : ∀ n, n < 1048576 → uword (clicks n) = n / 16 := fun n hn =>
    Nat.mod_eq_of_lt (Nat.div_lt_of_lt_mul hn)
  unfold textClicks dataClicks ownText
  change (if h.sepid then uword (clicks h.textBytes) else 0) * 16 = _ ∧
    (if h.sepid then uword (clicks (h.dataBytes + (sizesOf h).bssSize))
      else uword (clicks (h.textBytes + h.dataBytes + (sizesOf h).bssSize))) * 16 = _
  rw [hbss]
  cases hsep : h.sepid with
  | true =>
    have h0 := hs hsep
    simp only [if_true]
    rw [hw _ (by omega), hw _ (by omega)]
    omega
  | false =>
    simp only [Bool.false_eq_true, if_false, Nat.zero_mul, true_and]
    rw [hw _ (by omega)]
    omega

/-- The sizes of INIT are stored for FS as for the kernel. -/
theorem initSizes_iff (hs : h.sepid = true → h.textBytes % 16 = 0) (ht : h.textBytes < 65536)
    (hd : h.dataBytes < 65536)
    (hb : padded h < h.textBytes + h.dataBytes + 65536) :
    clicks (initSizes (sizesOf h)).1 = textClicks (sizesOf h) ∧
      (clicks (initSizes (sizesOf h)).2 = dataClicks (sizesOf h) ↔
        padded h < ownText h + 65536) := by
  have hp := le_padded (h := h)
  have hbss : (sizesOf h).bssSize = padded h - (h.textBytes + h.dataBytes) := by
    rw [bssSize_eq]
    exact Nat.mod_eq_of_lt (by omega)
  obtain ⟨htext, hdata⟩ := clicks_padded hs ht hd hb
  have hinit : initSizes (sizesOf h) = if h.sepid then
      (h.textBytes, uword (h.dataBytes + (sizesOf h).bssSize))
      else (0, uword (uword (h.dataBytes + (sizesOf h).bssSize) + h.textBytes)) := rfl
  rw [hinit, hbss]
  unfold ownText at htext hdata ⊢
  cases hsep : h.sepid with
  | true =>
    have h0 := hs hsep
    simp only [hsep, if_true] at htext hdata ⊢
    unfold uword clicks
    omega
  | false =>
    simp only [hsep, Bool.false_eq_true, if_false] at htext hdata ⊢
    unfold uword clicks
    omega

/-- The programs are copied one behind the other, each to its place. -/
theorem position_eq (hf : ∀ i < PROGRAMS, Executable (files i)) (hz : Sized files)
    (hn : n ≤ PROGRAMS) : position files n = 512 + before files n := by
  rw [position, before]
  congr 1
  refine Finset.sum_congr rfl fun j hj => ?_
  have hj : j < PROGRAMS := (Finset.mem_range.mp hj).trans_le hn
  exact (written_length_iff (hf j hj)).mpr ⟨hz.body j hj, hz.bss j hj⟩

theorem before_succ : before files (n + 1) = before files n + padded (header (files n)) :=
  Finset.sum_range_succ ..

/-- The clicks that the kernel adds up are those of the programs before. -/
theorem clicksBefore_eq {sizes : Nat → Nat}
    (h : ∀ i < n, (sizes (2 * i) + sizes (2 * i + 1)) * 16 = padded (header (files i))) :
    Kernel.clicksBefore sizes (2 * n) * 16 = before files n := by
  induction n with
  | zero => rfl
  | succ n ih =>
    have hn := h n (Nat.lt_succ_self n)
    have hlt := ih fun i hi => h i (Nat.lt_succ_of_lt hi)
    rw [show 2 * (n + 1) = 2 * n + 1 + 1 from rfl, Kernel.clicksBefore_succ,
      Kernel.clicksBefore_succ, before_succ]
    omega

end Sizes

/-! ## The image -/

/-- A run of the tool: what it copied, and the image with the patches. -/
structure Built (boot : List UInt8) (files : Nat → List UInt8) (c s : State) : Prop where
  executable : ∀ i < PROGRAMS, Executable (files i)
  run : copied boot files PROGRAMS = some c
  copied : Copied files PROGRAMS c
  patched : Patched c s

section Image

variable {boot : List UInt8} {files : Nat → List UInt8} {c s : State} {i t : Nat}

theorem exists_built (hf : ∀ i < PROGRAMS, Executable (files i))
    (hb : build boot files = some s) : ∃ c, Built boot files c s := by
  obtain ⟨s₂, hb, h₃⟩ := Option.bind_eq_some_iff.mp hb
  obtain ⟨s₁, hb, h₂⟩ := Option.bind_eq_some_iff.mp hb
  obtain ⟨c, hc, h₁⟩ := Option.bind_eq_some_iff.mp hb
  have hs := copied_spec hf hc
  refine ⟨c, hf, hc, hs, build_patched ⟨fun i hi => ?_, fun i hi => ?_, fun i hi => ?_⟩ h₁ h₂ h₃⟩
  · rw [hs.sizes i hi]
    exact (hf i hi).text
  · rw [hs.sizes i hi]
    exact (hf i hi).data
  · rw [hs.sizes i hi]
    exact Nat.mod_lt _ (by decide)

/-- Copying of a program starts 512 bytes and the padded sizes before it into the image, and ends its
own padded size further on, only when its size does not overflow 16 bits. -/
theorem Built.sized_of_place (h : Built boot files c s)
    (hp : ∀ i < PROGRAMS, ∃ s₀ s₁, Tools.Build.copied boot files i = some s₀ ∧
      Tools.Build.copied boot files (i + 1) = some s₁ ∧ s₀.image.pos = 512 + before files i ∧
        s₁.image.pos = 512 + before files i + padded (header (files i)))
    (hi : i < PROGRAMS) :
    (header (files i)).textBytes + (header (files i)).dataBytes < 65536 ∧
      padded (header (files i)) <
        (header (files i)).textBytes + (header (files i)).dataBytes + 65536 := by
  obtain ⟨s₀, s₁, h₀, h₁, hp₀, hp₁⟩ := hp i hi
  have hpos₀ := (copied_spec (fun j hj => h.executable j (hj.trans hi)) h₀).pos
  have hpos₁ : s₁.image.pos = position files (i + 1) :=
    (copied_spec (fun j hj => h.executable j (Nat.lt_of_lt_of_le hj hi)) h₁).pos
  have hs : position files (i + 1) = position files i + (written (files i)).length :=
    position_succ
  exact (written_length_iff (h.executable i hi)).mp (by omega)

theorem Built.dataOffset (h : Built boot files c s) :
    Tools.Build.dataOffset c = 512 + (header (files KERN)).textBytes := by
  rw [Tools.Build.dataOffset, h.copied.sizes KERN (by decide)]
  rfl

theorem Built.fsData (h : Built boot files c s) : Tools.Build.fsData c =
    512 + ((sizesOf (header (files KERN))).all + (sizesOf (header (files MM))).all) +
      (header (files FS)).textBytes := by
  rw [Tools.Build.fsData, h.copied.sizes KERN (by decide), h.copied.sizes MM (by decide),
    h.copied.sizes FS (by decide)]
  change PROG_ORG + _ + _ - PROG_ORG + 512 + (header (files FS)).textBytes = _
  omega

/-- The table lies before the data of FS. -/
theorem Built.table (h : Built boot files c s) (hd : 16 ≤ (header (files KERN)).dataBytes) :
    Tools.Build.dataOffset c + 16 ≤ Tools.Build.fsData c := by
  rw [h.dataOffset, h.fsData]
  change _ ≤ 512 + ((header (files KERN)).textBytes + (header (files KERN)).dataBytes + _ + _) + _
  omega

/-- What the kernel finds in its table. -/
theorem Built.table_entry (h : Built boot files c s)
    (ht : 6 ≤ (header (files KERN)).textBytes) (hd : 16 ≤ (header (files KERN)).dataBytes)
    (hi : i < 4) :
    kernelSizes s (2 * i) = textClicks (sizesOf (header (files i))) ∧
      kernelSizes s (2 * i + 1) = dataClicks (sizesOf (header (files i))) := by
  have hlo : 518 ≤ Tools.Build.dataOffset c := by
    rw [h.dataOffset]
    omega
  have hoff : Tools.Build.dataOffset s = Tools.Build.dataOffset c := by
    rw [Tools.Build.dataOffset, h.patched.sizes, Tools.Build.dataOffset]
  have hz : c.sizes i = sizesOf (header (files i)) := h.copied.sizes i (hi.trans (by decide))
  unfold kernelSizes
  rw [hoff, ← hz]
  refine ⟨?_, ?_⟩
  · rw [show 2 * (2 * i) = 4 * i by omega]
    exact h.patched.text hlo (h.table hd) i hi
  · rw [show Tools.Build.dataOffset c + 2 * (2 * i + 1) = Tools.Build.dataOffset c + 4 * i + 2
      by omega]
    exact h.patched.data hlo (h.table hd) i hi

/-- The clicks of a program make up its size. -/
theorem Built.clicks (h : Built boot files c s) (hz : Sized files) (hi : i < 4) :
    kernelSizes s (2 * i) * 16 = ownText (header (files i)) ∧
      kernelSizes s (2 * i + 1) * 16 = padded (header (files i)) - ownText (header (files i)) := by
  have hi' : i < PROGRAMS := hi.trans (by decide)
  obtain ⟨ht, hd⟩ := h.table_entry hz.dsRoom hz.tableRoom hi
  rw [ht, hd]
  exact clicks_padded (h.copied.aligned i hi') (h.executable i hi').text (h.executable i hi').data
    (hz.bss i hi')

theorem ownText_le (h : Header) : ownText h ≤ padded h := by
  have := le_padded (h := h)
  unfold ownText
  split_ifs <;> omega

/-- The kernel computes the places of the programs before its own. -/
theorem Built.clicks_before (h : Built boot files c s) (hz : Sized files) (hi : i ≤ 4) :
    Kernel.clicksBefore (kernelSizes s) (2 * i) * 16 = before files i := by
  refine clicksBefore_eq fun j hj => ?_
  obtain ⟨ht, hd⟩ := h.clicks hz (hj.trans_le hi)
  have := ownText_le (header (files j))
  omega

/-- Memory is large enough for the programs. -/
theorem before_lt (hz : Sized files) (hi : i ≤ 4) : before files i ≤ i * 131072 := by
  refine (Finset.sum_le_card_nsmul _ _ 131072 fun j hj => ?_).trans_eq ?_
  · have hj : j < PROGRAMS := (Finset.mem_range.mp hj).trans_le (hi.trans (by decide))
    have h₁ := hz.body j hj
    have h₂ := hz.bss j hj
    omega
  · rw [Finset.card_range]
    rfl

/-- The kernel finds the processes where they are loaded. -/
theorem Built.maps (h : Built boot files c s) (hz : Sized files) (ht : t < 3) :
    let m := Kernel.startMaps (kernelSizes s) t
    m.t.memPhys * 16 = PROG_ORG + before files (t + 1) ∧
      m.d.memPhys * 16 = PROG_ORG + before files (t + 1) + ownText (header (files (t + 1))) ∧
      m.s.memPhys * 16 = PROG_ORG + before files (t + 1) + padded (header (files (t + 1))) := by
  intro m
  have hm : m = Kernel.placedMap (kernelSizes s) t := Kernel.startMaps_placed ht
  have hb := h.clicks_before hz (i := t + 1) (by omega)
  obtain ⟨htext, hdata⟩ := h.clicks hz (i := t + 1) (by omega)
  have hlt := before_lt hz (i := t + 1) (by omega)
  have h₁ := hz.body (t + 1) (by change t + 1 < 5; omega)
  have h₂ := hz.bss (t + 1) (by change t + 1 < 5; omega)
  have hown := ownText_le (header (files (t + 1)))
  have hs₃ : Kernel.clicksBefore (kernelSizes s) (2 * t + 3) =
      Kernel.clicksBefore (kernelSizes s) (2 * (t + 1)) + kernelSizes s (2 * (t + 1)) :=
    Kernel.clicksBefore_succ
  have hs₄ : Kernel.clicksBefore (kernelSizes s) (2 * t + 4) =
      Kernel.clicksBefore (kernelSizes s) (2 * t + 3) + kernelSizes s (2 * (t + 1) + 1) :=
    Kernel.clicksBefore_succ
  have hs₂ : Kernel.clicksBefore (kernelSizes s) (2 * t + 2) =
      Kernel.clicksBefore (kernelSizes s) (2 * (t + 1)) := rfl
  rw [hm]
  change (96 + Kernel.clicksBefore (kernelSizes s) (2 * t + 2)) % 65536 * 16 = 1536 + _ ∧
    (96 + Kernel.clicksBefore (kernelSizes s) (2 * t + 3)) % 65536 * 16 = 1536 + _ + _ ∧
    (96 + Kernel.clicksBefore (kernelSizes s) (2 * t + 4)) % 65536 * 16 = 1536 + _ + _
  omega

theorem sizesOf_all {h : Header}
    (hb : padded h < h.textBytes + h.dataBytes + 65536) : (sizesOf h).all = padded h := by
  have hp := le_padded (h := h)
  have hbss : (sizesOf h).bssSize = padded h - (h.textBytes + h.dataBytes) := by
    rw [bssSize_eq]
    exact Nat.mod_eq_of_lt (by omega)
  change h.textBytes + h.dataBytes + (sizesOf h).bssSize = _
  omega

theorem before_le {j : Nat} (hij : i < j) :
    before files i + padded (header (files i)) ≤ before files j := by
  rw [← before_succ]
  exact Finset.sum_le_sum_of_subset (Finset.range_mono hij)

theorem Built.fsData_eq (h : Built boot files c s) (hz : Sized files) :
    Tools.Build.fsData c = 512 + before files FS + (header (files FS)).textBytes := by
  have hb : before files 2 = padded (header (files 0)) + padded (header (files 1)) := by
    rw [before_succ, before_succ]
    exact congrArg (· + _) (Nat.zero_add _)
  rw [h.fsData, sizesOf_all (hz.bss KERN (by decide)), sizesOf_all (hz.bss MM (by decide)), hb]

/-- The programs lie in the image, but for what is stored in them. -/
theorem Built.bytes (h : Built boot files c s) (hz : Sized files) (hi : i < PROGRAMS) {k : Nat}
    (hk : k < padded (header (files i))) (hp : ¬Patch files i k) :
    s.image.content (512 + before files i + k) = (body (files i)).getD k 0 := by
  have hds := hz.dsRoom
  have htable := hz.tableRoom
  have hfs := hz.fsRoom
  have hkern := (le_padded (h := header (files KERN))).1
  have hfsp := (le_padded (h := header (files FS))).1
  have hoff := h.dataOffset
  have hfd := h.fsData_eq hz
  obtain ⟨hp₁, hp₂⟩ := not_or.mp hp
  -- behind the kernel, and on either side of FS, nothing is stored
  have hkernel : i = KERN ∧ before files i = 0 ∨ padded (header (files KERN)) ≤ before files i := by
    rcases Nat.eq_zero_or_pos i with rfl | h0
    · exact Or.inl ⟨rfl, rfl⟩
    · exact Or.inr ((Nat.zero_add _).symm.le.trans (before_le h0))
  have hsides : i = FS ∨ before files i + padded (header (files i)) ≤ before files FS ∨
      before files FS + padded (header (files FS)) ≤ before files i := by
    rcases lt_trichotomy i FS with hlt | rfl | hgt
    · exact Or.inr (Or.inl (before_le hlt))
    · exact Or.inl rfl
    · exact Or.inr (Or.inr (before_le hgt))
  have hother : s.image.content (512 + before files i + k) =
      c.image.content (512 + before files i + k) := by
    refine h.patched.others _ (by omega) ?_ ?_ ?_ ?_
    · rcases hkernel with ⟨hi, h0⟩ | hle
      · exact fun he => hp₁ ⟨hi, Or.inl (by change k = 4; omega)⟩
      · omega
    · rcases hkernel with ⟨hi, h0⟩ | hle
      · exact fun he => hp₁ ⟨hi, Or.inr (Or.inl (by change k = 4 + 1; omega))⟩
      · omega
    · rcases hkernel with ⟨rfl, h0⟩ | hle
      · by_contra hn
        exact hp₁ ⟨rfl, Or.inr (Or.inr (by omega))⟩
      · omega
    · rcases hsides with rfl | hle | hle
      · by_contra hn
        exact hp₂ ⟨rfl, by omega⟩
      · omega
      · omega
  have hlen := (written_length_iff (h.executable i hi)).mpr ⟨hz.body i hi, hz.bss i hi⟩
  rw [hother, ← written_getD (hz.body i hi), ← h.copied.bytes i hi k (hlen ▸ hk),
    position_eq h.executable hz hi.le]

theorem before_init : before files INIT = padded (header (files KERN)) +
    padded (header (files MM)) + padded (header (files FS)) := by
  rw [before_succ, before_succ, before_succ]
  exact congrArg (· + _ + _) (Nat.zero_add _)

theorem Built.initOrg_eq (h : Built boot files c s) (hz : Sized files) :
    initOrg c = PROG_ORG + before files INIT := by
  rw [initOrg, h.copied.sizes KERN (by decide), h.copied.sizes MM (by decide),
    h.copied.sizes FS (by decide), sizesOf_all (hz.bss KERN (by decide)),
    sizesOf_all (hz.bss MM (by decide)), sizesOf_all (hz.bss FS (by decide)), before_init]
  simp only [Nat.add_assoc]

/-- FS finds where INIT is. -/
theorem Built.init_org (h : Built boot files c s) (hz : Sized files) :
    wordAt s.image.content (Tools.Build.fsData c + 4) =
      (Kernel.placedMap (kernelSizes s) 2).t.memPhys := by
  have hb : Kernel.clicksBefore (kernelSizes s) 6 * 16 = before files INIT :=
    h.clicks_before hz (i := 3) (by decide)
  have hphys : (Kernel.placedMap (kernelSizes s) 2).t.memPhys =
      (96 + Kernel.clicksBefore (kernelSizes s) 6) % 65536 := rfl
  have horg : ∀ n, uword (Tools.Build.clicks (PROG_ORG + n)) = (1536 + n) / 16 % 65536 :=
    fun _ => rfl
  rw [h.patched.initOrg, h.initOrg_eq hz, hphys, horg, ← hb]
  omega

/-- FS finds where INIT is, and its sizes. -/
theorem Built.init (h : Built boot files c s) (hz : Sized files) :
    let m := Kernel.startMaps (kernelSizes s) 2
    wordAt s.image.content (Tools.Build.fsData s + 4) = m.t.memPhys ∧
      wordAt s.image.content (Tools.Build.fsData s + 6) = m.t.memLen ∧
      wordAt s.image.content (Tools.Build.fsData s + 8) = m.d.memLen := by
  intro m
  have hm : m = Kernel.placedMap (kernelSizes s) 2 := Kernel.startMaps_placed (t := 2) (by decide)
  have hfd : Tools.Build.fsData s = Tools.Build.fsData c := by
    rw [Tools.Build.fsData, h.patched.sizes, Tools.Build.fsData]
  have hi : INIT < PROGRAMS := by decide
  obtain ⟨ht, hd⟩ := h.table_entry hz.dsRoom hz.tableRoom (i := 3) (by decide)
  obtain ⟨htext, hdata⟩ := initSizes_iff (h.copied.aligned INIT hi) (h.executable INIT hi).text
    (h.executable INIT hi).data (hz.bss INIT hi)
  have hinit : c.sizes INIT = sizesOf (header (files INIT)) := h.copied.sizes INIT hi
  rw [hm, hfd]
  refine ⟨h.init_org hz, ?_, ?_⟩
  · rw [h.patched.initText, hinit]
    exact htext.trans ht.symm
  · rw [h.patched.initData, hinit]
    exact (hdata.mpr hz.init).trans hd.symm

/-- An image that is laid out has programs that are small enough. -/
theorem Built.sized (h : Built boot files c s) (hl : LaidOut boot files s) : Sized files := by
  have hp := fun i (hi : i < PROGRAMS) => h.sized_of_place hl.place hi
  have hi : INIT < PROGRAMS := by decide
  obtain ⟨-, hd⟩ := h.table_entry hl.dsRoom hl.tableRoom (i := 3) (by decide)
  have hinit := hl.initData
  have hfd : Tools.Build.fsData s = Tools.Build.fsData c := by
    rw [Tools.Build.fsData, h.patched.sizes, Tools.Build.fsData]
  have hm : Kernel.startMaps (kernelSizes s) (2 : Nat) = Kernel.placedMap (kernelSizes s) 2 :=
    Kernel.startMaps_placed (by decide)
  have hlen : (Kernel.startMaps (kernelSizes s) 2).d.memLen = kernelSizes s 7 :=
    congrArg (fun m : Kernel.ProcMap => m.d.memLen) hm
  have hz : c.sizes INIT = sizesOf (header (files INIT)) := h.copied.sizes INIT hi
  rw [hfd, h.patched.initData, hlen, hz] at hinit
  exact ⟨fun i hi => (hp i hi).1, fun i hi => (hp i hi).2,
    (initSizes_iff (h.copied.aligned INIT hi) (h.executable INIT hi).text
      (h.executable INIT hi).data (hp INIT hi).2).2.mp (hinit.trans hd),
    hl.dsRoom, hl.tableRoom, hl.fsRoom⟩

/-- Small programs are laid out as the kernel and FS take them to be. -/
theorem Built.laidOut (h : Built boot files c s) (hz : Sized files) : LaidOut boot files s where
  place i hi := by
    obtain ⟨s₀, h₀⟩ := copied_before h.run hi.le
    obtain ⟨s₁, h₁⟩ := copied_before h.run hi
    refine ⟨s₀, s₁, h₀, h₁, ?_, ?_⟩
    · rw [(copied_spec (fun j hj => h.executable j (hj.trans hi)) h₀).pos,
        position_eq h.executable hz hi.le]
    · rw [(copied_spec (fun j hj => h.executable j (Nat.lt_of_lt_of_le hj hi)) h₁).pos,
        position_eq h.executable hz hi, before_succ, Nat.add_assoc]
  bytes i hi k hk hp := h.bytes hz hi hk hp
  dsRoom := hz.dsRoom
  tableRoom := hz.tableRoom
  fsRoom := hz.fsRoom
  text t ht := (h.maps hz ht).1
  data t ht := (h.maps hz ht).2.1
  stack t ht := (h.maps hz ht).2.2
  initOrg := (h.init hz).1
  initText := (h.init hz).2.1
  initData := (h.init hz).2.2

end Image

/-! ## Five programs -/

/-- The image after the programs are copied. -/
def afterCopy (boot : List UInt8) (files : Nat → List UInt8) : Nat → State
  | 0 => { createImage with image := wrOut createImage.image (boot.take READ_UNIT) }
  | n + 1 =>
    let s := afterCopy boot files n
    let h := header (files n)
    { image := wrOut s.image (written (files n))
      cumSize := if n < FSCK then s.cumSize + totBytes h else s.cumSize
      allSize := s.allSize + totBytes h
      sizes := Function.update s.sizes n (sizesOf h) }

/-- Executables whose headers are accepted are copied. -/
theorem copied_accepts {boot : List UInt8} {files : Nat → List UInt8} {n : Nat}
    (hb : (boot.take READ_UNIT).length = READ_UNIT) (hf : ∀ i < n, Executable (files i))
    (hr : ∀ i < n, (readHeader (files i)).isSome = true)
    (hs : ∀ i < n, (header (files i)).sepid = true → (header (files i)).textBytes % 16 = 0) :
    copied boot files n = some (afterCopy boot files n) := by
  induction n with
  | zero => exact if_neg (not_not.mpr hb)
  | succ n ih =>
    have hlt : ∀ i < n, i < n + 1 := fun i hi => Nat.lt_succ_of_lt hi
    rw [copied, ih (fun i hi => hf i (hlt i hi)) (fun i hi => hr i (hlt i hi))
      (fun i hi => hs i (hlt i hi))]
    exact copy2_accepts (hf n (Nat.lt_succ_self n)) (hr n (Nat.lt_succ_self n))
      (hs n (Nat.lt_succ_self n))

/-- An executable with 16 bytes of text and 16 of data, which start with a magic number. -/
def smallProgram (sep magic : UInt8 × UInt8) (bss : Nat) : List UInt8 :=
  [1, 3, sep.1, sep.2, 32, 0, 0, 0, 16, 0, 0, 0, 16, 0, 0, 0,
    .ofNat (bss % 256), .ofNat (bss / 256), 0, 0] ++ List.replicate 12 0 ++
    List.replicate 16 0x90 ++ [magic.1, magic.2] ++ List.replicate 14 0

/-- Five programs, MM with separate I & D and a bss of its own size. -/
def fivePrograms (bss : Nat) : Nat → List UInt8
  | 0 => smallProgram (0x10, 4) (0x6F, 0x52) 7
  | 1 => smallProgram (0x20, 4) (0xDA, 0xDA) bss
  | 2 => smallProgram (0x10, 4) (0xDA, 0xDA) 100
  | _ => smallProgram (0x10, 4) (0, 0) 33

/-- A boot block. -/
def bootBlock : List UInt8 := List.replicate 512 0

theorem fivePrograms_executable {bss : Nat} (hb : bss = 20 ∨ bss = 65535) :
    ∀ i < PROGRAMS, Executable (fivePrograms bss i) := by
  intro i hi
  obtain rfl | rfl := hb
  all_goals
    obtain rfl | rfl | rfl | rfl | rfl : i = 0 ∨ i = 1 ∨ i = 2 ∨ i = 3 ∨ i = 4 := by
      change i < 5 at hi
      omega
    all_goals exact ⟨by decide +kernel, by decide +kernel, by decide +kernel, by decide +kernel⟩

/-- Both are accepted. -/
theorem fivePrograms_built {bss : Nat} (hb : bss = 20 ∨ bss = 65535) :
    (build bootBlock (fivePrograms bss)).isSome = true := by
  have hc : copied bootBlock (fivePrograms bss) PROGRAMS =
      some (afterCopy bootBlock (fivePrograms bss) PROGRAMS) := by
    refine copied_accepts (by decide +kernel) (fivePrograms_executable hb) ?_ ?_
    all_goals obtain rfl | rfl := hb <;> decide +kernel
  rw [build, hc]
  obtain rfl | rfl := hb <;> decide +kernel

/-- The programs are in the image where the kernel and FS look for them exactly when 16 bits are
enough for their sizes and what is stored in the kernel and in FS has room there. -/
theorem boot_image_laid_out_iff (boot : List UInt8) (files : Nat → List UInt8) (s : State)
    (hf : ∀ i < PROGRAMS, Executable (files i)) (hb : build boot files = some s) :
    LaidOut boot files s ↔ Sized files := by
  obtain ⟨c, h⟩ := exists_built hf hb
  exact ⟨h.sized, h.laidOut⟩

/-- Five small programs are laid out. -/
theorem boot_image_small : ∃ s, build bootBlock (fivePrograms 20) = some s ∧
    LaidOut bootBlock (fivePrograms 20) s := by
  obtain ⟨s, hs⟩ := Option.isSome_iff_exists.mp (fivePrograms_built (Or.inl rfl))
  have hf : ∀ i < PROGRAMS, Executable (fivePrograms 20 i) :=
    fivePrograms_executable (Or.inl rfl)
  exact ⟨s, hs, (boot_image_laid_out_iff bootBlock (fivePrograms 20) s hf hs).mpr
    ⟨by decide +kernel, by decide +kernel, by decide +kernel, by decide +kernel,
      by decide +kernel, by decide +kernel⟩⟩

/-- The bss of MM gets one byte to fill it up, and is then counted as empty. -/
theorem boot_image_large_bss : ∃ s, (∀ i < PROGRAMS, Executable (fivePrograms 65535 i)) ∧
    build bootBlock (fivePrograms 65535) = some s ∧
      ¬LaidOut bootBlock (fivePrograms 65535) s := by
  obtain ⟨s, hs⟩ := Option.isSome_iff_exists.mp (fivePrograms_built (Or.inr rfl))
  obtain ⟨c, h⟩ := exists_built (fivePrograms_executable (Or.inr rfl)) hs
  refine ⟨s, fivePrograms_executable (Or.inr rfl), hs, fun hl => ?_⟩
  have hz : ¬padded (header (fivePrograms 65535 1)) <
      (header (fivePrograms 65535 1)).textBytes + (header (fivePrograms 65535 1)).dataBytes +
        65536 := by decide +kernel
  exact hz ((h.sized hl).bss 1 (by decide))

end Minix
