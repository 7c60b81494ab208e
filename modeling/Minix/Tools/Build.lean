import Mathlib.Algebra.Order.BigOperators.Group.Finset
import Mathlib.Data.List.GetD
import Mathlib.Logic.Function.Basic
import Minix.Lib.Literals

/-!
# The boot image

The tool puts the boot block and five programs one behind the other into an image file, and stores
into it the sizes that the boot block, the kernel and FS look for. A program that is not accepted
ends the run. A `UWORD` has 16 bits; the longs and the words of 32 bits stay far below their bounds.
The image file is created with 1440 blocks of zeros, of which the programs fill less than half.
-/

namespace Minix.Tools.Build

open Function

/-- kernel + mm + fs + init + fsck = 5 -/
abbrev PROGRAMS : Nat := 5
/-- where does kernel begin in abs mem -/
abbrev PROG_ORG : Nat := 1536
/-- position of written word in kernel's text -/
abbrev DS_OFFSET : Nat := 4
/-- size of buf -/
abbrev SECTOR_SIZE : Nat := 512
/-- how big a chunk to read in -/
abbrev READ_UNIT : Nat := 512
/-- identifies kernel data space -/
abbrev KERNEL_D_MAGIC : Nat := 0x526F
/-- identifies fs data space -/
abbrev FS_D_MAGIC : Nat := 0xDADA
/-- kernel's number -/
abbrev KERN : Nat := 0
/-- memory manager's number -/
abbrev MM : Nat := 1
/-- file system's number -/
abbrev FS : Nat := 2
/-- init's number -/
abbrev INIT : Nat := 3
/-- number of the file system checker -/
abbrev FSCK : Nat := 4

/-- short form header size -/
abbrev HEADER1 : Nat := 32
/-- long form header size -/
abbrev HEADER2 : Nat := 48

/-- `n >> CLICK_SHIFT` -/
abbrev clicks (n : Nat) : Nat := n / 16

/-- `(UWORD) n` -/
abbrev uword (n : Nat) : Nat := n % 65536

/-- The image file: what is in it, and where it is written next. -/
structure ImageFile where
  content : Nat → UInt8
  pos : Nat

/-- What is noted of the size of a program. -/
structure Sizes where
  textSize : Nat
  dataSize : Nat
  bssSize : Nat
  sepId : Bool

/-- The image file and the static variables. -/
structure State where
  image : ImageFile
  cumSize : Nat
  allSize : Nat
  sizes : Nat → Sizes

/-! ## Reading the programs -/

/-- The word at an offset, low-order byte first. -/
def wordAt (c : Nat → UInt8) (p : Nat) : Nat := (c p).toNat + 256 * (c (p + 1)).toNat

/-- The 32-bit word at an offset. -/
def longAt (c : Nat → UInt8) (p : Nat) : Nat := wordAt c p + 65536 * wordAt c (p + 2)

/-- What the header of an executable says. -/
structure Header where
  sepid : Bool
  textBytes : Nat
  dataBytes : Nat
  bssBytes : Nat

/-- The length of the header. -/
def headerLen (f : List UInt8) : Nat := wordAt (f.getD · 0) 4

/-- The header, with the sizes as 32-bit words. -/
def header (f : List UInt8) : Header where
  sepid := wordAt (f.getD · 0) 2 / 0x20 % 2 = 1
  textBytes := longAt (f.getD · 0) 8
  dataBytes := longAt (f.getD · 0) 12
  bssBytes := longAt (f.getD · 0) 16

/-- `read_header`, with what is left of the file. -/
def readHeader (f : List UInt8) : Option (Header × List UInt8) :=
  if f.length < 8 then none
  else if headerLen f ≠ HEADER1 ∧ headerLen f ≠ HEADER2 then none
  else if f.length < headerLen f then none
  else
    let h := header f
    some (⟨h.sepid, uword h.textBytes, uword h.dataBytes, uword h.bssBytes⟩, f.drop (headerLen f))

/-- Bytes are written at the end of the image file. -/
def wrOut (image : ImageFile) (buffer : List UInt8) : ImageFile where
  content p :=
    if image.pos ≤ p then buffer.getD (p - image.pos) (image.content p) else image.content p
  pos := image.pos + buffer.length

/-- Read in the text and data, and copy them to the image. -/
def copyText (leftToRead : Nat) (fd : List UInt8) (image : ImageFile) : Option ImageFile :=
  if leftToRead = 0 then some image
  else
    let count := min leftToRead READ_UNIT
    let inbuf := fd.take count
    if inbuf.length ≠ count then none
    else copyText (leftToRead - count) (fd.drop count) (wrOut image inbuf)
  termination_by leftToRead
  decreasing_by
    change leftToRead - min leftToRead 512 < leftToRead
    omega

/-- Write out the bss. -/
def copyBss (bssBytes : Nat) (image : ImageFile) : ImageFile :=
  if bssBytes = 0 then image
  else
    let count := min bssBytes SECTOR_SIZE
    copyBss (bssBytes - count) (wrOut image (List.replicate count 0))
  termination_by bssBytes
  decreasing_by
    change bssBytes - min bssBytes 512 < bssBytes
    omega

/-- What is missing to a multiple of 16. -/
def filler (totBytes : Nat) : Nat := if totBytes % 16 > 0 then 16 - totBytes % 16 else 0

/-- The sizes of a program, with the bss filled up. -/
def sizesOf (h : Header) : Sizes where
  textSize := h.textBytes
  dataSize := h.dataBytes
  bssSize := uword (h.bssBytes + filler (uword (h.textBytes + h.dataBytes + h.bssBytes)))
  sepId := h.sepid

/-- The size of a program, filled up. -/
def totBytes (h : Header) : Nat :=
  let tot := uword (h.textBytes + h.dataBytes + h.bssBytes)
  uword (tot + filler tot)

/-- A program is copied: its text and data, then zeros for its bss. -/
def copy2 (num : Nat) (f : List UInt8) (s : State) : Option State := do
  let (h, fd) ← readHeader f
  if h.sepid ∧ h.textBytes % 16 ≠ 0 then none
  else
    let image ← copyText (uword (h.textBytes + h.dataBytes)) fd s.image
    return { image := copyBss (sizesOf h).bssSize image
             cumSize := if num < FSCK then s.cumSize + totBytes h else s.cumSize
             allSize := s.allSize + totBytes h
             sizes := update s.sizes num (sizesOf h) }

/-- The boot block is copied, and padded to a sector. -/
def copy1 (f : List UInt8) (s : State) : Option State :=
  let inbuf := f.take READ_UNIT
  if inbuf.length ≠ READ_UNIT then none else some { s with image := wrOut s.image inbuf }

/-- The image file full of zeros, at its start. -/
def createImage : State := ⟨⟨fun _ => 0, 0⟩, 0, 0, fun _ => ⟨0, 0, 0, false⟩⟩

/-- The image after the boot block and the first `n` programs. -/
def copied (boot : List UInt8) (files : Nat → List UInt8) : Nat → Option State
  | 0 => copy1 boot createImage
  | n + 1 => copied boot files n >>= copy2 n (files n)

/-! ## Storing the sizes -/

/-- A sector of the image file. -/
def readBlock (blocknr : Nat) (c : Nat → UInt8) : Nat → UInt8 :=
  fun k => c (uword blocknr * SECTOR_SIZE + k)

/-- A sector is written back. -/
def writeBlock (blocknr : Nat) (buf c : Nat → UInt8) : Nat → UInt8 := fun p =>
  if uword blocknr * SECTOR_SIZE ≤ p ∧ p < uword blocknr * SECTOR_SIZE + SECTOR_SIZE then
    buf (p - uword blocknr * SECTOR_SIZE)
  else c p

/-- A byte of the image file. -/
def getByte (offset : Nat) (c : Nat → UInt8) : Nat :=
  (readBlock (offset / SECTOR_SIZE) c (offset % SECTOR_SIZE)).toNat

/-- A byte is changed: its sector is read and written back. -/
def putByte (offset byteValue : Nat) (c : Nat → UInt8) : Nat → UInt8 :=
  writeBlock (offset / SECTOR_SIZE)
    (update (readBlock (offset / SECTOR_SIZE) c) (offset % SECTOR_SIZE) (.ofNat byteValue)) c

/-- The two bytes of a word, low-order byte first. -/
def putWord (offset w : Nat) (c : Nat → UInt8) : Nat → UInt8 :=
  putByte (offset + 1) (w / 256 % 256) (putByte offset (w % 256) c)

/-- A word of a block that is read as words. -/
def setWord (i w : Nat) (buf : Nat → UInt8) : Nat → UInt8 :=
  update (update buf (2 * i) (.ofNat (w % 256))) (2 * i + 1) (.ofNat (w / 256 % 256))

/-- What the boot block needs: the size in sectors, and ds, ip and cs of fsck. -/
def patch1 (s : State) : Option State :=
  if s.cumSize % 16 ≠ 0 then none
  else
    let fsckOrg := PROG_ORG + s.cumSize
    let ip := 0
    let cs := uword (clicks fsckOrg)
    let ds := if (s.sizes FSCK).sepId then uword (cs + clicks (s.sizes FSCK).textSize) else cs
    let sectors := uword (s.allSize / 512)
    let ubuf := readBlock 0 s.image.content
    let ubuf := setWord (SECTOR_SIZE / 2 - 5) (uword (sectors + 1)) ubuf
    let ubuf := setWord (SECTOR_SIZE / 2 - 4) ds ubuf
    let ubuf := setWord (SECTOR_SIZE / 2 - 3) ip ubuf
    let ubuf := setWord (SECTOR_SIZE / 2 - 2) cs ubuf
    let ubuf := setWord (SECTOR_SIZE / 2 - 1) 0xaa55 ubuf
    some { s with image := { s.image with content := writeBlock 0 ubuf s.image.content } }

/-- The clicks of text of a program, for the kernel. -/
def textClicks (z : Sizes) : Nat := if z.sepId then uword (clicks z.textSize) else 0

/-- The clicks of data of a program, for the kernel. -/
def dataClicks (z : Sizes) : Nat :=
  if z.sepId then uword (clicks (z.dataSize + z.bssSize))
  else uword (clicks (z.textSize + z.dataSize + z.bssSize))

/-- Where the data of the kernel is in the image. -/
def dataOffset (s : State) : Nat := 512 + (s.sizes KERN).textSize

/-- One round of the loop of `patch2`. -/
def putSizes (s : State) (c : Nat → UInt8) (i : Nat) : Nat → UInt8 :=
  putWord (dataOffset s + 4 * i + 2) (dataClicks (s.sizes i))
    (putWord (dataOffset s + 4 * i) (textClicks (s.sizes i)) c)

/-- The ds value of the kernel. -/
def kernelDs (s : State) : Nat :=
  uword (if (s.sizes KERN).sepId then clicks (PROG_ORG + (s.sizes KERN).textSize)
    else clicks PROG_ORG)

/-- What the kernel needs: the sizes of the kernel, MM, FS and INIT, and its own ds. -/
def patch2 (s : State) : Option State :=
  if getByte (dataOffset s + 1) s.image.content * 256 + getByte (dataOffset s) s.image.content ≠
      KERNEL_D_MAGIC then none
  else
    let content := (List.range (PROGRAMS - 1)).foldl (putSizes s) s.image.content
    let content := putWord (512 + DS_OFFSET) (kernelDs s) content
    some { s with image := { s.image with content := content } }

/-- The bytes of a program in memory. -/
def Sizes.all (z : Sizes) : Nat := z.textSize + z.dataSize + z.bssSize

/-- Where INIT is in memory. -/
def initOrg (s : State) : Nat :=
  PROG_ORG + (s.sizes KERN).all + (s.sizes MM).all + (s.sizes FS).all

/-- Where the data of MM is in the image. -/
def mmData (s : State) : Nat :=
  PROG_ORG + (s.sizes KERN).all - PROG_ORG + 512 + (s.sizes MM).textSize

/-- Where the data of FS is in the image. -/
def fsData (s : State) : Nat :=
  PROG_ORG + (s.sizes KERN).all + (s.sizes MM).all - PROG_ORG + 512 + (s.sizes FS).textSize

/-- The sizes of text and of data of INIT, in bytes. -/
def initSizes (z : Sizes) : Nat × Nat :=
  let initData := uword (z.dataSize + z.bssSize)
  if z.sepId then (z.textSize, initData) else (0, uword (initData + z.textSize))

/-- What FS needs: the place of INIT and its sizes. -/
def patch3 (s : State) : Option State :=
  let w0 := uword (clicks (initOrg s))
  let w1 := clicks (initSizes (s.sizes INIT)).1
  let w2 := clicks (initSizes (s.sizes INIT)).2
  let c := s.image.content
  if getByte (mmData s + 1) c * 256 ||| getByte (mmData s) c ≠ FS_D_MAGIC then none
  else if getByte (fsData s + 1) c * 256 ||| getByte (fsData s) c ≠ FS_D_MAGIC then none
  else
    let c := putWord (fsData s + 4) w0 c
    let c := putWord (fsData s + 6) w1 c
    let c := putWord (fsData s + 8) w2 c
    some { s with image := { s.image with content := c } }

/-- A run of the tool that is not refused. -/
def build (boot : List UInt8) (files : Nat → List UInt8) : Option State :=
  copied boot files PROGRAMS >>= patch1 >>= patch2 >>= patch3

/-! ## What is written -/

section Writing

variable {image : ImageFile} {l l' fd f boot : List UInt8} {p n num : Nat} {s s' : State}
  {files : Nat → List UInt8} {h : Header}

/-- What was written before stays. -/
theorem wrOut_before (hp : p < image.pos) : (wrOut image l).content p = image.content p :=
  if_neg (by omega)

/-- The bytes that are written follow it. -/
theorem wrOut_at {k : Nat} (hk : k < l.length) :
    (wrOut image l).content (image.pos + k) = l.getD k 0 := by
  simp only [wrOut, Nat.le_add_right, if_true, Nat.add_sub_cancel_left,
    List.getD_eq_getElem l _ hk]

/-- Nothing is written. -/
theorem wrOut_nil : wrOut image [] = image := by
  simp only [wrOut, List.getD_nil, ite_self, List.length_nil, Nat.add_zero]

/-- Past the end of what is written the image is as it was. -/
theorem wrOut_after (hp : image.pos + l.length ≤ p) :
    (wrOut image l).content p = image.content p := by
  have he : (wrOut image l).content p = l.getD (p - image.pos) (image.content p) :=
    if_pos (by omega)
  rw [he, List.getD_eq_default l _ (by omega)]

/-- Two writes are one. -/
theorem wrOut_append : wrOut (wrOut image l) l' = wrOut image (l ++ l') := by
  have hl : (wrOut image l).pos = image.pos + l.length := rfl
  refine ImageFile.mk.injEq .. ▸ ⟨funext fun p => ?_, ?_⟩
  · change (wrOut (wrOut image l) l').content p = (wrOut image (l ++ l')).content p
    have hlen : (l ++ l').length = l.length + l'.length := List.length_append
    rcases lt_or_ge p image.pos with hp | hp
    · rw [wrOut_before (by omega), wrOut_before hp, wrOut_before hp]
    obtain ⟨k, rfl⟩ := Nat.exists_eq_add_of_le hp
    rcases lt_or_ge k l.length with hk | hk
    · rw [wrOut_before (by omega), wrOut_at hk, wrOut_at (by omega),
        List.getD_append _ _ _ _ hk]
    obtain ⟨i, rfl⟩ := Nat.exists_eq_add_of_le hk
    rcases lt_or_ge i l'.length with hi | hi
    · have hw : (wrOut (wrOut image l) l').content ((wrOut image l).pos + i) = l'.getD i 0 :=
        wrOut_at hi
      rw [hl, Nat.add_assoc] at hw
      rw [hw, wrOut_at (by omega), List.getD_append_right _ _ _ _ (by omega),
        Nat.add_sub_cancel_left]
    · rw [wrOut_after (by omega), wrOut_after (by omega), wrOut_after (by omega)]
  · change image.pos + l.length + l'.length = image.pos + (l ++ l').length
    rw [List.length_append, Nat.add_assoc]

/-- The loop writes out what is left to read, or the file is too short. -/
theorem copyText_eq : copyText n fd image =
    if n ≤ fd.length then some (wrOut image (fd.take n)) else none := by
  fun_induction copyText n fd image with
  | case1 fd image => rw [if_pos (Nat.zero_le _), List.take_zero, wrOut_nil]
  | case2 n fd image hn count inbuf hshort =>
    have hle : count ≤ n := Nat.min_le_left ..
    rw [List.length_take] at hshort
    exact (if_neg (by omega)).symm
  | case3 n fd image hn count inbuf hfull ih =>
    have hle : count ≤ n := Nat.min_le_left ..
    rw [List.length_take] at hfull
    rw [ih, List.length_drop]
    by_cases hf : n ≤ fd.length
    · rw [if_pos (by omega), if_pos hf, wrOut_append, ← List.take_add, Nat.add_sub_cancel' hle]
    · rw [if_neg (by omega), if_neg hf]

/-- The bss is written as zeros. -/
theorem copyBss_eq : copyBss n image = wrOut image (List.replicate n 0) := by
  fun_induction copyBss n image with
  | case1 image => rw [List.replicate_zero, wrOut_nil]
  | case2 n image hn count ih =>
    have hle : count ≤ n := Nat.min_le_left ..
    rw [ih, wrOut_append, List.replicate_append_replicate, Nat.add_sub_cancel' hle]

/-- An executable with sizes below 64K, and all of its text and data behind the header. -/
structure Executable (f : List UInt8) : Prop where
  text : (header f).textBytes < 65536
  data : (header f).dataBytes < 65536
  bss : (header f).bssBytes < 65536
  whole : headerLen f + ((header f).textBytes + (header f).dataBytes) ≤ f.length

/-- What `copy2` writes of an executable. -/
def written (f : List UInt8) : List UInt8 :=
  (f.drop (headerLen f)).take (uword ((header f).textBytes + (header f).dataBytes)) ++
    List.replicate (sizesOf (header f)).bssSize 0

/-- The header of an executable file is read, and the rest follows it. -/
theorem readHeader_executable {r : Header × List UInt8} (hf : Executable f)
    (hr : readHeader f = some r) : r = (header f, f.drop (headerLen f)) := by
  unfold readHeader at hr
  split_ifs at hr
  cases hr
  simp only [Nat.mod_eq_of_lt hf.text, Nat.mod_eq_of_lt hf.data, Nat.mod_eq_of_lt hf.bss]

/-- As many bytes of text and data as the sum of their sizes says in 16 bits. -/
theorem copyText_executable (hf : Executable f) :
    copyText (uword ((header f).textBytes + (header f).dataBytes)) (f.drop (headerLen f)) image =
      some (wrOut image ((f.drop (headerLen f)).take
        (uword ((header f).textBytes + (header f).dataBytes)))) := by
  have hw := hf.whole
  have hle : uword ((header f).textBytes + (header f).dataBytes) ≤
      (header f).textBytes + (header f).dataBytes := Nat.mod_le ..
  rw [copyText_eq, if_pos]
  rw [List.length_drop]
  omega

/-- A program that is not refused is written behind what was there. -/
theorem copy2_eq (hf : Executable f) (hc : copy2 num f s = some s') :
    ((header f).sepid = true → (header f).textBytes % 16 = 0) ∧
      s'.image = wrOut s.image (written f) ∧
      s'.sizes = update s.sizes num (sizesOf (header f)) := by
  unfold copy2 at hc
  obtain ⟨r, hr, hc⟩ := Option.bind_eq_some_iff.mp hc
  rw [readHeader_executable hf hr] at hc
  dsimp only at hc
  by_cases hsep : (header f).sepid = true ∧ (header f).textBytes % 16 ≠ 0
  · rw [if_pos hsep] at hc
    cases hc
  rw [if_neg hsep, copyText_executable hf] at hc
  cases hc
  refine ⟨fun hs => not_not.mp fun h0 => hsep ⟨hs, h0⟩, ?_, rfl⟩
  · dsimp only
    rw [copyBss_eq, wrOut_append]
    rfl

/-- A program that is accepted. -/
theorem copy2_accepts (hf : Executable f) (hr : (readHeader f).isSome = true)
    (hs : (header f).sepid = true → (header f).textBytes % 16 = 0) : copy2 num f s = some
      { image := wrOut s.image (written f)
        cumSize := if num < FSCK then s.cumSize + totBytes (header f) else s.cumSize
        allSize := s.allSize + totBytes (header f)
        sizes := update s.sizes num (sizesOf (header f)) } := by
  obtain ⟨r, hr⟩ := Option.isSome_iff_exists.mp hr
  have hsep : ¬((header f).sepid = true ∧ (header f).textBytes % 16 ≠ 0) := fun h => h.2 (hs h.1)
  rw [copy2, hr, readHeader_executable hf hr]
  change (if (header f).sepid = true ∧ (header f).textBytes % 16 ≠ 0 then none else _) = _
  rw [if_neg hsep, copyText_executable hf]
  change some _ = some _
  rw [copyBss_eq, wrOut_append]
  rfl

/-- Where the program with a number starts in the image. -/
def position (files : Nat → List UInt8) (n : Nat) : Nat :=
  512 + ∑ j ∈ Finset.range n, (written (files j)).length

/-- A program follows the one before. -/
theorem position_succ :
    position files (n + 1) = position files n + (written (files n)).length := by
  rw [position, Finset.sum_range_succ, ← Nat.add_assoc, ← position]

/-- The image while the programs are copied: each one that was copied lies at its place. -/
structure Copied (files : Nat → List UInt8) (n : Nat) (s : State) : Prop where
  pos : s.image.pos = position files n
  bytes : ∀ i < n, ∀ k < (written (files i)).length,
    s.image.content (position files i + k) = (written (files i)).getD k 0
  sizes : ∀ i < n, s.sizes i = sizesOf (header (files i))
  aligned : ∀ i < n, (header (files i)).sepid = true → (header (files i)).textBytes % 16 = 0

/-- A program ends before those that come later. -/
theorem position_le {i : Nat} (hi : i < n) :
    position files i + (written (files i)).length ≤ position files n := by
  rw [← position_succ]
  exact Nat.add_le_add_left (Finset.sum_le_sum_of_subset (Finset.range_mono hi)) _

/-- The start: only the boot block is there. -/
theorem Copied.start (hc : copied boot files 0 = some s) : Copied files 0 s := by
  change copy1 boot createImage = some s at hc
  unfold copy1 at hc
  dsimp only at hc
  split_ifs at hc with hlen
  cases hc
  refine ⟨?_, nofun, nofun, nofun⟩
  rw [position, Finset.sum_range_zero]
  exact (Nat.zero_add _).trans (not_not.mp hlen)

/-- The step: one more program. -/
theorem Copied.step (hi : Copied files n s) (hf : Executable (files n))
    (hc : copy2 n (files n) s = some s') : Copied files (n + 1) s' := by
  obtain ⟨hsep, himage, hsizes⟩ := copy2_eq hf hc
  have hend : ∀ i < n, ∀ k < (written (files i)).length,
      position files i + k < s.image.pos := fun i hin k hk =>
    hi.pos ▸ (Nat.add_lt_add_left hk _).trans_le (position_le hin)
  refine ⟨?_, fun i hin k hk => ?_, fun i hin => ?_, fun i hin => ?_⟩
  · rw [himage, position_succ, ← hi.pos]
    rfl
  · rw [himage]
    rcases Nat.lt_succ_iff_lt_or_eq.mp hin with hin | rfl
    · rw [wrOut_before (hend i hin k hk), hi.bytes i hin k hk]
    · rw [← hi.pos, wrOut_at hk]
  · rw [hsizes]
    rcases Nat.lt_succ_iff_lt_or_eq.mp hin with hin | rfl
    · rw [update_of_ne hin.ne, hi.sizes i hin]
    · rw [update_self]
  · rcases Nat.lt_succ_iff_lt_or_eq.mp hin with hin | rfl
    · exact hi.aligned i hin
    · exact hsep

/-- The programs that have been copied follow each other. -/
theorem copied_spec (hf : ∀ i < n, Executable (files i)) (hc : copied boot files n = some s) :
    Copied files n s := by
  induction n generalizing s with
  | zero => exact .start hc
  | succ n ih =>
    obtain ⟨s₀, hc₀, hc⟩ := Option.bind_eq_some_iff.mp hc
    exact (ih (fun i hi => hf i (Nat.lt_succ_of_lt hi)) hc₀).step (hf n (Nat.lt_succ_self n)) hc

/-- The states before the last program. -/
theorem copied_before {i : Nat} (hc : copied boot files n = some s) (hi : i ≤ n) :
    ∃ s, copied boot files i = some s := by
  induction n generalizing s with
  | zero => exact ⟨s, (Nat.le_zero.mp hi) ▸ hc⟩
  | succ n ih =>
    rcases Nat.le_succ_iff.mp hi with hi | rfl
    · obtain ⟨s₀, hc₀, -⟩ := Option.bind_eq_some_iff.mp hc
      exact ih hc₀ hi
    · exact ⟨s, hc⟩

end Writing

/-! ## What is patched -/

section Patching

variable {c : Nat → UInt8} {off p v w n : Nat} {s s' : State}

/-- The blocks of the image have numbers of 16 bits. -/
abbrev Reached (off : Nat) : Prop := off < 65536 * 512

/-- One byte is changed. -/
theorem putByte_eq (h : Reached off) : putByte off v c = update c off (.ofNat v) := by
  have hb : uword (off / SECTOR_SIZE) = off / 512 := Nat.mod_eq_of_lt (Nat.div_lt_of_lt_mul h)
  funext p
  simp only [putByte, writeBlock, hb]
  by_cases hin : off / 512 * SECTOR_SIZE ≤ p ∧ p < off / 512 * SECTOR_SIZE + SECTOR_SIZE
  · rw [if_pos hin]
    change off / 512 * 512 ≤ p ∧ p < off / 512 * 512 + 512 at hin
    change update _ (off % 512) _ (p - off / 512 * 512) = _
    rcases eq_or_ne p off with rfl | hp
    · rw [show p - p / 512 * 512 = p % 512 by omega, update_self, update_self]
    · rw [update_of_ne (by omega), update_of_ne hp]
      rw [readBlock, hb]
      exact congrArg c (Nat.add_sub_cancel' hin.1)
  · rw [if_neg hin, update_of_ne]
    rintro rfl
    refine hin ?_
    change p / 512 * 512 ≤ p ∧ p < p / 512 * 512 + 512
    omega

/-- Two bytes are changed, the low one first. -/
theorem putWord_eq (h : Reached (off + 1)) : putWord off w c =
    update (update c off (.ofNat (w % 256))) (off + 1) (.ofNat (w / 256 % 256)) := by
  rw [putWord, putByte_eq h, putByte_eq (Nat.lt_of_succ_lt h)]

/-- The others stay. -/
theorem putWord_other (h : Reached (off + 1)) (h₀ : p ≠ off) (h₁ : p ≠ off + 1) :
    putWord off w c p = c p := by
  rw [putWord_eq h, update_of_ne h₁, update_of_ne h₀]

/-- A word that was written is read back. -/
theorem wordAt_putWord (h : Reached (off + 1)) (hw : w < 65536) :
    wordAt (putWord off w c) off = w := by
  rw [putWord_eq h, wordAt, update_self, update_of_ne (Nat.ne_of_lt (Nat.lt_succ_self _)),
    update_self, UInt8.toNat_ofNat', UInt8.toNat_ofNat']
  omega

/-- Other words stay. -/
theorem wordAt_putWord_other (h : Reached (off + 1)) (hp : p + 1 < off ∨ off + 1 < p) :
    wordAt (putWord off w c) p = wordAt c p := by
  rw [wordAt, wordAt, putWord_other h (by omega) (by omega),
    putWord_other h (by omega) (by omega)]

/-- The words of the buffer before this one stay. -/
theorem setWord_other {i k : Nat} {buf : Nat → UInt8} (hk : k < 2 * i) :
    setWord i w buf k = buf k := by
  rw [setWord, update_of_ne (by omega), update_of_ne (by omega)]

/-- Only the last ten bytes of the boot block are changed. -/
theorem patch1_keeps (h : patch1 s = some s') : s'.sizes = s.sizes ∧
    ∀ p, p < 502 ∨ 512 ≤ p → s'.image.content p = s.image.content p := by
  unfold patch1 at h
  by_cases hm : s.cumSize % 16 ≠ 0
  · rw [if_pos hm] at h
    cases h
  rw [if_neg hm] at h
  cases h
  refine ⟨rfl, fun p hp => ?_⟩
  dsimp only
  rw [writeBlock]
  by_cases hin : uword 0 * SECTOR_SIZE ≤ p ∧ p < uword 0 * SECTOR_SIZE + SECTOR_SIZE
  · rw [if_pos hin]
    change 0 * 512 ≤ p ∧ p < 0 * 512 + 512 at hin
    change setWord 255 _ (setWord 254 _ (setWord 253 _ (setWord 252 _ (setWord 251 _ _))))
      (p - 0 * 512) = _
    rw [setWord_other (by omega), setWord_other (by omega), setWord_other (by omega),
      setWord_other (by omega), setWord_other (by omega)]
    exact congrArg s.image.content (Nat.add_sub_cancel' hin.1)
  · rw [if_neg hin]

/-- Sizes in clicks are words. -/
theorem textClicks_lt (z : Sizes) : textClicks z < 65536 := by
  unfold textClicks
  split_ifs
  · exact Nat.mod_lt _ (by decide)
  · decide

/-- So are those of data. -/
theorem dataClicks_lt (z : Sizes) : dataClicks z < 65536 := by
  unfold dataClicks
  split_ifs <;> exact Nat.mod_lt _ (by decide)

/-- The table as the loop fills it, with what is around it left alone. -/
structure Filled (s : State) (n : Nat) (c c' : Nat → UInt8) : Prop where
  text : ∀ i < n, wordAt c' (dataOffset s + 4 * i) = textClicks (s.sizes i)
  data : ∀ i < n, wordAt c' (dataOffset s + 4 * i + 2) = dataClicks (s.sizes i)
  others : ∀ p, p < dataOffset s ∨ dataOffset s + 4 * n ≤ p → c' p = c p

/-- The sizes of one more program are written. -/
theorem Filled.step {c' : Nat → UInt8} (hf : Filled s n c c')
    (hoff : Reached (dataOffset s + 4 * n + 3)) : Filled s (n + 1) c (putSizes s c' n) := by
  have h₀ : Reached (dataOffset s + 4 * n + 1) := by omega
  have h₂ : Reached (dataOffset s + 4 * n + 2 + 1) := hoff
  have hold : ∀ i < n, ∀ q, q ≤ 2 → wordAt (putSizes s c' n) (dataOffset s + 4 * i + q) =
      wordAt c' (dataOffset s + 4 * i + q) := fun i hi q hq => by
    rw [putSizes, wordAt_putWord_other h₂ (by omega), wordAt_putWord_other h₀ (by omega)]
  refine ⟨fun i hi => ?_, fun i hi => ?_, fun p hp => ?_⟩
  · rcases Nat.lt_succ_iff_lt_or_eq.mp hi with hi | rfl
    · rw [← hf.text i hi]
      exact hold i hi 0 (by decide)
    · rw [putSizes, wordAt_putWord_other h₂ (by omega), wordAt_putWord h₀ (textClicks_lt _)]
  · rcases Nat.lt_succ_iff_lt_or_eq.mp hi with hi | rfl
    · rw [← hf.data i hi]
      exact hold i hi 2 (by decide)
    · rw [putSizes, wordAt_putWord h₂ (dataClicks_lt _)]
  · rw [putSizes, putWord_other h₂ (by omega) (by omega), putWord_other h₀ (by omega) (by omega),
      hf.others p (by omega)]

/-- The sizes of the first programs are written. -/
theorem filled (hoff : Reached (dataOffset s + 4 * n)) :
    Filled s n c ((List.range n).foldl (putSizes s) c) := by
  induction n with
  | zero => exact ⟨nofun, nofun, fun _ _ => rfl⟩
  | succ n ih =>
    rw [List.range_succ, List.foldl_append]
    exact (ih (by omega)).step (by omega)

/-- What the kernel finds, and what of the image is not changed for it. -/
structure KernelPatched (s s' : State) : Prop where
  sizes : s'.sizes = s.sizes
  text : 518 ≤ dataOffset s → ∀ i < 4,
    wordAt s'.image.content (dataOffset s + 4 * i) = textClicks (s.sizes i)
  data : 518 ≤ dataOffset s → ∀ i < 4,
    wordAt s'.image.content (dataOffset s + 4 * i + 2) = dataClicks (s.sizes i)
  others : ∀ p, p ≠ 516 → p ≠ 517 → (p < dataOffset s ∨ dataOffset s + 16 ≤ p) →
    s'.image.content p = s.image.content p

/-- The table of sizes is in the data space of the kernel. -/
theorem patch2_spec (h : patch2 s = some s') (hoff : Reached (dataOffset s + 16)) :
    KernelPatched s s' := by
  unfold patch2 at h
  split_ifs at h
  cases h
  have hf := filled (c := s.image.content) (n := 4) hoff
  have hds : Reached (516 + 1) := by decide
  refine ⟨rfl, fun hle i hi => ?_, fun hle i hi => ?_, fun p h₀ h₁ hp => ?_⟩
  · exact (wordAt_putWord_other hds (by omega)).trans (hf.text i hi)
  · exact (wordAt_putWord_other hds (by omega)).trans (hf.data i hi)
  · exact (putWord_other hds h₀ h₁).trans (hf.others p hp)

/-- What FS finds about INIT, and what of the image is not changed for it. -/
structure FsPatched (s s' : State) : Prop where
  sizes : s'.sizes = s.sizes
  org : wordAt s'.image.content (fsData s + 4) = uword (clicks (initOrg s))
  text : wordAt s'.image.content (fsData s + 6) = clicks (initSizes (s.sizes INIT)).1
  data : wordAt s'.image.content (fsData s + 8) = clicks (initSizes (s.sizes INIT)).2
  others : ∀ p, p < fsData s + 4 ∨ fsData s + 10 ≤ p → s'.image.content p = s.image.content p

/-- The sizes of init in clicks are words. -/
theorem initSizes_lt {z : Sizes} (hz : z.textSize < 65536) :
    clicks (initSizes z).1 < 65536 ∧ clicks (initSizes z).2 < 65536 := by
  have hlt : ∀ n, uword n < 65536 := fun n => Nat.mod_lt n (by decide)
  unfold initSizes
  split_ifs
  · exact ⟨(Nat.div_le_self ..).trans_lt hz, (Nat.div_le_self ..).trans_lt (hlt _)⟩
  · refine ⟨?_, (Nat.div_le_self ..).trans_lt (hlt _)⟩
    change 0 / 16 < 65536
    decide

/-- The sizes and the place of init are in the data space of the file system. -/
theorem patch3_spec (h : patch3 s = some s') (hoff : Reached (fsData s + 10))
    (hz : (s.sizes INIT).textSize < 65536) : FsPatched s s' := by
  obtain ⟨hw₁, hw₂⟩ := initSizes_lt hz
  have h₄ : Reached (fsData s + 4 + 1) := by omega
  have h₆ : Reached (fsData s + 6 + 1) := by omega
  have h₈ : Reached (fsData s + 8 + 1) := by omega
  unfold patch3 at h
  dsimp only at h
  split_ifs at h
  cases h
  refine ⟨rfl, ?_, ?_, ?_, fun p hp => ?_⟩
  · refine (wordAt_putWord_other h₈ (by omega)).trans ?_
    exact (wordAt_putWord_other h₆ (by omega)).trans
      (wordAt_putWord h₄ (Nat.mod_lt _ (by decide)))
  · exact (wordAt_putWord_other h₈ (by omega)).trans (wordAt_putWord h₆ hw₁)
  · exact wordAt_putWord h₈ hw₂
  · refine (putWord_other h₈ (by omega) (by omega)).trans ?_
    exact (putWord_other h₆ (by omega) (by omega)).trans
      (putWord_other h₄ (by omega) (by omega))

/-- The sizes of the programs are words. -/
structure Words (s : State) : Prop where
  text : ∀ i < PROGRAMS, (s.sizes i).textSize < 65536
  data : ∀ i < PROGRAMS, (s.sizes i).dataSize < 65536
  bss : ∀ i < PROGRAMS, (s.sizes i).bssSize < 65536

/-- What the patches make of the image that was copied. -/
structure Patched (s s' : State) : Prop where
  sizes : s'.sizes = s.sizes
  text : 518 ≤ dataOffset s → dataOffset s + 16 ≤ fsData s → ∀ i < 4,
    wordAt s'.image.content (dataOffset s + 4 * i) = textClicks (s.sizes i)
  data : 518 ≤ dataOffset s → dataOffset s + 16 ≤ fsData s → ∀ i < 4,
    wordAt s'.image.content (dataOffset s + 4 * i + 2) = dataClicks (s.sizes i)
  initOrg : wordAt s'.image.content (fsData s + 4) = uword (clicks (initOrg s))
  initText : wordAt s'.image.content (fsData s + 6) = clicks (initSizes (s.sizes INIT)).1
  initData : wordAt s'.image.content (fsData s + 8) = clicks (initSizes (s.sizes INIT)).2
  others : ∀ p, 512 ≤ p → p ≠ 516 → p ≠ 517 →
    (p < dataOffset s ∨ dataOffset s + 16 ≤ p) → (p < fsData s + 4 ∨ fsData s + 10 ≤ p) →
    s'.image.content p = s.image.content p

/-- The three patches together. -/
theorem build_patched {s₁ s₂ : State} (hs : Words s) (h₁ : patch1 s = some s₁)
    (h₂ : patch2 s₁ = some s₂) (h₃ : patch3 s₂ = some s') : Patched s s' := by
  obtain ⟨hsizes, hothers⟩ := patch1_keeps h₁
  have hd₁ : dataOffset s₁ = dataOffset s := by rw [dataOffset, hsizes, dataOffset]
  have hreach : Reached (dataOffset s₁ + 16) := by
    have := hs.text KERN (by decide)
    rw [hd₁, dataOffset]
    omega
  have hk := patch2_spec h₂ hreach
  have hz : s₂.sizes = s.sizes := hk.sizes.trans hsizes
  have hf₂ : fsData s₂ = fsData s := by rw [fsData, hz, fsData]
  have hreach₂ : Reached (fsData s₂ + 10) := by
    have hk := hs.text KERN (by decide)
    have hk' := hs.data KERN (by decide)
    have hk'' := hs.bss KERN (by decide)
    have hm := hs.text MM (by decide)
    have hm' := hs.data MM (by decide)
    have hm'' := hs.bss MM (by decide)
    have hfs := hs.text FS (by decide)
    rw [hf₂, fsData, Sizes.all, Sizes.all]
    omega
  have hf := patch3_spec h₃ hreach₂ (hz ▸ hs.text INIT (by decide))
  have hword : dataOffset s + 16 ≤ fsData s → ∀ k < 15,
      wordAt s'.image.content (dataOffset s + k) = wordAt s₂.image.content (dataOffset s + k) := by
    intro hle k hk
    rw [wordAt, wordAt, hf.others _ (by omega), hf.others _ (by omega)]
  refine ⟨hf.sizes.trans hz, fun hlo hle i hi => ?_, fun hlo hle i hi => ?_, ?_, ?_, ?_,
    fun p hp h₀ h₁ hd hfs => ?_⟩
  · rw [hword hle _ (by omega), ← hd₁, hk.text (hd₁ ▸ hlo) i hi, hsizes]
  · rw [Nat.add_assoc, hword hle _ (by omega), ← Nat.add_assoc, ← hd₁,
      hk.data (hd₁ ▸ hlo) i hi, hsizes]
  · rw [← hf₂, hf.org, Build.initOrg, hz, Build.initOrg]
  · rw [← hf₂, hf.text, hz]
  · rw [← hf₂, hf.data, hz]
  · rw [hf.others p (by omega), hk.others p h₀ h₁ (by omega), hothers p (by omega)]

end Patching

end Minix.Tools.Build
