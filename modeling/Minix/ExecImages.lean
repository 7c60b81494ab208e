import Minix.Execs
import Minix.MM.Sizing
import Minix.StackImages

/-!
# What EXEC leaves in memory

`new_mem` clears a buffer of the memory manager and copies it over the new core image, `patch_ptr`
works on the stack in another one, and `load_seg` has FS copy the file straight to the process. All
three are followed here byte by byte.
-/

namespace Minix.ExecImages

open Function Transition
open Kernel (ProcMap D T umap doNewmap)
open Alarms (slotOf)
open Maps (mapOf)
open Execs (System Buffers Loadable ExecFile memCopy toCaller zero zeroBytes zeroBase stackBase
  ZEROBUF_SIZE HDR_SIZE)
open StackImages (Stack MAX_ISTACK_BYTES patchPtr)

/-- disk block size -/
abbrev BLOCK_SIZE : Nat := 1024

/-- Bytes at an address. -/
def overlay (mem : Int → UInt8) (a : Int) (n : Nat) (x : Nat → UInt8) : Int → UInt8 := fun i =>
  if a ≤ i ∧ i < a + n then x (i - a).toNat else mem i

/-- Where the variables of the memory manager are. -/
def ownBase (s : System) : Int := (s.kernel.pMap (slotOf MM.MM_PROC_NR)).d.memPhys * 16

/-- Clear buffer. -/
def clearBuffer (buf : Buffers) (s : System) : System :=
  { s with mem := overlay s.mem (ownBase s + buf.u) ZEROBUF_SIZE fun _ => 0 }

/-- `new_mem`, with the buffer that is used for zeroing. -/
def newMem (buf : Buffers) (s : System) (who : MM.Proc) (im : MM.Image) :
    Option (Int × System) := do
  let (r, mm) ← MM.newMem s.mm who im
  if r ≠ MM.OK then some (r, s)
  else
    let (_, kernel) ← doNewmap s.kernel who.val (mapOf (mm.mproc who))
    let s := clearBuffer buf { s with mm := mm, kernel := kernel }
    let s ← zero buf.u (zeroBytes im).toNat s (zeroBase (mm.mproc who) im) (zeroBytes im)
    return (MM.OK, s)

/-- The buffer `mbuf`. -/
def mbufOf (buf : Buffers) (s : System) : Stack := fun i => s.mem (ownBase s + buf.mbuf + i)

/-- Another stack in `mbuf`. -/
def setMbuf (buf : Buffers) (s : System) (stack : Stack) : System :=
  { s with
    mem := overlay s.mem (ownBase s + buf.mbuf) MAX_ISTACK_BYTES fun i =>
      (Layout.byteAt stack i).getD 0 }

/-- Patch up the stack in `mbuf`, and copy it to the new core image. -/
def copyStack (buf : Buffers) (s : System) (who : MM.Proc) (im : MM.Image) :
    Option (Int × System) :=
  let vsp := stackBase (s.mm.mproc who)
  (patchPtr (mbufOf buf s) vsp).map fun stack =>
    memCopy (setMbuf buf s stack) (toCaller who buf.mbuf vsp im.stkBytes)

/-- How far the file has been read: memory, the position in the file, and the bytes yet to be
read. -/
structure Reading where
  mem : Int → UInt8
  position : Nat
  left : Nat

/-- The next chunk, which does not span two blocks of the file. The number of bytes is compared
without a sign. -/
def chunkAt (size position nbytes : Nat) : Nat :=
  min (min nbytes (BLOCK_SIZE - position % BLOCK_SIZE)) (size - position)

/-- `read_write` for the memory manager: chunks go to `buffer` in a segment of the process. Each has
at least one byte. -/
def readChunks (contents : List UInt8) (map : ProcMap) (seg : Int) :
    (fuel : Nat) → (buffer : Nat) → Reading → Reading
  | 0, _, rd => rd
  | fuel + 1, buffer, rd =>
    if rd.left = 0 then rd
    else if contents.length ≤ rd.position then rd
    else
      let chunk := chunkAt contents.length rd.position rd.left
      let pa := umap map seg buffer chunk
      if pa = 0 then rd -- `rw_user` fails
      else readChunks contents map seg fuel ((buffer + chunk) % 65536)
        { mem := overlay rd.mem pa chunk fun i => contents.getD (rd.position + i) 0
          position := rd.position + chunk
          left := rd.left - chunk }

/-- `load_seg`, which reads to the start of the segment. -/
def loadSeg (contents : List UInt8) (map : ProcMap) (seg : Int) (segBytes : Nat)
    (mem : Int → UInt8) (position : Nat) : Reading :=
  readChunks contents map seg segBytes 0 ⟨mem, position, segBytes⟩

/-- The position behind the header. -/
def textAt (file : ExecFile) : Nat :=
  match Execs.header file with
  | none => 0
  | some hdr => HDR_SIZE + Execs.skipped file hdr

/-- Read in text and data segments. With memory comes whether all of both has been read. -/
def loadImage (map : ProcMap) (l : Loadable) (mem : Int → UInt8) : Bool × (Int → UInt8) :=
  let text := loadSeg l.file.contents map T l.im.textBytes mem (textAt l.file)
  let data := loadSeg l.file.contents map D l.im.dataBytes text.mem text.position
  (text.left = 0 ∧ data.left = 0, data.mem)

/-- The part of EXEC that must go through. -/
def commit (buf : Buffers) (s : System) (who : MM.Proc) (l : Loadable) :
    Option (Bool × System) := do
  let (r, s) ← copyStack buf s who l.im
  if r ≠ MM.OK then none -- panic: "do_exec stack copy err"
  else
    let (read, mem) := loadImage (s.kernel.pMap (slotOf who)) l s.mem
    let s := { s with mem := mem }
    let s ← Execs.finish (s.close l.fd) who l.file l.im
    return (read, s)

/-- What is left to do once the stack has been fetched: a panic, an error, or a new core image. -/
def replaceImage (buf : Buffers) (who : MM.Proc) (l : Loadable) :
    Option (Except (Int × System) (Bool × System)) := do
  let (r, s) ← newMem buf l.s who l.im
  if r ≠ MM.OK then return .error (r, s.close l.fd) -- insufficient core or program too big
  else
    let r ← commit buf s who l
    return .ok r

/-! ## Zeroing -/

section Zeroing

variable {mem : Int → UInt8} {a i : Int} {n : Nat} {x : Nat → UInt8} {s : System} {zb : Nat}

/-- What is laid over memory is found there. -/
theorem overlay_in (h : a ≤ i ∧ i < a + n) : overlay mem a n x i = x (i - a).toNat := if_pos h

/-- The rest stays. -/
theorem overlay_out (h : i < a ∨ a + n ≤ i) : overlay mem a n x i = mem i := if_neg (by omega)

/-- A copy from a buffer of the memory manager to memory. -/
theorem memCopy_toMemory {base : Int} (h : Execs.InData (s.kernel.pMap (slotOf MM.MM_PROC_NR)) zb n)
    (hpos : 0 < n) (hn : n < 65536) (hbase : base ≠ 0) :
    memCopy s (Execs.toMemory zb base n) =
      (MM.OK, { s with mem := Execs.physCopy s.mem ⟨ownBase s + zb, base, n⟩ }) := by
  have hfits := h.fits
  have hlen := h.len
  have hphys := h.phys
  have hsrc : umap (s.kernel.pMap (slotOf MM.MM_PROC_NR)) D zb n = ownBase s + zb := h.umap_eq hpos
  have hgood : ¬(ownBase s + zb = 0 ∨ base = 0) := by
    unfold ownBase
    omega
  have hcopy : Kernel.doCopy s.kernel (Execs.toMemory zb base n) =
      some (MM.OK, [⟨ownBase s + zb, base, n⟩]) := by
    unfold Kernel.doCopy Execs.toMemory
    dsimp only
    rw [Execs.copyAddr_proc _ _ _ (by omega) hn, hsrc]
    change some (if _ ∨ _ then _ else _) = _
    rw [if_neg hgood]
  have hbytes : ¬(Execs.toMemory zb base n).copyBytes = 0 := by
    change ¬(n : Int) = 0
    omega
  unfold memCopy
  rw [if_neg hbytes, hcopy]
  rfl

/-- The loop comes to its end, and everything from `base` on is zero then. -/
theorem zero_spec (h : Execs.InData (s.kernel.pMap (slotOf MM.MM_PROC_NR)) zb ZEROBUF_SIZE)
    (hclear : ∀ i < ZEROBUF_SIZE, s.mem (ownBase s + zb + i) = 0) {fuel : Nat} {base bytes : Int}
    (hbase : ownBase s + zb + ZEROBUF_SIZE ≤ base) (hfuel : bytes ≤ fuel) :
    ∃ mem, zero zb fuel s base bytes = some { s with mem := mem } ∧
      ∀ i, mem i = if base ≤ i ∧ i < base + bytes then 0 else s.mem i := by
  have hphys := h.phys
  have hsize : ZEROBUF_SIZE = 1024 := rfl
  induction fuel generalizing s base bytes with
  | zero =>
    have hdone : ¬bytes > 0 := by omega
    exact ⟨s.mem, if_neg hdone, fun i => (if_neg (by omega)).symm⟩
  | succ fuel ih =>
    unfold zero
    split
    · rename_i hpos
      obtain ⟨n, hn⟩ := Int.eq_ofNat_of_zero_le (a := min bytes ZEROBUF_SIZE) (by omega)
      have hcount : n ≤ ZEROBUF_SIZE ∧ 0 < n := by omega
      have hdata : Execs.InData (s.kernel.pMap (slotOf MM.MM_PROC_NR)) zb n :=
        ⟨h.phys, h.vir, h.len, by have := h.fits; omega⟩
      have hne : base ≠ 0 := by
        unfold ownBase at hbase
        omega
      dsimp only
      rw [hn, memCopy_toMemory hdata hcount.2 (by omega) hne]
      dsimp only
      rw [if_neg (not_not.mpr rfl)]
      -- the buffer is not written to, and what it is copied to is zero
      have hkeep : ∀ i < ZEROBUF_SIZE,
          Execs.physCopy s.mem ⟨ownBase s + zb, base, n⟩ (ownBase s + zb + i) = 0 := by
        intro i hi
        refine Eq.trans (if_neg fun hin => ?_) (hclear i hi)
        have hlow := hin.1
        dsimp only at hlow
        omega
      obtain ⟨mem, hrun, hmem⟩ : ∃ mem,
          zero zb fuel { s with mem := Execs.physCopy s.mem ⟨ownBase s + zb, base, n⟩ } (base + n)
            (bytes - n) = some { s with mem := mem } ∧
          ∀ i, mem i = if base + n ≤ i ∧ i < base + n + (bytes - n) then 0
            else Execs.physCopy s.mem ⟨ownBase s + zb, base, n⟩ i :=
        ih (s := { s with mem := Execs.physCopy s.mem ⟨ownBase s + zb, base, n⟩ }) h hkeep
          (by change ownBase s + _ + _ ≤ _; omega) (by omega) hphys
      refine ⟨mem, hrun, fun i => ?_⟩
      rw [hmem]
      by_cases hin : base ≤ i ∧ i < base + bytes
      · rw [if_pos hin]
        split
        · rfl
        · have hchunk : base ≤ i ∧ i < base + n := by omega
          obtain ⟨j, hj⟩ := Int.eq_ofNat_of_zero_le (a := i - base) (by omega)
          refine (if_pos hchunk).trans ?_
          dsimp only
          rw [hj, add_comm]
          exact hclear j (by omega)
      · rw [if_neg hin, if_neg (by omega)]
        exact if_neg (by dsimp only; omega)
    · exact ⟨s.mem, rfl, fun i => (if_neg (by omega)).symm⟩

end Zeroing

/-! ## The new map -/

section NewMap

variable {im : MM.Image} {base : Nat} {m : MM.Mproc} {buf : Buffers} {s : System} {who : MM.Proc}
  {total : Nat} {b : MM.Boot}

/-- Where the stack segment starts. -/
def stackClick (im : MM.Image) : Nat := im.dataClicks + im.gapClicks

/-- The address of text, and of data behind it. -/
def dataAddr (im : MM.Image) (base : Nat) : Int := ((base + im.textClicks) * 16 : Nat)

/-- The map that `new_mem` reports. -/
def newMap (im : MM.Image) (base : Nat) : ProcMap :=
  ⟨⟨0, base, im.textClicks⟩, ⟨0, base + im.textClicks, im.dataClicks⟩,
    ⟨stackClick im, base + im.textClicks + stackClick im, im.stackClicks⟩⟩

/-- The segments of the new image. -/
theorem mapOf_mapped (hgap : im.gapClicks < 32768) (hend : base + im.clicks < 65536) :
    mapOf (im.mapped base m) = newMap im base := by
  have htot := MM.Image.totClicks_eq hgap
  have hclicks := MM.Image.clicks_eq hgap
  have hd : im.dataClicks ≤ 4095 := MM.virClicks_le _
  have hvir : MM.addClicks (MM.addClicks 0 im.dataClicks) im.gapClicks = stackClick im := by
    unfold MM.addClicks stackClick
    omega
  have hdphys : MM.addClicks base im.textClicks = base + im.textClicks :=
    MM.addClicks_eq (by omega)
  have hsphys : MM.addClicks (MM.addClicks (MM.addClicks base im.textClicks) im.dataClicks)
      im.gapClicks = base + im.textClicks + stackClick im := by
    unfold MM.addClicks stackClick
    omega
  unfold newMap
  rw [← hsphys, ← hvir, ← hdphys]
  rfl

/-- Its stack base, cut to 16 bits. -/
theorem stackBase_mapped (hgap : im.gapClicks < 32768) :
    stackBase (im.mapped base m) = stackClick im * 16 % 65536 := by
  have hd : im.dataClicks ≤ 4095 := MM.virClicks_le _
  have hvir : MM.addClicks (MM.addClicks 0 im.dataClicks) im.gapClicks = stackClick im := by
    unfold MM.addClicks stackClick
    omega
  rw [← hvir]
  rfl

/-- What is zeroed: everything from the last click of data that is not full. -/
theorem zeroBytes_eq (hgap : im.gapClicks < 32768) (hend : base + im.clicks < 65536) :
    zeroBytes im = im.totClicks * 16 - Execs.bssOffset im ∧
      zeroBase (im.mapped base m) im = dataAddr im base + Execs.bssOffset im := by
  have htot := MM.Image.totClicks_eq hgap
  have hclicks := MM.Image.clicks_eq hgap
  have hsum : MM.addClicks (MM.addClicks im.dataClicks im.gapClicks) im.stackClicks =
      im.totClicks := by
    unfold MM.addClicks
    omega
  refine ⟨?_, ?_⟩
  · unfold zeroBytes
    rw [hsum]
  · have hphys : (im.mapped base m).segT.memPhys = base := rfl
    have hlen : (im.mapped base m).segT.memLen = im.textClicks := rfl
    unfold zeroBase dataAddr
    rw [hphys, hlen]
    omega

/-- The two buffers are different. -/
def Apart (buf : Buffers) : Prop :=
  buf.u + ZEROBUF_SIZE ≤ buf.mbuf ∨ buf.mbuf + MAX_ISTACK_BYTES ≤ buf.u

/-- What `new_mem` leaves. -/
structure Allocated (buf : Buffers) (s : System) (who : MM.Proc) (im : MM.Image) (b : MM.Boot)
    (base : Nat) (s' : System) : Prop where
  granted : MM.newMem s.mm who im = some (MM.OK, s'.mm)
  mapped : s'.mm.mproc who = im.mapped base (s.mm.mproc who)
  maps : s'.kernel.pMap = update s.kernel.pMap (slotOf who) (mapOf (s'.mm.mproc who))
  own : ownBase s' = ownBase s
  gap : im.gapClicks < 32768
  fits : base + im.clicks < 65536
  above : b.initOrg ≤ base
  zeroed : ∀ i, dataAddr im base + Execs.bssOffset im ≤ i →
    i < dataAddr im base + im.totClicks * 16 → s'.mem i = 0
  kept : ∀ i, i < dataAddr im base + Execs.bssOffset im ∨ dataAddr im base + im.totClicks * 16 ≤ i →
    s'.mem i = overlay s.mem (ownBase s + buf.u) ZEROBUF_SIZE (fun _ => 0) i

/-- The call of the memory manager that such a file leads to. -/
theorem execImage_of_readFile {file : ExecFile} {n : Nat} (him : Execs.readFile file n = .ok im)
    (hn : n ≤ MAX_ISTACK_BYTES) : ∃ a, MM.execImage a = .ok im := by
  unfold Execs.readFile at him
  cases hh : Execs.header file with
  | none =>
    rw [hh] at him
    cases him
  | some hdr =>
    rw [hh] at him
    replace him : MM.readHeader hdr n = .ok im := him
    refine ⟨⟨n, 1, MM.OK, 0, some hdr, MM.OK, 0, 0, 0⟩, ?_⟩
    unfold MM.execImage
    dsimp only
    rw [if_neg (Nat.not_lt.mpr hn), if_neg (by decide), if_neg (by decide), if_neg (by decide), him]
    rfl

/-- `new_mem` goes through once it has seen a hole that is big enough. -/
theorem newMem_allocated (h : Execs.Prepared total b buf s who) (hb : b.WellFormed)
    (hlt : total < 65536) (hl : (s.mm.mproc who).live = true) (hfits : MM.Fits b s.mm who)
    {a : MM.ExecCall} (ha : MM.execImage a = .ok im) (hr : MM.roomFor s.mm.table im = some MM.OK) :
    ∃ base s', newMem buf s who im = some (MM.OK, s') ∧ Allocated buf s who im b base s' ∧
      s'.fp = s.fp := by
  have hgap := (MM.roomFor_ok hr).1
  have hpos := (MM.execImage_ok ha).2
  have hsize : ZEROBUF_SIZE = 1024 := rfl
  obtain ⟨base, mm, hm, -, hend, hproc⟩ :=
    h.orderly.newMem_through hb hlt h.above h.inUse hpos hr hfits
  have hself : mm.mproc who = im.mapped base (s.mm.mproc who) := by
    rw [hproc, update_self]
  have habove : b.initOrg ≤ base := by
    have hafter : MM.Orderly total b (mm.modify who (MM.execDone a im.ft)) :=
      h.orderly.effects (A := False) (B := False) (W := fun _ => True) hb hlt
        (.single (.exec h.above hl ha hfits hm))
    have hdone : (mm.modify who (MM.execDone a im.ft)).mproc who =
        MM.execDone a im.ft (im.mapped base (s.mm.mproc who)) := by
      rw [← hself]
      exact update_self ..
    have hbase := hafter.partition.region_above hb h.above (by rw [hdone]; exact h.inUse)
    rw [hdone] at hbase
    exact hbase
  obtain ⟨kernel, hk, hmap⟩ := Execs.doNewmap_through s.kernel who (mm.mproc who)
  have hother : kernel.pMap (slotOf MM.MM_PROC_NR) = s.kernel.pMap (slotOf MM.MM_PROC_NR) := by
    rw [hmap, update_of_ne h.slot_ne]
  have hown : ∀ mem, ownBase ⟨mm, kernel, s.fp, mem⟩ = ownBase s := fun mem => by
    unfold ownBase
    rw [hother]
  have hfit : base + im.clicks < 65536 := by omega
  obtain ⟨hbytes, hbase⟩ := zeroBytes_eq (m := s.mm.mproc who) hgap hfit
  have hbelow := h.below
  have hu := h.u.fits
  have hcleared : (clearBuffer buf ⟨mm, kernel, s.fp, s.mem⟩).mem =
      overlay s.mem (ownBase s + buf.u) ZEROBUF_SIZE fun _ => 0 := by
    unfold clearBuffer
    rw [hown]
  have hclear : ∀ i < ZEROBUF_SIZE, (clearBuffer buf ⟨mm, kernel, s.fp, s.mem⟩).mem
      (ownBase ⟨mm, kernel, s.fp, s.mem⟩ + buf.u + i) = 0 := by
    intro i hi
    rw [hcleared, hown]
    exact overlay_in (by omega)
  have hstart : ownBase ⟨mm, kernel, s.fp, s.mem⟩ + buf.u + ZEROBUF_SIZE ≤
      zeroBase (mm.mproc who) im := by
    rw [hown, hself, hbase]
    unfold ownBase dataAddr
    omega
  have hdata : Execs.InData (kernel.pMap (slotOf MM.MM_PROC_NR)) buf.u ZEROBUF_SIZE :=
    hother.symm ▸ h.u
  obtain ⟨mem, hrun, hmem⟩ := zero_spec (s := clearBuffer buf ⟨mm, kernel, s.fp, s.mem⟩) hdata
    hclear hstart (Int.self_le_toNat (zeroBytes im))
  refine ⟨base, ⟨mm, kernel, s.fp, mem⟩, ?_,
    ⟨hm, hself, hmap, hown mem, hgap, hfit, habove, ?_, ?_⟩, rfl⟩
  · unfold newMem
    rw [hm]
    change (doNewmap s.kernel who.val (mapOf (mm.mproc who)) >>= _) = _
    rw [hk]
    change (zero buf.u (zeroBytes im).toNat (clearBuffer buf ⟨mm, kernel, s.fp, s.mem⟩)
      (zeroBase (mm.mproc who) im) (zeroBytes im) >>= _) = _
    rw [hrun]
    rfl
  · intro i hlo hhi
    change mem i = 0
    rw [hmem, if_pos]
    rw [hself, hbase, hbytes]
    omega
  · intro i hi
    change mem i = _
    rw [hmem, if_neg]
    · rw [hcleared]
    · rw [hself, hbase, hbytes]
      omega

end NewMap

/-! ## Reading the file -/

section Reading

variable {contents contents' : List UInt8} {map : ProcMap} {seg : Int} {fuel buffer N : Nat}
  {r r' : Reading}

/-- A chunk is at least one byte, and at most what is left in the file and to be read. -/
theorem chunkAt_bounds {size position nbytes : Nat} (hn : nbytes ≠ 0) (hp : ¬size ≤ position) :
    0 < chunkAt size position nbytes ∧ chunkAt size position nbytes ≤ nbytes := by
  have hoff : position % BLOCK_SIZE < BLOCK_SIZE := Nat.mod_lt _ (by decide)
  unfold chunkAt
  omega

/-- How far one gets depends on the length of the file alone. -/
theorem readChunks_alike (hlen : contents'.length = contents.length)
    (hposition : r'.position = r.position) (hleft : r'.left = r.left) :
    (readChunks contents' map seg fuel buffer r').position =
        (readChunks contents map seg fuel buffer r).position ∧
      (readChunks contents' map seg fuel buffer r').left =
        (readChunks contents map seg fuel buffer r).left := by
  induction fuel generalizing buffer r r' with
  | zero => exact ⟨hposition, hleft⟩
  | succ fuel ih =>
    unfold readChunks
    rw [hlen, hposition, hleft]
    split
    · exact ⟨hposition, hleft⟩
    · split
      · exact ⟨hposition, hleft⟩
      · dsimp only
        split
        · exact ⟨hposition, hleft⟩
        · exact ih rfl rfl

/-- A byte where no chunk goes is left alone. -/
theorem readChunks_spares {i : Int} (hN : N < 65536) (h : ∀ v n, 0 < n → v + n ≤ N →
    umap map seg v n ≠ 0 → i < umap map seg v n ∨ umap map seg v n + n ≤ i)
    (hb : buffer + r.left ≤ N) : (readChunks contents map seg fuel buffer r).mem i = r.mem i := by
  induction fuel generalizing buffer r with
  | zero => rfl
  | succ fuel ih =>
    unfold readChunks
    split
    · rfl
    · split
      · rfl
      · rename_i hleft hsize
        obtain ⟨hpos, hle⟩ := chunkAt_bounds hleft hsize
        dsimp only
        generalize chunkAt contents.length r.position r.left = chunk at hpos hle
        split
        · rfl
        · rename_i hpa
          rw [Nat.mod_eq_of_lt (by omega), ih (by dsimp only; omega)]
          dsimp only
          exact overlay_out (h buffer chunk hpos (by omega) hpa)

/-- Chunks that go to their places make up what is read. -/
theorem readChunks_spec {A : Int} (hN : N < 65536) (h : ∀ v n, 0 < n → v + n ≤ N →
    umap map seg v n ≠ 0 → umap map seg v n = A + v) (hb : buffer + r.left = N)
    (hfuel : r.left ≤ fuel) (hdone : (readChunks contents map seg fuel buffer r).left = 0) :
    (readChunks contents map seg fuel buffer r).position = r.position + r.left ∧
      ∀ i, (readChunks contents map seg fuel buffer r).mem i =
        if A + buffer ≤ i ∧ i < A + N then
          contents.getD (r.position + (i - A - buffer).toNat) 0
        else r.mem i := by
  induction fuel generalizing buffer r with
  | zero =>
    have hleft : r.left = 0 := Nat.le_zero.mp hfuel
    exact ⟨by rw [hleft]; rfl, fun i => (if_neg (by omega)).symm⟩
  | succ fuel ih =>
    unfold readChunks at hdone ⊢
    split
    · rename_i hleft
      exact ⟨by rw [hleft]; rfl, fun i => (if_neg (by omega)).symm⟩
    · rename_i hleft
      rw [if_neg hleft] at hdone
      split
      · rename_i hsize
        rw [if_pos hsize] at hdone
        exact absurd hdone hleft
      · rename_i hsize
        rw [if_neg hsize] at hdone
        obtain ⟨hpos, hle⟩ := chunkAt_bounds hleft hsize
        dsimp only at hdone ⊢
        generalize chunkAt contents.length r.position r.left = chunk at hpos hle hdone ⊢
        split
        · rename_i hpa
          rw [if_pos hpa] at hdone
          exact absurd hdone hleft
        · rename_i hpa
          have haddr := h buffer chunk hpos (by omega) hpa
          rw [if_neg hpa] at hdone
          rcases Nat.lt_or_ge (buffer + chunk) 65536 with hlt | hge
          · rw [Nat.mod_eq_of_lt hlt] at hdone ⊢
            obtain ⟨hposition, hmem⟩ := ih (by dsimp only; omega) (by dsimp only; omega) hdone
            refine ⟨by rw [hposition]; dsimp only; omega, fun i => ?_⟩
            rw [hmem]
            dsimp only
            rw [haddr]
            by_cases hin : A + buffer ≤ i ∧ i < A + N
            · rw [if_pos hin]
              by_cases hchunk : i < A + buffer + chunk
              · rw [if_neg (by omega), overlay_in ⟨hin.1, hchunk⟩]
                congr 2
                omega
              · rw [if_pos (by omega)]
                congr 1
                omega
            · rw [if_neg hin, if_neg (by omega)]
              exact overlay_out (by omega)
          · omega

/-- A segment whose chunks go to their places. -/
theorem loadSeg_spec {A : Int} {mem : Int → UInt8} {position : Nat} (hN : N < 65536)
    (h : ∀ v n, 0 < n → v + n ≤ N → umap map seg v n ≠ 0 → umap map seg v n = A + v)
    (hdone : (loadSeg contents map seg N mem position).left = 0) :
    (loadSeg contents map seg N mem position).position = position + N ∧
      ∀ i, (loadSeg contents map seg N mem position).mem i =
        if A ≤ i ∧ i < A + N then contents.getD (position + (i - A).toNat) 0 else mem i := by
  unfold loadSeg at hdone ⊢
  obtain ⟨hposition, hmem⟩ := readChunks_spec (r := ⟨mem, position, N⟩) hN h (Nat.zero_add _)
    le_rfl hdone
  exact ⟨hposition, fun i => by simpa using hmem i⟩

/-- What is read completely is in the file. -/
theorem readChunks_end (hfuel : r.left ≤ fuel) (hr : r.position ≤ contents.length)
    (hdone : (readChunks contents map seg fuel buffer r).left = 0) :
    r.position + r.left ≤ contents.length := by
  induction fuel generalizing buffer r with
  | zero => omega
  | succ fuel ih =>
    unfold readChunks at hdone
    split at hdone
    · omega
    · rename_i hleft
      split at hdone
      · exact absurd hdone hleft
      · rename_i hsize
        obtain ⟨hpos, hle⟩ := chunkAt_bounds hleft hsize
        have hin : chunkAt contents.length r.position r.left ≤ contents.length - r.position :=
          min_le_right _ _
        dsimp only at hdone
        split at hdone
        · exact absurd hdone hleft
        · have hrest := ih (by dsimp only; omega) (by dsimp only; omega) hdone
          dsimp only at hrest
          omega

/-- When everything has been read, the file has been long enough. -/
theorem loadSeg_end {mem : Int → UInt8} {position : Nat} (hp : position ≤ contents.length)
    (hdone : (loadSeg contents map seg N mem position).left = 0) :
    position + N ≤ contents.length :=
  readChunks_end (r := ⟨mem, position, N⟩) le_rfl hp hdone

/-- What is in memory and in the file has nothing to do with how much is read. -/
theorem loadSeg_alike (hlen : contents'.length = contents.length) (map : ProcMap) (seg : Int)
    (n position : Nat) (mem mem' : Int → UInt8) :
    (loadSeg contents' map seg n mem' position).position =
        (loadSeg contents map seg n mem position).position ∧
      (loadSeg contents' map seg n mem' position).left =
        (loadSeg contents map seg n mem position).left :=
  readChunks_alike hlen rfl rfl

/-- Whether both segments are read completely does not depend on what is read. -/
theorem loadImage_alike (l l' : Loadable) (him : l'.im = l.im)
    (hlen : l'.file.contents.length = l.file.contents.length)
    (hat : textAt l'.file = textAt l.file) (map : ProcMap) (mem mem' : Int → UInt8) :
    (loadImage map l' mem').1 = (loadImage map l mem).1 := by
  obtain ⟨hposition, htext⟩ := loadSeg_alike hlen map T l.im.textBytes (textAt l.file) mem mem'
  have hdata := fun position mem mem' =>
    (loadSeg_alike hlen map D l.im.dataBytes position mem mem').2
  unfold loadImage
  rw [him, hat]
  dsimp only
  rw [htext, hposition, hdata]

/-- The first chunk is not refused when everything is read. -/
theorem readChunks_first (hleft : r.left ≠ 0)
    (hdone : (readChunks contents map seg (fuel + 1) buffer r).left = 0) :
    ∃ n, 0 < n ∧ umap map seg buffer n ≠ 0 := by
  unfold readChunks at hdone
  rw [if_neg hleft] at hdone
  split at hdone
  · exact absurd hdone hleft
  · rename_i hsize
    refine ⟨_, (chunkAt_bounds hleft hsize).1, fun hpa => ?_⟩
    dsimp only at hdone
    rw [if_pos hpa] at hdone
    exact hleft hdone

end Reading

/-! ## The segments of the new core image -/

section Segments

variable {im : MM.Image} {base v n : Nat} {contents : List UInt8}

/-- Text is read to where it belongs. -/
theorem umap_text (hn : 0 < n) (h : umap (newMap im base) T v n ≠ 0) :
    umap (newMap im base) T v n = (base * 16 : Int) + v ∧ v / 16 < im.textClicks := by
  have htl : im.textClicks ≤ 4095 := MM.virClicks_le _
  have hseg : Kernel.chosenSeg (newMap im base) T (Kernel.lastClick v n) =
      ⟨0, base, im.textClicks⟩ := if_pos rfl
  rw [Kernel.umap_eq hn, hseg] at h ⊢
  unfold Kernel.segAddr at h ⊢
  dsimp only at h ⊢
  split at h
  · exact absurd rfl h
  · rename_i hlt
    rw [if_neg hlt]
    omega

/-- In data, gap and stack it depends on the last click of a range where it goes: to its place, or
where it would be if the stack started at its address in 16 bits. -/
theorem umap_data (hn : 0 < n)
    (h : umap (newMap im base) D v n ≠ 0) :
    umap (newMap im base) D v n = dataAddr im base + v +
        (if Kernel.lastClick v n < im.dataClicks then 0
          else (stackClick im * 16 - stackClick im * 16 % 65536 : Nat)) := by
  have hd : im.dataClicks ≤ 4095 := MM.virClicks_le _
  have hdata : (0 + im.dataClicks) % 65536 = im.dataClicks := by omega
  have hseg : Kernel.chosenSeg (newMap im base) D (Kernel.lastClick v n) =
      if Kernel.lastClick v n < im.dataClicks then ⟨0, base + im.textClicks, im.dataClicks⟩
      else ⟨stackClick im, base + im.textClicks + stackClick im, im.stackClicks⟩ := by
    unfold Kernel.chosenSeg newMap
    rw [if_neg (by decide)]
    dsimp only
    rw [hdata]
  rw [Kernel.umap_eq hn, hseg] at h ⊢
  unfold dataAddr
  split
  · rename_i hin
    rw [if_pos hin] at h
    unfold Kernel.segAddr at h ⊢
    dsimp only at h ⊢
    split at h
    · exact absurd rfl h
    · rename_i hlt
      rw [if_neg hlt]
      omega
  · rename_i hin
    rw [if_neg hin] at h
    unfold Kernel.segAddr at h ⊢
    dsimp only at h ⊢
    split at h
    · exact absurd rfl h
    · rename_i hlt
      rw [if_neg hlt]
      omega

/-- Text that is read completely ends before data. -/
theorem text_fits {mem : Int → UInt8} {position : Nat} (hlt : im.textBytes < 65536)
    (hdone : (loadSeg contents (newMap im base) T im.textBytes mem position).left = 0) :
    im.textBytes ≤ im.textClicks * 16 := by
  rcases Nat.eq_zero_or_pos im.textBytes with hz | hpos
  · omega
  · obtain ⟨k, hk⟩ : ∃ k, im.textBytes = k + 1 := ⟨im.textBytes - 1, by omega⟩
    unfold loadSeg at hdone
    rw [hk] at hdone
    obtain ⟨n, hn, hpa⟩ := readChunks_first (by dsimp only; omega) hdone
    have hclick := (umap_text hn hpa).2
    have hdef : im.textClicks = (im.textBytes + 15) % 65536 / 16 := rfl
    omega

end Segments

/-! ## The stack and the file -/

section Commit

variable {im : MM.Image} {base : Nat} {buf : Buffers} {s s' : System} {who : MM.Proc}
  {stack : Stack} {l : Loadable} {mem : Int → UInt8} {r : Int}

/-- The address that the kernel finds for the stack. -/
def stackAddr (im : MM.Image) (base : Nat) : Int :=
  umap (newMap im base) D (stackClick im * 16 % 65536) im.stkBytes

/-- Where the memory manager ends that copies the stack. -/
structure Ready (im : MM.Image) (base : Nat) (buf : Buffers) (who : MM.Proc) (s : System) :
    Prop where
  map : s.kernel.pMap (slotOf who) = newMap im base
  vsp : stackBase (s.mm.mproc who) = stackClick im * 16 % 65536
  mbuf : Execs.InData (s.kernel.pMap (slotOf MM.MM_PROC_NR)) buf.mbuf MAX_ISTACK_BYTES
  below : ownBase s + buf.mbuf + MAX_ISTACK_BYTES ≤ dataAddr im base
  gap : im.gapClicks < 32768
  stk : im.stkBytes ≤ MAX_ISTACK_BYTES
  bytes : im.textBytes < 65536 ∧ im.dataBytes < 65536

/-- A copy from a buffer of the memory manager to a process. -/
theorem memCopy_toCaller {zb n v : Nat}
    (h : Execs.InData (s.kernel.pMap (slotOf MM.MM_PROC_NR)) zb n) (hpos : 0 < n)
    (hn : n < 65536) (hv : v < 65536) : memCopy s (toCaller who zb v n) =
      if umap (s.kernel.pMap (slotOf who)) D v n = 0 then (Kernel.EFAULT, s)
      else (MM.OK, { s with mem := Execs.physCopy s.mem ⟨ownBase s + zb,
        umap (s.kernel.pMap (slotOf who)) D v n, n⟩ }) := by
  have hfits := h.fits
  have hlen := h.len
  have hphys := h.phys
  have hsrc : umap (s.kernel.pMap (slotOf MM.MM_PROC_NR)) D zb n = ownBase s + zb := h.umap_eq hpos
  have hne : ¬ownBase s + (zb : Int) = 0 := by
    unfold ownBase
    omega
  have he : toCaller who zb v n = ⟨D, MM.MM_PROC_NR.val, zb, D, who.val, (v : Nat), n⟩ := rfl
  rw [he, Execs.memCopy_procs s _ _ (by omega) hv hn hpos, hsrc]
  by_cases hz : umap (s.kernel.pMap (slotOf who)) D v n = 0
  · rw [if_pos hz, if_pos (Or.inr hz)]
  · rw [if_neg hz, if_neg (not_or.mpr ⟨hne, hz⟩)]

/-- The buffer of the memory manager is filled, the rest stays. -/
theorem setMbuf_above {i : Int} (h : ownBase s + buf.mbuf + MAX_ISTACK_BYTES ≤ i) :
    (setMbuf buf s stack).mem i = s.mem i := by
  unfold setMbuf
  dsimp only
  exact overlay_out (Or.inr h)

/-- The buffer holds the stack. -/
theorem setMbuf_at {j : Nat} (h : j < MAX_ISTACK_BYTES) :
    (setMbuf buf s stack).mem (j + (ownBase s + buf.mbuf)) = (Layout.byteAt stack j).getD 0 := by
  unfold setMbuf
  dsimp only
  rw [overlay_in (by omega)]
  congr 2
  omega

/-- The copy of the stack is refused, or the stack is where the kernel finds its address. -/
theorem Ready.copyStack (h : Ready im base buf who s)
    (hp : patchPtr (mbufOf buf s) (stackClick im * 16 % 65536) = some stack) :
    ∃ r mem, copyStack buf s who im = some (r, { s with mem := mem }) ∧
      (r = MM.OK ↔ im.stkBytes = 0 ∨ stackAddr im base ≠ 0) ∧
      (r = MM.OK → ∀ i, dataAddr im base ≤ i → mem i =
        if im.stkBytes ≠ 0 ∧ stackAddr im base ≤ i ∧ i < stackAddr im base + im.stkBytes then
          (Layout.byteAt stack (i - stackAddr im base).toNat).getD 0
        else s.mem i) := by
  have hsize : MAX_ISTACK_BYTES = 1024 := rfl
  have hstk := h.stk
  have hbelow := h.below
  unfold ExecImages.copyStack
  rw [h.vsp]
  dsimp only
  rw [hp]
  dsimp only [Option.map_some]
  rcases Nat.eq_zero_or_pos im.stkBytes with hz | hpos
  · refine ⟨MM.OK, (setMbuf buf s stack).mem, ?_, iff_of_true rfl (Or.inl hz), fun _ i hi => ?_⟩
    · rw [hz]
      rfl
    · rw [if_neg fun hne => hne.1 hz]
      exact setMbuf_above (by omega)
  · have hfits := h.mbuf.fits
    have hdata : Execs.InData ((setMbuf buf s stack).kernel.pMap (slotOf MM.MM_PROC_NR)) buf.mbuf
        im.stkBytes := ⟨h.mbuf.phys, h.mbuf.vir, h.mbuf.len, le_trans (by omega) hfits⟩
    have haddr : umap ((setMbuf buf s stack).kernel.pMap (slotOf who)) D
        (stackClick im * 16 % 65536) im.stkBytes = stackAddr im base := by
      change umap (s.kernel.pMap (slotOf who)) D _ _ = _
      rw [h.map]
      rfl
    rw [memCopy_toCaller hdata hpos (by omega) (Nat.mod_lt _ (by decide)), haddr]
    by_cases hbad : stackAddr im base = 0
    · rw [if_pos hbad]
      refine ⟨_, (setMbuf buf s stack).mem, rfl, iff_of_false (by decide) (by omega), fun hok => ?_⟩
      exact absurd hok (by decide)
    · rw [if_neg hbad]
      refine ⟨_, _, rfl, iff_of_true rfl (Or.inr hbad), fun _ i hi => ?_⟩
      have hown : ownBase (setMbuf buf s stack) = ownBase s := rfl
      rw [hown]
      unfold Execs.physCopy
      dsimp only
      by_cases hin : stackAddr im base ≤ i ∧ i < stackAddr im base + im.stkBytes
      · obtain ⟨j, hj⟩ := Int.eq_ofNat_of_zero_le (a := i - stackAddr im base) (by omega)
        rw [if_pos hin, if_pos ⟨hpos.ne', hin⟩, hj]
        exact setMbuf_at (by omega)
      · rw [if_neg hin, if_neg fun h => hin h.2]
        exact setMbuf_above (by omega)

/-- The text is loaded below the data. -/
theorem Ready.text_below (h : Ready im base buf who s) {contents : List UInt8} {position : Nat}
    (hdone : (loadSeg contents (newMap im base) T im.textBytes mem position).left = 0) :
    (loadSeg contents (newMap im base) T im.textBytes mem position).position =
        position + im.textBytes ∧
      ∀ i, dataAddr im base ≤ i →
        (loadSeg contents (newMap im base) T im.textBytes mem position).mem i = mem i := by
  have hfits := text_fits h.bytes.1 hdone
  obtain ⟨hposition, hmem⟩ := loadSeg_spec (A := base * 16) h.bytes.1
    (fun v n hn _ hpa => (umap_text hn hpa).1) hdone
  refine ⟨hposition, fun i hi => ?_⟩
  rw [hmem, if_neg]
  unfold dataAddr at hi
  omega

/-- What a complete load consists of. -/
theorem commit_true (hc : commit buf s who l = some (true, s')) :
    ∃ s₁, copyStack buf s who l.im = some (MM.OK, s₁) ∧
      (loadImage (s₁.kernel.pMap (slotOf who)) l s₁.mem).1 = true ∧
      s'.mem = (loadImage (s₁.kernel.pMap (slotOf who)) l s₁.mem).2 ∧
      (s'.mm.mproc who).segD = (s₁.mm.mproc who).segD ∧
      (s'.mm.mproc who).segS = (s₁.mm.mproc who).segS := by
  unfold commit at hc
  obtain ⟨⟨r, s₁⟩, hcopy, hc⟩ := Option.bind_eq_some_iff.mp hc
  dsimp only at hc
  split at hc
  · cases hc
  · rename_i hok
    obtain ⟨s₂, hfinish, hc⟩ := Option.bind_eq_some_iff.mp hc
    obtain ⟨hread, rfl⟩ := Prod.mk.inj (Option.some.inj hc)
    obtain ⟨k, -, rfl⟩ := Option.map_eq_some_iff.mp hfinish
    have hself : ∀ f : MM.Mproc → MM.Mproc, (s₁.mm.modify who f).mproc who = f (s₁.mm.mproc who) :=
      fun f => update_self ..
    refine ⟨s₁, ?_, hread, rfl, ?_, ?_⟩
    · rw [hcopy, not_not.mp hok]
    · change ((s₁.mm.modify who _).mproc who).segD = _
      rw [hself]
      rfl
    · change ((s₁.mm.modify who _).mproc who).segS = _
      rw [hself]
      rfl

/-- And the other way round. -/
theorem commit_of_load {s₁ : System} (hcopy : copyStack buf s who l.im = some (MM.OK, s₁))
    (hread : (loadImage (s₁.kernel.pMap (slotOf who)) l s₁.mem).1 = true) :
    ∃ s', commit buf s who l = some (true, s') := by
  obtain ⟨s₂, hs₂⟩ := Option.isSome_iff_exists.mp (Execs.finish_through
    (System.close { s₁ with mem := (loadImage (s₁.kernel.pMap (slotOf who)) l s₁.mem).2 } l.fd)
    who l.file l.im)
  refine ⟨s₂, ?_⟩
  unfold commit
  rw [hcopy]
  change (if MM.OK ≠ MM.OK then none else _) = _
  rw [if_neg (not_not.mpr rfl)]
  change (Execs.finish
    (System.close { s₁ with mem := (loadImage (s₁.kernel.pMap (slotOf who)) l s₁.mem).2 } l.fd) who
    l.file l.im >>= fun s => some ((loadImage (s₁.kernel.pMap (slotOf who)) l s₁.mem).1, s)) = _
  rw [hs₂, hread]
  rfl

/-- Both segments are read completely. -/
theorem loadImage_true {map : ProcMap} (h : (loadImage map l mem).1 = true) :
    (loadSeg l.file.contents map T l.im.textBytes mem (textAt l.file)).left = 0 ∧
      (loadSeg l.file.contents map D l.im.dataBytes
        (loadSeg l.file.contents map T l.im.textBytes mem (textAt l.file)).mem
        (loadSeg l.file.contents map T l.im.textBytes mem (textAt l.file)).position).left = 0 :=
  of_decide_eq_true h

end Commit

/-! ## The new core image -/

/-- The byte at an offset from the start of data: of the file, of the relocated stack, or 0. -/
def expected (l : Loadable) (stack : Stack) (x : Nat) : UInt8 :=
  if x < l.im.dataBytes then l.file.contents.getD (textAt l.file + l.im.textBytes + x) 0
  else if stackClick l.im * 16 ≤ x ∧ x < stackClick l.im * 16 + l.im.stkBytes then
    (Layout.byteAt stack (x - stackClick l.im * 16)).getD 0
  else 0

/-- The stack segment starts in the first 64K; or data, which has not wrapped around with bss, lies
in its clicks, and the last click of the stack, as it is seen in 16 bits, is not one of them. -/
def Roomy (im : MM.Image) : Prop :=
  stackClick im < 4096 ∨ im.dataBytes ≤ im.dataClicks * 16 ∧
    (im.stkBytes = 0 ∨ im.dataClicks ≤ (im.totClicks - 1) % 4096)

/-- What the call leaves when everything is read: zeroing comes to its end, and clears nothing but
the new core image from data on and its own buffer, and every byte there is what it should be. -/
structure Filled (buf : Buffers) (who : MM.Proc) (l : Loadable) : Prop where
  through : ∃ s, newMem buf l.s who l.im = some (MM.OK, s)
  outside : ∀ s, newMem buf l.s who l.im = some (MM.OK, s) → ∀ i : Int,
    (i < (s.mm.mproc who).segD.memPhys * 16 ∨
      ((s.mm.mproc who).segS.memPhys + (s.mm.mproc who).segS.memLen) * 16 ≤ i) →
    (i < ownBase l.s + buf.u ∨ ownBase l.s + buf.u + ZEROBUF_SIZE ≤ i) → s.mem i = l.s.mem i
  image : ∀ s, replaceImage buf who l = some (.ok (true, s)) →
    ∃ stack, patchPtr (mbufOf buf l.s) (stackBase (s.mm.mproc who)) = some stack ∧
      ∀ x : Nat, (s.mm.mproc who).segD.memPhys * 16 + x <
          ((s.mm.mproc who).segS.memPhys + (s.mm.mproc who).segS.memLen) * 16 →
        s.mem ((s.mm.mproc who).segD.memPhys * 16 + x) = expected l stack x

/-- The same call with other bytes in memory and in the file. -/
def withBytes (l : Loadable) (mem : Int → UInt8) (contents : List UInt8) : Loadable :=
  { l with s := { l.s with mem := mem }, file := { l.file with contents := contents } }

/-- The bytes of a file of the same size with the same header. -/
def SameHeader (file : ExecFile) (contents : List UInt8) : Prop :=
  contents.length = file.contents.length ∧
    Execs.header { file with contents := contents } = Execs.header file

section Image

variable {im : MM.Image} {base : Nat} {buf : Buffers} {s s' : System} {who : MM.Proc}
  {stack : Stack} {l : Loadable} {mem : Int → UInt8}

/-- With room a place in data is not taken for another one. -/
theorem Roomy.umap_data (h : Roomy im) {v n : Nat} (hn : 0 < n) (hv : v + n ≤ im.dataBytes)
    (hlt : im.dataBytes < 65536) (hpa : umap (newMap im base) D v n ≠ 0) :
    umap (newMap im base) D v n = dataAddr im base + v := by
  rw [ExecImages.umap_data hn hpa]
  have hlast : Kernel.lastClick v n = (v + n - 1) / 16 := by
    unfold Kernel.lastClick
    omega
  rw [hlast]
  split
  · omega
  · rename_i hge
    rcases h with h | ⟨h, -⟩
    · omega
    · omega

/-- The last click of the stack, as the kernel computes it. -/
theorem lastClick_stack (hgap : im.gapClicks < 32768) (hpos : 0 < im.stkBytes)
    (hstk : im.stkBytes ≤ MAX_ISTACK_BYTES) :
    Kernel.lastClick (stackClick im * 16 % 65536) im.stkBytes = (im.totClicks - 1) % 4096 := by
  have hsize : MAX_ISTACK_BYTES = 1024 := rfl
  have htot := MM.Image.totClicks_eq hgap
  have hk : im.stackClicks = (im.stkBytes + 15) / 16 := by
    have hdef : im.stackClicks = (im.stkBytes + 15) % 65536 / 16 := rfl
    omega
  unfold Kernel.lastClick stackClick
  omega

/-- Nor is the place of the stack. -/
theorem Roomy.stackAddr_eq (h : Roomy im) (hgap : im.gapClicks < 32768) (hpos : 0 < im.stkBytes)
    (hstk : im.stkBytes ≤ MAX_ISTACK_BYTES) (hne : stackAddr im base ≠ 0) :
    stackAddr im base = dataAddr im base + (stackClick im * 16 : Nat) := by
  unfold stackAddr at hne ⊢
  rw [ExecImages.umap_data hpos hne, lastClick_stack hgap hpos hstk]
  rcases h with h | ⟨-, h⟩
  · split
    · omega
    · omega
  · rw [if_neg (by omega)]
    omega

/-- Every byte of the new core image from data on. -/
theorem Ready.image (h : Ready l.im base buf who s) (hroomy : Roomy l.im)
    (hp : patchPtr (mbufOf buf s) (stackClick l.im * 16 % 65536) = some stack)
    (hzero : ∀ i, dataAddr l.im base + Execs.bssOffset l.im ≤ i →
      i < dataAddr l.im base + l.im.totClicks * 16 → s.mem i = 0)
    (hc : commit buf s who l = some (true, s')) {x : Nat} (hx : x < l.im.totClicks * 16) :
    s'.mem (dataAddr l.im base + x) = expected l stack x := by
  obtain ⟨r, mem, hrun, hok, hmem⟩ := h.copyStack hp
  obtain ⟨s₁, hcopy, hread, hfinal, -, -⟩ := commit_true hc
  obtain ⟨rfl, rfl⟩ := Prod.mk.inj (Option.some.inj (hrun.symm.trans hcopy))
  obtain ⟨htext, hdata⟩ := loadImage_true hread
  dsimp only at hread hfinal htext hdata
  rw [h.map] at htext hdata hfinal
  obtain ⟨hposition, hbelow⟩ := h.text_below htext
  obtain ⟨-, hbytes⟩ := loadSeg_spec (A := dataAddr l.im base) h.bytes.2
    (fun v n hn hv hpa => hroomy.umap_data hn hv h.bytes.2 hpa) hdata
  have hoff : Execs.bssOffset l.im ≤ l.im.dataBytes := Nat.div_mul_le_self _ _
  rw [hfinal]
  refine (hbytes _).trans ?_
  unfold expected
  by_cases hin : x < l.im.dataBytes
  · rw [if_pos hin, if_pos (by omega), hposition]
    congr 1
    omega
  · rw [if_neg hin, if_neg (by omega), hbelow _ (by omega), hmem rfl _ (by omega)]
    rcases Nat.eq_zero_or_pos l.im.stkBytes with hz | hpos
    · rw [if_neg fun hne => hne.1 hz, if_neg (by omega)]
      exact hzero _ (by omega) (by omega)
    · have haddr := hroomy.stackAddr_eq h.gap hpos h.stk ((hok.mp rfl).resolve_left hpos.ne')
      rw [haddr]
      by_cases hstack : stackClick l.im * 16 ≤ x ∧ x < stackClick l.im * 16 + l.im.stkBytes
      · rw [if_pos hstack, if_pos (by omega)]
        congr 2
        omega
      · rw [if_neg hstack, if_neg (by omega)]
        exact hzero _ (by omega) (by omega)

/-- What holds when EXEC asks for memory. -/
structure Accepted (total : Nat) (b : MM.Boot) (buf : Buffers) (who : MM.Proc) (l : Loadable) :
    Prop where
  prepared : Execs.Prepared total b buf l.s who
  live : (l.s.mm.mproc who).live = true
  init : MM.Fits b l.s.mm who
  apart : Apart buf
  header : ∃ n ≤ MAX_ISTACK_BYTES, Execs.readFile l.file n = .ok l.im
  room : MM.roomFor l.s.mm.table l.im = some MM.OK

variable {total : Nat} {b : MM.Boot}

/-- The sizes of a header that is accepted are words. -/
theorem readFile_bytes {file : ExecFile} {n : Nat} (h : Execs.readFile file n = .ok im) :
    im.textBytes < 65536 ∧ im.dataBytes < 65536 := by
  unfold Execs.readFile at h
  split at h
  · cases h
  · rename_i hdr _
    rw [MM.readHeader_image h]
    unfold MM.headerImage
    dsimp only
    split
    · omega
    · omega

/-- Memory has been granted, and the stack is at hand. -/
theorem Accepted.ready (h : Accepted total b buf who l) (hb : b.WellFormed) (hlt : total < 65536) :
    ∃ base s, newMem buf l.s who l.im = some (MM.OK, s) ∧ Allocated buf l.s who l.im b base s ∧
      Ready l.im base buf who s ∧ mbufOf buf s = mbufOf buf l.s := by
  obtain ⟨n, hn, him⟩ := h.header
  obtain ⟨a, ha⟩ := execImage_of_readFile him hn
  obtain ⟨base, s, hnew, halloc, -⟩ :=
    newMem_allocated h.prepared hb hlt h.live h.init ha h.room
  have hother : s.kernel.pMap (slotOf MM.MM_PROC_NR) = l.s.kernel.pMap (slotOf MM.MM_PROC_NR) := by
    rw [halloc.maps, update_of_ne h.prepared.slot_ne]
  have hbelow := h.prepared.below
  have habove := halloc.above
  have hfits := h.prepared.mbuf.fits
  have hsize : ZEROBUF_SIZE = 1024 ∧ MAX_ISTACK_BYTES = 1024 := ⟨rfl, rfl⟩
  have hend : ownBase s + buf.mbuf + MAX_ISTACK_BYTES ≤ dataAddr l.im base := by
    rw [halloc.own]
    unfold ownBase dataAddr
    have hsize' : Execs.MAX_ISTACK_BYTES = 1024 := rfl
    omega
  refine ⟨base, s, hnew, halloc, ⟨?_, ?_, hother.symm ▸ h.prepared.mbuf, hend, halloc.gap, ?_,
    readFile_bytes him⟩, ?_⟩
  · rw [halloc.maps, update_self, halloc.mapped, mapOf_mapped halloc.gap halloc.fits]
  · rw [halloc.mapped, stackBase_mapped halloc.gap]
  · rw [(Execs.readFile_ok him).1]
    exact hn
  · funext i
    unfold mbufOf
    rw [halloc.own] at hend ⊢
    have hi : (i : Nat) < 1024 := i.isLt
    rw [halloc.kept _ (Or.inl (by omega))]
    refine overlay_out ?_
    have hdiff := h.apart
    unfold Apart at hdiff
    omega

/-- The segments are the ends of what has been granted. -/
theorem Allocated.segs {s₀ : System} (h : Allocated buf s₀ who im b base s) :
    ((s.mm.mproc who).segD.memPhys * 16 : Int) = dataAddr im base ∧
      (((s.mm.mproc who).segS.memPhys + (s.mm.mproc who).segS.memLen) * 16 : Int) =
        dataAddr im base + im.totClicks * 16 := by
  have htot := MM.Image.totClicks_eq h.gap
  have hmap : mapOf (s.mm.mproc who) = newMap im base := by
    rw [h.mapped, mapOf_mapped h.gap h.fits]
  have hd : (s.mm.mproc who).segD.memPhys = base + im.textClicks :=
    congrArg (fun map => map.d.memPhys) hmap
  have hs : (s.mm.mproc who).segS.memPhys = base + im.textClicks + stackClick im :=
    congrArg (fun map => map.s.memPhys) hmap
  have hk : (s.mm.mproc who).segS.memLen = im.stackClicks :=
    congrArg (fun map => map.s.memLen) hmap
  unfold dataAddr
  rw [hd, hs, hk]
  unfold stackClick
  omega

/-- With memory for the new image the call goes on. -/
theorem replaceImage_eq {s₁ : System} (hnew : newMem buf l.s who l.im = some (MM.OK, s₁)) :
    replaceImage buf who l = (commit buf s₁ who l).map .ok := by
  unfold replaceImage
  rw [hnew]
  change (if MM.OK ≠ MM.OK then some (Except.error (MM.OK, s₁.close l.fd))
    else commit buf s₁ who l >>= fun r => some (Except.ok r)) = _
  rw [if_neg (not_not.mpr rfl)]
  cases commit buf s₁ who l with
  | none => rfl
  | some r => rfl

/-- A new core image with room in it is filled as it should be. -/
theorem Accepted.filled (h : Accepted total b buf who l) (hb : b.WellFormed) (hlt : total < 65536)
    (hroomy : Roomy l.im) : Filled buf who l := by
  obtain ⟨base, s₁, hnew, halloc, hready, hmbuf⟩ := h.ready hb hlt
  obtain ⟨hdseg, hsseg⟩ := halloc.segs
  refine ⟨⟨s₁, hnew⟩, fun s hs i hi hown => ?_, fun s hs => ?_⟩
  · obtain rfl := (Prod.mk.inj (Option.some.inj (hnew.symm.trans hs))).2
    have hoff : Execs.bssOffset l.im ≤ l.im.dataBytes := Nat.div_mul_le_self _ _
    rw [halloc.kept i (by omega)]
    exact overlay_out hown
  · rw [replaceImage_eq hnew] at hs
    obtain ⟨x, hc, hx⟩ := Option.map_eq_some_iff.mp hs
    obtain rfl := Except.ok.inj hx
    obtain ⟨stack, hp⟩ := Option.isSome_iff_exists.mp
      (StackImages.patchPtr_isSome (mbufOf buf l.s) (stackClick l.im * 16 % 65536))
    obtain ⟨s₂, hcopy, -, -, hd, hs⟩ := commit_true hc
    obtain ⟨r, mem, hrun, -, -⟩ := hready.copyStack (hmbuf.symm ▸ hp)
    obtain ⟨-, rfl⟩ := Prod.mk.inj (Option.some.inj (hrun.symm.trans hcopy))
    dsimp only at hd hs
    have hvsp : stackBase (s.mm.mproc who) = stackClick l.im * 16 % 65536 := by
      rw [← hready.vsp]
      unfold stackBase
      rw [hs]
    refine ⟨stack, by rw [hvsp]; exact hp, fun x hx => ?_⟩
    rw [hd, hs] at hx
    rw [hd, hdseg]
    exact hready.image hroomy (hmbuf.symm ▸ hp) halloc.zeroed hc (by omega)

/-- A new core image is only made when there is a hole for it. -/
theorem replaceImage_room {c : Bool} (h : replaceImage buf who l = some (.ok (c, s'))) :
    MM.roomFor l.s.mm.table l.im = some MM.OK := by
  unfold replaceImage newMem at h
  obtain ⟨⟨r, s₂⟩, hnew, h⟩ := Option.bind_eq_some_iff.mp h
  obtain ⟨⟨r', mm⟩, hm, hnew⟩ := Option.bind_eq_some_iff.mp hnew
  dsimp only at hnew h
  split at hnew
  · rename_i hne
    obtain ⟨rfl, -⟩ := Prod.mk.inj (Option.some.inj hnew)
    rw [if_pos hne] at h
    cases h
  · rename_i heq
    obtain ⟨_, _, _, hroom, -⟩ := MM.newMem_ok ((not_not.mp heq) ▸ hm)
    exact hroom

end Image

/-! ## The tables -/

section Tables

variable {buf : Buffers} {s s' : System} {who : MM.Proc} {l : Loadable} {mem : Int → UInt8}

/-- A copy does not depend on what is copied. -/
theorem memCopy_bytes (s : System) (mem : Int → UInt8) (c : Kernel.CopyMess) :
    ∃ mem', memCopy { s with mem := mem } c =
      ((memCopy s c).1, { (memCopy s c).2 with mem := mem' }) := by
  unfold memCopy
  dsimp only
  split
  · exact ⟨mem, rfl⟩
  · split
    · exact ⟨_, rfl⟩
    · exact ⟨mem, rfl⟩

/-- What is in memory has nothing to do with zeroing. -/
theorem zero_bytes {zb fuel : Nat} {base bytes : Int} (h : zero zb fuel s base bytes = some s')
    (mem : Int → UInt8) :
    ∃ mem', zero zb fuel { s with mem := mem } base bytes = some { s' with mem := mem' } := by
  induction fuel generalizing s base bytes mem with
  | zero =>
    unfold zero at h ⊢
    split at h
    · cases h
    · rename_i hdone
      rw [if_neg hdone, ← Option.some.inj h]
      exact ⟨mem, rfl⟩
  | succ fuel ih =>
    unfold zero at h ⊢
    split at h
    · rename_i hpos
      rw [if_pos hpos]
      obtain ⟨mem', he⟩ := memCopy_bytes s mem (Execs.toMemory zb base (min bytes ZEROBUF_SIZE))
      dsimp only at h ⊢
      rw [he]
      dsimp only
      split at h
      · cases h
      · rename_i hok
        rw [if_neg hok]
        exact ih h mem'
    · rename_i hdone
      rw [if_neg hdone, ← Option.some.inj h]
      exact ⟨mem, rfl⟩

/-- Nor with what is done in the end. -/
theorem finish_bytes {file : ExecFile} {im : MM.Image} (h : Execs.finish s who file im = some s')
    (mem : Int → UInt8) :
    Execs.finish { s with mem := mem } who file im = some { s' with mem := mem } := by
  obtain ⟨k, hk, rfl⟩ := Option.map_eq_some_iff.mp h
  exact Option.map_eq_some_iff.mpr ⟨k, hk, rfl⟩

/-- Loading changes memory only. -/
theorem loadSeg_bytes (w : Execs.World) (s : System) (seg : Int) (n : Nat) :
    ∃ mem, Execs.loadSeg w s seg n = { s with mem := mem } := by
  unfold Execs.loadSeg
  split
  · exact ⟨s.mem, rfl⟩
  · exact ⟨_, rfl⟩

/-- What is in memory has nothing to do with the tables. -/
theorem commit_tables {c : Bool} (w : Execs.World) (h : commit buf s who l = some (c, s'))
    (mem : Int → UInt8) : ∃ mem', Execs.commit w buf { s with mem := mem } who l.fd l.file l.im =
      some { s' with mem := mem' } := by
  unfold commit at h
  obtain ⟨⟨r, s₁⟩, hcopy, h⟩ := Option.bind_eq_some_iff.mp h
  obtain ⟨stack, -, hcopy⟩ := Option.map_eq_some_iff.mp hcopy
  dsimp only at h
  split at h
  · cases h
  · rename_i hok
    obtain ⟨s₂, hfinish, h⟩ := Option.bind_eq_some_iff.mp h
    obtain ⟨-, rfl⟩ := Prod.mk.inj (Option.some.inj h)
    -- the tables after the copy of the stack are those before
    obtain ⟨mem₁, he₁⟩ := memCopy_bytes s (setMbuf buf s stack).mem
      (toCaller who buf.mbuf (stackBase (s.mm.mproc who)) l.im.stkBytes)
    obtain ⟨mem₂, he₂⟩ := memCopy_bytes s mem
      (toCaller who buf.mbuf (stackBase (s.mm.mproc who)) l.im.stkBytes)
    obtain ⟨rfl, rfl⟩ := Prod.mk.inj (he₁.symm.trans hcopy)
    unfold Execs.commit
    dsimp only
    rw [he₂]
    dsimp only
    rw [if_neg hok]
    obtain ⟨mem₃, he₃⟩ := loadSeg_bytes w { (memCopy s (toCaller who buf.mbuf
      (stackBase (s.mm.mproc who)) l.im.stkBytes)).2 with mem := mem₂ } T l.im.textBytes
    rw [he₃]
    obtain ⟨mem₄, he₄⟩ := loadSeg_bytes w { (memCopy s (toCaller who buf.mbuf
      (stackBase (s.mm.mproc who)) l.im.stkBytes)).2 with mem := mem₃ } D l.im.dataBytes
    refine ⟨mem₄, ?_⟩
    rw [he₄]
    exact finish_bytes hfinish mem₄

/-- What EXEC makes of the tables does not depend on the bytes in memory, so that it is the same
where only the copies of the kernel are recorded. -/
theorem replaceImage_tables {c : Bool} (w : Execs.World)
    (h : replaceImage buf who l = some (.ok (c, s'))) :
    ∃ mem, Execs.replaceImage w buf who l = .returns MM.OK { s' with mem := mem } := by
  unfold replaceImage at h
  obtain ⟨⟨r, s₁⟩, hnew, h⟩ := Option.bind_eq_some_iff.mp h
  dsimp only at h
  split at h
  · cases h
  · rename_i hok
    obtain rfl := not_not.mp hok
    obtain ⟨x, hc, h⟩ := Option.bind_eq_some_iff.mp h
    obtain rfl := Except.ok.inj (Option.some.inj h)
    have hnew' : ∃ mem, Execs.newMem buf l.s who l.im = some (MM.OK, { s₁ with mem := mem }) := by
      unfold newMem at hnew
      unfold Execs.newMem
      obtain ⟨⟨r', mm⟩, hm, hnew⟩ := Option.bind_eq_some_iff.mp hnew
      rw [hm]
      dsimp only at hnew
      split at hnew
      · rename_i hne
        exact absurd (Prod.mk.inj (Option.some.inj hnew)).1 hne
      · rename_i heq
        obtain ⟨⟨r'', kernel⟩, hk, hnew⟩ := Option.bind_eq_some_iff.mp hnew
        obtain ⟨s₂, hz, hnew⟩ := Option.bind_eq_some_iff.mp hnew
        obtain ⟨-, rfl⟩ := Prod.mk.inj (Option.some.inj hnew)
        obtain ⟨mem', hz'⟩ := zero_bytes hz l.s.mem
        refine ⟨mem', ?_⟩
        change (if r' ≠ MM.OK then _
          else doNewmap l.s.kernel who.val (mapOf (mm.mproc who)) >>= _) = _
        rw [if_neg heq, hk]
        change (zero buf.u (zeroBytes l.im).toNat { l.s with mm := mm, kernel := kernel }
          (zeroBase (mm.mproc who) l.im) (zeroBytes l.im) >>= _) = _
        exact hz' ▸ rfl
    obtain ⟨mem₁, hnew'⟩ := hnew'
    obtain ⟨mem₂, hc'⟩ := commit_tables w hc mem₁
    refine ⟨mem₂, ?_⟩
    unfold Execs.replaceImage
    rw [hnew']
    dsimp only
    rw [if_neg hok, hc']

end Tables

/-! ## Where there is no room -/

section Cramped

variable {base total : Nat} {buf : Buffers} {s s' : System} {who : MM.Proc} {stack : Stack}
  {l : Loadable} {mem : Int → UInt8} {contents : List UInt8} {b : MM.Boot}

/-- Nothing keeps the stack and the file from being copied. -/
def Complete (l : Loadable) (base : Nat) : Prop :=
  (l.im.stkBytes = 0 ∨ stackAddr l.im base ≠ 0) ∧
    (loadImage (newMap l.im base) l fun _ => 0).1 = true

/-- The call comes to its end when the file is long enough. -/
theorem Ready.complete_iff (h : Ready l.im base buf who s) :
    (∃ s', commit buf s who l = some (true, s')) ↔ Complete l base := by
  obtain ⟨stack, hp⟩ := Option.isSome_iff_exists.mp
    (StackImages.patchPtr_isSome (mbufOf buf s) (stackClick l.im * 16 % 65536))
  obtain ⟨r, mem, hrun, hok, -⟩ := h.copyStack hp
  have hsame := loadImage_alike l l rfl rfl rfl (newMap l.im base) (fun _ => 0) mem
  unfold Complete
  rw [← hok, ← hsame]
  constructor
  · rintro ⟨s', hc⟩
    obtain ⟨s₁, hcopy, hread, -⟩ := commit_true hc
    obtain ⟨rfl, rfl⟩ := Prod.mk.inj (Option.some.inj (hrun.symm.trans hcopy))
    dsimp only at hread
    rw [h.map] at hread
    exact ⟨rfl, hread⟩
  · rintro ⟨rfl, hread⟩
    refine commit_of_load hrun ?_
    dsimp only
    rwa [h.map]

/-- The text of a file with the same header is at the same place. -/
theorem textAt_withBytes (h : SameHeader l.file contents) :
    textAt (withBytes l mem contents).file = textAt l.file := by
  unfold textAt withBytes
  dsimp only
  rw [h.2]
  split
  · rfl
  · unfold Execs.skipped
    rw [h.1]

/-- And it is long enough, too. -/
theorem complete_withBytes (mem : Int → UInt8) (h : SameHeader l.file contents) :
    Complete (withBytes l mem contents) base ↔ Complete l base := by
  have hsame := loadImage_alike l (withBytes l mem contents) rfl h.1 (textAt_withBytes h)
    (newMap l.im base) (fun _ => 0) (fun _ => 0)
  unfold Complete
  rw [← hsame]
  rfl

/-- The header decides on what is read of it. -/
theorem readFile_congr {file file' : ExecFile} (h : Execs.header file' = Execs.header file)
    {n : Nat} : Execs.readFile file' n = Execs.readFile file n := by
  unfold Execs.readFile
  rw [h]

/-- The bytes do not matter up to here. -/
theorem Accepted.other (h : Accepted total b buf who l) (mem : Int → UInt8)
    (hsame : SameHeader l.file contents) :
    Accepted total b buf who (withBytes l mem contents) := by
  obtain ⟨n, hn, him⟩ := h.header
  obtain ⟨horderly, habove, huse, hu, hmbuf, hbelow⟩ := h.prepared
  exact ⟨⟨horderly, habove, huse, hu, hmbuf, hbelow⟩, h.live, h.init, h.apart,
    ⟨n, hn, (readFile_congr hsame.2).trans him⟩, h.room⟩

/-- If the call comes to its end with some bytes, then it does with others. -/
theorem Accepted.run_other (h : Accepted total b buf who l) (hb : b.WellFormed)
    (hlt : total < 65536) (hrun : replaceImage buf who l = some (.ok (true, s')))
    (mem : Int → UInt8) (hsame : SameHeader l.file contents) :
    ∃ base s s', newMem buf (withBytes l mem contents).s who l.im = some (MM.OK, s) ∧
      Allocated buf (withBytes l mem contents).s who l.im b base s ∧
      Ready l.im base buf who s ∧
      mbufOf buf s = mbufOf buf (withBytes l mem contents).s ∧
      commit buf s who (withBytes l mem contents) = some (true, s') ∧
      replaceImage buf who (withBytes l mem contents) = some (.ok (true, s')) := by
  obtain ⟨base, s, hnew, halloc, hready, -⟩ := h.ready hb hlt
  obtain ⟨base₁, s₁, hnew₁, halloc₁, hready₁, hmbuf₁⟩ := (h.other mem hsame).ready hb hlt
  rw [replaceImage_eq hnew] at hrun
  obtain ⟨x, hc, hx⟩ := Option.map_eq_some_iff.mp hrun
  obtain rfl := Except.ok.inj hx
  -- the same block has been granted
  obtain rfl : base = base₁ := by
    have hmm := (Prod.mk.inj (Option.some.inj (halloc.granted.symm.trans halloc₁.granted))).2
    have hmap := halloc₁.mapped
    rw [← hmm, halloc.mapped] at hmap
    exact congrArg (fun m => m.segT.memPhys) hmap
  have hcomplete := (complete_withBytes mem hsame).mpr (hready.complete_iff.mp ⟨_, hc⟩)
  obtain ⟨s₂, hc₂⟩ := Ready.complete_iff (l := withBytes l mem contents) hready₁ |>.mpr
    hcomplete
  refine ⟨base, s₁, s₂, hnew₁, halloc₁, hready₁, hmbuf₁, hc₂, ?_⟩
  rw [replaceImage_eq hnew₁, hc₂]
  rfl

/-- A byte to which no chunk of data goes. -/
theorem Ready.spared (h : Ready l.im base buf who s)
    (hp : patchPtr (mbufOf buf s) (stackClick l.im * 16 % 65536) = some stack)
    (hc : commit buf s who l = some (true, s')) {i : Int} (hi : dataAddr l.im base ≤ i)
    (hspare : ∀ v n, 0 < n → v + n ≤ l.im.dataBytes → umap (newMap l.im base) D v n ≠ 0 →
      i < umap (newMap l.im base) D v n ∨ umap (newMap l.im base) D v n + n ≤ i) :
    s'.mem i = if l.im.stkBytes ≠ 0 ∧ stackAddr l.im base ≤ i ∧
        i < stackAddr l.im base + l.im.stkBytes then
      (Layout.byteAt stack (i - stackAddr l.im base).toNat).getD 0 else s.mem i := by
  obtain ⟨r, mem, hrun, hok, hmem⟩ := h.copyStack hp
  obtain ⟨s₁, hcopy, hread, hfinal, -, -⟩ := commit_true hc
  obtain ⟨rfl, rfl⟩ := Prod.mk.inj (Option.some.inj (hrun.symm.trans hcopy))
  obtain ⟨htext, -⟩ := loadImage_true hread
  dsimp only at hfinal htext
  rw [h.map] at htext hfinal
  rw [hfinal, ← hmem rfl i hi, ← (h.text_below htext).2 i hi]
  exact readChunks_spares h.bytes.2 hspare (Nat.zero_add _).le

/-- The bytes of a file behind its header, all of them 1. -/
def onesBehind (file : ExecFile) : List UInt8 :=
  file.contents.take HDR_SIZE ++ List.replicate (file.contents.length - HDR_SIZE) 1

/-- A file of ones behind the same header. -/
theorem onesBehind_sameHeader {file : ExecFile} (h : HDR_SIZE ≤ file.contents.length) :
    SameHeader file (onesBehind file) := by
  have hlen : (onesBehind file).length = file.contents.length := by
    unfold onesBehind
    rw [List.length_append, List.length_take, List.length_replicate]
    omega
  have hsame : ∀ i < HDR_SIZE, (onesBehind file).getD i 0 = file.contents.getD i 0 := by
    intro i hi
    unfold onesBehind
    rw [List.getD_eq_getElem?_getD, List.getD_eq_getElem?_getD,
      List.getElem?_append_left (by rw [List.length_take]; omega), List.getElem?_take_of_lt hi]
  refine ⟨hlen, ?_⟩
  unfold Execs.header
  dsimp only
  rw [hlen, if_pos h, if_pos h]
  congr 1
  funext i
  have hi := i.isLt
  have hsize : HDR_SIZE = 32 := rfl
  unfold Execs.longAt
  rw [hsame _ (by omega), hsame _ (by omega), hsame _ (by omega), hsame _ (by omega)]

/-- Its bytes are ones. -/
theorem onesBehind_getD {file : ExecFile} {i : Nat} (hlo : HDR_SIZE ≤ i)
    (hhi : i < file.contents.length) : (onesBehind file).getD i 0 = 1 := by
  have hlen : (file.contents.take HDR_SIZE).length = HDR_SIZE := by
    rw [List.length_take]
    omega
  unfold onesBehind
  rw [List.getD_eq_getElem?_getD, List.getElem?_append_right (by omega), hlen,
    List.getElem?_replicate_of_lt (by omega)]
  rfl

/-- The text follows the header. -/
theorem textAt_bounds {file : ExecFile} {n : Nat} {im : MM.Image}
    (h : Execs.readFile file n = .ok im) : HDR_SIZE ≤ textAt file ∧
      textAt file ≤ file.contents.length := by
  unfold Execs.readFile at h
  split at h
  · cases h
  · rename_i hdr hh
    have hat : textAt file = HDR_SIZE + Execs.skipped file hdr := by
      unfold textAt
      rw [hh]
    have hlen : HDR_SIZE ≤ file.contents.length := by
      by_contra hshort
      unfold Execs.header at hh
      rw [if_neg hshort] at hh
      cases hh
    have hskip : Execs.skipped file hdr ≤ file.contents.length - HDR_SIZE := min_le_right _ _
    omega

/-- What has been read completely is in the file. -/
theorem Ready.file_end (h : Ready l.im base buf who s) (hc : commit buf s who l = some (true, s'))
    (hat : textAt l.file ≤ l.file.contents.length) :
    textAt l.file + l.im.textBytes + l.im.dataBytes ≤ l.file.contents.length := by
  obtain ⟨s₁, hcopy, hread, -⟩ := commit_true hc
  obtain ⟨stack, hp⟩ := Option.isSome_iff_exists.mp
    (StackImages.patchPtr_isSome (mbufOf buf s) (stackClick l.im * 16 % 65536))
  obtain ⟨r, mem, hrun, -⟩ := h.copyStack hp
  obtain ⟨-, rfl⟩ := Prod.mk.inj (Option.some.inj (hrun.symm.trans hcopy))
  obtain ⟨htext, hdata⟩ := loadImage_true hread
  dsimp only at htext hdata
  rw [h.map] at htext hdata
  have htextEnd := loadSeg_end hat htext
  rw [(h.text_below htext).1] at hdata
  exact loadSeg_end htextEnd hdata

/-- The segments are those that were made before. -/
theorem Ready.commit_segs (h : Ready l.im base buf who s)
    (hc : commit buf s who l = some (true, s')) :
    (s'.mm.mproc who).segD = (s.mm.mproc who).segD ∧
      (s'.mm.mproc who).segS = (s.mm.mproc who).segS ∧
      stackBase (s'.mm.mproc who) = stackClick l.im * 16 % 65536 := by
  obtain ⟨stack, hp⟩ := Option.isSome_iff_exists.mp
    (StackImages.patchPtr_isSome (mbufOf buf s) (stackClick l.im * 16 % 65536))
  obtain ⟨s₁, hcopy, -, -, hd, hs⟩ := commit_true hc
  obtain ⟨r, mem, hrun, -, -⟩ := h.copyStack hp
  obtain ⟨-, rfl⟩ := Prod.mk.inj (Option.some.inj (hrun.symm.trans hcopy))
  dsimp only at hd hs
  refine ⟨hd, hs, ?_⟩
  rw [← h.vsp]
  unfold stackBase
  rw [hs]

/-- The bytes from an offset of data that is not beyond the stack. -/
theorem Filled.byte {s₀ s : System} (hf : Filled buf who l)
    (halloc : Allocated buf s₀ who l.im b base s) (hready : Ready l.im base buf who s)
    (hc : commit buf s who l = some (true, s'))
    (hr : replaceImage buf who l = some (.ok (true, s'))) :
    ∃ stack, patchPtr (mbufOf buf l.s) (stackClick l.im * 16 % 65536) = some stack ∧
      ∀ x < l.im.totClicks * 16, s'.mem (dataAddr l.im base + x) = expected l stack x := by
  obtain ⟨stack, hp, himage⟩ := hf.image s' hr
  obtain ⟨hd, hs, hvsp⟩ := hready.commit_segs hc
  obtain ⟨hdseg, hsseg⟩ := halloc.segs
  rw [hvsp] at hp
  refine ⟨stack, hp, fun x hx => ?_⟩
  have hbyte := himage x (by rw [hd, hs]; omega)
  rw [hd, hdseg] at hbyte
  exact hbyte

/-- Data that has wrapped around goes beyond the first 64K. -/
theorem Ready.not_filled_data (hready : Ready l.im base buf who s)
    (halloc : Allocated buf l.s who l.im b base s) (hc : commit buf s who l = some (true, s'))
    (hr : replaceImage buf who l = some (.ok (true, s')))
    (hmbuf : mbufOf buf s = mbufOf buf l.s) (hmem : l.s.mem = fun _ => 0)
    (hones : ∀ i, HDR_SIZE ≤ i → i < l.file.contents.length → l.file.contents.getD i 0 = 1)
    (hat : HDR_SIZE ≤ textAt l.file ∧ textAt l.file ≤ l.file.contents.length)
    (hv : 4096 ≤ stackClick l.im) (hd : l.im.dataClicks * 16 < l.im.dataBytes) :
    ¬Filled buf who l := by
  intro hf
  obtain ⟨stack, hp, hbyte⟩ := hf.byte halloc hready hc hr
  have hzero : mbufOf buf l.s = fun _ => 0 := by
    unfold mbufOf
    rw [hmem]
  obtain rfl : stack = fun _ => 0 := by
    rw [hzero, StackImages.patchPtr_zero] at hp
    exact (Option.some.inj hp).symm
  have htot := MM.Image.totClicks_eq halloc.gap
  have hdl : l.im.dataClicks ≤ 4095 := MM.virClicks_le _
  have hend := hready.file_end hc hat.2
  have hone : expected l (fun _ => 0) (l.im.dataClicks * 16) = 1 :=
    (if_pos hd).trans (hones _ (by omega) (by omega))
  -- the chunks before this byte end there, and those behind it are far away
  have hspare := hready.spared (hmbuf.symm ▸ hp) hc
    (i := dataAddr l.im base + (l.im.dataClicks * 16 : Nat)) (by omega) fun v n hn hin hpa => by
      rw [umap_data hn hpa]
      have hlast : Kernel.lastClick v n = (v + n - 1) / 16 := by
        have hbytes := hready.bytes.2
        unfold Kernel.lastClick
        omega
      rw [hlast]
      split <;> omega
  rw [hbyte _ (by unfold stackClick at hv; omega), hone] at hspare
  split at hspare
  · unfold Layout.byteAt at hspare
    split at hspare
    · exact absurd hspare (show ¬(1 : UInt8) = 0 by decide)
    · exact absurd hspare (show ¬(1 : UInt8) = 0 by decide)
  · refine absurd (hspare.trans ?_) (show ¬(1 : UInt8) = 0 by decide)
    by_cases hoff : dataAddr l.im base + Execs.bssOffset l.im ≤
        dataAddr l.im base + (l.im.dataClicks * 16 : Nat)
    · exact halloc.zeroed _ hoff (by unfold stackClick at hv; omega)
    · rw [halloc.kept _ (Or.inl (by omega)), hmem]
      unfold overlay
      split
      · rfl
      · rfl

/-- A stack that starts behind the first 64K is copied into data. -/
theorem Ready.not_filled_stack (hready : Ready l.im base buf who s)
    (halloc : Allocated buf l.s who l.im b base s) (hc : commit buf s who l = some (true, s'))
    (hr : replaceImage buf who l = some (.ok (true, s')))
    (hmbuf : mbufOf buf s = mbufOf buf l.s) (hmem : l.s.mem = fun _ => 1)
    (hv : 4096 ≤ stackClick l.im) (hd : l.im.dataBytes ≤ l.im.dataClicks * 16)
    (hpos : 0 < l.im.stkBytes) (hlast : (l.im.totClicks - 1) % 4096 < l.im.dataClicks) :
    ¬Filled buf who l := by
  intro hf
  obtain ⟨stack, hp, hbyte⟩ := hf.byte halloc hready hc hr
  have hsize : MAX_ISTACK_BYTES = 1024 := rfl
  have hstk := hready.stk
  have htot := MM.Image.totClicks_eq halloc.gap
  have hdl : l.im.dataClicks ≤ 4095 := MM.virClicks_le _
  have hk : l.im.stackClicks = (l.im.stkBytes + 15) / 16 := by
    have hdef : l.im.stackClicks = (l.im.stkBytes + 15) % 65536 / 16 := rfl
    omega
  have hin : stackClick l.im * 16 < l.im.totClicks * 16 := by
    unfold stackClick
    omega
  have hfirst : Layout.byteAt stack 0 = some 1 := by
    unfold patchPtr at hp
    rw [StackImages.patchFrom_below 513 hp 0 (by decide)]
    unfold mbufOf
    rw [hmem]
    rfl
  have hone : expected l stack (stackClick l.im * 16) = 1 := by
    unfold expected
    rw [if_neg (by omega), if_pos (by omega), Nat.sub_self, hfirst]
    rfl
  have haddr : stackAddr l.im base = 0 ∨ stackAddr l.im base =
      dataAddr l.im base + (stackClick l.im * 16 % 65536 : Nat) := by
    by_cases hz : stackAddr l.im base = 0
    · exact Or.inl hz
    · refine Or.inr ?_
      unfold stackAddr at hz ⊢
      rw [umap_data hpos hz, lastClick_stack halloc.gap hpos hready.stk, if_pos hlast]
      exact Int.add_zero _
  have hspare := hready.spared (hmbuf.symm ▸ hp) hc
    (i := dataAddr l.im base + (stackClick l.im * 16 : Nat)) (by omega) fun v n hn hin hpa => by
      have hlast : Kernel.lastClick v n = (v + n - 1) / 16 := by
        have hbytes := hready.bytes.2
        unfold Kernel.lastClick
        omega
      rw [umap_data hn hpa, hlast, if_pos (by omega)]
      omega
  have hoff : Execs.bssOffset l.im ≤ l.im.dataBytes := Nat.div_mul_le_self _ _
  have hbase : 0 ≤ dataAddr l.im base := Int.natCast_nonneg _
  rw [hbyte _ hin, hone, if_neg (by omega), halloc.zeroed _ (by omega) (by omega)] at hspare
  exact absurd hspare (show ¬(1 : UInt8) = 0 by decide)

/-- The stack of an image without room is not always where it should be. -/
theorem Accepted.not_filled_stack (h : Accepted total b buf who l) (hb : b.WellFormed)
    (hlt : total < 65536) (hrun : replaceImage buf who l = some (.ok (true, s')))
    (hv : 4096 ≤ stackClick l.im) (hd : l.im.dataBytes ≤ l.im.dataClicks * 16)
    (hpos : 0 < l.im.stkBytes) (hlast : (l.im.totClicks - 1) % 4096 < l.im.dataClicks) :
    ¬Filled buf who (withBytes l (fun _ => 1) l.file.contents) := by
  obtain ⟨base, s, s₁, -, halloc, hready, hmbuf, hc, hr⟩ :=
    h.run_other hb hlt hrun (fun _ => 1) ⟨rfl, rfl⟩
  exact Ready.not_filled_stack (l := withBytes l (fun _ => 1) l.file.contents) hready halloc hc hr
    hmbuf rfl hv hd hpos hlast

/-- Nor are its data. -/
theorem Accepted.not_filled_data (h : Accepted total b buf who l) (hb : b.WellFormed)
    (hlt : total < 65536) (hrun : replaceImage buf who l = some (.ok (true, s')))
    (hv : 4096 ≤ stackClick l.im) (hd : l.im.dataClicks * 16 < l.im.dataBytes) :
    SameHeader l.file (onesBehind l.file) ∧
      ¬Filled buf who (withBytes l (fun _ => 0) (onesBehind l.file)) := by
  obtain ⟨n, hn, him⟩ := h.header
  obtain ⟨hlo, hhi⟩ := textAt_bounds him
  have hsame := onesBehind_sameHeader (hlo.trans hhi)
  obtain ⟨base, s, s₁, -, halloc, hready, hmbuf, hc, hr⟩ :=
    h.run_other hb hlt hrun (fun _ => 0) hsame
  have hat : HDR_SIZE ≤ textAt (withBytes l (fun _ => 0) (onesBehind l.file)).file ∧
      textAt (withBytes l (fun _ => 0) (onesBehind l.file)).file ≤
        (onesBehind l.file).length := by
    rw [textAt_withBytes hsame, hsame.1]
    exact ⟨hlo, hhi⟩
  exact ⟨hsame, Ready.not_filled_data (l := withBytes l (fun _ => 0) (onesBehind l.file)) hready
    halloc hc hr hmbuf rfl (fun i hi hi' => onesBehind_getD hi (hi'.trans_eq hsame.1)) hat hv hd⟩

/-- All bytes end where they should just when there is room for them. -/
theorem Accepted.filled_iff (h : Accepted total b buf who l) (hb : b.WellFormed)
    (hlt : total < 65536) (hrun : replaceImage buf who l = some (.ok (true, s'))) :
    (∀ mem contents, SameHeader l.file contents → Filled buf who (withBytes l mem contents)) ↔
      Roomy l.im := by
  constructor
  · intro hall
    by_contra hno
    obtain ⟨hv, hno⟩ := not_or.mp hno
    by_cases hd : l.im.dataBytes ≤ l.im.dataClicks * 16
    · obtain ⟨hne, hlast⟩ := not_or.mp (not_and.mp hno hd)
      exact h.not_filled_stack hb hlt hrun (Nat.not_lt.mp hv) hd (Nat.pos_of_ne_zero hne)
        (Nat.not_le.mp hlast) (hall _ _ ⟨rfl, rfl⟩)
    · obtain ⟨hsame, hnot⟩ := h.not_filled_data hb hlt hrun (Nat.not_lt.mp hv) (Nat.not_le.mp hd)
      exact hnot (hall _ _ hsame)
  · exact fun hroomy mem contents hsame => (h.other mem hsame).filled hb hlt hroomy

end Cramped

/-! ## In every run -/

section Runs

variable {t : MM.HoleTable} {totMem base : Nat} {b : MM.Boot} {sizes : Nat → Nat} {buf : Buffers}

/-- The stack is fetched without a change of the file. -/
theorem fetchStack_file {s : System} {who : MM.Proc} {rq : Execs.Request} {k : FS.Fd}
    {file : ExecFile} {l : Loadable} (h : Execs.fetchStack buf s who rq k file = .ok l) :
    l.file = file := by
  unfold Execs.fetchStack at h
  dsimp only at h
  split at h
  · cases h
  · split at h
    · cases h
    · cases h
      rfl

/-- And so what is accepted in a run is. -/
theorem accepted_of_reach (hb : b.WellFormed) (htot : b.tot < 65536) (hlt : totMem < 65536)
    (hbuilt : Maps.Built b base sizes) (hbuf : Execs.Placed buf base sizes) (hap : Apart buf)
    {s s₁ s' : System}
    (hr : Reach Maps.step (fun st r => MM.AsIssued st.mm r ∧ MM.InitFits b st.mm r)
      (Maps.Started t totMem b base sizes) ⟨s.mm, s.kernel.pMap⟩) {who : MM.Proc}
    (hle : MM.INIT_PROC_NR ≤ who) (hl : (s.mm.mproc who).live = true) (hfits : MM.Fits b s.mm who)
    {w : Execs.World} {rq : Execs.Request} {k : FS.Fd} {file : ExecFile} {l : Loadable}
    (ho : Execs.openExec w buf s who rq = .ok (k, file, s₁))
    (hf : Execs.fetchStack buf s₁ who rq k file = .ok l)
    (hrun : replaceImage buf who l = some (.ok (true, s'))) : Accepted totMem b buf who l := by
  have hprep := Execs.prepared_of_reach hb htot hlt hbuilt hbuf hr hle hl
  have hopened : Execs.Opened who s s₁ k ∧ Kernel.virBytes rq.stackBytes ≤ MAX_ISTACK_BYTES := by
    rcases hprep.openExec_cases hb w rq with ⟨r, s₂, he, -⟩ | ⟨k', file', s₂, he, hi, hstk⟩
    · rw [ho] at he
      cases he
    · rw [ho] at he
      cases he
      exact ⟨hi, hstk⟩
  have hfetched : Execs.Opened who s l.s k ∧
      Execs.readFile file (Kernel.virBytes rq.stackBytes) = .ok l.im ∧ l.file = file := by
    rcases hprep.fetchStack_cases hb hopened.1 hopened.2 file with
      ⟨r, s₂, he, -⟩ | ⟨l', he, hi, -, him⟩
    · rw [hf] at he
      cases he
    · obtain rfl := Except.ok.inj (hf.symm.trans he)
      exact ⟨hi, him, fetchStack_file hf⟩
  obtain ⟨hi, him, rfl⟩ := hfetched
  exact ⟨⟨hi.mm ▸ hprep.orderly, hle, hi.mm ▸ hprep.inUse, hi.kernel ▸ hprep.u,
    hi.kernel ▸ hprep.mbuf, hi.kernel ▸ hprep.below⟩, hi.mm ▸ hl, hi.mm ▸ hfits, hap,
    ⟨_, hopened.2, him⟩, replaceImage_room hrun⟩

end Runs

/-- The call comes to its end, and everything is read. -/
def runsThrough (buf : Buffers) (who : MM.Proc) (l : Loadable) : Bool :=
  match replaceImage buf who l with
  | some (.ok (read, _)) => read
  | _ => false

/-- A call that runs through comes to its end. -/
theorem exists_of_runsThrough {buf : Buffers} {who : MM.Proc} {l : Loadable}
    (h : runsThrough buf who l = true) : ∃ s', replaceImage buf who l = some (.ok (true, s')) := by
  unfold runsThrough at h
  split at h
  · rename_i read s' hrun
    exact ⟨s', by rw [hrun, h]⟩
  · cases h

end Minix.ExecImages
