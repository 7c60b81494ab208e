import Mathlib.Algebra.Order.Ring.Int
import Mathlib.Data.List.GetD
import Minix.Lib.Literals

/-!
# Buffered input

A stream that is open for reading has a buffer with what was read last, a pointer into it, and a
count. The kernel has an offset for its descriptor, which is where the buffer ends.

An int has 16 bits and a long 32. Reads and seeks are those of a regular file.
-/

namespace Minix.Libc

/-- The size of the buffer. -/
abbrev BUFSIZ : Nat := 1024

/-- What `getc` returns at the end of the file. -/
abbrev EOF : Int := -1

/-- `(long) n`. -/
def long (n : Int) : Int := Int.bmod n 4294967296

/-- A stream with the flag READMODE, a buffer, and without UNBUFF. -/
structure Stream where
  /-- `_count` -/
  count : Int
  /-- `_EOF` of `_flags` -/
  eof : Bool
  /-- `_ERR` of `_flags` -/
  err : Bool
  /-- what `_buf` points to -/
  buf : Nat → BitVec 8
  /-- `_ptr - _buf` -/
  ptr : Int
  /-- the offset of `_fd` -/
  pos : Int

/-- What `fopen` gives, with a buffer that has anything in it. -/
def fopen (buf : Nat → BitVec 8) : Stream := ⟨0, false, false, buf, 0, 0⟩

/-- `read(iop->_fd, iop->_buf, BUFSIZ)`, with the count set to what it returns. -/
def fill (data : List (BitVec 8)) (s : Stream) : Stream :=
  let got := (data.drop s.pos.toNat).take BUFSIZ
  { s with count := got.length, buf := fun i => got.getD i (s.buf i), pos := s.pos + got.length }

/-- `*iop->_ptr++ & CMASK`. -/
def next (s : Stream) : Int × Stream := ((s.buf s.ptr.toNat).toNat, { s with ptr := s.ptr + 1 })

/-- The next byte, or -1 at the end of the file. -/
def getc (data : List (BitVec 8)) (s : Stream) : Int × Stream :=
  if s.eof ∨ s.err then (EOF, s)
  else if s.count - 1 ≤ 0 then
    let s := fill data s
    if s.count ≤ 0 then
      (EOF, if s.count = 0 then { s with eof := true } else { s with err := true })
    else next { s with ptr := 0 }
  else next { s with count := s.count - 1 }

/-- A byte put back in front of the buffer. -/
def ungetc (ch : Int) (s : Stream) : Int × Stream :=
  if ch < 0 then (EOF, s)
  else if s.count ≥ BUFSIZ then (EOF, s)
  else
    let ptr := if s.ptr = 0 then 1 else s.ptr
    (ch, { s with
      count := s.count + 1
      ptr := ptr - 1
      buf := Function.update s.buf (ptr - 1).toNat (BitVec.ofInt 8 ch) })

/-- The offset that `lseek` moves to from `pos`, if it is not negative. -/
def seekTo (data : List (BitVec 8)) (pos offset : Int) (whence : Fin 3) : Int :=
  if whence = 0 then offset else if whence = 1 then long (pos + offset)
  else long (data.length + offset)

/-- The system call: the new position, or -1 where it would be negative. -/
def lseek (data : List (BitVec 8)) (s : Stream) (offset : Int) (whence : Fin 3) : Int × Stream :=
  let pos := seekTo data s.pos offset whence
  if pos < 0 then (-1, s) else (pos, { s with pos := pos })

/-- How far the pointer has to be moved, for `where < 2`. -/
def displacement (s : Stream) (offset : Int) (whence : Fin 3) : Int :=
  if whence = 0 then long (offset + (s.count - s.pos - 1)) else offset

/-- `fseek`, as `fseek.c` has it. -/
def fseek (data : List (BitVec 8)) (s : Stream) (offset : Int) (whence : Fin 3) : Int × Stream :=
  let s := { s with eof := false, err := false }
  let pos := displacement s offset whence
  if whence < 2 ∧ s.count > 0 ∧ pos ≤ s.count ∧ pos ≥ -s.ptr then
    (0, { s with ptr := s.ptr + pos, count := s.count - pos })
  else
    let offset := if whence = 1 then long (offset - s.count) else offset
    let out := lseek data s offset whence
    (if out.1 = -1 then -1 else 0, { out.2 with count := 0 })

/-- `ftell`: the position of the file less what is left in the buffer. -/
def ftell (s : Stream) : Int := s.pos - s.count

/-! ## A file with one offset -/

/-- The operations. A byte is only put back when `getc` has returned it. -/
inductive Op where
  | getc
  | ungetc
  | fseek (offset : BitVec 32) (whence : Fin 3)
  | ftell

/-- A stream, and what the last `getc` has returned. -/
structure Reader where
  stream : Stream
  last : Int

/-- One operation on a stream. -/
def Reader.step (data : List (BitVec 8)) (s : Reader) : Op → Int × Reader
  | .getc => ((getc data s.stream).1, ⟨(getc data s.stream).2, (getc data s.stream).1⟩)
  | .ungetc => ((ungetc s.last s.stream).1, ⟨(ungetc s.last s.stream).2, EOF⟩)
  | .fseek offset whence =>
    ((fseek data s.stream offset.toInt whence).1,
      ⟨(fseek data s.stream offset.toInt whence).2, EOF⟩)
  | .ftell => (ftell s.stream, s)

/-- A file with one logical offset. -/
structure File where
  offset : Int
  last : Int

/-- The byte at the offset is read. -/
def File.getc (data : List (BitVec 8)) (f : File) : Int × File :=
  match data[f.offset.toNat]? with
  | some byte => (byte.toNat, ⟨f.offset + 1, byte.toNat⟩)
  | none => (EOF, ⟨f.offset, EOF⟩)

/-- The same operation on such a file. -/
def File.step (data : List (BitVec 8)) (f : File) : Op → Int × File
  | .getc => f.getc data
  | .ungetc => if f.last < 0 then (EOF, ⟨f.offset, EOF⟩) else (f.last, ⟨f.offset - 1, EOF⟩)
  | .fseek offset whence =>
    let pos := seekTo data f.offset offset.toInt whence
    if pos < 0 then (-1, ⟨f.offset, EOF⟩) else (0, ⟨pos, EOF⟩)
  | .ftell => (f.offset, f)

/-- The logical offset of a stream: where the byte lies that is read next. -/
def Stream.offset (s : Stream) : Int := if s.count > 0 then s.pos - s.count + 1 else s.pos

/-- A stream behaves as a file, operation by operation: both return the same, and are at the same
offset afterwards. -/
def Follows (data : List (BitVec 8)) : List Op → Reader → File → Prop
  | [], _, _ => True
  | op :: ops, s, f =>
    (s.step data op).1 = (f.step data op).1 ∧
      (s.step data op).2.stream.offset = (f.step data op).2.offset ∧
      Follows data ops (s.step data op).2 (f.step data op).2

/-- The place to seek is in the buffer, or at most one byte beyond it. -/
def Near (s : Stream) (offset : Int) (whence : Fin 3) : Prop :=
  whence < 2 ∧ displacement s offset whence ≤ s.count ∧ displacement s offset whence ≥ -s.ptr

/-- When `fseek` gets to the offset that it should, once something has been read into the buffer:
not when the place is one byte beyond the buffer, and from the current offset only when the place is
in the buffer. When it can't be reached, the offset is lost unless the buffer has been used up. -/
def SeekFits (data : List (BitVec 8)) (s : Stream) (offset : Int) (whence : Fin 3) : Prop :=
  0 < s.count →
    (Near s offset whence → displacement s offset whence ≠ s.count) ∧
      (¬Near s offset whence →
        whence ≠ 1 ∧ 0 ≤ seekTo data s.pos offset whence ∨
          s.count = 1 ∧ seekTo data s.pos offset whence < 0 ∧
            (whence = 1 → seekTo data s.pos (long (offset - 1)) 1 < 0))

instance (s : Stream) (offset : Int) (whence : Fin 3) : Decidable (Near s offset whence) :=
  inferInstanceAs (Decidable (_ ∧ _))

instance (data : List (BitVec 8)) (s : Stream) (offset : Int) (whence : Fin 3) :
    Decidable (SeekFits data s offset whence) :=
  inferInstanceAs (Decidable (_ → _ ∧ _))

/-- When an operation does what it should: `ungetc` finds that the count is below the size of the
buffer, `ftell` that nothing has been read into it. -/
def StepFits (data : List (BitVec 8)) (s : Reader) : Op → Prop
  | .getc => True
  | .ungetc => 0 ≤ s.last → s.stream.count < BUFSIZ
  | .fseek offset whence => SeekFits data s.stream offset.toInt whence
  | .ftell => s.stream.count ≤ 0

instance (data : List (BitVec 8)) (s : Reader) : (op : Op) → Decidable (StepFits data s op)
  | .getc => inferInstanceAs (Decidable True)
  | .ungetc => inferInstanceAs (Decidable (_ → _))
  | .fseek offset whence =>
    inferInstanceAs (Decidable (SeekFits data s.stream offset.toInt whence))
  | .ftell => inferInstanceAs (Decidable (_ ≤ _))

/-- Every operation of a run does what it should. -/
def Fits (data : List (BitVec 8)) : List Op → Reader → Prop
  | [], _ => True
  | op :: ops, s => StepFits data s op ∧ Fits data ops (s.step data op).2

instance decidableFits (data : List (BitVec 8)) :
    (ops : List Op) → (s : Reader) → Decidable (Fits data ops s)
  | [], _ => inferInstanceAs (Decidable True)
  | op :: ops, s =>
    have := decidableFits data ops (s.step data op).2
    inferInstanceAs (Decidable (_ ∧ _))

/-! ## The buffer of a stream -/

section Streams

variable {data : List (BitVec 8)} {s : Reader} {f : File} {st : Stream}

/-- The buffer has a piece of the file, the pointer is in it or at its end, and the count is that of
the bytes that are left, and one more. -/
def Buffered (data : List (BitVec 8)) (s : Stream) : Prop :=
  ∃ start n : Nat, n ≤ BUFSIZ ∧ start + n ≤ data.length ∧ s.pos = (start + n : Nat) ∧
    0 ≤ s.ptr ∧ s.ptr ≤ n ∧ s.count = n - s.ptr + 1 ∧ ∀ i < n, data[start + i]? = some (s.buf i)

/-- What is kept of a stream: it is at the offset of the file. -/
structure Tracks (data : List (BitVec 8)) (s : Reader) (f : File) : Prop where
  noErr : s.stream.err = false
  offset : s.stream.offset = f.offset
  last : s.last = f.last
  pos : 0 ≤ s.stream.pos ∧ s.stream.pos < 2147483648
  count : 0 ≤ s.stream.count
  eof : s.stream.eof = true → s.stream.count = 0 ∧ data.length ≤ s.stream.pos
  buffered : 0 < s.stream.count → Buffered data s.stream
  held : 0 ≤ s.last → 0 < s.stream.count ∧ 0 < s.stream.ptr ∧
    s.last = (s.stream.buf (s.stream.ptr - 1).toNat).toNat

/-- The offset of a stream with bytes in its buffer. -/
theorem offset_buffered (h : 0 < st.count) : st.offset = st.pos - st.count + 1 := if_pos h

/-- The offset of a stream whose buffer is used up. -/
theorem offset_empty (h : st.count ≤ 0) : st.offset = st.pos := if_neg (not_lt.mpr h)

/-- A byte is taken from the buffer. -/
theorem next_buffered {start n : Nat} (hn : n ≤ BUFSIZ) (hlen : start + n ≤ data.length)
    (hpos : st.pos = (start + n : Nat)) (hptr : 0 ≤ st.ptr ∧ st.ptr < n)
    (hcount : st.count = n - st.ptr) (hbuf : ∀ i < n, data[start + i]? = some (st.buf i)) :
    data[(start + st.ptr).toNat]? = some (st.buf st.ptr.toNat) ∧
      Buffered data (next st).2 ∧ (next st).2.offset = start + st.ptr + 1 := by
  have hidx : (start + st.ptr).toNat = start + st.ptr.toNat := by omega
  refine ⟨by rw [hidx]; exact hbuf _ (by omega), ⟨start, n, hn, hlen, hpos, ?_, ?_, ?_, hbuf⟩, ?_⟩
  · change 0 ≤ st.ptr + 1
    omega
  · change st.ptr + 1 ≤ n
    omega
  · change st.count = n - (st.ptr + 1) + 1
    omega
  · have hc : 0 < (next st).2.count := by
      change 0 < st.count
      omega
    rw [offset_buffered hc]
    change st.pos - st.count + 1 = _
    omega

/-- The buffer is filled from the offset on. -/
theorem fill_buf (data : List (BitVec 8)) (st : Stream) :
    ∀ i < ((data.drop st.pos.toNat).take BUFSIZ).length,
      data[st.pos.toNat + i]? = some ((fill data st).buf i) := by
  intro i hi
  unfold fill
  dsimp only
  rw [List.getD_eq_getElem _ _ hi, List.getElem_take, List.getElem_drop]
  exact List.getElem?_eq_getElem _

/-- How many bytes a fill gets. -/
theorem fill_length (data : List (BitVec 8)) (st : Stream) :
    (fill data st).count = (min 1024 (data.length - st.pos.toNat) : Nat) := by
  change (((data.drop st.pos.toNat).take BUFSIZ).length : Int) = _
  rw [List.length_take, List.length_drop]

/-- And how far it moves the position. -/
theorem fill_pos (data : List (BitVec 8)) (st : Stream) :
    (fill data st).pos = st.pos + (fill data st).count := rfl

/-- A read of the plain file within its length. -/
theorem File.getc_some {byte : BitVec 8} (h : data[f.offset.toNat]? = some byte) :
    f.step data .getc = ((byte.toNat : Int), ⟨f.offset + 1, byte.toNat⟩) := by
  change f.getc data = _
  unfold File.getc
  rw [h]

/-- And at its end. -/
theorem File.getc_none (h : data.length ≤ f.offset) :
    f.step data .getc = (EOF, ⟨f.offset, EOF⟩) := by
  have hnone : data[f.offset.toNat]? = none := List.getElem?_eq_none (by omega)
  change f.getc data = _
  unfold File.getc
  rw [hnone]

/-- A stream that has a byte in its buffer, from where it is taken. -/
theorem next_tracks (start n : Nat) (hn : n ≤ BUFSIZ) (hlen : start + n ≤ data.length)
    (hmax : data.length < 2147483648) (hpos : st.pos = (start + n : Nat))
    (hptr : 0 ≤ st.ptr ∧ st.ptr < n) (hcount : st.count = n - st.ptr)
    (hbuf : ∀ i < n, data[start + i]? = some (st.buf i)) (herr : st.err = false)
    (heof : st.eof = false) (hoff : f.offset = start + st.ptr) :
    (next st).1 = (f.step data .getc).1 ∧
      Tracks data ⟨(next st).2, (next st).1⟩ (f.step data .getc).2 := by
  obtain ⟨hbyte, hbuffered, hnext⟩ := next_buffered hn hlen hpos hptr hcount hbuf
  rw [← hoff] at hbyte
  rw [File.getc_some hbyte]
  have hidx : (st.ptr + 1 - 1).toNat = st.ptr.toNat := by omega
  refine ⟨rfl, herr, hnext.trans (by rw [hoff]), rfl, ?_, ?_, fun he => ?_, fun _ => hbuffered,
    fun _ => ?_⟩
  · change 0 ≤ st.pos ∧ st.pos < 2147483648
    omega
  · change 0 ≤ st.count
    omega
  · exact absurd (heof.symm.trans he) (by decide)
  · refine ⟨?_, ?_, ?_⟩
    · change 0 < st.count
      omega
    · change 0 < st.ptr + 1
      omega
    · change ((st.buf st.ptr.toNat).toNat : Int) = (st.buf (st.ptr + 1 - 1).toNat).toNat
      rw [hidx]

/-- A stream with nothing in its buffer. -/
theorem Tracks.empty (herr : st.err = false) (hcount : st.count = 0)
    (hpos : 0 ≤ st.pos ∧ st.pos < 2147483648)
    (heof : st.eof = true → data.length ≤ st.pos) (hoff : st.pos = f.offset)
    (hlast : f.last = EOF) : Tracks data ⟨st, EOF⟩ f where
  noErr := herr
  offset := (offset_empty hcount.le).trans hoff
  last := hlast.symm
  pos := hpos
  count := hcount.ge
  eof he := ⟨hcount, heof he⟩
  buffered hp := absurd hcount hp.ne'
  held h := absurd h (by decide : ¬0 ≤ EOF)

/-- `getc` returns what the plain file does. -/
theorem getc_tracks (hmax : data.length < 2147483648) (h : Tracks data s f) :
    (s.step data .getc).1 = (f.step data .getc).1 ∧
      Tracks data (s.step data .getc).2 (f.step data .getc).2 := by
  obtain ⟨st, last⟩ := s
  obtain ⟨herr, hoff, hlast, hpos, hcount, heof, hbuffered, hheld⟩ := h
  dsimp only at herr hoff hpos hcount heof hbuffered hheld
  change (getc data st).1 = _ ∧ Tracks data ⟨(getc data st).2, (getc data st).1⟩ _
  unfold getc
  by_cases he : st.eof = true
  · obtain ⟨hc, hend⟩ := heof he
    rw [offset_empty hc.le] at hoff
    rw [if_pos (Or.inl he), File.getc_none (by rw [← hoff]; exact hend)]
    exact ⟨rfl, .empty herr hc hpos (fun _ => hend) hoff rfl⟩
  rw [if_neg (not_or.mpr ⟨he, by rw [herr]; decide⟩)]
  split
  · have hat : st.offset = st.pos := by
      rcases hcount.eq_or_lt with hz | hp
      · exact offset_empty (by omega)
      · rw [offset_buffered hp]
        omega
    rw [hat] at hoff
    have hlength := fill_length data st
    have hfpos := fill_pos data st
    have hbuf := fill_buf data st
    dsimp only
    split
    · have hzero : (fill data st).count = 0 := by omega
      rw [if_pos hzero, File.getc_none (by rw [← hoff]; omega)]
      have hsame : (fill data st).pos = st.pos := by omega
      exact ⟨rfl, .empty herr hzero (hsame ▸ hpos)
        (fun _ => show (data.length : Int) ≤ (fill data st).pos by omega) (hsame.trans hoff) rfl⟩
    · obtain ⟨n, hn⟩ : ∃ n : Nat, (fill data st).count = n := ⟨_, hlength⟩
      have hlen : ((data.drop st.pos.toNat).take BUFSIZ).length = n := Int.ofNat.inj hn
      rw [hlen] at hbuf
      refine next_tracks st.pos.toNat n ?_ ?_ hmax ?_ ⟨le_rfl, ?_⟩ ?_ hbuf herr
        (Bool.eq_false_iff.mpr he) ?_
      · change n ≤ 1024
        omega
      · omega
      · change (fill data st).pos = _
        omega
      · change (0 : Int) < n
        omega
      · change (fill data st).count = n - 0
        omega
      · change f.offset = st.pos.toNat + 0
        omega
  · obtain ⟨start, n, hn, hlen, hp, hptr, hptr', hc, hbuf⟩ := hbuffered (by omega)
    rw [offset_buffered (by omega)] at hoff
    refine next_tracks start n hn hlen hmax hp ⟨hptr, ?_⟩ ?_ hbuf herr
      (Bool.eq_false_iff.mpr he) ?_
    · change st.ptr < n
      omega
    · change st.count - 1 = n - st.ptr
      omega
    · change f.offset = start + st.ptr
      omega

/-- `ftell` subtracts one more than there are bytes left. -/
theorem ftell_fits (h : Tracks data s f) :
    (s.step data .ftell).1 = (f.step data .ftell).1 ↔ StepFits data s .ftell := by
  change s.stream.pos - s.stream.count = f.offset ↔ s.stream.count ≤ 0
  have hcount := h.count
  have hoff := h.offset
  rcases hcount.eq_or_lt with hz | hp
  · rw [offset_empty hz.ge] at hoff
    omega
  · rw [offset_buffered hp] at hoff
    omega

/-- A byte is put back unless the buffer is full. -/
theorem ungetc_fits (h : Tracks data s f) (hlast : 0 ≤ s.last) :
    (s.step data .ungetc).1 = (f.step data .ungetc).1 ↔ StepFits data s .ungetc := by
  have hs : ¬s.last < 0 := by omega
  have hf : (f.step data .ungetc).1 = s.last := by
    change (if f.last < 0 then _ else _ : Int × File).1 = _
    rw [h.last] at hs ⊢
    rw [if_neg hs]
  rw [hf]
  change (ungetc s.last s.stream).1 = s.last ↔ (0 ≤ s.last → s.stream.count < BUFSIZ)
  unfold ungetc
  rw [if_neg hs]
  split
  · rename_i hfull
    constructor
    · intro he
      have he : EOF = s.last := he
      rw [← he] at hlast
      exact absurd hlast (by decide)
    · intro hlt
      exact absurd (hlt hlast) (by omega)
  · rename_i hfull
    exact ⟨fun _ _ => by omega, fun _ => rfl⟩

/-- The byte that is put back is in the buffer already. -/
theorem ungetc_held (h : Tracks data s f) (hlast : 0 ≤ s.last) (hlt : s.stream.count < BUFSIZ) :
    ungetc s.last s.stream = (s.last, { s.stream with
      count := s.stream.count + 1
      ptr := s.stream.ptr - 1 }) := by
  obtain ⟨-, hptr, hbyte⟩ := h.held hlast
  unfold ungetc
  rw [if_neg (by omega), if_neg (by omega), if_neg (by omega)]
  dsimp only
  have hsame : BitVec.ofInt 8 s.last = s.stream.buf (s.stream.ptr - 1).toNat := by
    rw [hbyte, BitVec.ofInt_natCast, BitVec.ofNat_toNat, BitVec.setWidth_eq]
  rw [hsame, Function.update_eq_self]

/-- So does `ungetc`, under its condition. -/
theorem ungetc_tracks (h : Tracks data s f) (hfit : StepFits data s .ungetc) :
    (s.step data .ungetc).1 = (f.step data .ungetc).1 ∧
      Tracks data (s.step data .ungetc).2 (f.step data .ungetc).2 := by
  by_cases hlast : 0 ≤ s.last
  · refine ⟨(ungetc_fits h hlast).mpr hfit, ?_⟩
    obtain ⟨hcount, hptr, -⟩ := h.held hlast
    obtain ⟨start, n, hn, hlen, hp, -, hptr', hc, hbuf⟩ := h.buffered hcount
    have hheld := ungetc_held h hlast (hfit hlast)
    have hf : (f.step data .ungetc).2 = ⟨f.offset - 1, EOF⟩ := by
      change (if f.last < 0 then _ else _ : Int × File).2 = _
      rw [if_neg (by rw [← h.last]; omega)]
    have hoff := h.offset
    rw [offset_buffered hcount] at hoff
    have hpos : 0 < s.stream.count + 1 := by omega
    rw [hf]
    change Tracks data ⟨(ungetc s.last s.stream).2, EOF⟩ _
    rw [hheld]
    refine ⟨h.noErr, (offset_buffered hpos).trans ?_, rfl, h.pos, hpos.le, fun he => ?_,
      fun _ => ⟨start, n, hn, hlen, hp, ?_, ?_, ?_, hbuf⟩,
      fun h => absurd h (by decide : ¬0 ≤ EOF)⟩
    · change s.stream.pos - (s.stream.count + 1) + 1 = f.offset - 1
      omega
    · exact absurd (h.eof he).1 hcount.ne'
    · change 0 ≤ s.stream.ptr - 1
      omega
    · change s.stream.ptr - 1 ≤ n
      omega
    · change s.stream.count + 1 = n - (s.stream.ptr - 1) + 1
      omega
  · have hs : ungetc s.last s.stream = (EOF, s.stream) := if_pos (not_le.mp hlast)
    have hf : f.step data .ungetc = (EOF, ⟨f.offset, EOF⟩) :=
      if_pos (h.last ▸ not_le.mp hlast)
    rw [hf]
    change (ungetc s.last s.stream).1 = EOF ∧
      Tracks data ⟨(ungetc s.last s.stream).2, EOF⟩ ⟨f.offset, EOF⟩
    rw [hs]
    exact ⟨rfl, h.noErr, h.offset, rfl, h.pos, h.count, h.eof, h.buffered,
      fun h => absurd h (by decide : ¬0 ≤ EOF)⟩

/-! ## Seeking -/

/-- A number cut to a long differs from it by a multiple of 2^32. -/
theorem long_spec (n : Int) :
    (∃ q, long n = n - 4294967296 * q) ∧ -2147483648 ≤ long n ∧ long n < 2147483648 := by
  unfold long
  rw [Int.bmod_def]
  split
  · exact ⟨⟨n / 4294967296, by omega⟩, by omega, by omega⟩
  · exact ⟨⟨n / 4294967296 + 1, by omega⟩, by omega, by omega⟩

/-- The three ways to seek. -/
theorem whence_cases (whence : Fin 3) : whence = 0 ∨ whence = 1 ∨ whence = 2 := by omega

/-- Inside the buffer, only the pointer and the count are changed. -/
theorem fseek_near {offset : Int} {whence : Fin 3} (hc : 0 < st.count)
    (hn : Near st offset whence) : fseek data st offset whence = (0, { st with
      eof := false
      err := false
      ptr := st.ptr + displacement st offset whence
      count := st.count - displacement st offset whence }) :=
  if_pos ⟨hn.1, hc, hn.2⟩

/-- Where the slow path seeks. -/
def slowTarget (data : List (BitVec 8)) (s : Stream) (offset : Int) (whence : Fin 3) : Int :=
  seekTo data s.pos (if whence = 1 then long (offset - s.count) else offset) whence

/-- Otherwise the buffer is discarded. -/
theorem fseek_far {offset : Int} {whence : Fin 3} (hn : ¬(0 < st.count ∧ Near st offset whence)) :
    fseek data st offset whence =
      if slowTarget data st offset whence < 0 then
        (-1, { st with eof := false, err := false, count := 0 })
      else (0, { st with
        eof := false
        err := false
        pos := slowTarget data st offset whence
        count := 0 }) := by
  have hl : ∀ st' : Stream, st'.pos = st.pos → lseek data st'
      (if whence = 1 then long (offset - st.count) else offset) whence =
      if slowTarget data st offset whence < 0 then (-1, st')
      else (slowTarget data st offset whence,
        { st' with pos := slowTarget data st offset whence }) := fun st' h => by
    unfold lseek slowTarget
    rw [h]
  unfold fseek
  rw [if_neg fun h => hn ⟨h.2.1, h.1, h.2.2⟩]
  dsimp only
  rw [hl { st with eof := false, err := false } rfl]
  split
  · rfl
  · rw [if_neg (by dsimp only; omega)]

/-- The file seeks from its own offset. -/
theorem File.fseek_eq (data : List (BitVec 8)) (f : File) (offset : BitVec 32) (whence : Fin 3) :
    f.step data (.fseek offset whence) =
      if seekTo data f.offset offset.toInt whence < 0 then (-1, ⟨f.offset, EOF⟩)
      else (0, ⟨seekTo data f.offset offset.toInt whence, EOF⟩) := rfl

/-- A byte of the buffer, or the end of it, has the displacement that it should have. -/
theorem near_target {offset : Int} {whence : Fin 3} (h : Tracks data ⟨st, s.last⟩ f)
    (hoff : -2147483648 ≤ offset ∧ offset < 2147483648) (hc : 0 < st.count)
    (hn : Near st offset whence) (hne : displacement st offset whence ≠ st.count) :
    seekTo data f.offset offset whence = f.offset + displacement st offset whence ∧
      0 ≤ f.offset + displacement st offset whence := by
  obtain ⟨start, n, -, -, hp, hptr, hptr', hcount, -⟩ := h.buffered hc
  obtain ⟨hlt, hle, hge⟩ := hn
  have ho := h.offset
  have hpos := h.pos
  dsimp only at ho hpos hp hptr hptr' hcount
  rw [offset_buffered hc] at ho
  rcases whence_cases whence with rfl | rfl | rfl
  · obtain ⟨⟨q, hq⟩, hlo, hhi⟩ := long_spec (offset + (st.count - st.pos - 1))
    change displacement st offset 0 = _ at hq
    change -2147483648 ≤ displacement st offset 0 at hlo
    change seekTo data f.offset offset 0 = _ ∧ _
    have ht : seekTo data f.offset offset 0 = offset := rfl
    rw [ht]
    generalize displacement st offset 0 = disp at *
    constructor <;> omega
  · have hd : displacement st offset 1 = offset := rfl
    have ht : seekTo data f.offset offset 1 = long (f.offset + offset) := rfl
    obtain ⟨⟨q, hq⟩, hlo, hhi⟩ := long_spec (f.offset + offset)
    rw [hd] at hle hge hne ⊢
    rw [ht]
    constructor <;> omega
  · exact absurd hlt (by decide)

/-- After the fast path, the stream is where the file is, unless the place was one byte beyond the
buffer. -/
theorem fseek_near_tracks {offset : BitVec 32} {whence : Fin 3} (h : Tracks data s f)
    (hc : 0 < s.stream.count) (hn : Near s.stream offset.toInt whence)
    (hne : displacement s.stream offset.toInt whence ≠ s.stream.count) :
    (s.step data (.fseek offset whence)).1 = (f.step data (.fseek offset whence)).1 ∧
      Tracks data (s.step data (.fseek offset whence)).2
        (f.step data (.fseek offset whence)).2 := by
  have hoff : -2147483648 ≤ offset.toInt ∧ offset.toInt < 2147483648 :=
    ⟨offset.le_toInt, offset.toInt_lt⟩
  obtain ⟨htarget, h0⟩ := near_target h hoff hc hn hne
  obtain ⟨start, n, hsize, hlen, hp, hptr, hptr', hcount, hbuf⟩ := h.buffered hc
  obtain ⟨-, hle, hge⟩ := id hn
  have ho := h.offset
  rw [offset_buffered hc] at ho
  rw [File.fseek_eq, htarget, if_neg (not_lt.mpr h0)]
  change (fseek data s.stream offset.toInt whence).1 = _ ∧
    Tracks data ⟨(fseek data s.stream offset.toInt whence).2, EOF⟩ _
  rw [fseek_near hc hn]
  generalize displacement s.stream offset.toInt whence = disp at *
  have hpos : 0 < s.stream.count - disp := by omega
  refine ⟨rfl, rfl, (offset_buffered hpos).trans ?_, rfl, h.pos, hpos.le, fun he => ?_,
    fun _ => ⟨start, n, hsize, hlen, hp, ?_, ?_, ?_, hbuf⟩,
    fun h => absurd h (by decide : ¬0 ≤ EOF)⟩
  · change s.stream.pos - (s.stream.count - disp) + 1 = f.offset + disp
    omega
  · exact absurd he (by decide : ¬false = true)
  · change 0 ≤ s.stream.ptr + disp
    omega
  · change s.stream.ptr + disp ≤ n
    omega
  · change s.stream.count - disp = n - (s.stream.ptr + disp) + 1
    omega

/-- The slow path seeks the place that it should, or neither place can be reached and the offset is
not lost. -/
theorem slow_fits {offset : Int} {whence : Fin 3} (h : Tracks data s f)
    (hoff : -2147483648 ≤ offset ∧ offset < 2147483648)
    (hn : ¬(0 < s.stream.count ∧ Near s.stream offset whence)) :
    SeekFits data s.stream offset whence ↔
      slowTarget data s.stream offset whence = seekTo data f.offset offset whence ∧
          0 ≤ seekTo data f.offset offset whence ∨
        slowTarget data s.stream offset whence < 0 ∧ seekTo data f.offset offset whence < 0 ∧
          s.stream.pos = f.offset := by
  have ho := h.offset
  rcases h.count.eq_or_lt with hz | hc
  · rw [offset_empty hz.ge] at ho
    have hfit : SeekFits data s.stream offset whence := fun hp => absurd hz hp.ne
    have hsame : slowTarget data s.stream offset whence = seekTo data f.offset offset whence := by
      unfold slowTarget
      rw [ho, ← hz]
      split
      · obtain ⟨⟨q, hq⟩, hlo, hhi⟩ := long_spec (offset - 0)
        have hl : long (offset - 0) = offset := by omega
        rw [hl]
      · rfl
    rw [hsame]
    refine ⟨fun _ => ?_, fun _ => hfit⟩
    rcases lt_or_ge (seekTo data f.offset offset whence) 0 with hneg | hpos
    · exact Or.inr ⟨hneg, hneg, ho⟩
    · exact Or.inl ⟨rfl, hpos⟩
  · have hnear : ¬Near s.stream offset whence := fun h => hn ⟨hc, h⟩
    rw [offset_buffered hc] at ho
    have hfit : SeekFits data s.stream offset whence ↔
        whence ≠ 1 ∧ 0 ≤ seekTo data s.stream.pos offset whence ∨
          s.stream.count = 1 ∧ seekTo data s.stream.pos offset whence < 0 ∧
            (whence = 1 → seekTo data s.stream.pos (long (offset - 1)) 1 < 0) :=
      ⟨fun h => (h hc).2 hnear, fun h _ => ⟨fun h' => absurd h' hnear, fun _ => h⟩⟩
    rw [hfit]
    have hother : whence ≠ 1 → slowTarget data s.stream offset whence =
        seekTo data f.offset offset whence ∧
        seekTo data s.stream.pos offset whence = seekTo data f.offset offset whence := fun hw => by
      unfold slowTarget seekTo
      rw [if_neg hw, if_neg hw, if_neg hw]
      exact ⟨rfl, rfl⟩
    by_cases hw : whence = 1
    · subst hw
      change _ ↔ long (s.stream.pos + long (offset - s.stream.count)) = long (f.offset + offset) ∧
          0 ≤ long (f.offset + offset) ∨
        long (s.stream.pos + long (offset - s.stream.count)) < 0 ∧ long (f.offset + offset) < 0 ∧
          _
      change _ ∨ _ ∧ long (s.stream.pos + offset) < 0 ∧
        (_ → long (s.stream.pos + long (offset - 1)) < 0) ↔ _
      obtain ⟨⟨q1, hq1⟩, hlo1, hhi1⟩ := long_spec (offset - s.stream.count)
      obtain ⟨⟨q2, hq2⟩, hlo2, hhi2⟩ :=
        long_spec (s.stream.pos + long (offset - s.stream.count))
      obtain ⟨⟨q3, hq3⟩, hlo3, hhi3⟩ := long_spec (f.offset + offset)
      have hne : long (s.stream.pos + long (offset - s.stream.count)) ≠
          long (f.offset + offset) := by omega
      constructor
      · rintro (⟨hw, -⟩ | ⟨hone, hk, hk'⟩)
        · exact absurd rfl hw
        · have hat : s.stream.pos = f.offset := by omega
          have hk' := hk' rfl
          rw [hat] at hk
          rw [hone]
          exact Or.inr ⟨hk', hk, hat⟩
      · rintro (⟨he, -⟩ | ⟨hk', hk, hat⟩)
        · exact absurd he hne
        · have hone : s.stream.count = 1 := by omega
          rw [hone] at hk'
          rw [hat] at hk' ⊢
          exact Or.inr ⟨hone, hk, fun _ => hk'⟩
    · obtain ⟨hs, hk⟩ := hother hw
      rw [hs, hk]
      constructor
      · rintro (⟨-, hpos⟩ | ⟨hone, hneg, -⟩)
        · exact Or.inl ⟨rfl, hpos⟩
        · exact Or.inr ⟨hneg, hneg, by omega⟩
      · rintro (⟨-, hpos⟩ | ⟨-, hneg, hat⟩)
        · exact Or.inl ⟨hw, hpos⟩
        · exact Or.inr ⟨by omega, hneg, fun h => absurd h hw⟩

/-- After the slow path, the stream is where the file is just when it has sought the right place. -/
theorem fseek_far_tracks {offset : BitVec 32} {whence : Fin 3} (h : Tracks data s f)
    (hn : ¬(0 < s.stream.count ∧ Near s.stream offset.toInt whence)) :
    ((s.step data (.fseek offset whence)).1 = (f.step data (.fseek offset whence)).1 ∧
      (s.step data (.fseek offset whence)).2.stream.offset =
        (f.step data (.fseek offset whence)).2.offset ↔
      SeekFits data s.stream offset.toInt whence) ∧
    (SeekFits data s.stream offset.toInt whence →
      Tracks data (s.step data (.fseek offset whence)).2
        (f.step data (.fseek offset whence)).2) := by
  have hoff : -2147483648 ≤ offset.toInt ∧ offset.toInt < 2147483648 :=
    ⟨offset.le_toInt, offset.toInt_lt⟩
  rw [slow_fits h hoff hn, File.fseek_eq]
  change (((fseek data s.stream offset.toInt whence).1 = _ ∧
    (fseek data s.stream offset.toInt whence).2.offset = _) ↔ _) ∧
    (_ → Tracks data ⟨(fseek data s.stream offset.toInt whence).2, EOF⟩ _)
  rw [fseek_far hn]
  have hlong : slowTarget data s.stream offset.toInt whence < 2147483648 := by
    unfold slowTarget seekTo
    split
    · split <;> first | exact hoff.2 | exact (long_spec _).2.2
    · split <;> exact (long_spec _).2.2
  generalize slowTarget data s.stream offset.toInt whence = slow at *
  generalize seekTo data f.offset offset.toInt whence = target at *
  have hempty : ∀ st : Stream, st.count = 0 → st.offset = st.pos := fun st hz =>
    offset_empty hz.le
  have heof : ∀ pos : Int, false = true → (data.length : Int) ≤ pos := fun _ he =>
    absurd he (by decide)
  by_cases hs : slow < 0
  · rw [if_pos hs, hempty _ rfl]
    by_cases ht : target < 0
    · rw [if_pos ht]
      refine ⟨⟨fun hd => Or.inr ⟨hs, ht, hd.2⟩, fun hd => ⟨rfl, ?_⟩⟩, fun hd => ?_⟩
      · exact (hd.resolve_left fun h => absurd h.2 (by omega)).2.2
      · exact .empty rfl rfl h.pos (heof _) (hd.resolve_left fun h => absurd h.2 (by omega)).2.2
          rfl
    · rw [if_neg ht]
      have hno : ¬(slow = target ∧ 0 ≤ target ∨
          slow < 0 ∧ target < 0 ∧ s.stream.pos = f.offset) := by omega
      exact ⟨⟨fun hd => absurd hd.1 (by decide : ¬(-1 : Int) = 0), fun hd => absurd hd hno⟩,
        fun hd => absurd hd hno⟩
  · rw [if_neg hs, hempty _ rfl]
    by_cases ht : target < 0
    · rw [if_pos ht]
      have hno : ¬(slow = target ∧ 0 ≤ target ∨
          slow < 0 ∧ target < 0 ∧ s.stream.pos = f.offset) := by omega
      exact ⟨⟨fun hd => absurd hd.1 (by decide : ¬(0 : Int) = -1), fun hd => absurd hd hno⟩,
        fun hd => absurd hd hno⟩
    · rw [if_neg ht]
      refine ⟨⟨fun hd => Or.inl ⟨hd.2, by omega⟩, fun hd => ⟨rfl, ?_⟩⟩, fun hd => ?_⟩
      · exact (hd.resolve_right fun h => hs h.1).1
      · exact .empty rfl rfl ⟨not_lt.mp hs, hlong⟩ (heof _) (hd.resolve_right fun h => hs h.1).1
          rfl

/-- One byte beyond the buffer is not where the buffer ends. -/
theorem near_end {offset : Int} {whence : Fin 3} (h : Tracks data s f) (hc : 0 < s.stream.count)
    (hn : Near s.stream offset whence)
    (hend : displacement s.stream offset whence = s.stream.count) :
    s.stream.pos ≠ seekTo data f.offset offset whence := by
  have ho := h.offset
  rw [offset_buffered hc] at ho
  rcases whence_cases whence with rfl | rfl | rfl
  · obtain ⟨⟨q, hq⟩, -⟩ := long_spec (offset + (s.stream.count - s.stream.pos - 1))
    change displacement s.stream offset 0 = _ at hq
    have ht : seekTo data f.offset offset 0 = offset := rfl
    rw [ht]
    omega
  · have hd : displacement s.stream offset 1 = offset := rfl
    have ht : seekTo data f.offset offset 1 = long (f.offset + offset) := rfl
    obtain ⟨⟨q, hq⟩, -⟩ := long_spec (f.offset + offset)
    rw [ht]
    omega
  · exact absurd hn.1 (by decide)

/-- Just when an operation does what it should, the stream follows the file. -/
theorem step_follows (hmax : data.length < 2147483648) (h : Tracks data s f) (op : Op) :
    ((s.step data op).1 = (f.step data op).1 ∧
      (s.step data op).2.stream.offset = (f.step data op).2.offset ↔ StepFits data s op) ∧
    (StepFits data s op → Tracks data (s.step data op).2 (f.step data op).2) := by
  cases op with
  | getc =>
    obtain ⟨hr, ht⟩ := getc_tracks hmax h
    exact ⟨⟨fun _ => trivial, fun _ => ⟨hr, ht.offset⟩⟩, fun _ => ht⟩
  | ungetc =>
    refine ⟨⟨fun hd hlast => (ungetc_fits h hlast).mp hd.1 hlast, fun hfit => ?_⟩,
      fun hfit => (ungetc_tracks h hfit).2⟩
    obtain ⟨hr, ht⟩ := ungetc_tracks h hfit
    exact ⟨hr, ht.offset⟩
  | ftell =>
    have hfits := ftell_fits h
    exact ⟨⟨fun hd => hfits.mp hd.1, fun hfit => ⟨hfits.mpr hfit, h.offset⟩⟩, fun _ => h⟩
  | fseek offset whence =>
    by_cases hn : 0 < s.stream.count ∧ Near s.stream offset.toInt whence
    · obtain ⟨hc, hn⟩ := hn
      have hfit : StepFits data s (.fseek offset whence) ↔
          displacement s.stream offset.toInt whence ≠ s.stream.count :=
        ⟨fun h => (h hc).1 hn, fun h _ => ⟨fun _ => h, fun h' => absurd hn h'⟩⟩
      rw [hfit]
      refine ⟨⟨fun hd hend => ?_, fun hne => ?_⟩, fun hne => (fseek_near_tracks h hc hn hne).2⟩
      · obtain ⟨hr, hat⟩ := hd
        rw [File.fseek_eq] at hr hat
        change (fseek data s.stream offset.toInt whence).1 = _ at hr
        change (fseek data s.stream offset.toInt whence).2.offset = _ at hat
        rw [fseek_near hc hn] at hr hat
        have hat' := (offset_empty (by dsimp only; omega)).symm.trans hat
        split at hr
        · exact absurd hr (by decide : ¬(0 : Int) = -1)
        · rename_i hpos
          rw [if_neg hpos] at hat'
          exact near_end h hc hn hend hat'
      · obtain ⟨hr, ht⟩ := fseek_near_tracks h hc hn hne
        exact ⟨hr, ht.offset⟩
    · exact fseek_far_tracks h hn

/-- Over a whole run, the stream follows the file just when every operation does what it should. -/
theorem follows_iff_of_tracks (hmax : data.length < 2147483648) (h : Tracks data s f)
    (ops : List Op) : Follows data ops s f ↔ Fits data ops s := by
  induction ops generalizing s f with
  | nil => exact Iff.rfl
  | cons op ops ih =>
    obtain ⟨hiff, htracks⟩ := step_follows hmax h op
    constructor
    · rintro ⟨hr, hat, hrest⟩
      have hfit := hiff.mp ⟨hr, hat⟩
      exact ⟨hfit, (ih (htracks hfit)).mp hrest⟩
    · rintro ⟨hfit, hrest⟩
      obtain ⟨hr, hat⟩ := hiff.mpr hfit
      exact ⟨hr, hat, (ih (htracks hfit)).mpr hrest⟩

/-- A stream that has just been opened. -/
theorem fopen_tracks (data : List (BitVec 8)) (buf : Nat → BitVec 8) :
    Tracks data ⟨fopen buf, EOF⟩ ⟨0, EOF⟩ :=
  .empty rfl rfl (by decide : (0 : Int) ≤ 0 ∧ (0 : Int) < 2147483648)
    (fun he => absurd he (by decide : ¬false = true)) rfl rfl

end Streams

/-- From when it is opened, a stream behaves as a file with one offset just when every operation of
the run does what it should. -/
theorem stream_follows_iff (data : List (BitVec 8)) (buf : Nat → BitVec 8)
    (hmax : data.length < 2147483648) (ops : List Op) :
    Follows data ops ⟨fopen buf, EOF⟩ ⟨0, EOF⟩ ↔ Fits data ops ⟨fopen buf, EOF⟩ :=
  follows_iff_of_tracks hmax (fopen_tracks data buf) ops

section Example

/-- Bytes are read, put back and read again, from the buffer and after a seek to the end. -/
theorem stream_follows_iff_reread : Follows [1, 2, 3] [.getc, .getc, .ungetc, .getc, .fseek 0 0,
    .getc, .fseek 0 2, .ftell, .getc] ⟨fopen fun _ => 0, EOF⟩ ⟨0, EOF⟩ :=
  (stream_follows_iff [1, 2, 3] (fun _ => 0) (by decide) _).mpr (by decide)

/-- When one byte has been read, `ftell` returns 0. -/
theorem stream_follows_told : ¬∀ (data : List (BitVec 8)) (buf : Nat → BitVec 8) (ops : List Op),
    data.length < 2147483648 → Follows data ops ⟨fopen buf, EOF⟩ ⟨0, EOF⟩ := by
  intro h
  obtain ⟨-, -, htold, -⟩ := h [1, 2, 3] (fun _ => 0) [.getc, .ftell] (by decide)
  exact absurd htold (by decide)

end Example

end Minix.Libc
