import Minix.MM.Mproc

/-!
# EXEC

The sizes come from the header of the file. The old core image is released before
the new memory is asked for, and whether the program has separate I & D space is
noted only when everything is done.
-/

namespace Minix.MM

/-- What EXEC is asked for, and what it meets on the way: whether the file name could be copied,
the descriptor of the file or an error, its header and mode, whether the stack could be copied. -/
structure ExecCall where
  stackBytes : Nat
  execLen : Int
  nameCopy : Int
  fd : Int
  header : Option (Fin 8 → Nat)
  stackCopy : Int
  stMode : Nat
  stUid : Nat
  stGid : Nat

/-- The sizes of a program that may be loaded: `ft` for separate I & D, and the bytes of text,
data, bss, the initial stack, and in all. -/
structure Image where
  ft : Bool
  textBytes : Nat
  dataBytes : Nat
  bssBytes : Nat
  stkBytes : Nat
  totBytes : Nat

/-- `vir_bytes` rounded up to clicks. -/
def virClicks (n : Nat) : Nat := (n + 15) % 65536 / 16

/-- `phys_bytes` rounded up to clicks, and cut to the 16 bits of a click count. -/
def physClicks (n : Nat) : Nat := (n + 15) / 16 % 65536

/-- The sizes in a header. If I & D space is not separated, it is all considered data; `vir_bytes`
has 16 bits. -/
def headerImage (buf : Fin 8 → Nat) (stkBytes : Nat) : Image :=
  let text := buf 2 % 65536
  let data := buf 3 % 65536
  { ft := buf 0 &&& 0x00200000 ≠ 0
    textBytes := if buf 0 &&& 0x00200000 ≠ 0 then text else 0
    dataBytes := if buf 0 &&& 0x00200000 ≠ 0 then data else (data + text) % 65536
    bssBytes := buf 4 % 65536
    stkBytes := stkBytes
    totBytes := buf 6 }

/-- Read the header and extract the text, data, bss and total sizes from it. -/
def readHeader (buf : Fin 8 → Nat) (stkBytes : Nat) : Except Int Image :=
  if buf 0 &&& 0xFF0FFFFF ≠ 0x04000301 then .error ENOEXEC
  else
    let im := headerImage buf stkBytes
    if im.totBytes = 0 then .error ENOEXEC
    else
      -- these two are rounded up by `CLICK_SHIFT - 1`
      let tc := (im.textBytes + 3) % 65536 / 16
      let dc := (im.dataBytes + im.bssBytes + 3) % 65536 / 16
      let totc := physClicks im.totBytes
      let sc := virClicks stkBytes
      if totc ≤ dc then .error ENOEXEC -- stack must be at least 1 click
      else
        let dvir := if im.ft then 0 else tc
        let m := sizeOk im.ft tc dc sc dvir (addClicks dvir (subClicks totc sc))
        if m < 0 then .error m else .ok im

/-- The validity checks of EXEC, up to where the sizes are known. -/
def execImage (a : ExecCall) : Except Int Image :=
  if 1024 < a.stackBytes then .error ENOMEM -- stack too big
  else if a.execLen ≤ 0 ∨ 128 < a.execLen then .error EINVAL
  else if a.nameCopy ≠ OK then .error a.nameCopy
  else if a.fd < 0 then .error a.fd -- file was not executable
  else match a.header with
    | none => .error ENOEXEC
    | some buf =>
      match readHeader buf a.stackBytes with
      | .error _ => .error ENOEXEC -- something wrong with header
      | .ok im => if a.stackCopy ≠ OK then .error EACCES else .ok im

namespace Image

def textClicks (im : Image) : Nat := virClicks im.textBytes
def dataClicks (im : Image) : Nat := virClicks (im.dataBytes + im.bssBytes)
def stackClicks (im : Image) : Nat := virClicks im.stkBytes
def totClicks (im : Image) : Nat := physClicks im.totBytes
def gapClicks (im : Image) : Nat := subClicks (subClicks im.totClicks im.dataClicks) im.stackClicks

/-- What `new_mem` asks for. -/
def clicks (im : Image) : Nat := addClicks im.textClicks im.totClicks

/-- The segments of the program at `newBase`. -/
def mapped (im : Image) (newBase : Nat) (m : Mproc) : Mproc :=
  let dPhys := addClicks newBase im.textClicks
  { m with
    segT := ⟨0, newBase, im.textClicks⟩
    segD := ⟨0, dPhys, im.dataClicks⟩
    segS := ⟨addClicks (addClicks 0 im.dataClicks) im.gapClicks,
      addClicks (addClicks dPhys im.dataClicks) im.gapClicks, im.stackClicks⟩ }

end Image

/-- The tests of `new_mem` before the point of no return. -/
def roomFor (t : HoleTable) (im : Image) : Option Int :=
  if 32768 ≤ im.gapClicks then some ENOMEM -- `(int) gap_clicks < 0`
  else (maxHole t).map fun max => if max < im.clicks then EAGAIN else OK

/-- Allocate new memory and release the old memory. -/
def newMem (s : State) (who : Proc) (im : Image) : Option (Int × State) := do
  let r ← roomFor s.table im
  if r ≠ OK then some (r, s)
  else do
    let s ← s.freeCore who
    let (newBase, t) ← allocMem s.table im.clicks
    if newBase = NO_MEM then none -- panic: "MM hole list is inconsistent"
    else some (OK, (s.grant who t ⟨newBase, im.clicks⟩).modify who (im.mapped newBase))

/-- The end of EXEC: the setuid and setgid bits, the caught signals, and separate I & D space. -/
def execDone (a : ExecCall) (ft : Bool) (m : Mproc) : Mproc :=
  { m with
    mpEffuid := if a.stMode &&& 0o4000 ≠ 0 then a.stUid else m.mpEffuid
    mpEffgid := if a.stMode &&& 0o2000 ≠ 0 then a.stGid else m.mpEffgid
    mpCatch := 0
    separate := ft }

/-- The EXEC call. -/
def doExec (s : State) (who : Proc) (a : ExecCall) : Option (Int × State) :=
  match execImage a with
  | .error e => some (e, s)
  | .ok im => do
    let (r, s) ← newMem s who im
    if r ≠ OK then return (r, s)
    else return (OK, s.modify who (execDone a im.ft))

end Minix.MM
