import Minix.FS.Filedes
import Minix.Kernel.UserCopies
import Minix.MM.Capacity
import Minix.Maps

/-!
# EXEC, and what it asks of others

On its way the memory manager copies the name and the stack of the caller, looks up the file in
the directory of the caller, opens and reads it, and reports the new map. The file system and
the kernel are taken along here as far as it meets them: its own entry in `fproc`, the table of
the kernel, and memory.
-/

namespace Minix.Execs

open Function Transition
open Kernel (Slot PhysCopy CopyMess ABS D T virBytes umap doCopy doNewmap procAddr startMap)
open Alarms (slotOf)
open Maps (mapOf)

/-- maximum initial stack size for EXEC -/
abbrev MAX_ISTACK_BYTES : Nat := 1024

/-- buffer size for erasing memory -/
abbrev ZEROBUF_SIZE : Nat := 1024

/-- max length of path names -/
abbrev MAX_PATH : Int := 128

/-- number of bytes in the exec file header -/
abbrev HDR_SIZE : Nat := 32

/-- this field gives inode type -/
abbrev I_TYPE : Nat := 0o170000

/-- regular file, not dir or special -/
abbrev I_REGULAR : Nat := 0o100000

/-- rwX protection bit -/
abbrev X_BIT : Nat := 1

/-- What FS keeps of a process, as far as the memory manager makes use of it. -/
structure Fproc where
  /-- pointer to working directory's inode -/
  fpWorkdir : FS.InodePtr
  /-- pointer to current root dir -/
  fpRootdir : FS.InodePtr
  /-- effective user id -/
  fpEffuid : Nat
  /-- the file descriptor table -/
  fpFilp : FS.Fd → Option FS.FilpPtr

/-- The file that EXEC opens, with what `fstat` and `read` tell of it. -/
structure ExecFile where
  stMode : Nat
  stUid : Nat
  stGid : Nat
  contents : List UInt8

/-- What FS and the disk have ready: what the name leads to from the directory and with the rights
of an entry, a free slot of `filp`, the entry of the caller, and what `load_seg` reads. -/
structure World where
  find : Fproc → Except Int ExecFile
  filp : Option FS.FilpPtr
  caller : Fproc
  load : Int → Nat → (Int → UInt8) → Int → UInt8

/-- Where `do_exec` has its buffers `u` and `mbuf`. -/
structure Buffers where
  u : Nat
  mbuf : Nat

/-- The memory manager, the kernel, the entry of the memory manager in `fproc`, and memory, where
what the memory manager writes to its own variables is not recorded. -/
structure System where
  mm : MM.State
  kernel : Kernel.State
  fp : Fproc
  mem : Int → UInt8

/-- The parameters of the call. -/
structure Request where
  execName : Int
  execLen : Int
  stackPtr : Int
  stackBytes : Int

/-- How the call ends: it returns, it panics, or more is read than there is room for. -/
inductive Outcome where
  | returns (r : Int) (s : System)
  | panics
  | overruns

/-! ## FS on behalf of the memory manager -/

/-- `do_chdir` for the memory manager, with the entry of the slot that is named. -/
def doChdir (fp rfp : Fproc) (cdFlag : Bool) : Fproc :=
  { fp with
    fpWorkdir := if cdFlag then fp.fpRootdir else rfp.fpWorkdir
    fpEffuid := if cdFlag then MM.SUPER_USER else rfp.fpEffuid }

/-- `do_open` for reading: a descriptor and a slot come first, then the file. -/
def openFile (w : World) (fp : Fproc) : Except Int (FS.Fd × ExecFile × Fproc) :=
  match (List.finRange FS.NR_FDS).find? fun k => (fp.fpFilp k).isNone with
  | none => .error FS.EMFILE
  | some k => match w.filp with
    | none => .error FS.ENFILE
    | some f => match w.find fp with
      | .error e => .error e
      | .ok file => .ok (k, file, { fp with fpFilp := update fp.fpFilp k (some f) })

/-- `do_close`. -/
def closeFd (fp : Fproc) (k : FS.Fd) : Fproc := { fp with fpFilp := update fp.fpFilp k none }

/-- The bits of the mode that apply to a process. -/
def shiftFor (m : MM.Mproc) (file : ExecFile) : Nat :=
  if m.mpEffuid = file.stUid then 6 else if m.mpEffgid = file.stGid then 3 else 0

/-- See if the file may be executed. Only regular files can, and even for superuser at least 1 X
bit must be on. -/
def mayExecute (m : MM.Mproc) (file : ExecFile) : Bool :=
  file.stMode &&& I_TYPE = I_REGULAR ∧
    (m.mpEffuid = MM.SUPER_USER ∧ file.stMode &&& (X_BIT <<< 6 ||| X_BIT <<< 3 ||| X_BIT) ≠ 0 ∨
      file.stMode >>> shiftFor m file &&& X_BIT ≠ 0)

/-- `allowed`. If it is legal open the file and return a file descriptor. -/
def allowed (w : World) (m : MM.Mproc) (fp : Fproc) : Except Int (FS.Fd × ExecFile) × Fproc :=
  match openFile w fp with
  | .error e => (.error e, fp)
  | .ok (k, file, fp) =>
    if mayExecute m file then (.ok (k, file), fp) else (.error MM.EACCES, closeFd fp k)

/-- Look for the file in the directory of the caller, and switch back to MM's own directory. -/
def lookUp (w : World) (s : System) (who : MM.Proc) : Except Int (FS.Fd × ExecFile) × System :=
  let r := allowed w (s.mm.mproc who) (doChdir s.fp w.caller false)
  (r.1, { s with fp := doChdir r.2 r.2 true })

/-- The file is closed. -/
def System.close (s : System) (k : FS.Fd) : System := { s with fp := closeFd s.fp k }

/-! ## Copies -/

/-- `phys_copy`. -/
def physCopy (mem : Int → UInt8) (c : PhysCopy) (a : Int) : UInt8 :=
  if c.dst ≤ a ∧ a < c.dst + c.bytes then mem (a - c.dst + c.src) else mem a

/-- Transfer a block of data. -/
def memCopy (s : System) (m : CopyMess) : Int × System :=
  if m.copyBytes = 0 then (MM.OK, s)
  else match doCopy s.kernel m with
    | some (r, copies) => (r, { s with mem := copies.foldl physCopy s.mem })
    | none => (Kernel.EFAULT, s)

/-- From the caller to a buffer of the memory manager. -/
def fromCaller (who : MM.Proc) (src : Int) (dst : Nat) (bytes : Int) : CopyMess where
  srcSpace := D
  srcProcNr := who.val
  srcBuffer := virBytes src
  dstSpace := D
  dstProcNr := MM.MM_PROC_NR.val
  dstBuffer := dst
  copyBytes := bytes

/-- From a buffer of the memory manager to the new core image. -/
def toCaller (who : MM.Proc) (src dst : Nat) (bytes : Int) : CopyMess where
  srcSpace := D
  srcProcNr := MM.MM_PROC_NR.val
  srcBuffer := src
  dstSpace := D
  dstProcNr := who.val
  dstBuffer := dst
  copyBytes := bytes

/-- From a buffer of the memory manager to absolute memory. -/
def toMemory (src : Nat) (base bytes : Int) : CopyMess where
  srcSpace := D
  srcProcNr := MM.MM_PROC_NR.val
  srcBuffer := src
  dstSpace := 0
  dstProcNr := ABS
  dstBuffer := base
  copyBytes := bytes

/-! ## The header -/

/-- The longs are represented low-order byte first and high-order byte last. -/
def longAt (contents : List UInt8) (i : Nat) : Nat :=
  (contents.getD (4 * i) 0).toNat + 256 * (contents.getD (4 * i + 1) 0).toNat +
    65536 * (contents.getD (4 * i + 2) 0).toNat + 16777216 * (contents.getD (4 * i + 3) 0).toNat

/-- What `read` finds at the start of the file. -/
def header (file : ExecFile) : Option (Fin 8 → Nat) :=
  if HDR_SIZE ≤ file.contents.length then some fun i => longAt file.contents i else none

/-- The header passes the tests before the last one, so that the rest of it is skipped. -/
def Skips (buf : Fin 8 → Nat) (stkBytes : Nat) : Bool :=
  match MM.readHeader buf stkBytes with
  | .error e => e ≠ MM.ENOEXEC
  | .ok _ => true

/-- The bytes that are read to skip an unused part of the header, whose length is in `buf[1]`. -/
def skipped (file : ExecFile) (buf : Fin 8 → Nat) : Nat :=
  min (buf 1 % 256 - HDR_SIZE) (file.contents.length - HDR_SIZE)

/-- They are read into `buf`, which has `HDR_SIZE` bytes. -/
def Overruns (file : ExecFile) (stkBytes : Nat) : Bool :=
  match header file with
  | none => false
  | some buf => Skips buf stkBytes ∧ HDR_SIZE < skipped file buf

/-- `read_header`. -/
def readFile (file : ExecFile) (stkBytes : Nat) : Except Int MM.Image :=
  match header file with
  | none => .error MM.ENOEXEC
  | some buf => MM.readHeader buf stkBytes

/-! ## The new core image -/

/-- Zero memory from `base` on, a buffer at a time. -/
def zero (zb : Nat) : Nat → System → Int → Int → Option System
  | 0, s, _, bytes => if bytes > 0 then none else some s
  | n + 1, s, base, bytes =>
    if bytes > 0 then
      let count := min bytes ZEROBUF_SIZE
      let (r, s) := memCopy s (toMemory zb base count)
      if r ≠ MM.OK then none -- panic: "new_mem can't zero"
      else zero zb n s (base + count) (bytes - count)
    else some s

/-- What is initialized from the file is not zeroed. -/
def bssOffset (im : MM.Image) : Nat := im.dataBytes / 16 * 16

/-- The bytes of data, gap and stack that are zeroed. -/
def zeroBytes (im : MM.Image) : Int :=
  MM.addClicks (MM.addClicks im.dataClicks im.gapClicks) im.stackClicks * 16 - bssOffset im

/-- Where they start: just above text. -/
def zeroBase (m : MM.Mproc) (im : MM.Image) : Int :=
  (m.segT.memPhys + m.segT.memLen) * 16 + bssOffset im

/-- `new_mem`. The loop takes at least one byte each time. -/
def newMem (buf : Buffers) (s : System) (who : MM.Proc) (im : MM.Image) :
    Option (Int × System) := do
  let (r, mm) ← MM.newMem s.mm who im
  if r ≠ MM.OK then some (r, s)
  else
    let (_, kernel) ← doNewmap s.kernel who.val (mapOf (mm.mproc who))
    let s := { s with mm := mm, kernel := kernel }
    let s ← zero buf.u (zeroBytes im).toNat s (zeroBase (mm.mproc who) im) (zeroBytes im)
    return (MM.OK, s)

/-- The virtual address of the stack, in 16 bits. -/
def stackBase (m : MM.Mproc) : Nat := m.segS.memVir * 16 % 65536

/-- `load_seg`. -/
def loadSeg (w : World) (s : System) (seg : Int) (segBytes : Nat) : System :=
  if segBytes = 0 then s -- text size for combined I & D is 0
  else { s with mem := w.load seg segBytes s.mem }

/-- Fix up some 'mproc' fields and tell kernel that exec is done. -/
def finish (s : System) (who : MM.Proc) (file : ExecFile) (im : MM.Image) : Option System :=
  let vsp := stackBase (s.mm.mproc who)
  let a : MM.ExecCall :=
    ⟨0, 0, MM.OK, 0, none, MM.OK, file.stMode, file.stUid, file.stGid⟩
  (Kernel.doExec s.kernel who.val vsp).map fun r =>
    { s with mm := s.mm.modify who (MM.execDone a im.ft), kernel := r.2 }

/-- The part of EXEC that must go through. -/
def commit (w : World) (buf : Buffers) (s : System) (who : MM.Proc) (k : FS.Fd) (file : ExecFile)
    (im : MM.Image) : Option System :=
  let (r, s) := memCopy s
    (toCaller who buf.mbuf (stackBase (s.mm.mproc who)) im.stkBytes)
  if r ≠ MM.OK then none -- panic: "do_exec stack copy err"
  else
    let s := loadSeg w (loadSeg w s T im.textBytes) D im.dataBytes
    finish (s.close k) who file im

/-! ## The call -/

/-- What EXEC has at hand when it asks for memory. -/
structure Loadable where
  fd : FS.Fd
  file : ExecFile
  im : MM.Image
  s : System

/-- The validity checks. -/
def argsError (rq : Request) : Option Int :=
  if MAX_ISTACK_BYTES < virBytes rq.stackBytes then some MM.ENOMEM -- stack too big
  else if rq.execLen ≤ 0 ∨ MAX_PATH < rq.execLen then some MM.EINVAL
  else none

/-- Get the exec file name and see if the file is executable. -/
def openExec (w : World) (buf : Buffers) (s : System) (who : MM.Proc) (rq : Request) :
    Except (Int × System) (FS.Fd × ExecFile × System) :=
  match argsError rq with
  | some e => .error (e, s)
  | none =>
    let (r, s) := memCopy s (fromCaller who rq.execName buf.u rq.execLen)
    if r ≠ MM.OK then .error (r, s) -- file name not in user data segment
    else match lookUp w s who with
      | (.error e, s) => .error (e, s) -- file was not executable
      | (.ok (k, file), s) => .ok (k, file, s)

/-- Read the file header, and fetch the stack from the user before destroying the old core image. -/
def fetchStack (buf : Buffers) (s : System) (who : MM.Proc) (rq : Request) (k : FS.Fd)
    (file : ExecFile) : Except (Int × System) Loadable :=
  let stkBytes := virBytes rq.stackBytes
  match readFile file stkBytes with
  | .error _ => .error (MM.ENOEXEC, s.close k) -- something wrong with header
  | .ok im =>
    let (r, s) := memCopy s (fromCaller who rq.stackPtr buf.mbuf stkBytes)
    if r ≠ MM.OK then .error (MM.EACCES, s.close k) -- can't fetch stack (e.g. bad virtual addr)
    else .ok ⟨k, file, im, s⟩

/-- Allocate new memory and release old memory, and fill the new core image. -/
def replaceImage (w : World) (buf : Buffers) (who : MM.Proc) (l : Loadable) : Outcome :=
  match newMem buf l.s who l.im with
  | none => .panics
  | some (r, s) =>
    if r ≠ MM.OK then .returns r (s.close l.fd) -- insufficient core or program too big
    else match commit w buf s who l.fd l.file l.im with
      | none => .panics
      | some s => .returns MM.OK s

/-- `do_exec`. -/
def doExec (w : World) (buf : Buffers) (s : System) (who : MM.Proc) (rq : Request) : Outcome :=
  match openExec w buf s who rq with
  | .error (r, s) => .returns r s
  | .ok (k, file, s) =>
    if Overruns file (virBytes rq.stackBytes) then .overruns
    else match fetchStack buf s who rq k file with
      | .error (r, s) => .returns r s
      | .ok l => replaceImage w buf who l

/-! ## The map of the memory manager -/

/-- A message by which no map below INIT is changed. -/
def Spares : MM.Tell → Prop
  | .sysFork _ child => MM.INIT_PROC_NR ≤ child
  | .sysNewmap p _ => MM.INIT_PROC_NR ≤ p
  | _ => True

section Spares

variable {s : MM.State} {p : MM.Proc} {ans : MM.Answers} {x : MM.Tell}

/-- Messages that spare the processes below INIT leave their maps in the kernel as they are. -/
theorem remap_spares {l : List MM.Tell} (h : ∀ x ∈ l, Spares x) (pMap : Slot → Kernel.ProcMap)
    (hp : p < MM.INIT_PROC_NR) : l.foldl Maps.remap pMap (slotOf p) = pMap (slotOf p) := by
  induction l generalizing pMap with
  | nil => rfl
  | cons x l ih =>
    rw [List.foldl_cons, ih fun y hy => h y (List.mem_cons_of_mem _ hy)]
    have hx := h x List.mem_cons_self
    have hne : ∀ q, MM.INIT_PROC_NR ≤ q → slotOf p ≠ slotOf q := fun q hq he =>
      absurd (Alarms.slotOf_inj he ▸ hp) (not_lt.mpr hq)
    cases x with
    | sysFork parent child => exact update_of_ne (hne child hx) ..
    | sysNewmap q m => exact update_of_ne (hne q hx) ..
    | _ => rfl

/-- `adjust` reports the map of the process it is called for. -/
theorem adjustTells_spares {m : MM.Mproc} {d sp : Nat} (hp : MM.INIT_PROC_NR ≤ p)
    (hx : x ∈ MM.adjustTells m p d sp) : Spares x := by
  unfold MM.adjustTells at hx
  dsimp only at hx
  split at hx
  · obtain rfl := List.mem_singleton.mp hx
    exact hp
  · cases hx

/-- The exit of a process reports no map. -/
theorem mmExitTells_spares (hx : x ∈ MM.mmExitTells s p) : Spares x := by
  unfold MM.mmExitTells at hx
  rcases List.mem_append.mp hx with hx | hx
  · split at hx
    · obtain rfl := List.mem_singleton.mp hx
      trivial
    · cases hx
  · obtain rfl := List.mem_singleton.mp hx
    trivial

/-- A signal to a user process reports a map of that process only. -/
theorem sigProcTells_spares {sigNr : Nat} (hp : MM.INIT_PROC_NR ≤ p)
    (hx : x ∈ MM.sigProcTells s p sigNr ans) : Spares x := by
  unfold MM.sigProcTells at hx
  rcases List.mem_cons.mp hx with rfl | hx
  · trivial
  · split at hx
    · cases hx
    · split at hx
      · rcases List.mem_append.mp hx with hx | hx
        · exact adjustTells_spares hp hx
        · split at hx
          · cases hx
          · exact mmExitTells_spares hx
      · exact mmExitTells_spares hx

/-- So do the signals of `check_sig` to each process of a list of user processes. -/
theorem signalAllTells_spares {c : MM.SigCall} {l : List MM.Proc}
    (hl : ∀ p ∈ l, MM.INIT_PROC_NR ≤ p) (hx : x ∈ MM.signalAllTells c ans l s) : Spares x := by
  induction l generalizing s with
  | nil => cases hx
  | cons p l ih =>
    have hrest := fun q hq => hl q (List.mem_cons_of_mem p hq)
    unfold MM.signalAllTells at hx
    split at hx
    · exact ih hrest hx
    · split at hx
      · exact ih hrest hx
      · split at hx
        · exact ih hrest hx
        · rcases List.mem_append.mp hx with hx | hx
          · exact sigProcTells_spares (hl p List.mem_cons_self) hx
          · split at hx
            · split at hx
              · cases hx
              · exact ih hrest hx
            · cases hx

/-- And the signals of one KILL. -/
theorem checkSigTells_spares {c : MM.SigCall} (hx : x ∈ MM.checkSigTells s c ans) : Spares x := by
  unfold MM.checkSigTells at hx
  split at hx
  · cases hx
  · exact signalAllTells_spares (fun p hp => ((MM.mem_aboveInit p).mp hp).le) hx

/-- And those of one bit of the kernel's map. -/
theorem ksigTells_spares {sigMap : BitVec 16} {procId : Nat} {l : List Nat}
    (hx : x ∈ MM.ksigTells sigMap procId ans l s) : Spares x := by
  induction l generalizing s with
  | nil => cases hx
  | cons i l ih =>
    unfold MM.ksigTells at hx
    rcases List.mem_append.mp hx with hx | hx
    · split at hx
      · exact checkSigTells_spares hx
      · cases hx
    · split at hx
      · exact ih hx
      · cases hx

/-- And those of the whole message KSIG. -/
theorem doKsigTells_spares {who : Option MM.Proc} {sigMap : BitVec 16}
    (hp : MM.INIT_PROC_NR ≤ p) (hx : x ∈ MM.doKsigTells s who p sigMap ans) : Spares x := by
  unfold MM.doKsigTells at hx
  split at hx
  · cases hx
  · split at hx
    · cases hx
    · dsimp only at hx
      split at hx
      · unfold MM.stackFaultTells at hx
        rcases List.mem_append.mp hx with hx | hx
        · exact adjustTells_spares hp hx
        · split at hx
          · cases hx
          · exact sigProcTells_spares hp hx
      · exact ksigTells_spares hx

/-- The slot that FORK takes is free. -/
theorem freeSlot_above {g : List MM.Proc} (hs : MM.Sound g s) {child : MM.Proc}
    (h : MM.freeSlot s = some child) : MM.INIT_PROC_NR ≤ child := by
  by_contra hlt
  have hfree := List.find?_some h
  rw [(hs.system child (not_le.mp hlt).le).1] at hfree
  cases hfree

/-- No call of a user process reports a map of MM, FS or a task. -/
theorem performTells_spares {g : List MM.Proc} {who : MM.Proc} {c : MM.MMCall} (hs : MM.Sound g s)
    (hw : MM.INIT_PROC_NR ≤ who) (hx : x ∈ MM.performTells s who c) : Spares x := by
  cases c with
  | fork =>
    change x ∈ MM.forkTells s who at hx
    unfold MM.forkTells at hx
    split at hx
    · rename_i child _ hfree
      have hchild := freeSlot_above hs hfree
      split at hx
      · cases hx
      · rcases List.mem_cons.mp hx with rfl | hx
        · exact hchild
        · obtain rfl := List.mem_singleton.mp hx
          exact hchild
    · cases hx
  | exec a =>
    change x ∈ MM.execTells s who a at hx
    unfold MM.execTells at hx
    split at hx
    · split at hx
      · rcases List.mem_cons.mp hx with rfl | hx
        · exact hw
        · obtain rfl := List.mem_singleton.mp hx
          trivial
      · cases hx
    · cases hx
  | brk addr sp => exact adjustTells_spares hw hx
  | exit status => exact mmExitTells_spares hx
  | kill pid killSig ans => exact checkSigTells_spares hx
  | alarm sec left =>
    obtain rfl := List.mem_singleton.mp hx
    trivial
  | ksig procNr sigMap ans =>
    change x ∈ MM.doKsigTells s (some who) procNr sigMap ans at hx
    have hfs : who ≠ MM.FS_PROC_NR := by
      rintro rfl
      exact absurd hw (by decide)
    unfold MM.doKsigTells at hx
    rw [if_pos ⟨Option.some_ne_none who, fun he => hfs (Option.some.inj he)⟩] at hx
    cases hx
  | wait => cases hx
  | signal sig f => cases hx
  | pause => cases hx
  | getset c => cases hx
  | other nr => cases hx

/-- Nor does any message that MM serves. -/
theorem serveTells_spares {g : List MM.Proc} {r : MM.Request} (hs : MM.Sound g s)
    (hi : MM.AsIssued s r) (hx : x ∈ MM.serveTells s r) : Spares x := by
  cases r with
  | call who c =>
    change x ∈ MM.performTells (if who = MM.FS_PROC_NR then _ else _) who c at hx
    rcases hi with ⟨hw, -⟩ | ⟨rfl, hc⟩
    · refine performTells_spares (g := g) ?_ hw hx
      split
      · exact hs.same ⟨rfl, rfl, rfl, rfl, rfl⟩
      · exact hs.same ⟨rfl, rfl, rfl, rfl, rfl⟩
    · cases c with
      | ksig procNr sigMap ans => exact doKsigTells_spares hc hx
      | _ => exact hc.elim
  | hardware procNr sigMap ans below => exact doKsigTells_spares hi hx

end Spares

/-! ## What a copy does -/

section Copies

variable {s : System} {map : Kernel.ProcMap} {v n : Nat}

/-- `mem_copy` reads and writes memory, not MM's tables. -/
@[simp] theorem memCopy_mm (s : System) (m : CopyMess) : (memCopy s m).2.mm = s.mm := by
  unfold memCopy
  split
  · rfl
  · split <;> rfl

/-- It leaves the kernel's tables alone as well. -/
@[simp] theorem memCopy_kernel (s : System) (m : CopyMess) :
    (memCopy s m).2.kernel = s.kernel := by
  unfold memCopy
  split
  · rfl
  · split <;> rfl

/-- And the files of the caller. -/
@[simp] theorem memCopy_fp (s : System) (m : CopyMess) : (memCopy s m).2.fp = s.fp := by
  unfold memCopy
  split
  · rfl
  · split <;> rfl

/-- The range lies in the data segment, which is not larger than a segment can be. -/
structure InData (map : Kernel.ProcMap) (v n : Nat) : Prop where
  phys : 0 < map.d.memPhys
  vir : map.d.memVir = 0
  len : map.d.memLen ≤ 4096
  fits : v + n ≤ map.d.memLen * 16

/-- Such a range is copied to or from where it belongs. -/
theorem InData.umap_eq (h : InData map v n) (hn : 0 < n) :
    umap map D v n = map.d.memPhys * 16 + v := by
  obtain ⟨-, hvir, hlen, hfits⟩ := h
  have hlast : Kernel.lastClick v n < (map.d.memVir + map.d.memLen) % 65536 := by
    unfold Kernel.lastClick
    omega
  have hseg : Kernel.chosenSeg map D (Kernel.lastClick v n) = map.d := by
    unfold Kernel.chosenSeg
    rw [if_neg (by decide), if_pos hlast]
  have hin : ¬v / 16 ≥ (map.d.memVir + map.d.memLen) % 65536 := by omega
  rw [Kernel.umap_eq hn, hseg]
  unfold Kernel.segAddr
  rw [if_neg hin, hvir]
  omega

/-- A size below 2^16 is a `vir_bytes` as it stands. -/
theorem virBytes_nat (h : n < 65536) : virBytes n = n := by
  unfold Kernel.virBytes
  omega

/-- A `vir_bytes` is below 2^16. -/
theorem virBytes_lt (i : Int) : virBytes i < 65536 := by
  unfold Kernel.virBytes
  omega

/-- For a user process `do_copy` finds the address that `umap` gives. -/
theorem copyAddr_proc (k : Kernel.State) (p : MM.Proc) (space : Int) (hv : v < 65536)
    (hn : n < 65536) : Kernel.copyAddr k p.val space v n =
      some (umap (k.pMap (slotOf p)) space v n) := by
  have hp : (p.val : Int) ≠ ABS := by
    have habs : ABS = -999 := rfl
    omega
  unfold Kernel.copyAddr
  rw [if_neg hp, Maps.procAddr_slotOf, virBytes_nat hv, virBytes_nat hn]
  rfl

/-- A copy of one process to another: both addresses must be good. -/
theorem memCopy_procs (s : System) (p q : MM.Proc) {v u n : Nat} (hv : v < 65536) (hu : u < 65536)
    (hn : n < 65536) (hpos : 0 < n) : memCopy s ⟨D, p.val, v, D, q.val, u, n⟩ =
      if umap (s.kernel.pMap (slotOf p)) D v n = 0 ∨ umap (s.kernel.pMap (slotOf q)) D u n = 0
      then (Kernel.EFAULT, s)
      else (MM.OK, { s with mem := physCopy s.mem ⟨umap (s.kernel.pMap (slotOf p)) D v n,
        umap (s.kernel.pMap (slotOf q)) D u n, n⟩ }) := by
  have hne : ¬(n : Int) = 0 := by omega
  have hcopy : doCopy s.kernel ⟨D, p.val, v, D, q.val, u, n⟩ =
      some (if umap (s.kernel.pMap (slotOf p)) D v n = 0 ∨ umap (s.kernel.pMap (slotOf q)) D u n = 0
        then (Kernel.EFAULT, []) else (MM.OK, [⟨umap (s.kernel.pMap (slotOf p)) D v n,
          umap (s.kernel.pMap (slotOf q)) D u n, n⟩])) := by
    unfold Kernel.doCopy
    dsimp only
    rw [copyAddr_proc _ _ _ hv hn, copyAddr_proc _ _ _ hu hn]
    rfl
  unfold memCopy
  dsimp only
  rw [if_neg hne, hcopy]
  by_cases hz : umap (s.kernel.pMap (slotOf p)) D v n = 0 ∨
      umap (s.kernel.pMap (slotOf q)) D u n = 0
  · rw [if_pos hz, if_pos hz]
    rfl
  · rw [if_neg hz, if_neg hz]
    rfl

/-- What is copied to a buffer of the memory manager stays in its data segment. -/
theorem memCopy_spares {who : MM.Proc} {src : Int}
    (h : InData (s.kernel.pMap (slotOf MM.MM_PROC_NR)) v n) {a : Int}
    (ha : ((s.kernel.pMap (slotOf MM.MM_PROC_NR)).d.memPhys +
      (s.kernel.pMap (slotOf MM.MM_PROC_NR)).d.memLen) * 16 ≤ a) (hn : n < 65536) :
    (memCopy s (fromCaller who src v n)).2.mem a = s.mem a := by
  have hfits := h.fits
  have hlen := h.len
  rcases Nat.eq_zero_or_pos n with rfl | hpos
  · rfl
  · have hv : v < 65536 := by omega
    have he : fromCaller who src v n =
        ⟨D, who.val, (virBytes src : Nat), D, MM.MM_PROC_NR.val, v, n⟩ := rfl
    rw [he, memCopy_procs s _ _ (virBytes_lt src) hv hn hpos]
    split
    · rfl
    · refine if_neg fun hin => ?_
      have hend := hin.2
      dsimp only at hend
      rw [h.umap_eq hpos] at hend
      omega

/-- Zeroing does not fail when the buffer is there. -/
theorem memCopy_toMemory {zb : Nat} {base : Int}
    (h : InData (s.kernel.pMap (slotOf MM.MM_PROC_NR)) zb n) (hn : n < 65536) (hbase : base ≠ 0) :
    (memCopy s (toMemory zb base n)).1 = MM.OK := by
  have hfits := h.fits
  have hlen := h.len
  have hphys := h.phys
  rcases Nat.eq_zero_or_pos n with rfl | hpos
  · rfl
  · have hne : ¬(n : Int) = 0 := by omega
    have hsrc : ¬umap (s.kernel.pMap (slotOf MM.MM_PROC_NR)) D zb n = 0 := by
      rw [h.umap_eq hpos]
      omega
    have hcopy : doCopy s.kernel (toMemory zb base n) = some (MM.OK,
        [⟨umap (s.kernel.pMap (slotOf MM.MM_PROC_NR)) D zb n, base, n⟩]) := by
      unfold Kernel.doCopy toMemory
      dsimp only
      rw [copyAddr_proc _ _ _ (by omega) hn]
      change some (if _ ∨ _ then _ else _) = _
      rw [if_neg (not_or.mpr ⟨hsrc, hbase⟩)]
    have hbytes : ¬(toMemory zb base n).copyBytes = 0 := hne
    unfold memCopy
    rw [if_neg hbytes, hcopy]

/-- The loop comes to its end, and changes nothing but memory. -/
theorem zero_through {zb : Nat} (h : InData (s.kernel.pMap (slotOf MM.MM_PROC_NR)) zb ZEROBUF_SIZE)
    {fuel : Nat} {base bytes : Int} (hbase : 0 < base) (hfuel : bytes ≤ fuel) :
    ∃ mem, zero zb fuel s base bytes = some { s with mem := mem } := by
  induction fuel generalizing s base bytes with
  | zero => exact ⟨s.mem, if_neg (by omega)⟩
  | succ fuel ih =>
    unfold zero
    split
    · rename_i hpos
      have hsize : ZEROBUF_SIZE = 1024 := rfl
      obtain ⟨n, hn⟩ := Int.eq_ofNat_of_zero_le (a := min bytes ZEROBUF_SIZE) (by omega)
      have hcount : n ≤ ZEROBUF_SIZE ∧ 0 < n := by omega
      have hdata : InData (s.kernel.pMap (slotOf MM.MM_PROC_NR)) zb n :=
        ⟨h.phys, h.vir, h.len, by have := h.fits; omega⟩
      have hok : (memCopy s (toMemory zb base n)).1 = MM.OK :=
        memCopy_toMemory hdata (by omega) (by omega)
      dsimp only
      rw [hn]
      split
      · rename_i hne
        exact absurd hok hne
      · have hrest : 0 < base + n ∧ bytes - n ≤ fuel := by omega
        obtain ⟨mem, hmem⟩ := ih (s := (memCopy s (toMemory zb base n)).2) (by simpa using h)
          hrest.1 hrest.2
        refine ⟨mem, hmem.trans ?_⟩
        rw [memCopy_mm, memCopy_kernel, memCopy_fp]
    · exact ⟨s.mem, rfl⟩

end Copies

/-! ## Atomicity -/

/-- In the root directory, with superuser effective uid. -/
def AtHome (fp : Fproc) : Prop := fp.fpWorkdir = fp.fpRootdir ∧ fp.fpEffuid = MM.SUPER_USER

/-- Nothing has changed but the buffers of the memory manager. -/
structure Intact (who : MM.Proc) (s s' : System) : Prop where
  mm : s'.mm = s.mm
  kernel : s'.kernel = s.kernel
  descriptors : s'.fp.fpFilp = s.fp.fpFilp
  root : s'.fp.fpRootdir = s.fp.fpRootdir
  home : AtHome s.fp → AtHome s'.fp
  memory : ∀ a : Int, (s.mm.mproc who).region.base * 16 ≤ a →
    a < (s.mm.mproc who).region.stop * 16 → s'.mem a = s.mem a

/-- The same, with one more descriptor. -/
structure Opened (who : MM.Proc) (s s' : System) (k : FS.Fd) : Prop where
  mm : s'.mm = s.mm
  kernel : s'.kernel = s.kernel
  free : s.fp.fpFilp k = none
  descriptors : ∃ f, s'.fp.fpFilp = update s.fp.fpFilp k (some f)
  root : s'.fp.fpRootdir = s.fp.fpRootdir
  home : AtHome s'.fp
  memory : ∀ a : Int, (s.mm.mproc who).region.base * 16 ≤ a →
    a < (s.mm.mproc who).region.stop * 16 → s'.mem a = s.mem a

/-- EXEC gets past the test of `max_hole`. -/
def GetsPast (w : World) (buf : Buffers) (s : System) (who : MM.Proc) (rq : Request) : Prop :=
  ∃ k file s₁ l, openExec w buf s who rq = .ok (k, file, s₁) ∧
    Overruns file (virBytes rq.stackBytes) = false ∧
    fetchStack buf s₁ who rq k file = .ok l ∧ MM.roomFor s.mm.table l.im = some MM.OK

/-- An error leaves everything as it was, beyond the test of `max_hole` there is none and no panic,
and nothing is written outside of the buffers of the memory manager. -/
structure Atomic (w : World) (buf : Buffers) (s : System) (who : MM.Proc) (rq : Request) :
    Prop where
  back : ∀ r s', doExec w buf s who rq = .returns r s' → r ≠ MM.OK → Intact who s s'
  through : GetsPast w buf s who rq → ∃ s', doExec w buf s who rq = .returns MM.OK s'
  bounded : doExec w buf s who rq ≠ .overruns

/-- The stack of the image wraps around in its 16 bits: its last click seems to lie in data, and its
first one behind it. -/
def Wraps (im : MM.Image) : Prop :=
  0 < im.stkBytes ∧ (im.totClicks - 1) % 4096 < im.dataClicks ∧
    im.dataClicks ≤ (im.totClicks - im.stackClicks) % 4096

/-- No file is opened whose header is read past its buffer, and no image is accepted whose stack
wraps around so. -/
structure Sane (w : World) (buf : Buffers) (s : System) (who : MM.Proc) (rq : Request) : Prop where
  header : ∀ k file s₁, openExec w buf s who rq = .ok (k, file, s₁) →
    Overruns file (virBytes rq.stackBytes) = false
  stack : ∀ k file s₁ l, openExec w buf s who rq = .ok (k, file, s₁) →
    fetchStack buf s₁ who rq k file = .ok l → MM.roomFor s.mm.table l.im = some MM.OK →
    ¬Wraps l.im

/-- What holds before the call: memory is in order, the caller runs, and the buffers lie in the
memory of the memory manager, which lies below INIT. -/
structure Prepared (total : Nat) (b : MM.Boot) (buf : Buffers) (s : System) (who : MM.Proc) :
    Prop where
  orderly : MM.Orderly total b s.mm
  above : MM.INIT_PROC_NR ≤ who
  inUse : (s.mm.mproc who).inUse = true
  u : InData (s.kernel.pMap (slotOf MM.MM_PROC_NR)) buf.u ZEROBUF_SIZE
  mbuf : InData (s.kernel.pMap (slotOf MM.MM_PROC_NR)) buf.mbuf MAX_ISTACK_BYTES
  below : (s.kernel.pMap (slotOf MM.MM_PROC_NR)).d.memPhys +
    (s.kernel.pMap (slotOf MM.MM_PROC_NR)).d.memLen ≤ b.initOrg

section Back

variable {w : World} {buf : Buffers} {s s' s₁ : System} {who : MM.Proc} {rq : Request}
  {m : MM.Mproc} {fp fp' : Fproc} {k : FS.Fd} {file : ExecFile} {total : Nat} {b : MM.Boot}

/-- An open that succeeds takes a free descriptor and gives it a filp slot. -/
theorem openFile_ok (h : openFile w fp = .ok (k, file, fp')) :
    fp.fpFilp k = none ∧ ∃ f, fp' = { fp with fpFilp := update fp.fpFilp k (some f) } := by
  unfold openFile at h
  split at h
  · cases h
  · rename_i i hfind
    split at h
    · cases h
    · rename_i f hf
      split at h
      · cases h
      · cases h
        have hnone : (fp.fpFilp k).isNone = true := by simpa using List.find?_some hfind
        exact ⟨Option.isNone_iff_eq_none.mp hnone, f, rfl⟩

/-- `allowed` leaves a descriptor open only when it returns it. -/
theorem allowed_cases (w : World) (m : MM.Mproc) (fp : Fproc) :
    (∃ e, allowed w m fp = (.error e, fp)) ∨
      ∃ k file f, allowed w m fp =
        (.ok (k, file), { fp with fpFilp := update fp.fpFilp k (some f) }) ∧
          fp.fpFilp k = none := by
  unfold allowed
  split
  · exact Or.inl ⟨_, rfl⟩
  · rename_i k file fp' ho
    obtain ⟨hfree, f, rfl⟩ := openFile_ok ho
    split
    · exact Or.inr ⟨k, file, f, rfl, hfree⟩
    · refine Or.inl ⟨MM.EACCES, ?_⟩
      unfold closeFd
      dsimp only
      rw [update_idem, ← hfree, update_eq_self]

/-- Looking for the file ends at home. -/
theorem lookUp_cases (w : World) (s : System) (who : MM.Proc) :
    (∃ e fp, lookUp w s who = (.error e, { s with fp := fp }) ∧ fp.fpFilp = s.fp.fpFilp ∧
        fp.fpRootdir = s.fp.fpRootdir ∧ AtHome fp) ∨
      ∃ k file f fp, lookUp w s who = (.ok (k, file), { s with fp := fp }) ∧
        s.fp.fpFilp k = none ∧ fp.fpFilp = update s.fp.fpFilp k (some f) ∧
        fp.fpRootdir = s.fp.fpRootdir ∧ AtHome fp := by
  unfold lookUp
  dsimp only
  rcases allowed_cases w (s.mm.mproc who) (doChdir s.fp w.caller false) with
    ⟨e, he⟩ | ⟨k, file, f, he, hfree⟩
  · rw [he]
    exact Or.inl ⟨e, _, rfl, rfl, rfl, rfl, rfl⟩
  · rw [he]
    exact Or.inr ⟨k, file, f, _, rfl, hfree, rfl, rfl, rfl, rfl⟩

/-- Closing the descriptor again leaves the caller as it was. -/
theorem Opened.close (h : Opened who s s' k) : Intact who s (s'.close k) := by
  obtain ⟨f, hf⟩ := h.descriptors
  refine ⟨h.mm, h.kernel, ?_, h.root, fun _ => h.home, h.memory⟩
  change update s'.fp.fpFilp k none = s.fp.fpFilp
  rw [hf, update_idem, ← h.free, update_eq_self]

/-- Where the caller is, nothing is written by a copy to the memory manager. -/
theorem Prepared.spares (h : Prepared total b buf s who) (hb : b.WellFormed) {v n : Nat}
    (hd : InData (s.kernel.pMap (slotOf MM.MM_PROC_NR)) v n) (hn : n < 65536) (src : Int) (a : Int)
    (ha : (s.mm.mproc who).region.base * 16 ≤ a) :
    (memCopy s (fromCaller who src v n)).2.mem a = s.mem a := by
  have hbelow := h.below
  have habove := h.orderly.partition.region_above hb h.above h.inUse
  exact memCopy_spares hd (by omega) hn

/-- Up to the header an error leaves everything as it was. -/
theorem Prepared.openExec_cases (h : Prepared total b buf s who) (hb : b.WellFormed) (w : World)
    (rq : Request) :
    (∃ r s', openExec w buf s who rq = .error (r, s') ∧ Intact who s s') ∨
      ∃ k file s', openExec w buf s who rq = .ok (k, file, s') ∧ Opened who s s' k ∧
        virBytes rq.stackBytes ≤ MAX_ISTACK_BYTES := by
  unfold openExec argsError
  split
  · exact Or.inl ⟨_, s, rfl, rfl, rfl, rfl, rfl, id, fun _ _ _ => rfl⟩
  · rename_i hargs
    split at hargs
    · cases hargs
    · rename_i hstack
      split at hargs
      · cases hargs
      · rename_i hlen
        obtain ⟨hpos, hmax⟩ := not_or.mp hlen
        obtain ⟨n, hn⟩ := Int.eq_ofNat_of_zero_le (a := rq.execLen) (by omega)
        have hpath : MAX_PATH = 128 := rfl
        have hsize : ZEROBUF_SIZE = 1024 := rfl
        have hu : InData (s.kernel.pMap (slotOf MM.MM_PROC_NR)) buf.u n :=
          ⟨h.u.phys, h.u.vir, h.u.len, by have := h.u.fits; omega⟩
        have hmem := h.spares hb hu (by omega) rq.execName
        rw [hn]
        dsimp only
        split
        · exact Or.inl ⟨_, _, rfl, memCopy_mm .., memCopy_kernel .., by rw [memCopy_fp],
            by rw [memCopy_fp], by rw [memCopy_fp]; exact id, fun a ha _ => hmem a ha⟩
        · rcases lookUp_cases w (memCopy s (fromCaller who rq.execName buf.u n)).2 who with
            ⟨e, fp, he, hd, hr, hh⟩ | ⟨k, file, f, fp, he, hfree, hd, hr, hh⟩
          · rw [he]
            rw [memCopy_fp] at hd hr
            exact Or.inl ⟨_, _, rfl, memCopy_mm .., memCopy_kernel .., hd, hr, fun _ => hh,
              fun a ha _ => hmem a ha⟩
          · rw [he]
            rw [memCopy_fp] at hd hr hfree
            exact Or.inr ⟨k, file, _, rfl, ⟨memCopy_mm .., memCopy_kernel .., hfree, ⟨f, hd⟩, hr,
              hh, fun a ha _ => hmem a ha⟩, not_lt.mp hstack⟩

/-- So does an error in the header or in the stack. -/
theorem Prepared.fetchStack_cases (h : Prepared total b buf s who) (hb : b.WellFormed)
    (ho : Opened who s s₁ k) (hstk : virBytes rq.stackBytes ≤ MAX_ISTACK_BYTES)
    (file : ExecFile) :
    (∃ r s', fetchStack buf s₁ who rq k file = .error (r, s') ∧ Intact who s s') ∨
      ∃ l, fetchStack buf s₁ who rq k file = .ok l ∧ Opened who s l.s k ∧ l.fd = k ∧
        readFile file (virBytes rq.stackBytes) = .ok l.im := by
  unfold fetchStack
  dsimp only
  split
  · exact Or.inl ⟨_, _, rfl, ho.close⟩
  · rename_i im him
    have hsize : MAX_ISTACK_BYTES = 1024 := rfl
    have hprep : Prepared total b buf s₁ who :=
      ⟨ho.mm ▸ h.orderly, h.above, ho.mm ▸ h.inUse, ho.kernel ▸ h.u, ho.kernel ▸ h.mbuf,
        ho.kernel ▸ h.below⟩
    have hbuf : InData (s₁.kernel.pMap (slotOf MM.MM_PROC_NR)) buf.mbuf (virBytes rq.stackBytes) :=
      ⟨hprep.mbuf.phys, hprep.mbuf.vir, hprep.mbuf.len, by have := hprep.mbuf.fits; omega⟩
    have hmem := hprep.spares hb hbuf (virBytes_lt _) rq.stackPtr
    have hcopied : Opened who s
        (memCopy s₁ (fromCaller who rq.stackPtr buf.mbuf (virBytes rq.stackBytes))).2 k := by
      obtain ⟨f, hf⟩ := ho.descriptors
      refine ⟨by rw [memCopy_mm, ho.mm], by rw [memCopy_kernel, ho.kernel], ho.free,
        ⟨f, by rw [memCopy_fp, hf]⟩, by rw [memCopy_fp, ho.root], by rw [memCopy_fp]; exact ho.home,
        fun a ha hlt => (hmem a ?_).trans (ho.memory a ha hlt)⟩
      rw [ho.mm]
      exact ha
    split
    · exact Or.inl ⟨_, _, rfl, hcopied.close⟩
    · exact Or.inr ⟨_, rfl, hcopied, rfl, him⟩

/-- And so do the tests of `new_mem`. -/
theorem newMem_error {r : Int} {im : MM.Image} (h : newMem buf s who im = some (r, s'))
    (hr : r ≠ MM.OK) : s' = s := by
  unfold newMem at h
  obtain ⟨⟨r', mm⟩, -, h⟩ := Option.bind_eq_some_iff.mp h
  dsimp only at h
  split at h
  · exact (Prod.mk.inj (Option.some.inj h)).2.symm
  · obtain ⟨x, -, h⟩ := Option.bind_eq_some_iff.mp h
    obtain ⟨s₂, -, h⟩ := Option.bind_eq_some_iff.mp h
    exact absurd (Prod.mk.inj (Option.some.inj h)).1.symm hr

/-- When `do_exec` returns an error, the file has been closed and nothing else was done. -/
theorem replaceImage_back {l : Loadable} {r : Int} (h : replaceImage w buf who l = .returns r s')
    (hr : r ≠ MM.OK) : s' = l.s.close l.fd := by
  unfold replaceImage at h
  split at h
  · cases h
  · rename_i r' s₂ hm
    split at h
    · cases h
      rw [newMem_error hm hr]
    · split at h
      · cases h
      · cases h
        exact absurd rfl hr

/-- Whatever EXEC returns but OK, it has changed nothing. -/
theorem Prepared.doExec_back (h : Prepared total b buf s who) (hb : b.WellFormed) {r : Int}
    (he : doExec w buf s who rq = .returns r s') (hr : r ≠ MM.OK) : Intact who s s' := by
  unfold doExec at he
  rcases h.openExec_cases hb w rq with ⟨r', s₁, ho, hi⟩ | ⟨k, file, s₁, ho, hi, hstk⟩
  · rw [ho] at he
    cases he
    exact hi
  · rw [ho] at he
    dsimp only at he
    split at he
    · cases he
    · rcases h.fetchStack_cases hb hi hstk file with ⟨r', s₂, hf, hi'⟩ | ⟨l, hf, hi', hfd, -⟩
      · rw [hf] at he
        cases he
        exact hi'
      · rw [hf] at he
        rw [replaceImage_back he hr, hfd]
        exact hi'.close

end Back

section Through

variable {w : World} {buf : Buffers} {s s' s₁ : System} {who : MM.Proc} {rq : Request}
  {k : FS.Fd} {file : ExecFile} {total base : Nat} {b : MM.Boot} {im : MM.Image}

/-- The kernel refuses the address of the stack just when it wraps around. -/
theorem umap_stack (hgap : im.gapClicks < 32768) (hend : base + im.clicks < 65536)
    (hbase : 0 < base) (hpos : 0 < im.stkBytes) (hstk : im.stkBytes ≤ MAX_ISTACK_BYTES)
    (m : MM.Mproc) :
    umap (mapOf (im.mapped base m)) D (stackBase (im.mapped base m)) im.stkBytes = 0 ↔
      Wraps im := by
  have hsize : MAX_ISTACK_BYTES = 1024 := rfl
  have htot := MM.Image.totClicks_eq hgap
  have hclicks := MM.Image.clicks_eq hgap
  have hd : im.dataClicks ≤ 4095 := MM.virClicks_le _
  have hk : im.stackClicks = (im.stkBytes + 15) / 16 := by
    have hdef : im.stackClicks = (im.stkBytes + 15) % 65536 / 16 := rfl
    omega
  have hvir : MM.addClicks (MM.addClicks 0 im.dataClicks) im.gapClicks =
      im.dataClicks + im.gapClicks := by
    unfold MM.addClicks
    omega
  have hdphys : MM.addClicks base im.textClicks = base + im.textClicks :=
    MM.addClicks_eq (by omega)
  have hsphys : MM.addClicks (MM.addClicks (MM.addClicks base im.textClicks) im.dataClicks)
      im.gapClicks = base + im.textClicks + im.dataClicks + im.gapClicks := by
    unfold MM.addClicks
    omega
  have hmapD : (mapOf (im.mapped base m)).d = ⟨0, base + im.textClicks, im.dataClicks⟩ := by
    rw [← hdphys]
    rfl
  have hmapS : (mapOf (im.mapped base m)).s = ⟨im.dataClicks + im.gapClicks,
      base + im.textClicks + im.dataClicks + im.gapClicks, im.stackClicks⟩ := by
    rw [← hvir, ← hsphys]
    rfl
  have hsp : stackBase (im.mapped base m) = (im.dataClicks + im.gapClicks) * 16 % 65536 := by
    rw [← hvir]
    rfl
  have hlast : Kernel.lastClick (stackBase (im.mapped base m)) im.stkBytes =
      (im.totClicks - 1) % 4096 := by
    rw [hsp]
    unfold Kernel.lastClick
    omega
  have hfirst : stackBase (im.mapped base m) / 16 = (im.totClicks - im.stackClicks) % 4096 := by
    rw [hsp]
    omega
  have hend : (im.dataClicks + im.gapClicks + im.stackClicks) % 65536 = im.totClicks := by omega
  have hseg : Kernel.chosenSeg (mapOf (im.mapped base m)) D ((im.totClicks - 1) % 4096) =
      if (im.totClicks - 1) % 4096 < im.dataClicks then
        ⟨0, base + im.textClicks, im.dataClicks⟩
      else ⟨im.dataClicks + im.gapClicks,
        base + im.textClicks + im.dataClicks + im.gapClicks, im.stackClicks⟩ := by
    have hdata : (0 + im.dataClicks) % 65536 = im.dataClicks := by omega
    unfold Kernel.chosenSeg
    rw [if_neg (by decide), hmapD, hmapS]
    dsimp only
    rw [hdata]
  rw [Kernel.umap_eq hpos, hlast, hseg]
  unfold Wraps Kernel.segAddr
  by_cases hin : (im.totClicks - 1) % 4096 < im.dataClicks
  · rw [if_pos hin, hfirst]
    dsimp only
    rw [Nat.zero_add, Nat.mod_eq_of_lt (a := im.dataClicks) (by omega)]
    split
    · rename_i hge
      exact iff_of_true rfl ⟨hpos, hin, hge⟩
    · rename_i hlt
      exact iff_of_false (by omega) fun h => hlt h.2.2
  · rw [if_neg hin, hfirst]
    dsimp only
    rw [hend, if_neg (by omega), hsp]
    exact iff_of_false (by omega) fun h => hin h.2.1

/-- The kernel takes the new map of a user process whatever it is. -/
theorem doNewmap_through (kernel : Kernel.State) (who : MM.Proc) (m : MM.Mproc) :
    ∃ kernel', doNewmap kernel who.val (mapOf m) = some (MM.OK, kernel') ∧
      kernel'.pMap = update kernel.pMap (slotOf who) (mapOf m) := by
  have hp : ¬((who.val : Int) < -Kernel.NR_TASKS ∨ (who.val : Int) ≥ Kernel.NR_PROCS) := by
    have htasks : Kernel.NR_TASKS = 8 := rfl
    have hgood := not_or.mp (Maps.goodProc who)
    omega
  have hsome : ∃ kernel', doNewmap kernel who.val (mapOf m) = some (MM.OK, kernel') := by
    unfold Kernel.doNewmap
    rw [if_neg hp, Maps.procAddr_slotOf]
    exact ⟨_, rfl⟩
  obtain ⟨kernel', hk⟩ := hsome
  exact ⟨kernel', hk, Maps.doNewmap_pMap hk⟩

/-- `new_mem` goes through once it has seen a hole that is big enough. -/
theorem newMem_through (h : Prepared total b buf s who) (hb : b.WellFormed) (hlt : total < 65536)
    (hpos : 0 < im.totClicks) (hr : MM.roomFor s.mm.table im = some MM.OK)
    (hfits : MM.Fits b s.mm who) :
    ∃ base s', newMem buf s who im = some (MM.OK, s') ∧ 0 < base ∧ base + im.clicks < 65536 ∧
      s'.mm.mproc who = im.mapped base (s.mm.mproc who) ∧ s'.fp = s.fp ∧
      s'.kernel.pMap =
        update s.kernel.pMap (slotOf who) (mapOf (im.mapped base (s.mm.mproc who))) := by
  obtain ⟨base, mm, hm, hne, hend, hproc⟩ :=
    h.orderly.newMem_through hb hlt h.above h.inUse hpos hr hfits
  have hbase : 0 < base := Nat.pos_of_ne_zero hne
  have hself : mm.mproc who = im.mapped base (s.mm.mproc who) := by
    rw [hproc, update_self]
  obtain ⟨kernel, hk, hmap⟩ := doNewmap_through s.kernel who (mm.mproc who)
  have hother : kernel.pMap (slotOf MM.MM_PROC_NR) = s.kernel.pMap (slotOf MM.MM_PROC_NR) := by
    rw [hmap, update_of_ne fun he => ?_]
    have habove := h.above
    rw [← Alarms.slotOf_inj he] at habove
    exact absurd habove (by decide)
  have hstart : 0 < zeroBase (mm.mproc who) im := by
    rw [hself]
    have hphys : (im.mapped base (s.mm.mproc who)).segT.memPhys = base := rfl
    unfold zeroBase
    omega
  have hfuel : zeroBytes im ≤ ((zeroBytes im).toNat : Int) := Int.self_le_toNat _
  have hu : InData (kernel.pMap (slotOf MM.MM_PROC_NR)) buf.u ZEROBUF_SIZE := hother.symm ▸ h.u
  obtain ⟨mem, hz⟩ :=
    zero_through (s := { s with mm := mm, kernel := kernel }) hu hstart hfuel
  refine ⟨base, { s with mm := mm, kernel := kernel, mem := mem }, ?_, hbase, by omega, hself, rfl,
    hself ▸ hmap⟩
  unfold newMem
  rw [hm]
  change (doNewmap s.kernel who.val (mapOf (mm.mproc who)) >>= _) = _
  rw [hk]
  change (zero buf.u (zeroBytes im).toNat { s with mm := mm, kernel := kernel }
    (zeroBase (mm.mproc who) im) (zeroBytes im) >>= _) = _
  rw [hz]
  rfl

/-- The image keeps the stack size it was asked for. -/
theorem readHeader_stack {hdr : Fin 8 → Nat} {n : Nat} (h : MM.readHeader hdr n = .ok im) :
    im.stkBytes = n := by
  unfold MM.readHeader at h
  dsimp only at h
  repeat' split at h
  all_goals cases h
  · rfl
  · rfl

/-- An image that is accepted has the stack of the caller, and is not empty. -/
theorem readFile_ok {n : Nat} (h : readFile file n = .ok im) :
    im.stkBytes = n ∧ 0 < im.totClicks := by
  unfold readFile at h
  split at h
  · cases h
  · exact ⟨readHeader_stack h, (MM.readHeader_ok h).2⟩

/-- MM does not load itself. -/
theorem Prepared.slot_ne (h : Prepared total b buf s who) :
    slotOf MM.MM_PROC_NR ≠ slotOf who := fun he => by
  have habove := h.above
  rw [← Alarms.slotOf_inj he] at habove
  exact absurd habove (by decide)

/-- The rest of `do_exec` returns. -/
theorem finish_through (s : System) (who : MM.Proc) (file : ExecFile) (im : MM.Image) :
    (finish s who file im).isSome = true := by
  unfold finish Kernel.doExec
  dsimp only
  rw [if_neg (Maps.goodProc who), Maps.procAddr_slotOf]
  rfl

/-- The copy of the stack fails just when the stack wraps around. -/
theorem commit_isSome (hgap : im.gapClicks < 32768) (hend : base + im.clicks < 65536)
    (hbase : 0 < base) (hstk : im.stkBytes ≤ MAX_ISTACK_BYTES) {m : MM.Mproc}
    (hm : s.mm.mproc who = im.mapped base m)
    (hmap : s.kernel.pMap (slotOf who) = mapOf (im.mapped base m))
    (hbuf : InData (s.kernel.pMap (slotOf MM.MM_PROC_NR)) buf.mbuf MAX_ISTACK_BYTES) :
    (commit w buf s who k file im).isSome = true ↔ ¬Wraps im := by
  have hok : (memCopy s
      (toCaller who buf.mbuf (stackBase (s.mm.mproc who)) im.stkBytes)).1 = MM.OK ↔ ¬Wraps im := by
    rcases Nat.eq_zero_or_pos im.stkBytes with hz | hpos
    · have he : memCopy s (toCaller who buf.mbuf (stackBase (s.mm.mproc who)) im.stkBytes) =
          (MM.OK, s) := by
        rw [hz]
        rfl
      rw [he]
      exact iff_of_true rfl fun h => absurd h.1 (by omega)
    · have hsize : MAX_ISTACK_BYTES = 1024 := rfl
      have hlen := hbuf.len
      have hfits := hbuf.fits
      have hphys := hbuf.phys
      have hdata : InData (s.kernel.pMap (slotOf MM.MM_PROC_NR)) buf.mbuf im.stkBytes :=
        ⟨hphys, hbuf.vir, hlen, by omega⟩
      have hsp : stackBase (s.mm.mproc who) < 65536 := Nat.mod_lt _ (by decide)
      have he : toCaller who buf.mbuf (stackBase (s.mm.mproc who)) im.stkBytes =
          ⟨D, MM.MM_PROC_NR.val, buf.mbuf, D, who.val, (stackBase (s.mm.mproc who) : Nat),
            im.stkBytes⟩ := rfl
      rw [he, memCopy_procs s _ _ (by omega) hsp (by omega) hpos, hdata.umap_eq hpos, hmap, hm,
        ← umap_stack hgap hend hbase hpos hstk m]
      split
      · rename_i hz
        exact iff_of_false (by dsimp only; decide) fun hne => hne (hz.resolve_left (by omega))
      · rename_i hz
        exact iff_of_true rfl (not_or.mp hz).2
  rw [← hok]
  unfold commit
  dsimp only
  split
  · rename_i hne
    exact iff_of_false (by decide) hne
  · rename_i heq
    exact iff_of_true (finish_through ..) (not_not.mp heq)

/-- Beyond the test of `max_hole` EXEC goes through unless the stack wraps around. -/
theorem replaceImage_through {l : Loadable} (h : Prepared total b buf l.s who) (hb : b.WellFormed)
    (hlt : total < 65536) (hfits : MM.Fits b l.s.mm who) {n : Nat}
    (him : readFile file n = .ok l.im) (hn : n ≤ MAX_ISTACK_BYTES)
    (hr : MM.roomFor l.s.mm.table l.im = some MM.OK) :
    (∃ s', replaceImage w buf who l = .returns MM.OK s') ↔ ¬Wraps l.im := by
  obtain ⟨hstk, hpos⟩ := readFile_ok him
  obtain ⟨base, s₂, hm, hbase, hend, hproc, -, hmap⟩ := newMem_through h hb hlt hpos hr hfits
  have hself : s₂.kernel.pMap (slotOf who) = mapOf (l.im.mapped base (l.s.mm.mproc who)) := by
    rw [hmap, update_self]
  have hother : s₂.kernel.pMap (slotOf MM.MM_PROC_NR) = l.s.kernel.pMap (slotOf MM.MM_PROC_NR) := by
    rw [hmap, update_of_ne h.slot_ne]
  have hcommit : (commit w buf s₂ who l.fd l.file l.im).isSome = true ↔ ¬Wraps l.im :=
    commit_isSome (MM.roomFor_ok hr).1 hend hbase (hstk ▸ hn) hproc hself (hother ▸ h.mbuf)
  rw [← hcommit]
  unfold replaceImage
  rw [hm]
  dsimp only
  rw [if_neg (not_not.mpr rfl)]
  cases hc : commit w buf s₂ who l.fd l.file l.im with
  | none => exact iff_of_false (fun ⟨s', hs'⟩ => by cases hs') (by decide)
  | some s' => exact iff_of_true ⟨s', rfl⟩ rfl

end Through

/-- EXEC is atomic exactly when it is sane. -/
theorem Prepared.atomic_iff {w : World} {buf : Buffers} {s : System} {who : MM.Proc} {rq : Request}
    {total : Nat} {b : MM.Boot} (h : Prepared total b buf s who) (hb : b.WellFormed)
    (hlt : total < 65536) (hfits : MM.Fits b s.mm who) :
    Atomic w buf s who rq ↔ Sane w buf s who rq := by
  have hrun : ∀ k file s₁, openExec w buf s who rq = .ok (k, file, s₁) →
      doExec w buf s who rq = if Overruns file (virBytes rq.stackBytes) then .overruns
        else match fetchStack buf s₁ who rq k file with
          | .error (r, s) => .returns r s
          | .ok l => replaceImage w buf who l := by
    intro k file s₁ ho
    unfold doExec
    rw [ho]
  have hcore : ∀ k file s₁ l, openExec w buf s who rq = .ok (k, file, s₁) →
      Overruns file (virBytes rq.stackBytes) = false →
      fetchStack buf s₁ who rq k file = .ok l → MM.roomFor s.mm.table l.im = some MM.OK →
      ((∃ s', doExec w buf s who rq = .returns MM.OK s') ↔ ¬Wraps l.im) := by
    intro k file s₁ l ho hov hf hr
    rcases h.openExec_cases hb w rq with ⟨r', s', he, -⟩ | ⟨k', file', s', he, hi, hstk⟩
    · rw [ho] at he
      cases he
    · obtain ⟨rfl, rfl, rfl⟩ : k = k' ∧ file = file' ∧ s₁ = s' := by
        rw [ho] at he
        cases he
        exact ⟨rfl, rfl, rfl⟩
      rcases h.fetchStack_cases hb hi hstk file with ⟨r', s₂, he, -⟩ | ⟨l', he, hi', -, him⟩
      · rw [hf] at he
        cases he
      · obtain rfl : l = l' := Except.ok.inj (hf.symm.trans he)
        rw [hrun k file s₁ ho, hov, if_neg (by decide), hf]
        have hprep : Prepared total b buf l.s who :=
          ⟨hi'.mm ▸ h.orderly, h.above, hi'.mm ▸ h.inUse, hi'.kernel ▸ h.u, hi'.kernel ▸ h.mbuf,
            hi'.kernel ▸ h.below⟩
        exact replaceImage_through hprep hb hlt (hi'.mm ▸ hfits) him hstk (hi'.mm ▸ hr)
  constructor
  · intro ha
    have hheader : ∀ k file s₁, openExec w buf s who rq = .ok (k, file, s₁) →
        Overruns file (virBytes rq.stackBytes) = false := by
      intro k file s₁ ho
      refine Bool.eq_false_iff.mpr fun hov => ha.bounded ?_
      rw [hrun k file s₁ ho, if_pos hov]
    refine ⟨hheader, fun k file s₁ l ho hf hr => ?_⟩
    have hov := hheader k file s₁ ho
    exact (hcore k file s₁ l ho hov hf hr).mp (ha.through ⟨k, file, s₁, l, ho, hov, hf, hr⟩)
  · intro hs
    refine ⟨fun r s' => h.doExec_back hb, ?_, ?_⟩
    · rintro ⟨k, file, s₁, l, ho, hov, hf, hr⟩
      exact (hcore k file s₁ l ho hov hf hr).mpr (hs.stack k file s₁ l ho hf hr)
    · intro he
      unfold doExec at he
      split at he
      · cases he
      · rename_i k file s₁ ho
        rw [hs.header k file s₁ ho] at he
        split at he
        · contradiction
        · split at he
          · cases he
          · unfold replaceImage at he
            split at he
            · cases he
            · split at he
              · cases he
              · split at he
                · cases he
                · cases he

/-! ## The memory manager on its own -/

/-- The call as the memory manager sees it, with what it meets on the way. -/
def asCall (w : World) (buf : Buffers) (s : System) (who : MM.Proc) (rq : Request) : MM.ExecCall :=
  let stkBytes := virBytes rq.stackBytes
  let n := memCopy s (fromCaller who rq.execName buf.u rq.execLen)
  match lookUp w n.2 who with
  | (.error e, _) => ⟨stkBytes, rq.execLen, n.1, e, none, MM.OK, 0, 0, 0⟩
  | (.ok (k, file), s) => ⟨stkBytes, rq.execLen, n.1, k.val, header file,
      (memCopy s (fromCaller who rq.stackPtr buf.mbuf stkBytes)).1, file.stMode, file.stUid,
      file.stGid⟩

section Alone

variable {w : World} {buf : Buffers} {s s' s₁ : System} {who : MM.Proc} {rq : Request}
  {k : FS.Fd} {file : ExecFile} {r : Int} {fp : Fproc}

/-- Errors are negative, as those of FS are. -/
theorem lookUp_error (hw : ∀ fp e, w.find fp = .error e → e < 0) {e : Int}
    (h : lookUp w s who = (.error e, s')) : e < 0 := by
  have ho : ∀ fp e, openFile w fp = .error e → e < 0 := by
    intro fp e he
    unfold openFile at he
    split at he
    · cases he
      decide
    · split at he
      · cases he
        decide
      · split at he
        · rename_i hf
          cases he
          exact hw _ _ hf
        · cases he
  have ha := congrArg Prod.fst h
  unfold lookUp allowed at ha
  dsimp only at ha
  split at ha
  · rename_i hf
    cases ha
    exact ho _ _ hf
  · split at ha
    · cases ha
    · cases ha
      decide

/-- The call as MM's own model sees it has the arguments of the request. -/
theorem asCall_args (w : World) (buf : Buffers) (s : System) (who : MM.Proc) (rq : Request) :
    (asCall w buf s who rq).stackBytes = virBytes rq.stackBytes ∧
      (asCall w buf s who rq).execLen = rq.execLen ∧
      (asCall w buf s who rq).nameCopy =
        (memCopy s (fromCaller who rq.execName buf.u rq.execLen)).1 := by
  unfold asCall
  dsimp only
  split
  · exact ⟨rfl, rfl, rfl⟩
  · exact ⟨rfl, rfl, rfl⟩

/-- The errors before the header. -/
theorem openExec_error (hw : ∀ fp e, w.find fp = .error e → e < 0)
    (h : openExec w buf s who rq = .error (r, s₁)) :
    MM.execImage (asCall w buf s who rq) = .error r ∧ s₁.mm = s.mm := by
  obtain ⟨hstack, hlen, hname⟩ := asCall_args w buf s who rq
  unfold openExec argsError at h
  unfold MM.execImage
  rw [hstack, hlen, hname]
  split at h
  · rename_i e hargs
    cases h
    refine ⟨?_, rfl⟩
    split at hargs
    · rename_i hbig
      obtain rfl := Option.some.inj hargs
      exact if_pos hbig
    · rename_i hbig
      split at hargs
      · rename_i hbad
        obtain rfl := Option.some.inj hargs
        rw [if_neg hbig, if_pos hbad]
      · cases hargs
  · rename_i hargs
    split at hargs
    · cases hargs
    · rename_i hbig
      split at hargs
      · cases hargs
      · rename_i hbad
        rw [if_neg hbig, if_neg hbad]
        dsimp only at h
        split at h
        · rename_i hcopy
          cases h
          exact ⟨if_pos hcopy, memCopy_mm ..⟩
        · rename_i hcopy
          rw [if_neg hcopy]
          split at h
          · rename_i e s₂ hl
            cases h
            have hfd : (asCall w buf s who rq).fd = r := by
              unfold asCall
              dsimp only
              rw [hl]
            rw [hfd, if_pos (lookUp_error hw hl)]
            refine ⟨rfl, ?_⟩
            have hmm := congrArg (fun x => x.2.mm) hl
            exact hmm.symm.trans (memCopy_mm ..)
          · cases h

/-- The call when there are none. -/
theorem openExec_ok (h : openExec w buf s who rq = .ok (k, file, s₁)) :
    MM.execImage (asCall w buf s who rq) = (match readFile file (virBytes rq.stackBytes) with
      | .error _ => .error MM.ENOEXEC
      | .ok im =>
        if (memCopy s₁ (fromCaller who rq.stackPtr buf.mbuf (virBytes rq.stackBytes))).1 ≠ MM.OK
        then .error MM.EACCES else .ok im) ∧ s₁.mm = s.mm ∧
      (asCall w buf s who rq).stMode = file.stMode ∧ (asCall w buf s who rq).stUid = file.stUid ∧
      (asCall w buf s who rq).stGid = file.stGid := by
  unfold openExec argsError at h
  split at h
  · cases h
  · rename_i hargs
    split at hargs
    · cases hargs
    · rename_i hbig
      split at hargs
      · cases hargs
      · rename_i hbad
        dsimp only at h
        split at h
        · cases h
        · rename_i hcopy
          split at h
          · cases h
          · rename_i k' file' s₂ hl
            cases h
            have hcall : asCall w buf s who rq =
                ⟨virBytes rq.stackBytes, rq.execLen,
                  (memCopy s (fromCaller who rq.execName buf.u rq.execLen)).1, k.val, header file,
                  (memCopy s₁ (fromCaller who rq.stackPtr buf.mbuf (virBytes rq.stackBytes))).1,
                  file.stMode, file.stUid, file.stGid⟩ := by
              unfold asCall
              dsimp only
              rw [hl]
            have hmm := congrArg (fun x => x.2.mm) hl
            rw [hcall]
            refine ⟨?_, hmm.symm.trans (memCopy_mm ..), rfl, rfl, rfl⟩
            unfold MM.execImage readFile
            dsimp only
            rw [if_neg hbig, if_neg hbad, if_neg hcopy, if_neg (by omega)]
            cases header file with
            | none => rfl
            | some hdr => rfl

/-- Clearing memory leaves MM's tables alone. -/
theorem zero_mm {zb fuel : Nat} {base bytes : Int} (h : zero zb fuel s base bytes = some s') :
    s'.mm = s.mm := by
  induction fuel generalizing s base bytes with
  | zero =>
    unfold zero at h
    split at h
    · cases h
    · rw [Option.some.inj h]
  | succ fuel ih =>
    unfold zero at h
    split at h
    · dsimp only at h
      split at h
      · cases h
      · exact (ih h).trans (memCopy_mm ..)
    · rw [Option.some.inj h]

/-- On MM's tables `new_mem` does what MM's own model says. -/
theorem newMem_mm {im : MM.Image} (h : newMem buf s who im = some (r, s')) :
    MM.newMem s.mm who im = some (r, s'.mm) := by
  unfold newMem at h
  obtain ⟨⟨r', mm⟩, hm, h⟩ := Option.bind_eq_some_iff.mp h
  dsimp only at h
  split at h
  · rename_i hne
    obtain ⟨rfl, rfl⟩ := Prod.mk.inj (Option.some.inj h)
    rw [hm, (MM.newMem_fail hm hne).1]
  · rename_i heq
    obtain ⟨x, -, h⟩ := Option.bind_eq_some_iff.mp h
    obtain ⟨s₂, hz, h⟩ := Option.bind_eq_some_iff.mp h
    obtain ⟨rfl, rfl⟩ := Prod.mk.inj (Option.some.inj h)
    rw [hm, zero_mm hz, not_not.mp heq]

/-- On MM's tables the point of no return does what MM's own model says. -/
theorem commit_mm {im : MM.Image} {a : MM.ExecCall}
    (ha : a.stMode = file.stMode ∧ a.stUid = file.stUid ∧ a.stGid = file.stGid)
    (h : commit w buf s who k file im = some s') :
    s'.mm = s.mm.modify who (MM.execDone a im.ft) := by
  unfold commit at h
  dsimp only at h
  split at h
  · cases h
  · obtain ⟨x, -, rfl⟩ := Option.map_eq_some_iff.mp h
    have hload : ∀ (s : System) (seg : Int) (n : Nat), (loadSeg w s seg n).mm = s.mm := by
      intro s seg n
      unfold loadSeg
      split
      · rfl
      · rfl
    have hdone : MM.execDone
        ⟨0, 0, MM.OK, 0, none, MM.OK, file.stMode, file.stUid, file.stGid⟩ im.ft =
          MM.execDone a im.ft := by
      funext m
      unfold MM.execDone
      rw [ha.1, ha.2.1, ha.2.2]
    dsimp only
    rw [hdone]
    change MM.State.modify (loadSeg w (loadSeg w _ T im.textBytes) D im.dataBytes).mm _ _ = _
    rw [hload, hload, memCopy_mm]

/-- What EXEC makes of the process table and of the holes is what the memory manager makes of them
on its own. -/
theorem doExec_mm (hw : ∀ fp e, w.find fp = .error e → e < 0)
    (h : doExec w buf s who rq = .returns r s') :
    MM.doExec s.mm who (asCall w buf s who rq) = some (r, s'.mm) := by
  unfold doExec at h
  unfold MM.doExec
  split at h
  · rename_i ho
    cases h
    obtain ⟨hi, hmm⟩ := openExec_error hw ho
    rw [hi, hmm]
  · rename_i k file s₁ ho
    obtain ⟨hi, hmm, ha⟩ := openExec_ok ho
    split at h
    · cases h
    · unfold fetchStack at h
      dsimp only at h
      rw [hi]
      cases hf : readFile file (virBytes rq.stackBytes) with
      | error e =>
        rw [hf] at h
        cases h
        rw [← hmm]
        rfl
      | ok im =>
        rw [hf] at h
        dsimp only at h ⊢
        split at h
        · rename_i hfetch
          split at hfetch
          · rename_i hcopy
            rw [if_pos hcopy]
            cases hfetch
            cases h
            rw [← hmm]
            exact congrArg (fun mm => some (_, mm)) (memCopy_mm ..).symm
          · cases hfetch
        · rename_i l hfetch
          split at hfetch
          · cases hfetch
          · rename_i hcopy
            rw [if_neg hcopy]
            cases hfetch
            unfold replaceImage at h
            dsimp only at h ⊢
            split at h
            · cases h
            · rename_i r' s₂ hm
              have hmem := newMem_mm hm
              rw [memCopy_mm, hmm] at hmem
              rw [hmem]
              change (if r' ≠ MM.OK then some (r', s₂.mm) else _) = _
              split at h
              · rename_i hne
                cases h
                rw [if_pos hne]
                rfl
              · rename_i heq
                rw [if_neg heq]
                split at h
                · cases h
                · rename_i s₃ hc
                  cases h
                  rw [commit_mm ha hc]
                  rfl

end Alone

/-! ## In every run -/

/-- The buffers lie in the data segment of the memory manager, which is not larger than a segment
can be, and there is something below the kernel. -/
structure Placed (buf : Buffers) (base : Nat) (sizes : Nat → Nat) : Prop where
  base : 0 < base
  data : sizes 3 ≤ 4096
  u : buf.u + ZEROBUF_SIZE ≤ sizes 3 * 16
  mbuf : buf.mbuf + MAX_ISTACK_BYTES ≤ sizes 3 * 16

/-- Where the data segment of MM lies at the start. -/
theorem startMap_mm (base : Nat) (sizes : Nat → Nat) :
    (startMap base sizes (slotOf MM.MM_PROC_NR)).d =
      ⟨0, Kernel.textBase base sizes 0 + sizes 2, sizes 3⟩ := rfl

section Runs

variable {t : MM.HoleTable} {totMem base : Nat} {b : MM.Boot} {sizes : Nat → Nat} {buf : Buffers}

/-- What every run keeps in which INIT gives back no more than was set aside. -/
theorem kept_of_reach (hb : b.WellFormed) (htot : b.tot < 65536) (hlt : totMem < 65536)
    {st : Maps.System}
    (hr : Reach Maps.step (fun st r => MM.AsIssued st.mm r ∧ MM.InitFits b st.mm r)
      (Maps.Started t totMem b base sizes) st) :
    MM.Orderly totMem b st.mm ∧
      st.pMap (slotOf MM.MM_PROC_NR) = startMap base sizes (slotOf MM.MM_PROC_NR) := by
  refine hr.invariant (fun st => MM.Orderly totMem b st.mm ∧
    st.pMap (slotOf MM.MM_PROC_NR) = startMap base sizes (slotOf MM.MM_PROC_NR)) ?_ ?_
  · rintro st ⟨hboot, hmap⟩
    exact ⟨⟨.boot hboot, .boot hb htot hlt hboot⟩, by rw [hmap]⟩
  · rintro st r st' ⟨h, hmap⟩ ⟨hi, hfit⟩ he
    obtain ⟨mm, hserve, rfl⟩ := Option.map_eq_some_iff.mp he
    have hE : ∀ who s₁, MM.SameTable st.mm s₁ → MM.Loads st.mm r who → MM.Fits b s₁ who := by
      rintro who s₁ hsame hload rfl hheld
      rw [(congrArg (·.held) hsame.hist :)] at hheld
      exact hfit hload hheld
    obtain ⟨s₁, s₂, hsame₁, heff, hsame₂⟩ := MM.serve_effects (W := fun _ => True) h.sound hi
      (MM.aims_false st.mm r) hE (fun _ => trivial) hserve
    have hs₁ := h.sound.same hsame₁
    refine ⟨⟨(hs₁.effects heff).same hsame₂,
      ((h.partition.same hsame₁).effects hlt hb hs₁ heff).same hsame₂⟩, ?_⟩
    have hspares := fun x hx => serveTells_spares (x := x) h.sound hi hx
    exact (remap_spares hspares st.pMap (by decide)).trans hmap

/-- And so a call finds everything prepared. -/
theorem prepared_of_reach (hb : b.WellFormed) (htot : b.tot < 65536) (hlt : totMem < 65536)
    (hbuilt : Maps.Built b base sizes) (hbuf : Placed buf base sizes) {s : System}
    (hr : Reach Maps.step (fun st r => MM.AsIssued st.mm r ∧ MM.InitFits b st.mm r)
      (Maps.Started t totMem b base sizes) ⟨s.mm, s.kernel.pMap⟩) {who : MM.Proc}
    (hle : MM.INIT_PROC_NR ≤ who) (hl : (s.mm.mproc who).live = true) :
    Prepared totMem b buf s who := by
  obtain ⟨horderly, hmap⟩ := kept_of_reach hb htot hlt hr
  have hd : (s.kernel.pMap (slotOf MM.MM_PROC_NR)).d =
      ⟨0, Kernel.textBase base sizes 0 + sizes 2, sizes 3⟩ := by
    dsimp only at hmap
    rw [hmap, startMap_mm]
  have horg := hbuilt.org
  have hpos := hbuf.base
  have htext : Kernel.textBase base sizes 2 =
      base + sizes 0 + sizes 1 + sizes 2 + sizes 3 + sizes 4 + sizes 5 := rfl
  have htext0 : Kernel.textBase base sizes 0 = base + sizes 0 + sizes 1 := rfl
  have hphys := congrArg Kernel.MemMap.memPhys hd
  have hlen := congrArg Kernel.MemMap.memLen hd
  have hvir := congrArg Kernel.MemMap.memVir hd
  dsimp only at hphys hlen hvir
  exact ⟨horderly, hle, (MM.Mproc.live_eq_true.mp hl).1,
    ⟨by omega, hvir, hlen ▸ hbuf.data, hlen ▸ hbuf.u⟩,
    ⟨by omega, hvir, hlen ▸ hbuf.data, hlen ▸ hbuf.mbuf⟩, by omega⟩

/-- Of every request in every run in which INIT gives back no more than was set aside: EXEC is
atomic exactly when the header fits into its buffer and the stack does not wrap around. -/
theorem exec_atomic (hb : b.WellFormed) (htot : b.tot < 65536) (hlt : totMem < 65536)
    (hbuilt : Maps.Built b base sizes) (hbuf : Placed buf base sizes) {s : System}
    (hr : Reach Maps.step (fun st r => MM.AsIssued st.mm r ∧ MM.InitFits b st.mm r)
      (Maps.Started t totMem b base sizes) ⟨s.mm, s.kernel.pMap⟩) {who : MM.Proc}
    (hle : MM.INIT_PROC_NR ≤ who) (hl : (s.mm.mproc who).live = true) (hfits : MM.Fits b s.mm who)
    (w : World) (rq : Request) : Atomic w buf s who rq ↔ Sane w buf s who rq :=
  (prepared_of_reach hb htot hlt hbuilt hbuf hr hle hl).atomic_iff hb hlt hfits

end Runs

/-- The sizes of a small system, by which INIT starts at click 200. -/
def roomySizes (i : Nat) : Nat := [1, 1, 2, 150, 2, 2, 0, 5].getD i 0

/-- A file with such longs at its start. -/
def fileOf (l : List Nat) : ExecFile where
  stMode := 0o100755
  stUid := 0
  stGid := 0
  contents := l.flatMap fun n => [.ofNat n, .ofNat (n / 256), .ofNat (n / 65536),
    .ofNat (n / 16777216)]

/-- FS finds that file whatever the name. -/
def worldOf (l : List Nat) : World where
  find _ := .ok (fileOf l)
  filp := some 0
  caller := ⟨1, 0, 0, fun _ => none⟩
  load _ _ mem := mem

/-- The kernel after the start of that system. -/
def freshKernel : Kernel.State :=
  Kernel.mainTable ⟨0, 24, 48, by decide, by decide, by decide, by decide, by decide⟩ 42 roomySizes
    fun _ _ => 0

/-- The whole system after its start. -/
def fresh : System where
  mm := (MM.boot MM.blankHoles 8192 ⟨0, 5, 205, 200⟩).get rfl
  kernel := freshKernel
  fp := ⟨0, 0, 0, fun _ => none⟩
  mem _ := 0

/-- What a request of the memory manager leaves of both. -/
def System.after (s : System) (r : MM.Request) : Option System :=
  (Maps.step ⟨s.mm, s.kernel.pMap⟩ r).map fun st =>
    { s with mm := st.mm, kernel := { s.kernel with pMap := st.pMap } }

/-- The child of INIT goes through EXEC for a program of ten clicks. -/
theorem exec_atomic_example : ∃ s, fresh.after (.call 2 .fork) = some s ∧
    Atomic (worldOf [0x04100301, 32, 16, 16, 0, 0, 160, 0]) ⟨16, 1100⟩ s 3 ⟨0, 5, 16, 32⟩ := by
  refine ⟨(fresh.after (.call 2 .fork)).get rfl, rfl, ?_⟩
  have hr : Reach Maps.step (fun st r => MM.AsIssued st.mm r ∧ MM.InitFits ⟨0, 5, 205, 200⟩ st.mm r)
      (Maps.Started MM.blankHoles 8192 ⟨0, 5, 205, 200⟩ 42 roomySizes)
      ⟨((fresh.after (.call 2 .fork)).get rfl).mm,
        ((fresh.after (.call 2 .fork)).get rfl).kernel.pMap⟩ := by
    have hstart : Maps.Started MM.blankHoles 8192 ⟨0, 5, 205, 200⟩ 42 roomySizes
        ⟨fresh.mm, fresh.kernel.pMap⟩ := ⟨rfl, rfl⟩
    have hi : MM.AsIssued fresh.mm (.call 2 .fork) ∧
        MM.InitFits ⟨0, 5, 205, 200⟩ fresh.mm (.call 2 .fork) := ⟨by decide, fun _ _ => by decide⟩
    exact (Reach.init hstart).next hi rfl
  refine (exec_atomic ⟨by decide, by decide, by decide, by decide, by decide, by decide⟩ (by decide)
    (by decide) ⟨rfl, rfl, rfl⟩ ⟨by decide, by decide, by decide, by decide⟩ hr (by decide) rfl
    (fun h => absurd h (by decide)) _ _).mpr ⟨?_, ?_⟩
  · rintro k file s₁ ho
    cases ho
    decide
  · rintro k file s₁ l ho hf -
    cases ho
    cases hf
    unfold Wraps
    decide

/-- A file that asks for 4097 clicks in all, so that the stack of two clicks that is to go to its
end starts in the last click of the first 64K and goes on in the next one: EXEC gets past the test
of `max_hole`, and panics. -/
theorem exec_not_atomic : ∃ b base sizes buf s w rq, b.WellFormed ∧ b.tot < 65536 ∧
    Maps.Built b base sizes ∧ Placed buf base sizes ∧
    Maps.Started MM.blankHoles 8192 b base sizes ⟨s.mm, s.kernel.pMap⟩ ∧ AtHome s.fp ∧
    (s.mm.mproc 2).live = true ∧ GetsPast w buf s 2 rq ∧ doExec w buf s 2 rq = .panics ∧
    ¬Atomic w buf s 2 rq := by
  have hpast : GetsPast (worldOf [0x04100301, 32, 16, 16, 0, 0, 65552, 0]) ⟨16, 1100⟩ fresh 2
      ⟨0, 5, 16, 32⟩ := ⟨_, _, _, _, rfl, rfl, rfl, rfl⟩
  have hpanic : doExec (worldOf [0x04100301, 32, 16, 16, 0, 0, 65552, 0]) ⟨16, 1100⟩ fresh 2
      ⟨0, 5, 16, 32⟩ = .panics := rfl
  refine ⟨⟨0, 5, 205, 200⟩, 42, roomySizes, ⟨16, 1100⟩, fresh, _, _,
    ⟨by decide, by decide, by decide, by decide, by decide, by decide⟩, by decide, ⟨rfl, rfl, rfl⟩,
    ⟨by decide, by decide, by decide, by decide⟩, ⟨rfl, rfl⟩, ⟨rfl, rfl⟩, rfl, hpast, hpanic,
    fun h => ?_⟩
  obtain ⟨s', hs'⟩ := h.through hpast
  rw [hpanic] at hs'
  cases hs'

end Minix.Execs
