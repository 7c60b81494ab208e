import Minix.FS.Cache
import Minix.FS.Filedes

/-!
# Pipes

Reading and writing pipes, the suspension of the calls that have to wait, and their
revival from the saved arguments, with the calls that make, share and close the ends.

The blocks of a file are kept by relative zone and block number; a disk error, a bad user
buffer, a full disk, and what a buffer or a new zone holds before it is filled come from
outside. Files that are not pipes only matter as far as their descriptors go.
-/

namespace Minix.FS.Pipes

open Function

abbrev OK : Int := 0

/-- interrupted function call -/
abbrev EINTR : Int := -4

/-- invalid argument -/
abbrev EINVAL : Int := -22

/-- file too large -/
abbrev EFBIG : Int := -27

/-- broken pipe -/
abbrev EPIPE : Int := -32

/-- pipe size in bytes -/
abbrev PIPE_SIZE : Nat := 7 * BLOCK_SIZE

/-- used in fp_task when suspended on pipe -/
abbrev XPIPE : Int := 0

/-- The memory manager. -/
abbrev MM : Proc := 0

/-- An inode in core, as far as pipes need it. A pipe has no links. -/
structure Inode where
  /-- set to I_PIPE if pipe -/
  iPipe : Bool
  /-- # times inode used -/
  iCount : Nat
  /-- current file size in bytes -/
  iSize : Nat
  /-- the blocks of each zone, where there is a zone -/
  iZone : Nat → Option (Nat → Block)
  /-- log2 of the blocks/zone of its device -/
  scale : Nat
  /-- maximum file size on its device -/
  sMaxSize : Int

/-- What is kept of a call that is suspended. -/
structure Fproc where
  /-- place to save fd if rd/wr can't finish -/
  fpFd : Fd
  /-- and with it the number of the call, if it is READ or WRITE -/
  fpCall : Option RwFlag
  /-- place to save buffer if rd/wr can't finish -/
  fpBuffer : Nat
  /-- place to save bytes if rd/wr can't finish -/
  fpNbytes : Int
  /-- set to indicate process hanging -/
  fpSuspended : Bool
  /-- set to indicate process being revived -/
  fpRevived : Bool
  /-- which task is proc suspended on -/
  fpTask : Int

/-- The file system, and the memory of the processes. -/
structure State where
  files : Files
  inode : InodePtr → Inode
  fproc : Proc → Fproc
  /-- number of procs suspended on pipe -/
  suspCount : Int
  /-- number of pipe processes to be revived -/
  reviving : Int
  mem : Proc → Nat → UInt8
  /-- the processes that there are; the code does not look at it -/
  live : Proc → Bool
  /-- what the writes have put into each pipe; the code does not look at it -/
  writes : InodePtr → List (List UInt8)
  /-- what the reads have taken out; the code does not look at it -/
  reads : InodePtr → List (List UInt8)

/-- What can go wrong with a chunk. -/
inductive Fault where
  /-- no zone for a new block -/
  | noSpace
  /-- bad user buffer -/
  | badUser
  /-- disk error -/
  | disk
  deriving DecidableEq

/-- What comes from outside when a chunk is transferred: a fault, what a buffer holds that is not
read in, and what a new zone holds. -/
structure ChunkIo where
  fault : Option Fault
  junk : Block
  zone : Nat → Block

/-- What comes from outside in READ or WRITE: something for each chunk of a pipe; and for another
file the task that suspends the caller, and the new position. -/
structure Io where
  chunk : Nat → ChunkIo
  suspendOn : Option Int
  newPos : Nat

section Suspension

/-- Other data for one process. -/
def setFproc (s : State) (p : Proc) (d : Fproc) : State :=
  { s with fproc := update s.fproc p d }

/-- Take measures to suspend the processing of the present system call. -/
def suspend (s : State) (fp : Proc) (task : Int) (fd : Fd) (call : Option RwFlag) (buffer : Nat)
    (nbytes : Int) : State :=
  let s := setFproc s fp { s.fproc fp with
    fpSuspended := true, fpFd := fd, fpCall := call, fpBuffer := buffer, fpNbytes := nbytes
    fpTask := -task }
  if task = XPIPE then { s with suspCount := s.suspCount + 1 } else s

/-- Revive a previously blocked process. A process that was waiting on a pipe is only marked. -/
def revive (s : State) (p : Proc) (bytes : Int) : State :=
  let d := s.fproc p
  if d.fpSuspended = false then s
  else if d.fpTask = XPIPE then
    { setFproc s p { d with fpRevived := true } with reviving := s.reviving + 1 }
  else setFproc s p { d with fpSuspended := false, fpNbytes := bytes }

/-- The inode that a descriptor leads to; `nil` is what `NIL_FILP->filp_ino` points to. -/
def inoOf (t : Files) (nil : Option InodePtr) (p : Proc) (fd : Fd) : Option InodePtr :=
  match t.fpFilp p fd with
  | some f => some (t.filp f).filpIno
  | none => nil

/-- The process hangs on the pipe, in a call of that kind. -/
def hangsOn (s : State) (nil : Option InodePtr) (ip : InodePtr) (call : RwFlag) (rp : Proc) : Bool :=
  (s.fproc rp).fpSuspended && (s.fproc rp).fpCall == some call &&
    inoOf s.files nil rp (s.fproc rp).fpFd == some ip

/-- Release a process that hangs on a pipe, and keep track of who is suspended. -/
def releaseOne (s : State) (rp : Proc) : State :=
  let s := revive s rp 0
  { s with suspCount := s.suspCount - 1 }

/-- The search of `release` through the proc table. -/
def releaseLoop (nil : Option InodePtr) (ip : InodePtr) (call : RwFlag) :
    List Proc → Nat → State → State
  | [], _, s => s
  | rp :: l, count, s =>
    if hangsOn s nil ip call rp then
      if count = 1 then releaseOne s rp
      else releaseLoop nil ip call l (count - 1) (releaseOne s rp)
    else releaseLoop nil ip call l count s

/-- Release the processes that hang on a pipe, trying to perform a call, up to a number. -/
def release (s : State) (nil : Option InodePtr) (ip : InodePtr) (call : RwFlag) (count : Nat) :
    State :=
  releaseLoop nil ip call (List.finRange NR_PROCS) count s

/-- A signal has been sent to a user who is paused on the file system. Who hangs on a pipe stays
there. -/
def doUnpause (s : State) (p : Proc) : State :=
  if (s.fproc p).fpSuspended = false then s
  else if -(s.fproc p).fpTask ≠ XPIPE then revive s p EINTR
  else s

end Suspension

section Blocks

def zeroBlock : Block := fun _ => 0

/-- The zone, and the block in it, where a position is found. -/
def zoneOf (ip : Inode) (position : Nat) : Nat := position / BLOCK_SIZE / 2 ^ ip.scale
def boff (ip : Inode) (position : Nat) : Nat := position / BLOCK_SIZE % 2 ^ ip.scale

/-- Locate the block in which a position is to be found. -/
def readMap (ip : Inode) (position : Nat) : Option Block :=
  (ip.iZone (zoneOf ip position)).map fun z => z (boff ip position)

/-- Replace the block at a position, if there is one. -/
def storeBlock (ip : Inode) (position : Nat) (b : Block) : Inode :=
  let zone := (ip.iZone (zoneOf ip position)).map fun z => update z (boff ip position) b
  { ip with iZone := update ip.iZone (zoneOf ip position) zone }

/-- Zero a zone, possibly starting in the middle. -/
def clearZone (ip : Inode) (pos : Nat) (flag : Bool) : Inode :=
  if ip.scale = 0 then ip
  else
    let zoneSize := BLOCK_SIZE * 2 ^ ip.scale
    let pos := if flag then pos / zoneSize * zoneSize else pos
    let next := pos + BLOCK_SIZE - 1
    if next / zoneSize ≠ pos / zoneSize then ip
    else
      let zone := (ip.iZone (zoneOf ip next)).map fun z k =>
        if k < boff ip next then z k else zeroBlock
      { ip with iZone := update ip.iZone (zoneOf ip next) zone }

/-- Acquire a new block, with the zone around it if need be. -/
def newBlock (ip : Inode) (position : Nat) (zone : Nat → Block) : Inode :=
  let ip' :=
    if (readMap ip position).isSome then ip
    else
      let ip' := { ip with iZone := update ip.iZone (zoneOf ip position) (some zone) }
      -- if we are not writing at EOF, clear the zone, just to be safe
      if position ≠ ip.iSize then clearZone ip' position true else ip'
  storeBlock ip' position zeroBlock

/-- A block after a copy from user space. -/
def copyIn (b : Block) (off chunk : Nat) (user : Nat → UInt8) (buff : Nat) : Block := fun i =>
  if off ≤ i.val ∧ i.val < off + chunk then user (buff + (i.val - off)) else b i

/-- User space after a copy from a block. -/
def copyOut (user : Nat → UInt8) (buff : Nat) (b : Block) (off chunk : Nat) : Nat → UInt8 := fun a =>
  if h : buff ≤ a ∧ a < buff + chunk ∧ off + (a - buff) < BLOCK_SIZE then
    b ⟨off + (a - buff), h.2.2⟩
  else user a

/-- What the buffer holds before data are copied from user space. -/
def writeBuf (ip : Inode) (position off chunk : Nat) (c : ChunkIo) (b : Block) : Block :=
  if chunk ≠ BLOCK_SIZE ∧ position ≥ ip.iSize ∧ off = 0 then zeroBlock
  else if chunk = BLOCK_SIZE ∨ off = 0 ∧ position ≥ ip.iSize then c.junk -- not read in
  else if c.fault = some .disk then c.junk
  else b

/-- Read or write (part of) a block. The result tells whether the transfer goes on. -/
def rwChunk (flag : RwFlag) (ip : Inode) (position off chunk : Nat) (user : Nat → UInt8)
    (buff : Nat) (c : ChunkIo) : Bool × Inode × (Nat → UInt8) :=
  match flag with
  | .READING =>
    let b := match readMap ip position with
      | none => zeroBlock -- reading from a nonexistent block
      | some b => if c.fault = some .disk then c.junk else b
    if c.fault = some .badUser then (false, ip, user)
    else (c.fault ≠ some .disk, ip, copyOut user buff b off chunk)
  | .WRITING =>
    match readMap ip position with
    | none =>
      if c.fault = some .noSpace then (false, ip, user)
      else
        let ip' := newBlock ip position c.zone
        if c.fault = some .badUser then (false, ip', user)
        else (c.fault ≠ some .disk,
          storeBlock ip' position (copyIn zeroBlock off chunk user buff), user)
    | some b =>
      let b := writeBuf ip position off chunk c b
      if c.fault = some .badUser then (false, storeBlock ip position b, user)
      else (c.fault ≠ some .disk, storeBlock ip position (copyIn b off chunk user buff), user)

/-- What a transfer leaves behind, and whether all went well. -/
structure Transfer where
  ip : Inode
  user : Nat → UInt8
  position : Nat
  ok : Bool

/-- How much of the transfer the next chunk takes, if any. -/
def chunkSize (flag : RwFlag) (fSize position nbytes : Nat) : Nat :=
  let chunk := min nbytes (BLOCK_SIZE - position % BLOCK_SIZE)
  match flag with
  | .READING => min chunk (fSize - position)
  | .WRITING => chunk

/-- Split the transfer into chunks that don't span two blocks. Each chunk has a byte at least. -/
def rwLoop (flag : RwFlag) (io : Nat → ChunkIo) (fSize : Nat) :
    Nat → Nat → Inode → (Nat → UInt8) → Nat → Nat → Nat → Transfer
  | 0, _, ip, user, position, _, _ => ⟨ip, user, position, true⟩
  | fuel + 1, i, ip, user, position, buff, nbytes =>
    let chunk := chunkSize flag fSize position nbytes
    if chunk = 0 then ⟨ip, user, position, true⟩
    else
      let (ok, ip, user) := rwChunk flag ip position (position % BLOCK_SIZE) chunk user buff (io i)
      if ok then rwLoop flag io fSize fuel (i + 1) ip user (position + chunk) (buff + chunk)
        (nbytes - chunk)
      else ⟨ip, user, position, false⟩

end Blocks

section Calls

/-- What `pipe_check` finds. -/
inductive Verdict where
  /-- process is reading from an empty pipe -/
  | empty (writer : Bool)
  | tooBig
  /-- no one is reading from the pipe -/
  | broken
  /-- stop writer -- pipe full -/
  | full
  /-- go on, and wake a reader if the pipe is empty -/
  | go (wake : Bool)
  deriving DecidableEq

/-- The tests of `pipe_check`. -/
def pipeVerdict (s : State) (rip : InodePtr) (flag : RwFlag) (bytes : Int) (position : Nat) :
    Verdict :=
  match flag with
  | .READING =>
    if position ≥ (s.inode rip).iSize then .empty (findFilp s.files rip Bits.w).isSome
    else .go false
  | .WRITING =>
    if bytes > PIPE_SIZE then .tooBig
    else if (findFilp s.files rip Bits.r).isNone then .broken
    else if position + bytes > PIPE_SIZE then .full
    else .go (position = 0)

/-- Pipes are a little different. No data have been transferred yet. -/
def pipeCheck (s : State) (who : Proc) (fd : Fd) (rip : InodePtr) (flag : RwFlag) (buffer : Nat)
    (bytes : Int) (position : Nat) : Int × State :=
  match pipeVerdict s rip flag bytes position with
  | .empty true =>
    let s := suspend s who XPIPE fd (some flag) buffer bytes
    -- if need be, activate sleeping writer
    (0, if s.suspCount > 0 then release s none rip .WRITING 1 else s)
  | .empty false => (0, s)
  | .tooBig => (EFBIG, s)
  | .broken => (EPIPE, s) -- MM is told to generate a SIGPIPE signal
  | .full => (0, suspend s who XPIPE fd (some flag) buffer bytes)
  | .go wake => (1, if wake then release s none rip .READING 1 else s)

/-- Other data for one inode. -/
def setInode (s : State) (rip : InodePtr) (ip : Inode) : State :=
  { s with inode := update s.inode rip ip }

/-- A new file position. -/
def setPos (t : Files) (f : FilpPtr) (position : Nat) : Files :=
  { t with filp := update t.filp f { t.filp f with filpPos := position } }

/-- The bytes that a transfer of `n` bytes has moved. -/
def bytesAt (user : Nat → UInt8) (buffer n : Nat) : List UInt8 :=
  (List.range n).map fun i => user (buffer + i)

/-- The end of a WRITE: update file size. -/
def endWrite (s : State) (rip : InodePtr) (f : FilpPtr) (fSize start buffer : Nat) (x : Transfer) :
    State :=
  let ip := if x.position > fSize then { x.ip with iSize := x.position } else x.ip
  { setInode s rip ip with
    files := setPos s.files f x.position
    writes := if x.ok then
      update s.writes rip (s.writes rip ++ [bytesAt x.user buffer (x.position - start)])
      else s.writes }

/-- The end of a READ: reset pipe pointers if there is no data left. -/
def endRead (s : State) (who : Proc) (rip : InodePtr) (f : FilpPtr) (start buffer : Nat)
    (x : Transfer) : State :=
  let drained := x.position ≥ x.ip.iSize
  let t := if drained then
      match findFilp s.files rip Bits.w with
      | some wf => setPos s.files wf 0
      | none => s.files
    else s.files
  { setInode s rip (if drained then { x.ip with iSize := 0 } else x.ip) with
    files := setPos t f (if drained then 0 else x.position)
    mem := update s.mem who x.user
    reads := if x.ok then
      update s.reads rip (s.reads rip ++ [bytesAt x.user buffer (x.position - start)])
      else s.reads }

/-- A transfer that `pipe_check` lets go on. -/
def transfer (s : State) (who : Proc) (f : FilpPtr) (rip : InodePtr) (flag : RwFlag)
    (fSize start buffer : Nat) (n : Nat) (io : Io) : State :=
  let x := rwLoop flag io.chunk fSize n 0 (s.inode rip) (s.mem who) start buffer n
  match flag with
  | .WRITING => endWrite s rip f fSize start buffer x
  | .READING => endRead s who rip f start buffer x

/-- READ and WRITE on a pipe. -/
def pipeIo (s : State) (who : Proc) (fd : Fd) (f : FilpPtr) (flag : RwFlag) (buffer : Nat)
    (nbytes : Int) (io : Io) : State :=
  let rip := (s.files.filp f).filpIno
  let position := (s.files.filp f).filpPos
  let fSize := (s.inode rip).iSize
  if flag = .WRITING ∧ position > (s.inode rip).sMaxSize - nbytes then s
  else
    let s := if flag = .WRITING ∧ position > fSize then
      setInode s rip (clearZone (s.inode rip) fSize false) else s
    let (r, s) := pipeCheck s who fd rip flag buffer nbytes position
    if r ≤ 0 then s
    else transfer s who f rip flag fSize position buffer (nbytes % 65536).toNat io

/-- READ and WRITE on another file: the caller may be suspended by a task. -/
def otherIo (s : State) (who : Proc) (fd : Fd) (f : FilpPtr) (flag : RwFlag) (buffer : Nat)
    (nbytes : Int) (io : Io) : State :=
  let s := match io.suspendOn with
    | some task => suspend s who task fd (some flag) buffer nbytes
    | none => s
  { s with files := setPos s.files f io.newPos }

/-- The bit that a call needs. -/
def bitOf : RwFlag → Bits → Bool
  | .READING => Bits.r
  | .WRITING => Bits.w

/-- Perform read(fd, buffer, nbytes) or write(fd, buffer, nbytes) call. -/
def readWrite (s : State) (who : Proc) (flag : RwFlag) (fd : Int) (buffer : Nat) (nbytes : Int)
    (io : Io) : State :=
  if nbytes = 0 ∨ who ≠ MM ∧ nbytes < 0 then s
  else match getFilp s.files who fd with
    | none => s
    | some (k, f) =>
      if bitOf flag (s.files.filp f).filpMode = false then s
      else if (s.inode (s.files.filp f).filpIno).iPipe then pipeIo s who k f flag buffer nbytes io
      else otherIo s who k f flag buffer nbytes io

/-- The caller is no longer using this inode. A pipe that nobody uses is truncated and freed. -/
def putInode (s : State) (rip : InodePtr) : State :=
  let ip := s.inode rip
  setInode s rip
    (if ip.iCount - 1 = 0 ∧ ip.iPipe then
      { ip with iCount := 0, iPipe := false, iSize := 0, iZone := fun _ => none }
    else { ip with iCount := ip.iCount - 1 })

/-- Close a descriptor that leads to a slot. -/
def closeFilp (s : State) (nil : Option InodePtr) (fp : Proc) (k : Fd) (f : FilpPtr) : State :=
  let rip := (s.files.filp f).filpIno
  -- if the inode being closed is a pipe, release everyone hanging on it
  let s := if (s.inode rip).iPipe then
      release s nil rip (if (s.files.filp f).filpMode.r then .WRITING else .READING) NR_PROCS
    else s
  let s := if (s.files.filp f).filpCount - 1 = 0 then putInode s rip else s
  { s with files := dropFd s.files fp k f }

/-- Perform the close(fd) system call. -/
def doClose (s : State) (nil : Option InodePtr) (fp : Proc) (fd : Int) : State :=
  match getFilp s.files fp fd with
  | none => s
  | some (k, f) => closeFilp s nil fp k f

/-- The free slot of the inode table that `get_inode` remembers: the last one. -/
def freeInode (s : State) : Option InodePtr :=
  (List.finRange NR_INODES).reverse.find? fun rip => (s.inode rip).iCount = 0

/-- Put the inode of a new pipe into both slots. -/
def setIno (t : Files) (f : FilpPtr) (rip : InodePtr) : Files :=
  { t with filp := update t.filp f { t.filp f with filpIno := rip } }

/-- The inode of a new pipe, with two users, on a device with that scale and maximum size. -/
def newPipe (s : State) (rip : InodePtr) (scale : Nat) (sMaxSize : Int) : State :=
  { setInode s rip ⟨true, 2, 0, fun _ => none, scale, sMaxSize⟩ with
    writes := update s.writes rip []
    reads := update s.reads rip [] }

/-- Perform the pipe(fil_des) system call. Nothing is known of the device when it has no inode. -/
def doPipe (s : State) (who : Proc) (dev : Option (Nat × Int)) : State :=
  match getFd s.files who ⟨true, false⟩ with
  | .error _ => s
  | .ok (k₀, f₀, t) =>
    let t := claim t who k₀ f₀ (t.filp f₀).filpIno
    match getFd t who ⟨false, true⟩ with
    | .error _ => { s with files := dropFd t who k₀ f₀ }
    | .ok (k₁, f₁, t) =>
      let t := claim t who k₁ f₁ (t.filp f₁).filpIno
      match dev, freeInode s with
      | some (scale, sMaxSize), some rip =>
        { newPipe s rip scale sMaxSize with files := setIno (setIno t f₀ rip) f₁ rip }
      | _, _ => { s with files := dropFd (dropFd t who k₀ f₀) who k₁ f₁ }

/-- OPEN and CREAT, with the inode that the path leads to. -/
def doOpen (s : State) (who : Proc) (bits : Bits) (rip : Option InodePtr) : State :=
  match getFd s.files who bits with
  | .error _ => s
  | .ok (k, f, t) =>
    match rip with
    | none => { s with files := t }
    | some rip =>
      { setInode s rip { s.inode rip with iCount := (s.inode rip).iCount + 1 } with
        files := claim t who k f rip }

/-- Perform the dup(fd) or dup(fd,fd2) system call. The bit 0100 distinguishes dup2 from dup. -/
def doDup (s : State) (who : Proc) (fd fd2 : Int) : State :=
  let rfd := if fd / 64 % 2 = 1 then fd - 64 else fd
  match getFilp s.files who rfd with
  | none => s
  | some (_, f) =>
    if fd = rfd then
      match getFd s.files who ⟨false, false⟩ with
      | .error _ => s
      | .ok (k₂, _, t) => { s with files := shareFilp t who k₂ f }
    else match fdOf fd2 with
      | none => s
      | some k₂ =>
        if rfd = fd2 then s -- ignore the call: dup2(x, x)
        else
          let s := doClose s none who fd2
          { s with files := shareFilp s.files who k₂ f }

/-- Perform the ioctl(ls_fd, request, argx) system call: the caller may be suspended by a task. -/
def doIoctl (s : State) (who : Proc) (fd : Int) (suspendOn : Option Int) : State :=
  match getFilp s.files who fd, suspendOn with
  | some (k, _), some task => suspend s who task k none 0 0
  | _, _ => s

/-- Copy the parent's fproc struct to the child. -/
def doFork (s : State) (parent child : Proc) : State :=
  { s with
    files := forkFiles s.files parent child
    fproc := update s.fproc child (s.fproc parent)
    live := update s.live child true }

/-- Close all the descriptors of a list. -/
def closeAll (nil : Option InodePtr) (p : Proc) : List Fd → State → State
  | [], s => s
  | fd :: l, s => closeAll nil p l (doClose s nil p fd.val)

/-- A process that hangs leaves its suspended call. -/
def leaveSuspended (s : State) (p : Proc) : State :=
  if (s.fproc p).fpSuspended then
    let s := if (s.fproc p).fpTask = XPIPE then { s with suspCount := s.suspCount - 1 } else s
    let s := doUnpause s p
    setFproc s p { s.fproc p with fpSuspended := false }
  else s

/-- Perform the file system portion of the exit(status) system call. -/
def doExit (s : State) (nil : Option InodePtr) (p : Proc) : State :=
  let s := leaveSuspended (closeAll nil p (List.finRange NR_FDS) s) p
  { s with live := update s.live p false }

end Calls

/-- The calls that concern descriptors. -/
inductive Call where
  | pipe (dev : Option (Nat × Int))
  | readWrite (flag : RwFlag) (fd : Int) (buffer : Nat) (nbytes : Int) (io : Io)
  | close (fd : Int)
  | dup (fd fd2 : Int)
  | open (bits : Bits) (rip : Option InodePtr)
  | ioctl (fd : Int) (suspendOn : Option Int)

/-- What happens to the file system: a call of a process; one that takes or puts an inode in some
other way; FORK, EXIT and UNPAUSE from the memory manager; a task that has done its work; a revived
call. Between, processes store into memory. -/
inductive Request where
  | call (who : Proc) (c : Call)
  | other (rip : InodePtr) (iCount : Nat)
  | fork (parent child : Proc)
  | exit (slot1 : Proc) (nil : Option InodePtr)
  | unpause (pro : Proc)
  | revive (procNr : Proc) (status : Int)
  | work (io : Io)
  | store (p : Proc) (a : Nat) (b : UInt8)

/-- The process that `get_work` revives. -/
def toRevive (s : State) : Option Proc :=
  (List.finRange NR_PROCS).find? fun rp => (s.fproc rp).fpRevived

/-- The process is no longer hanging. -/
def unhang (s : State) (rp : Proc) : State :=
  { setFproc s rp { s.fproc rp with fpSuspended := false, fpRevived := false } with
    reviving := s.reviving - 1 }

/-- Revive a suspended process, and do its call again. There is no result when `get_work` couldn't
revive anyone, or the call was not READ or WRITE. -/
def getWork (s : State) (io : Io) : Option State :=
  match toRevive s with
  | none => none
  | some rp =>
    (s.fproc rp).fpCall.map fun flag =>
      readWrite (unhang s rp) rp flag (s.fproc rp).fpFd.val (s.fproc rp).fpBuffer
        (s.fproc rp).fpNbytes io

/-- The call of a process. -/
def perform (s : State) (who : Proc) : Call → State
  | .pipe dev => doPipe s who dev
  | .readWrite flag fd buffer nbytes io => readWrite s who flag fd buffer nbytes io
  | .close fd => doClose s none who fd
  | .dup fd fd2 => doDup s who fd fd2
  | .open bits rip => doOpen s who bits rip
  | .ioctl fd suspendOn => doIoctl s who fd suspendOn

/-- A turn of the main loop: messages are only received while nobody is to be revived. -/
def serve (s : State) (r : Request) : Option State :=
  match r with
  | .store p a b => some { s with mem := update s.mem p (update (s.mem p) a b) }
  | .work io => if s.reviving = 0 then none else getWork s io
  | .call who c => if s.reviving = 0 then some (perform s who c) else none
  | .other rip iCount =>
    if s.reviving = 0 then some (setInode s rip { s.inode rip with iCount := iCount }) else none
  | .fork parent child => if s.reviving = 0 then some (doFork s parent child) else none
  | .exit p nil => if s.reviving = 0 then some (doExit s nil p) else none
  | .unpause p => if s.reviving = 0 then some (doUnpause s p) else none
  | .revive p status => if s.reviving = 0 then some (revive s p status) else none

end Minix.FS.Pipes
