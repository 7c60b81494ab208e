import Minix.FS.Paths
import Minix.FS.Pipe

/-!
# The calls that take and put inodes

Each call that looks up a path, opens, shares or closes a descriptor, changes a directory, or
mounts a device, with every return on the way. The tables that lead to inodes are passed along and
come back with the result; the inodes themselves, and the disk behind them, are the state.
-/

namespace Minix.FS.Inodes

open Function Transition

/-- not owner -/
abbrev EPERM : Int := -1

/-- no such file or directory -/
abbrev ENOENT : Int := -2

/-- block device required -/
abbrev ENOTBLK : Int := -15

/-- mount device busy -/
abbrev EBUSY : Int := -16

/-- file exists -/
abbrev EEXIST : Int := -17

/-- cross-device link -/
abbrev EXDEV : Int := -18

/-- is a directory -/
abbrev EISDIR : Int := -21

/-- invalid argument -/
abbrev EINVAL : Int := -22

/-- too many links -/
abbrev EMLINK : Int := -31

/-- regular file, not dir or special -/
abbrev I_REGULAR : Nat := 0o100000

/-- block special file -/
abbrev I_BLOCK_SPECIAL : Nat := 0o060000

/-- character special file -/
abbrev I_CHAR_SPECIAL : Nat := 0o020000

/-- all bits for user, group and others -/
abbrev ALL_MODES : Nat := 0o006777

/-- how many links are allowed -/
abbrev MAX_LINKS : UInt8 := 0o177

/-- magic number contained in super-block -/
abbrev SUPER_MAGIC : Int := 0x137F

/-- major-minor device number of root dev -/
abbrev ROOT_DEV : Nat := 0x301

/-- The length of a path that fits into a message. -/
abbrev M3_STRING : Nat := 14

/-- The memory manager. -/
abbrev MM : Proc := 0

/-- INIT, the process generated at boot time. -/
abbrev INIT : Proc := 2

/-- Whether a path may be in the message. -/
inductive NameFlag where
  | M1
  | M3
  deriving DecidableEq

/-- How a caller names a file: the length of the path including the 0 byte, the characters in the
message, and what a copy from user space yields. -/
structure PathArg where
  len : Int
  pathname : List UInt8
  copied : Except Int (List UInt8)

/-- The tables that lead to inodes. -/
structure Tables where
  files : Files
  fproc : Proc → Fproc
  super : SuperPtr → Super
  /-- the processes that MM has not reported to have exited -/
  live : Proc → Bool
  /-- storage for user path name -/
  userPath : Path

/-- The first `len` characters of `user_path` are overwritten. -/
def Tables.setPath (t : Tables) (len : Nat) (s : List UInt8) : Tables :=
  { t with userPath := s.take len ++ t.userPath.drop len }

/-- Go get path and put it in 'user_path'. The loop does not end in the array when there is nothing to
copy from the message, and neither does a copy of negative length. -/
def fetchName (t : Tables) (a : PathArg) (flag : NameFlag) : Option (Except Int Tables) :=
  if flag = .M3 ∧ a.len ≤ M3_STRING then
    if a.len ≤ 0 then none else some (.ok (t.setPath a.len.toNat a.pathname))
  else if a.len > MAX_PATH then some (.error E_LONG_STRING)
  else match a.copied with
    | .error e => some (.error e)
    | .ok s => if a.len < 0 then none else some (.ok (t.setPath a.len.toNat s))

variable {σ : Type}

/-- Write dirty inodes to the disk. -/
def syncInodes (d : Disk σ) (sup : SuperPtr → Super) : List InodePtr → M σ Unit
  | [] => return
  | rip :: l => do
    let ip ← inodeOf rip
    onlyIf (ip.iCount > 0 ∧ ip.iDirt = DIRTY) (rwInode d sup rip .WRITING)
    syncInodes d sup l

/-- Perform the sync() system call. Flush all the tables. -/
def doSync (d : Disk σ) (sup : SuperPtr → Super) : M σ Unit := do
  let _ ← superOf sup ROOT_DEV
  let _ ← onWorld d.clockTime
  syncInodes d sup (List.finRange NR_INODES)
  inWorld (d.flush sup)

/-- Remove all the zones from the inode, and clear it. -/
def truncate (d : Disk σ) (sup : SuperPtr → Super) (rip : InodePtr) : M σ Unit := do
  let ip ← inodeOf rip
  let sp ← superOf sup ip.iDev
  let di ← onWorld (d.truncate sp ip)
  modifyInode rip fun ip => { ip.setDisk di with iDirt := DIRTY }

/-- Make a directory entry for a new inode. When that is not possible, the inode is freed. -/
def enterNode (d : Disk σ) (sup : SuperPtr → Super) (fp : Fproc) (ldir rip : InodePtr)
    (string : Name) (z0 : Nat) : M σ (Int × Option InodePtr) := do
  modifyInode rip fun ip =>
    { ip with iNlinks := ip.iNlinks + 1, iZone := update ip.iZone 0 z0 }
  rwInode d sup rip .WRITING -- force inode to disk now
  let (r, _) ← searchDir d sup fp ldir string .ENTER (← inodeOf rip).iNum
  putInode d sup ldir
  if r ≠ OK then
    -- pity, have to free disk inode
    modifyInode rip fun ip => { ip with iNlinks := ip.iNlinks - 1, iDirt := DIRTY }
    putInode d sup rip
    return (r, none)
  else return (OK, some rip)

/-- Allocate an inode, make a directory entry for it, and initialize it. The code is `OK`, `EEXIST`
with the inode that is there already, or an error. -/
def newNode (d : Disk σ) (sup : SuperPtr → Super) (fp : Fproc) (path : Path) (bits z0 : Nat) :
    M σ (Int × Option InodePtr) := do
  match ← lastDir d sup fp path with
  | .error e => return (e, none)
  | .ok (ldir, string) =>
    match ← advance d sup fp d.depth ldir string with
    | .ok rip =>
      putInode d sup ldir
      return (EEXIST, some rip)
    | .error e =>
      if e ≠ ENOENT then
        putInode d sup ldir
        return (e, none)
      else
        -- Last path component does not exist. Make new directory entry.
        match ← allocInode d sup (← inodeOf ldir).iDev bits fp.fpEffuid fp.fpEffgid with
        | .error e =>
          putInode d sup ldir
          return (e, none)
        | .ok rip => enterNode d sup fp ldir rip string z0

/-- The given path pre-existed: truncate if possible. `devOpen` is the answer of the driver. -/
def reuseNode (d : Disk σ) (sup : SuperPtr → Super) (fp : Fproc) (rip : InodePtr) (devOpen : Int) :
    M σ Int := do
  let ip ← inodeOf rip
  if ip.type = I_REGULAR then
    let r ← StateT.lift (forbidden sup fp ip W_BIT false)
    onlyIf (r = OK) (truncate d sup rip)
    return r
  else if ip.type = I_DIRECTORY then return EISDIR
  else if ip.type = I_CHAR_SPECIAL ∨ ip.type = I_BLOCK_SPECIAL then
    let r ← StateT.lift (forbidden sup fp ip W_BIT false)
    return if r ≠ OK then r else devOpen
  else return EEXIST

/-- Of the two possibilities, only that the path pre-existed takes more work. -/
def creatNode (d : Disk σ) (sup : SuperPtr → Super) (fp : Fproc) (r : Int) (rip : InodePtr)
    (devOpen : Int) : M σ Int :=
  if r = EEXIST then reuseNode d sup fp rip devOpen else pure r

/-- Perform the creat(name, mode) system call. -/
def doCreat (d : Disk σ) (t : Tables) (who : Proc) (a : PathArg) (mode : Nat) (devOpen : Int) :
    M σ (Int × Tables) := do
  match ← StateT.lift (fetchName t a .M3) with
  | .error e => return (e, t)
  | .ok t =>
    match getFd t.files who ⟨false, true⟩ with
    | .error e => return (e, t)
    | .ok (k, f, files) =>
      let t := { t with files := files }
      let fp := t.fproc who
      let bits := I_REGULAR ||| (mode &&& ALL_MODES &&& fp.fpUmask)
      let (r, rip) ← newNode d t.super fp t.userPath bits NO_ZONE
      if r ≠ OK ∧ r ≠ EEXIST then return (r, t)
      else match rip with
        | none => fun _ => none
        | some rip =>
          let r ← creatNode d t.super fp r rip devOpen
          if r ≠ OK then
            putInode d t.super rip
            return (r, t)
          else return (k.val, { t with files := claim t.files who k f rip })

/-- Perform the mknod(name, mode, addr) system call. -/
def doMknod (d : Disk σ) (t : Tables) (who : Proc) (a : PathArg) (mode addr : Nat) :
    M σ (Int × Tables) := do
  let fp := t.fproc who
  if ¬fp.superUser then return (EPERM, t)
  else
    match ← StateT.lift (fetchName t a .M1) with
    | .error e => return (e, t)
    | .ok t =>
      let bits := mode &&& I_TYPE ||| (mode &&& ALL_MODES &&& fp.fpUmask)
      let (r, rip) ← newNode d t.super fp t.userPath bits addr
      putInodeOpt d t.super rip
      return (r, t)

/-- `mode_map`. -/
def modeMap (mode : Int) : Option Bits :=
  if mode = 0 then some ⟨true, false⟩
  else if mode = 1 then some ⟨false, true⟩
  else if mode = 2 then some ⟨true, true⟩
  else none

/-- The bits as `forbidden` tests them. -/
def Bits.mask (b : Bits) : Nat := (if b.r then R_BIT else 0) + (if b.w then W_BIT else 0)

/-- Perform the open(name, mode) system call. What a driver answers does not matter. -/
def doOpen (d : Disk σ) (t : Tables) (who : Proc) (a : PathArg) (mode : Int) :
    M σ (Int × Tables) := do
  match modeMap mode with
  | none => return (EINVAL, t)
  | some bits =>
    match ← StateT.lift (fetchName t a .M3) with
    | .error e => return (e, t)
    | .ok t =>
      match getFd t.files who bits with
      | .error e => return (e, t)
      | .ok (k, f, files) =>
        let t := { t with files := files }
        let fp := t.fproc who
        match ← eatPath d t.super fp t.userPath with
        | .error e => return (e, t)
        | .ok rip =>
          let ip ← inodeOf rip
          let r ← StateT.lift (forbidden t.super fp ip (Bits.mask bits) false)
          if r ≠ OK then
            putInode d t.super rip -- can't open: protection violation
            return (r, t)
          else if ip.type = I_DIRECTORY ∧ bits.w then
            putInode d t.super rip
            return (EISDIR, t)
          else return (k.val, { t with files := claim t.files who k f rip })

/-- The device of a special file is mounted, or the root device. -/
def mounted (sup : SuperPtr → Super) (dev : Nat) : Bool :=
  dev = ROOT_DEV ∨ ∃ sp, (sup sp).sDev = dev

/-- Invalidate cache entries unless special is mounted or ROOT. -/
def closeBlockSpecial (d : Disk σ) (sup : SuperPtr → Super) (dev : Nat) : M σ Unit := do
  doSync d sup -- purge cache
  onlyIf (mounted sup dev = false) (inWorld fun w => some (d.invalidate dev w))

/-- Perform the close(fd) system call. What a closed pipe releases does not use inodes. -/
def doClose (d : Disk σ) (t : Tables) (fp : Proc) (fd : Int) : M σ (Int × Tables) := do
  match getFilp t.files fp fd with
  | none => return (EBADF, t)
  | some (k, f) =>
    let rip := (t.files.filp f).filpIno
    let ip ← inodeOf rip
    onlyIf (ip.type = I_BLOCK_SPECIAL) (closeBlockSpecial d t.super (ip.iZone 0))
    -- if a write has been done, the inode is already marked as DIRTY
    onlyIf ((t.files.filp f).filpCount - 1 = 0) (putInode d t.super rip)
    return (OK, { t with files := dropFd t.files fp k f })

/-- Perform the dup(fd) or dup(fd,fd2) system call. The bit 0100 distinguishes dup2 from dup. -/
def doDup (d : Disk σ) (t : Tables) (who : Proc) (fd fd2 : Int) : M σ (Int × Tables) := do
  let rfd := if fd / 64 % 2 = 1 then fd - 64 else fd -- kill off dup2 bit, if on
  match getFilp t.files who rfd with
  | none => return (EBADF, t)
  | some (_, f) =>
    if fd = rfd then
      match getFd t.files who ⟨false, false⟩ with
      | .error e => return (e, t)
      | .ok (k₂, _, files) => return (k₂.val, { t with files := shareFilp files who k₂ f })
    else match fdOf fd2 with
      | none => return (EBADF, t)
      | some k₂ =>
        if rfd = fd2 then return (fd2, t) -- ignore the call: dup2(x, x)
        else
          let (_, t) ← doClose d t who fd2 -- cannot fail
          return (fd2, { t with files := shareFilp t.files who k₂ f })

/-- Acquire two file descriptors, one for each end. -/
def getEnds (t : Files) (fp : Proc) : Except Int (Fd × FilpPtr × Fd × FilpPtr) × Files :=
  match getFd t fp ⟨true, false⟩ with
  | .error e => (.error e, t)
  | .ok (k₀, f₀, t) =>
    let t := claim t fp k₀ f₀ (t.filp f₀).filpIno
    match getFd t fp ⟨false, true⟩ with
    | .error e => (.error e, dropFd t fp k₀ f₀)
    | .ok (k₁, f₁, t) => (.ok (k₀, f₀, k₁, f₁), claim t fp k₁ f₁ (t.filp f₁).filpIno)

/-- Perform the pipe(fil_des) system call. -/
def doPipe (d : Disk σ) (t : Tables) (who : Proc) : M σ (Int × Tables) := do
  let rfp := t.fproc who
  let (r, files) := getEnds t.files who
  match r with
  | .error e => return (e, { t with files := files })
  | .ok (k₀, f₀, k₁, f₁) =>
    -- make the inode in the current working directory
    let dir ← inodeOf rfp.fpWorkdir
    match ← allocInode d t.super dir.iDev I_REGULAR rfp.fpEffuid rfp.fpEffgid with
    | .error e => return (e, { t with files := dropFd (dropFd files who k₀ f₀) who k₁ f₁ })
    | .ok rip =>
      modifyInode rip fun ip => { ip with iPipe := true }
      dupInode rip -- for double usage
      rwInode d t.super rip .WRITING -- mark inode as allocated
      return (OK, { t with files := Pipes.setIno (Pipes.setIno files f₀ rip) f₁ rip })

/-- The file to be linked does not have the maximum number of links already, and only the super_user may
link to directories. -/
def mayLink (fp : Fproc) (ip : Inode) : Int :=
  if ip.iNlinks = MAX_LINKS then EMLINK
  else if ip.type = I_DIRECTORY ∧ ¬fp.superUser then EPERM
  else OK

/-- The file to be linked, if it exists and may be linked. -/
def linkable (d : Disk σ) (t : Tables) (who : Proc) (a : PathArg) :
    M σ (Except Int InodePtr × Tables) := do
  match ← StateT.lift (fetchName t a .M1) with
  | .error e => return (.error e, t)
  | .ok t =>
    let fp := t.fproc who
    match ← eatPath d t.super fp t.userPath with
    | .error e => return (.error e, t)
    | .ok rip =>
      let r := mayLink fp (← inodeOf rip)
      if r ≠ OK then
        -- if error with 'name', return the inode
        putInode d t.super rip
        return (.error r, t)
      else return (.ok rip, t)

/-- Enter a name for an inode into the last directory, unless it exists in full. -/
def enterLink (d : Disk σ) (sup : SuperPtr → Super) (fp : Fproc) (rip ldir : InodePtr)
    (string : Name) : M σ Int := do
  match ← advance d sup fp d.depth ldir string with
  | .ok newIp =>
    putInode d sup newIp
    return EEXIST
  | .error e =>
    let ip ← inodeOf rip
    if e ≠ ENOENT then return e
    -- check for links across devices
    else if ip.iDev ≠ (← inodeOf ldir).iDev then return EXDEV
    else return (← searchDir d sup fp ldir string .ENTER ip.iNum).1

/-- Perform the link(name, name2) system call. -/
def doLink (d : Disk σ) (t : Tables) (who : Proc) (a₁ a₂ : PathArg) : M σ (Int × Tables) := do
  let (r, t) ← linkable d t who a₁
  match r with
  | .error e => return (e, t)
  | .ok rip =>
    match ← StateT.lift (fetchName t a₂ .M1) with
    | .error e => return (e, t)
    | .ok t =>
      let fp := t.fproc who
      match ← lastDir d t.super fp t.userPath with
      | .error e =>
        putInode d t.super rip
        return (e, t)
      | .ok (ldir, string) =>
        let r ← enterLink d t.super fp rip ldir string
        -- if success, register the linking
        onlyIf (r = OK) (modifyInode rip fun ip =>
          { ip with iNlinks := ip.iNlinks + 1, iDirt := DIRTY })
        putInode d t.super rip
        putInode d t.super ldir
        return (r, t)

/-- Delete the entry of a file. Only super_user can unlink directory. -/
def deleteEntry (d : Disk σ) (sup : SuperPtr → Super) (fp : Fproc) (rip ldir : InodePtr)
    (string : Name) : M σ Int := do
  if (← inodeOf rip).type = I_DIRECTORY ∧ ¬fp.superUser then return EPERM
  else return (← searchDir d sup fp ldir string .DELETE 0).1

/-- Perform the unlink(name) system call. -/
def doUnlink (d : Disk σ) (t : Tables) (who : Proc) (a : PathArg) : M σ (Int × Tables) := do
  match ← StateT.lift (fetchName t a .M3) with
  | .error e => return (e, t)
  | .ok t =>
    let fp := t.fproc who
    match ← lastDir d t.super fp t.userPath with
    | .error e => return (e, t)
    | .ok (ldir, string) =>
      match ← advance d t.super fp d.depth ldir string with
      | .error e =>
        putInode d t.super ldir
        return (e, t)
      | .ok rip =>
        let r ← deleteEntry d t.super fp rip ldir string
        onlyIf (r = OK) (modifyInode rip fun ip =>
          { ip with iNlinks := ip.iNlinks - 1, iDirt := DIRTY })
        putInode d t.super rip
        putInode d t.super ldir
        return (r, t)

/-- A directory to change to must be a directory and also be searchable. -/
def enterable (sup : SuperPtr → Super) (fp : Fproc) (ip : Inode) : Option Int :=
  if ip.type ≠ I_DIRECTORY then some ENOTDIR else forbidden sup fp ip X_BIT false

/-- Do the actual work for chdir() and chroot(): the directory to change to. -/
def change (d : Disk σ) (t : Tables) (who : Proc) (a : PathArg) :
    M σ (Except Int InodePtr × Tables) := do
  match ← StateT.lift (fetchName t a .M3) with
  | .error e => return (.error e, t)
  | .ok t =>
    let fp := t.fproc who
    match ← eatPath d t.super fp t.userPath with
    | .error e => return (.error e, t)
    | .ok rip =>
      let r ← StateT.lift (enterable t.super fp (← inodeOf rip))
      if r ≠ OK then
        putInode d t.super rip
        return (.error r, t)
      else return (.ok rip, t)

/-- Another working directory. -/
def Tables.setWorkdir (t : Tables) (p : Proc) (rip : InodePtr) : Tables :=
  { t with fproc := update t.fproc p { t.fproc p with fpWorkdir := rip } }

/-- Another root directory. -/
def Tables.setRootdir (t : Tables) (p : Proc) (rip : InodePtr) : Tables :=
  { t with fproc := update t.fproc p { t.fproc p with fpRootdir := rip } }

/-- MM simulates a chdir in order to do EXEC, etc. -/
def chdirMM (d : Disk σ) (t : Tables) (slot1 : Proc) (cdFlag : Bool) : M σ (Int × Tables) := do
  let fp := t.fproc MM
  let rfp := t.fproc slot1
  putInode d t.super fp.fpWorkdir
  let rip := if cdFlag then fp.fpRootdir else rfp.fpWorkdir
  dupInode rip
  return (OK, { t with fproc := update t.fproc MM { fp with
    fpWorkdir := rip
    fpEffuid := if cdFlag then SU_UID else rfp.fpEffuid } })

/-- Change directory. This function is also called by MM, with a process slot and a flag. -/
def doChdir (d : Disk σ) (t : Tables) (who : Proc) (a : PathArg) (slot1 : Proc) (cdFlag : Bool) :
    M σ (Int × Tables) := do
  if who = MM then chdirMM d t slot1 cdFlag
  else
    let (r, t) ← change d t who a
    match r with
    | .error e => return (e, t)
    | .ok rip =>
      putInode d t.super (t.fproc who).fpWorkdir -- release the old directory
      return (OK, t.setWorkdir who rip) -- acquire the new one

/-- Perform the chroot(name) system call. -/
def doChroot (d : Disk σ) (t : Tables) (who : Proc) (a : PathArg) : M σ (Int × Tables) := do
  if ¬(t.fproc who).superUser then return (EPERM, t) -- only su may chroot()
  else
    let (r, t) ← change d t who a
    match r with
    | .error e => return (e, t)
    | .ok rip =>
      putInode d t.super (t.fproc who).fpRootdir
      return (OK, t.setRootdir who rip)

/-- Temporarily open a file, and do something with it. -/
def onFile (d : Disk σ) (t : Tables) (who : Proc) (a : PathArg) (flag : NameFlag)
    (f : (SuperPtr → Super) → Fproc → InodePtr → M σ Int) : M σ (Int × Tables) := do
  match ← StateT.lift (fetchName t a flag) with
  | .error e => return (e, t)
  | .ok t =>
    let fp := t.fproc who
    match ← eatPath d t.super fp t.userPath with
    | .error e => return (e, t)
    | .ok rip =>
      let r ← f t.super fp rip
      putInode d t.super rip
      return (r, t)

/-- Perform the stat(name, buf) system call. What is copied to the user does not use inodes; `copied` is
how that ends. -/
def doStat (d : Disk σ) (t : Tables) (who : Proc) (a : PathArg) (copied : Int) :
    M σ (Int × Tables) :=
  onFile d t who a .M1 fun _ _ _ => return copied

/-- Only the owner or the super_user may change the mode of a file. No one may change the mode of a
file on a read-only file system. -/
def chmodable (sup : SuperPtr → Super) (fp : Fproc) (ip : Inode) : Option Int :=
  if ip.iUid ≠ fp.fpEffuid ∧ ¬fp.superUser then some EPERM else readOnly sup ip

/-- Perform the chmod(name, mode) system call. -/
def doChmod (d : Disk σ) (t : Tables) (who : Proc) (a : PathArg) (mode : Nat) :
    M σ (Int × Tables) :=
  onFile d t who a .M3 fun sup fp rip => do
    let r ← StateT.lift (chmodable sup fp (← inodeOf rip))
    onlyIf (r = OK) (modifyInode rip fun ip =>
      { ip with
        iMode := ip.iMode - (ip.iMode &&& ALL_MODES) ||| mode &&& ALL_MODES
        iDirt := DIRTY })
    return r

/-- Perform the chown(name, owner, group) system call. -/
def doChown (d : Disk σ) (t : Tables) (who : Proc) (a : PathArg) (owner group : Int) :
    M σ (Int × Tables) := do
  if ¬(t.fproc who).superUser then return (EPERM, t)
  else
    onFile d t who a .M1 fun sup _ rip => do
      let r ← StateT.lift (readOnly sup (← inodeOf rip))
      onlyIf (r = OK) (modifyInode rip fun ip =>
        { ip with iUid := owner, iGid := group, iDirt := DIRTY })
      return r

/-- Perform the access(name, mode) system call. -/
def doAccess (d : Disk σ) (t : Tables) (who : Proc) (a : PathArg) (mode : Nat) :
    M σ (Int × Tables) :=
  onFile d t who a .M3 fun sup fp rip => do
    StateT.lift (forbidden sup fp (← inodeOf rip) mode true)

/-- Perform the utime(name, timep) system call. Only the owner of a file or the super_user can change
its time. -/
def doUtime (d : Disk σ) (t : Tables) (who : Proc) (a : PathArg) (updateTime : Int) :
    M σ (Int × Tables) :=
  onFile d t who a .M1 fun _ fp rip => do
    if (← inodeOf rip).iUid ≠ fp.fpEffuid ∧ ¬fp.superUser then return EPERM
    else
      modifyInode rip fun ip => { ip with iModtime := updateTime, iDirt := DIRTY }
      return OK

/-- Convert the block special file to a device number. -/
def nameToDev (d : Disk σ) (t : Tables) (who : Proc) : M σ (Except Int Nat) := do
  match ← eatPath d t.super (t.fproc who) t.userPath with
  | .error e => return .error e -- if 'path' can't be opened, give up immediately
  | .ok rip =>
    let ip ← inodeOf rip
    putInode d t.super rip
    if ip.type ≠ I_BLOCK_SPECIAL then return .error ENOTBLK
    else if ip.iZone 0 = NO_DEV then return .error d.staleErr
    else return .ok (ip.iZone 0)

/-- A free slot of the super block table: the last one. -/
def freeSuper (sup : SuperPtr → Super) : Option SuperPtr :=
  (List.finRange NR_SUPERS).reverse.find? fun sp => (sup sp).sDev = NO_DEV

/-- A super block is put into its slot. -/
def Tables.setSuper (t : Tables) (sp : SuperPtr) (x : Super) : Tables :=
  { t with super := update t.super sp x }

/-- A few basic checks to see if super block looks reasonable. -/
def Super.reasonable (x : Super) : Bool :=
  x.sMagic = SUPER_MAGIC ∧ 1 ≤ x.sNinodes ∧ 1 ≤ x.sNzones ∧ 1 ≤ x.sImapBlocks ∧
    1 ≤ x.sZmapBlocks

/-- What a file may be mounted on: it may not be busy, and it may not be special. -/
def mountable (ip : Inode) : Int :=
  if ip.type = I_BLOCK_SPECIAL ∨ ip.type = I_CHAR_SPECIAL then ENOTDIR
  else if ip.iCount > 1 then EBUSY
  else OK

/-- The root inode of the file system that is being mounted, with a code. -/
def mountRoot (d : Disk σ) (sup : SuperPtr → Super) (dev : Nat) (r : Int) :
    M σ (Int × Option InodePtr) := do
  if r ≠ OK then return (r, none)
  else
    match ← getInode d sup dev ROOT_INODE with
    | .error e => return (e, none)
    | .ok root => return (if (← inodeOf root).iMode = 0 then EINVAL else OK, some root)

/-- Load the i-node and zone bit maps from the new device. That is taken to be done even if there were
not enough buffers. -/
def mountMaps (d : Disk σ) (x : Super) (r : Int) : M σ (Int × Bool × Super) := do
  if r ≠ OK then return (r, false, x)
  else
    let (ok, imap, zmap) ← onWorld (d.loadBitMaps x)
    return (if ok then OK else ENFILE, true, { x with sImap := imap, sZmap := zmap })

/-- File types of the two inodes may not conflict. -/
def mountTypes (rip : InodePtr) (root : Option InodePtr) (r : Int) : M σ Int := do
  match root with
  | none => return r
  | some root =>
    return if r = OK ∧ (← inodeOf rip).type = I_DIRECTORY ∧ (← inodeOf root).type ≠ I_DIRECTORY
      then ENOTDIR else r

/-- Mount the device with super block `x`, in slot `sp`, on an inode. The result is what the slot holds
then. -/
def mountOn (d : Disk σ) (sup : SuperPtr → Super) (sp : SuperPtr) (x : Super) (rip : InodePtr)
    (rdOnly : Bool) : M σ (Int × Super) := do
  let sup₁ := update sup sp x
  let r := mountable (← inodeOf rip)
  let (r, root) ← mountRoot d sup₁ x.sDev r
  let (r, loaded, x) ← mountMaps d x r
  let sup₂ := update sup sp x
  let r ← mountTypes rip root r
  if r ≠ OK then
    -- if error, return the super block and both inodes; release the maps
    putInode d sup₂ rip
    putInodeOpt d sup₂ root
    onlyIf loaded (inWorld (d.unloadBitMaps x))
    doSync d sup₂
    inWorld fun w => some (d.invalidate x.sDev w)
    return (r, { x with sDev := NO_DEV })
  else match root with
    | none => fun _ => none
    | some root =>
      -- nothing else can go wrong, perform the mount
      modifyInode rip fun ip => { ip with iMount := true }
      return (OK, { x with sImount := .of rip, sIsup := .of root, sRdOnly := rdOnly })

/-- Perform the mount(name, mfile, rd_only) system call. -/
def doMount (d : Disk σ) (t : Tables) (who : Proc) (a₁ a₂ : PathArg) (rdOnly : Bool) :
    M σ (Int × Tables) := do
  let fp := t.fproc who
  if ¬fp.superUser then return (EPERM, t)
  else
    match ← StateT.lift (fetchName t a₁ .M1) with
    | .error e => return (e, t)
    | .ok t =>
      match ← nameToDev d t who with
      | .error e => return (e, t)
      | .ok dev =>
        if ∃ sp, (t.super sp).sDev = dev then return (EBUSY, t) -- already mounted
        else match freeSuper t.super with
          | none => return (ENFILE, t) -- no super block available
          | some sp =>
            -- fill in the super block
            let x ← onWorld (d.readSuper dev)
            let x := { x with sDev := dev }
            let free := { x with sDev := NO_DEV }
            if x.reasonable = false then return (EINVAL, t.setSuper sp free)
            else
              -- now get the inode of the file to be mounted on
              match ← StateT.lift (fetchName t a₂ .M1) with
              | .error e => return (e, t.setSuper sp free)
              | .ok t =>
                match ← eatPath d (update t.super sp x) fp t.userPath with
                | .error e => return (e, t.setSuper sp free)
                | .ok rip =>
                  let (r, x) ← mountOn d t.super sp x rip rdOnly
                  return (r, t.setSuper sp x)

/-- How often the inodes of a device are used. -/
def useCount (c : Core σ) (dev : Nat) : Int :=
  ((List.finRange NR_INODES).map fun rip =>
    if (c.inode rip).iCount > 0 ∧ (c.inode rip).iDev = dev then (c.inode rip).iCount else 0).sum

/-- An inode that a super block points to is put. -/
def putLink (d : Disk σ) (sup : SuperPtr → Super) : Link InodePtr → M σ Unit
  | .nil => return
  | .of rip => putInode d sup rip
  | .wild => fun _ => none

/-- The inode mounted on returns to normal. -/
def unmountOn : Link InodePtr → M σ Unit
  | .of rip => modifyInode rip fun ip => { ip with iMount := false }
  | _ => fun _ => none

/-- Release the bit maps of a device that has a super block. -/
def unloadMaps (d : Disk σ) (sup : SuperPtr → Super) : Option SuperPtr → M σ Unit
  | none => return
  | some sp => inWorld (d.unloadBitMaps (sup sp))

/-- Perform the umount(name) system call. -/
def doUmount (d : Disk σ) (t : Tables) (who : Proc) (a : PathArg) : M σ (Int × Tables) := do
  if ¬(t.fproc who).superUser then return (EPERM, t)
  else
    match ← StateT.lift (fetchName t a .M3) with
    | .error e => return (e, t)
    | .ok t =>
      match ← nameToDev d t who with
      | .error e => return (e, t)
      | .ok dev =>
        if useCount (← get) dev > 1 then return (EBUSY, t) -- can't umount a busy file system
        else
          let slot := getSuper t.super dev
          -- release the bit maps, sync the disk, and invalidate cache
          unloadMaps d t.super slot
          doSync d t.super
          inWorld fun w => some (d.invalidate dev w)
          match slot with
          | none => return (EINVAL, t)
          | some sp =>
            -- finish off the unmount
            let x := t.super sp
            unmountOn x.sImount
            putLink d t.super x.sImount -- release the inode mounted on
            putLink d t.super x.sIsup -- release the root inode of the mounted fs
            return (OK, t.setSuper sp { x with sImount := .nil, sDev := NO_DEV })

/-- Those aspects of the fork() system call that relate to files: the child inherits its parent's file
descriptors, and root and working dir have another user. -/
def doFork (t : Tables) (parent child : Proc) : M σ (Int × Tables) := do
  dupInode (t.fproc parent).fpRootdir
  dupInode (t.fproc parent).fpWorkdir
  return (OK, { t with
    files := forkFiles t.files parent child
    fproc := update t.fproc child (t.fproc parent)
    live := update t.live child true })

/-- Loop on file descriptors, closing any that are open. -/
def closeAll (d : Disk σ) (p : Proc) : List Fd → Tables → M σ Tables
  | [], t => return t
  | fd :: l, t => do
    let (_, t) ← doClose d t p fd.val
    closeAll d p l t

/-- Perform the file system portion of the exit(status) system call. -/
def doExit (d : Disk σ) (t : Tables) (exitee : Proc) : M σ (Int × Tables) := do
  let t ← closeAll d exitee (List.finRange NR_FDS) t
  -- release root and working directories
  putInode d t.super (t.fproc exitee).fpRootdir
  putInode d t.super (t.fproc exitee).fpWorkdir
  return (OK, { t with live := update t.live exitee false })

/-- Tables that are cleared. The pointers of a process that does not live mean nothing. -/
def blankTables : Tables where
  files := ⟨fun _ => ⟨⟨false, false⟩, 0, 0, 0⟩, fun _ _ => none⟩
  fproc _ := ⟨0, 0, 0, 0, 0, 0, 0⟩
  super _ := ⟨0, 0, 0, 0, 0, 0, 0, 0, fun _ => .nil, fun _ => .nil, NO_DEV, .nil, .nil, false⟩
  live _ := false
  userPath := List.replicate MAX_PATH 0

/-- Read in super_block for the root file system, and load its bit maps. -/
def loadSuper (d : Disk σ) (t : Tables) : M σ Tables := do
  let x ← onWorld (d.readSuper ROOT_DEV)
  let x := { x with sDev := ROOT_DEV }
  match ← getInode d (update t.super 0 x) ROOT_DEV ROOT_INODE with
  | .error _ => fun _ => none
  | .ok rip =>
    let ip ← inodeOf rip -- inode for root dir
    if ip.type ≠ I_DIRECTORY ∨ ip.iNlinks < 3 ∨ x.sMagic ≠ SUPER_MAGIC then fun _ => none
    else
      dupInode rip
      let (ok, imap, zmap) ← onWorld (d.loadBitMaps x)
      if ok = false then fun _ => none
      else return t.setSuper 0 { x with
        sImount := .of rip, sIsup := .of rip, sRdOnly := false, sImap := imap, sZmap := zmap }

/-- Initialize the 'fproc' fields of a process that lives from the start. -/
def initFproc (d : Disk σ) (t : Tables) (p : Proc) : M σ Tables := do
  match ← getInode d t.super ROOT_DEV ROOT_INODE with
  | .error _ => fun _ => none
  | .ok rip =>
    dupInode rip
    return { t with
      fproc := update t.fproc p ⟨65535, rip, rip, SU_UID, SU_UID, 0, 0⟩
      live := update t.live p true }

/-- Initialize global variables, tables, etc. -/
def fsInit (d : Disk σ) : M σ Tables := do
  let t ← loadSuper d blankTables
  let t ← initFproc d t MM
  initFproc d t INIT

/-- The file system, with the inodes. -/
structure State (σ : Type) where
  tabs : Tables
  core : Core σ

/-- What any of the calls does that uses no inode in another way: it may change files, positions and
ids. -/
structure Effect (σ : Type) where
  disk : InodePtr → DInode
  dirt : InodePtr → Bool
  pos : FilpPtr → Nat
  ids : Proc → Fproc
  world : σ

/-- A call without paths, or a turn of the main loop in which a process is revived. -/
def touch (t : Tables) (o : Effect σ) : M σ (Int × Tables) := do
  modifyThe (Core σ) fun c => {
    inode := fun rip => { (c.inode rip).setDisk (o.disk rip) with iDirt := o.dirt rip }
    world := o.world }
  return (OK, { t with
    files := { t.files with filp := fun f => { t.files.filp f with filpPos := o.pos f } }
    fproc := fun p => { o.ids p with
      fpWorkdir := (t.fproc p).fpWorkdir, fpRootdir := (t.fproc p).fpRootdir } })

/-- What the file system is asked to do, with what drivers answer. `other` stands for READ, WRITE,
LSEEK, FSTAT, IOCTL, UMASK, SETUID, SETGID, TIME, STIME, TIMES, UNPAUSE and REVIVE. -/
inductive Request (σ : Type) where
  | creat (who : Proc) (a : PathArg) (mode : Nat) (devOpen : Int)
  | mknod (who : Proc) (a : PathArg) (mode addr : Nat)
  | open (who : Proc) (a : PathArg) (mode : Int)
  | close (who : Proc) (fd : Int)
  | dup (who : Proc) (fd fd2 : Int)
  | pipe (who : Proc)
  | link (who : Proc) (a₁ a₂ : PathArg)
  | unlink (who : Proc) (a : PathArg)
  | chdir (who : Proc) (a : PathArg) (slot1 : Proc) (cdFlag : Bool)
  | chroot (who : Proc) (a : PathArg)
  | stat (who : Proc) (a : PathArg) (copied : Int)
  | chmod (who : Proc) (a : PathArg) (mode : Nat)
  | chown (who : Proc) (a : PathArg) (owner group : Int)
  | access (who : Proc) (a : PathArg) (mode : Nat)
  | utime (who : Proc) (a : PathArg) (updateTime : Int)
  | mount (who : Proc) (a₁ a₂ : PathArg) (rdOnly : Bool)
  | umount (who : Proc) (a : PathArg)
  | sync (who : Proc)
  | fork (parent child : Proc)
  | exit (slot1 : Proc)
  | other (who : Proc) (o : Effect σ)

/-- The call that does the work. -/
def perform (d : Disk σ) (t : Tables) : Request σ → M σ (Int × Tables)
  | .creat who a mode devOpen => doCreat d t who a mode devOpen
  | .mknod who a mode addr => doMknod d t who a mode addr
  | .open who a mode => doOpen d t who a mode
  | .close who fd => doClose d t who fd
  | .dup who fd fd2 => doDup d t who fd fd2
  | .pipe who => doPipe d t who
  | .link who a₁ a₂ => doLink d t who a₁ a₂
  | .unlink who a => doUnlink d t who a
  | .chdir who a slot1 cdFlag => doChdir d t who a slot1 cdFlag
  | .chroot who a => doChroot d t who a
  | .stat who a copied => doStat d t who a copied
  | .chmod who a mode => doChmod d t who a mode
  | .chown who a owner group => doChown d t who a owner group
  | .access who a mode => doAccess d t who a mode
  | .utime who a updateTime => doUtime d t who a updateTime
  | .mount who a₁ a₂ rdOnly => doMount d t who a₁ a₂ rdOnly
  | .umount who a => doUmount d t who a
  | .sync _ => do
    doSync d t.super
    return (OK, t) -- sync() can't fail
  | .fork parent child => doFork t parent child
  | .exit slot1 => doExit d t slot1
  | .other _ o => touch t o

/-- One turn of the main loop. -/
def serve (d : Disk σ) (s : State σ) (r : Request σ) : Option (State σ) :=
  (perform d s.tabs r s.core).map fun x => ⟨x.1.2, x.2⟩

/-- Calls come from live processes. MM forks into a free slot, and lets live processes exit. -/
def AsIssued (t : Tables) : Request σ → Prop
  | .creat who .. | .mknod who .. | .open who .. | .close who _ | .dup who .. | .pipe who
  | .link who .. | .unlink who _ | .chdir who .. | .chroot who _ | .stat who .. | .chmod who ..
  | .chown who .. | .access who .. | .utime who .. | .mount who .. | .umount who _ | .sync who
  | .other who _ => t.live who = true
  | .fork parent child => t.live parent = true ∧ t.live child = false
  | .exit slot1 => t.live slot1 = true

/-- The file system has just been initialized, with an empty inode table. -/
def Started (d : Disk σ) (s : State σ) : Prop :=
  ∃ c : Core σ, (∀ rip, (c.inode rip).iCount = 0) ∧ fsInit d c = some (s.tabs, s.core)

/-! ## What the calls leave in hand -/

section Balance

variable {d : Disk σ} {sup : SuperPtr → Super} {fp : Fproc} {refs : InodePtr → Nat}
  {held : List InodePtr} {rip ldir : InodePtr}

theorem syncInodes_balanced (l : List InodePtr) :
    Triple (Balanced refs held) (syncInodes d sup l) fun _ => Balanced refs held := by
  induction l with
  | nil => exact .pure fun _ => id
  | cons rip l ih =>
    exact .bind inodeOf_balanced fun ip => .bind (.onlyIf fun _ => rwInode_balanced _) fun _ => ih

theorem doSync_balanced :
    Triple (Balanced refs held) (doSync d sup) fun _ => Balanced refs held :=
  .bind (superOf_balanced _) fun _ => .bind (onWorld_balanced _) fun _ =>
    .bind (syncInodes_balanced _) fun _ => inWorld_balanced _

theorem truncate_balanced :
    Triple (Balanced refs held) (truncate d sup rip) fun _ => Balanced refs held :=
  .bind inodeOf_balanced fun _ => .bind (superOf_balanced _) fun _ =>
    .bind (onWorld_balanced _) fun _ => modifyInode_balanced fun _ => rfl

theorem enterNode_balanced (string : Name) (z0 : Nat) :
    Triple (Balanced refs (ldir :: rip :: held)) (enterNode d sup fp ldir rip string z0)
      fun r c => Balanced refs (r.2.toList ++ held) c ∧ (r.2 = none ∨ r.1 = OK) := by
  refine .bind (modifyInode_balanced fun _ => rfl) fun _ => .bind (rwInode_balanced _) fun _ =>
    .bind inodeOf_balanced fun _ => .bind (searchDir_balanced _ _ _ _) fun x =>
      .bind putInode_balanced fun _ => .ite (fun _ => ?_) fun _ =>
        .pure fun c h => ⟨h, .inr rfl⟩
  exact .bind (modifyInode_balanced fun _ => rfl) fun _ => .bind putInode_balanced fun _ =>
    .pure fun c h => ⟨h, .inl rfl⟩

theorem newNode_balanced (path : Path) (bits z0 : Nat) :
    Triple (Balanced refs held) (newNode d sup fp path bits z0) fun r c =>
      Balanced refs (r.2.toList ++ held) c ∧ (r.2 = none ∨ r.1 = OK ∨ r.1 = EEXIST) := by
  refine .bind (lastDir_balanced path) fun r => ?_
  cases r with
  | error e => exact .pure fun c h => ⟨h, .inl rfl⟩
  | ok x =>
    obtain ⟨ldir, string⟩ := x
    refine .bind (advance_balanced _ _ _) fun r => ?_
    cases r with
    | ok rip =>
      exact .bind (putInode_balanced.pre fun c h => h.perm (.swap ..)) fun _ =>
        .pure fun c h => ⟨h, .inr (.inr rfl)⟩
    | error e =>
      refine .ite (fun _ => .bind putInode_balanced fun _ => .pure fun c h => ⟨h, .inl rfl⟩)
        fun _ => .bind inodeOf_balanced fun dir => .bind (allocInode_balanced _ _ _ _) fun r => ?_
      cases r with
      | error e => exact .bind putInode_balanced fun _ => .pure fun c h => ⟨h, .inl rfl⟩
      | ok rip =>
        exact ((enterNode_balanced string z0).pre fun c h => h.perm (.swap ..)).post
          fun r c h => ⟨h.1, h.2.imp_right .inl⟩

theorem forbidden_balanced (ip : Inode) (mask : Nat) (real : Bool) :
    Triple (Balanced (σ := σ) refs held) (StateT.lift (forbidden sup fp ip mask real)) fun _ =>
      Balanced refs held :=
  .lift fun _ _ h _ => h

theorem reuseNode_balanced (devOpen : Int) :
    Triple (Balanced refs held) (reuseNode d sup fp rip devOpen) fun _ => Balanced refs held := by
  refine .bind inodeOf_balanced fun ip => .ite (fun _ => ?_) fun _ => .ite
    (fun _ => .pure fun _ => id) fun _ => .ite (fun _ => ?_) fun _ => .pure fun _ => id
  · exact .bind (forbidden_balanced ip _ _) fun r => .bind (.onlyIf fun _ => truncate_balanced)
      fun _ => .pure fun _ => id
  · exact .bind (forbidden_balanced ip _ _) fun r => .pure fun _ => id

theorem creatNode_balanced (r : Int) (devOpen : Int) :
    Triple (Balanced refs held) (creatNode d sup fp r rip devOpen) fun _ => Balanced refs held :=
  .ite (fun _ => reuseNode_balanced devOpen) fun _ => .pure fun _ => id

theorem closeBlockSpecial_balanced (dev : Nat) :
    Triple (Balanced refs held) (closeBlockSpecial d sup dev) fun _ => Balanced refs held :=
  .bind doSync_balanced fun _ => .onlyIf fun _ => inWorld_balanced _

theorem enterLink_balanced (string : Name) :
    Triple (Balanced refs held) (enterLink d sup fp rip ldir string) fun _ =>
      Balanced refs held := by
  refine .bind (advance_balanced _ _ _) fun r => ?_
  cases r with
  | ok newIp => exact .bind putInode_balanced fun _ => .pure fun _ => id
  | error e =>
    refine .bind inodeOf_balanced fun ip => .ite (fun _ => .pure fun _ => id) fun _ =>
      .bind inodeOf_balanced fun dir => .ite (fun _ => .pure fun _ => id) fun _ => ?_
    exact .bind (searchDir_balanced _ _ _ _) fun _ => .pure fun _ => id

theorem deleteEntry_balanced (string : Name) :
    Triple (Balanced refs held) (deleteEntry d sup fp rip ldir string) fun _ =>
      Balanced refs held := by
  refine .bind inodeOf_balanced fun ip => .ite (fun _ => .pure fun _ => id) fun _ => ?_
  exact .bind (searchDir_balanced _ _ _ _) fun _ => .pure fun _ => id

/-- What mounting has in hand after the root inode was looked for. -/
theorem mountRoot_balanced (dev : Nat) (r : Int) :
    Triple (Balanced refs held) (mountRoot d sup dev r) fun r =>
      Balanced refs (r.2.toList ++ held) := by
  refine .ite (fun _ => .pure fun _ => id) fun _ => .bind (getInode_balanced _ _) fun r => ?_
  cases r with
  | error e => exact .pure fun _ => id
  | ok root => exact .bind inodeOf_balanced fun _ => .pure fun _ => id

theorem mountMaps_balanced (x : Super) (r : Int) :
    Triple (Balanced refs held) (mountMaps d x r) fun r c =>
      Balanced refs held c ∧ r.2.2.sDev = x.sDev :=
  .ite (fun _ => .pure fun _ h => ⟨h, rfl⟩) fun _ => .bind (onWorld_balanced _) fun _ =>
    .pure fun _ h => ⟨h, rfl⟩

theorem mountTypes_balanced (root : Option InodePtr) (r : Int) :
    Triple (Balanced (σ := σ) refs held) (mountTypes rip root r) fun _ => Balanced refs held := by
  cases root with
  | none => exact .pure fun _ => id
  | some root =>
    exact .bind inodeOf_balanced fun _ => .bind inodeOf_balanced fun _ => .pure fun _ => id

theorem unloadMaps_balanced (slot : Option SuperPtr) :
    Triple (Balanced refs held) (unloadMaps d sup slot) fun _ => Balanced refs held := by
  cases slot with
  | none => exact .pure fun _ => id
  | some sp => exact inWorld_balanced _

end Balance

end Minix.FS.Inodes
