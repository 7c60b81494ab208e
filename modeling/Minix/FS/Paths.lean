import Minix.FS.Inodes

/-!
# Path names

How a path name leads to an inode, component by component, across mounted file systems. Every
function either hands a new use of a slot to its caller, or none.
-/

namespace Minix.FS.Inodes

open Function Transition

/-- max length of path names -/
abbrev MAX_PATH : Nat := 128

/-- # bytes in a directory component -/
abbrev NAME_SIZE : Nat := 14

abbrev OK : Int := 0

/-- permission denied -/
abbrev EACCES : Int := -13

/-- not a directory -/
abbrev ENOTDIR : Int := -20

/-- read-only file system -/
abbrev EROFS : Int := -30

/-- supplied string is too long -/
abbrev E_LONG_STRING : Int := -103

/-- this field gives inode type -/
abbrev I_TYPE : Nat := 0o170000

/-- file is a directory -/
abbrev I_DIRECTORY : Nat := 0o040000

/-- Rwx protection bit -/
abbrev R_BIT : Nat := 4

/-- rWx protection bit -/
abbrev W_BIT : Nat := 2

/-- rwX protection bit -/
abbrev X_BIT : Nat := 1

/-- super_user's uid -/
abbrev SU_UID : Int := 0

/-- The part of `fproc` that the search for files depends on. -/
structure Fproc where
  /-- mask set by umask system call -/
  fpUmask : Nat
  /-- pointer to working directory's inode -/
  fpWorkdir : InodePtr
  /-- pointer to current root dir (see chroot) -/
  fpRootdir : InodePtr
  /-- real user id -/
  fpRealuid : Int
  /-- effective user id -/
  fpEffuid : Int
  /-- real group id -/
  fpRealgid : Int
  /-- effective group id -/
  fpEffgid : Int

/-- `super_user`. -/
def Fproc.superUser (fp : Fproc) : Bool := fp.fpEffuid = SU_UID

/-- What is left of `user_path`, from where a pointer leads to the end of the array. -/
abbrev Path : Type := List UInt8

variable {σ : Type}

/-- The type of a file. -/
def Inode.type (ip : Inode) : Nat := ip.iMode &&& I_TYPE

/-- Check to see if the file system on which the inode resides is mounted read only. -/
def readOnly (sup : SuperPtr → Super) (ip : Inode) : Option Int :=
  (getSuper sup ip.iDev).map fun sp => if (sup sp).sRdOnly then EROFS else OK

/-- The rwx bits of the mode that apply. -/
def permBits (fp : Fproc) (ip : Inode) (realUid : Bool) : Nat :=
  if fp.superUser then 0o7
  else if (if realUid then fp.fpRealuid else fp.fpEffuid) = ip.iUid then ip.iMode >>> 6 &&& 0o7
  else if (if realUid then fp.fpRealgid else fp.fpEffgid) = ip.iGid then ip.iMode >>> 3 &&& 0o7
  else ip.iMode &&& 0o7

/-- Determine if the access is allowed, and if not why not. -/
def forbidden (sup : SuperPtr → Super) (fp : Fproc) (ip : Inode) (accessDesired : Nat)
    (realUid : Bool) : Option Int :=
  let bits := permBits fp ip realUid
  -- if access desired is not a subset of what is allowed, it is refused
  if bits ||| accessDesired ≠ bits then some EACCES
  -- if none of the X bits are on, not even the super-user can execute it
  else if accessDesired &&& X_BIT ≠ 0 ∧ ip.iMode &&& 0o111 = 0 then some EACCES
  else if accessDesired &&& W_BIT ≠ 0 then readOnly sup ip
  else some OK

/-- Search the directory for a name, enter it, or delete it. -/
def searchDir (d : Disk σ) (sup : SuperPtr → Super) (fp : Fproc) (ldir : InodePtr) (string : Name)
    (flag : DirFlag) (numb : Nat) : M σ (Int × Nat) := do
  let ip ← inodeOf ldir
  -- if 'ldir_ptr' is not a pointer to a searchable dir inode, error
  if ip.type ≠ I_DIRECTORY then return (ENOTDIR, numb)
  else
    let bits := if flag = .LOOK_UP then X_BIT else W_BIT ||| X_BIT
    let r ← StateT.lift (forbidden sup fp ip bits false)
    if r ≠ OK then return (r, numb)
    else
      let sp ← superOf sup ip.iDev
      let res ← onWorld (d.scan sp ip string flag numb)
      modifyInode ldir fun ip => { ip.setDisk res.2.1 with iDirt := res.2.2 }
      return res.1

/-- `'/'`. -/
abbrev SLASH : UInt8 := 47

/-- Copy the next component of the path, padded with zeros, and return what follows it. At the end of
the array there is none. -/
def getName (oldName : Path) : Except Int (Name × Path) :=
  let rnp := oldName.dropWhile fun c => c = SLASH
  let component := rnp.takeWhile fun c => c ≠ SLASH ∧ c ≠ 0
  let rnp := (rnp.dropWhile fun c => c ≠ SLASH ∧ c ≠ 0).dropWhile fun c => c = SLASH
  if rnp = [] then .error E_LONG_STRING
  else .ok ((component ++ List.replicate NAME_SIZE 0).take NAME_SIZE, rnp)

/-- What a pointer in the super block table is compared with. -/
def linkOf : Except Int InodePtr → Link InodePtr
  | .error _ => .nil
  | .ok rip => .of rip

/-- A result, or `NIL_INODE`. -/
def ptrOf : Except Int InodePtr → Option InodePtr
  | .error _ => none
  | .ok rip => some rip

/-- `rip->i_mount == I_MOUNT`. -/
def mountedOn (d : Disk σ) : Except Int InodePtr → M σ Bool
  | .error _ => return d.nilMount
  | .ok rip => do return (← inodeOf rip).iMount

/-- See if the inode is mounted on. If so, switch to root directory of the mounted file system. A
root directory may be mounted on again. -/
def mountLoop (d : Disk σ) (sup : SuperPtr → Super) :
    Nat → Except Int InodePtr → M σ (Except Int InodePtr)
  | 0, _ => fun _ => none
  | n + 1, r => do
    if ← mountedOn d r then
      match (List.finRange NR_SUPERS).find? fun sp => (sup sp).sImount = linkOf r with
      | none => mountLoop d sup n r
      | some sp =>
        putInodeOpt d sup (ptrOf r)
        let r ← getInode d sup (sup sp).sDev ROOT_INODE
        mountLoop d sup n r
    else return r

/-- The super block that a root directory belongs to, but for that of the root device. -/
def superAbove (sup : SuperPtr → Super) (dev : Nat) : Option SuperPtr :=
  ((List.finRange NR_SUPERS).drop 1).find? fun sp => (sup sp).sDev = dev

/-- Look up a component in a directory and open its inode. On `..` in the root directory of a mounted
file system the search goes on from the inode mounted on. -/
def advance (d : Disk σ) (sup : SuperPtr → Super) (fp : Fproc) :
    Nat → InodePtr → Name → M σ (Except Int InodePtr)
  | 0, _, _ => fun _ => none
  | n + 1, dirp, string => do
    let dir ← inodeOf dirp
    -- if 'string' is empty, yield same inode straight away
    if string.getD 0 0 = 0 then getInode d sup dir.iDev dir.iNum
    else
      let (r, numb) ← searchDir d sup fp dirp string .LOOK_UP 0
      if r ≠ OK then return .error r
      else match ← getInode d sup dir.iDev numb with
        | .error e => return .error e
        | .ok rip =>
          let ip ← inodeOf rip
          if ip.iNum = ROOT_INODE ∧ dir.iNum = ROOT_INODE ∧ string.getD 1 0 = 46 then
            match superAbove sup ip.iDev with
            | none => mountLoop d sup d.depth (.ok rip)
            | some sp =>
              -- release the root inode, replace by the inode mounted on
              putInode d sup rip
              match (sup sp).sImount with
              | .of mnt =>
                let ip ← inodeOf mnt
                match ← getInode d sup ip.iDev ip.iNum with
                | .error _ => fun _ => none
                | .ok rip2 =>
                  let r ← advance d sup fp n rip2 string
                  putInode d sup rip2
                  mountLoop d sup d.depth r
              | _ => fun _ => none
          else mountLoop d sup d.depth (.ok rip)

/-- Scan the path component by component. Each but the first takes at least one character. -/
def dirLoop (d : Disk σ) (sup : SuperPtr → Super) (fp : Fproc) :
    Nat → InodePtr → Path → M σ (Except Int (InodePtr × Name))
  | 0, _, _ => fun _ => none
  | n + 1, rip, path => do
    match getName path with
    | .error e =>
      putInode d sup rip -- bad path in user space
      return .error e
    | .ok (string, newName) =>
      if newName.head? = some 0 then return .ok (rip, string) -- normal exit
      else
        -- there is more path, keep parsing
        let r ← advance d sup fp d.depth rip string
        putInode d sup rip -- rip either obsolete or irrelevant
        match r with
        | .error e => return .error e
        | .ok newIp => dirLoop d sup fp n newIp newName

/-- Parse a path as far as the last directory, and return its inode and the final component. -/
def lastDir (d : Disk σ) (sup : SuperPtr → Super) (fp : Fproc) (path : Path) :
    M σ (Except Int (InodePtr × Name)) := do
  let rip := if path.head? = some SLASH then fp.fpRootdir else fp.fpWorkdir
  dupInode rip -- inode will be returned with put_inode
  dirLoop d sup fp (MAX_PATH + 2) rip path

/-- Parse the path and put its inode in the inode table. -/
def eatPath (d : Disk σ) (sup : SuperPtr → Super) (fp : Fproc) (path : Path) :
    M σ (Except Int InodePtr) := do
  match ← lastDir d sup fp path with
  | .error e => return .error e -- we couldn't open final directory
  | .ok (ldip, string) =>
    -- the path consisting only of "/" is a special case
    if string.getD 0 0 = 0 then return .ok ldip
    else
      let r ← advance d sup fp d.depth ldip string
      putInode d sup ldip
      return r

/-! ## What is handed to the caller -/

/-- The directory that a search leaves in hand. -/
def gotDir : Except Int (InodePtr × Name) → List InodePtr
  | .error _ => []
  | .ok r => [r.1]

section Balance

variable {d : Disk σ} {sup : SuperPtr → Super} {fp : Fproc} {refs : InodePtr → Nat}
  {held : List InodePtr}

theorem searchDir_balanced (ldir : InodePtr) (string : Name) (flag : DirFlag) (numb : Nat) :
    Triple (Balanced refs held) (searchDir d sup fp ldir string flag numb) fun _ =>
      Balanced refs held := by
  refine .bind inodeOf_balanced fun ip => .ite (fun _ => .pure fun _ => id) fun _ => ?_
  refine .bind (.lift fun _ _ h _ => h) fun r => .ite (fun _ => .pure fun _ => id) fun _ => ?_
  exact .bind (superOf_balanced _) fun sp => .bind (onWorld_balanced _) fun res =>
    .bind (modifyInode_balanced fun _ => rfl) fun _ => .pure fun _ => id

theorem mountedOn_balanced (r : Except Int InodePtr) :
    Triple (Balanced (σ := σ) refs held) (mountedOn d r) fun _ => Balanced refs held := by
  cases r with
  | error e => exact .pure fun _ => id
  | ok rip => exact .bind inodeOf_balanced fun _ => .pure fun _ => id

theorem mountLoop_balanced (n : Nat) (r : Except Int InodePtr) :
    Triple (Balanced refs (got r ++ held)) (mountLoop d sup n r) fun r =>
      Balanced refs (got r ++ held) := by
  induction n generalizing r with
  | zero => exact .fail
  | succ n ih =>
    refine .bind (mountedOn_balanced r) fun m => .ite (fun _ => ?_) fun _ => .pure fun _ => id
    split
    · exact ih r
    · have hput : Triple (Balanced refs (got r ++ held)) (putInodeOpt d sup (ptrOf r)) fun _ =>
          Balanced refs held := by
        cases r with
        | error e => exact putInodeOpt_balanced none
        | ok rip => exact putInodeOpt_balanced (some rip)
      exact .bind hput fun _ => .bind (getInode_balanced _ _) fun r => ih r

theorem advance_balanced (n : Nat) (dirp : InodePtr) (string : Name) :
    Triple (Balanced refs held) (advance d sup fp n dirp string) fun r =>
      Balanced refs (got r ++ held) := by
  induction n generalizing dirp held with
  | zero => exact .fail
  | succ n ih =>
    refine .bind inodeOf_balanced fun dir => .ite (fun _ => getInode_balanced _ _) fun _ => ?_
    refine .bind (searchDir_balanced _ _ _ _) fun x => .ite (fun _ => .pure fun _ => id) fun _ => ?_
    refine .bind (getInode_balanced _ _) fun r => ?_
    cases r with
    | error e => exact .pure fun _ => id
    | ok rip =>
      refine .bind inodeOf_balanced fun ip => .ite (fun _ => ?_) fun _ => mountLoop_balanced _ _
      split
      · exact mountLoop_balanced _ _
      · refine .bind putInode_balanced fun _ => ?_
        split
        · refine .bind inodeOf_balanced fun ip => .bind (getInode_balanced _ _) fun r => ?_
          cases r with
          | error e => exact .fail
          | ok rip2 =>
            have hup : Triple (Balanced refs (rip2 :: held)) (advance d sup fp n rip2 string)
                fun r => Balanced refs (got r ++ (rip2 :: held)) := ih rip2
            refine .bind hup fun r => ?_
            refine .bind (putInode_balanced.pre fun c h => h.perm List.perm_middle) fun _ => ?_
            exact mountLoop_balanced _ _
        · exact .fail

theorem dirLoop_balanced (n : Nat) (rip : InodePtr) (path : Path) :
    Triple (Balanced refs (rip :: held)) (dirLoop d sup fp n rip path) fun r =>
      Balanced refs (gotDir r ++ held) := by
  induction n generalizing rip path with
  | zero => exact .fail
  | succ n ih =>
    unfold dirLoop
    split
    · exact .bind putInode_balanced fun _ => .pure fun _ => id
    · refine .ite (fun _ => .pure fun _ => id) fun _ => .bind (advance_balanced _ _ _) fun r => ?_
      refine .bind (putInode_balanced.pre fun c h => h.perm List.perm_middle) fun _ => ?_
      cases r with
      | error e => exact .pure fun _ => id
      | ok newIp => exact ih newIp _

theorem lastDir_balanced (path : Path) :
    Triple (Balanced refs held) (lastDir d sup fp path) fun r =>
      Balanced refs (gotDir r ++ held) :=
  .bind dupInode_balanced fun _ => dirLoop_balanced _ _ path

theorem eatPath_balanced (path : Path) :
    Triple (Balanced refs held) (eatPath d sup fp path) fun r =>
      Balanced refs (got r ++ held) := by
  refine .bind (lastDir_balanced path) fun r => ?_
  cases r with
  | error e => exact .pure fun _ => id
  | ok x =>
    obtain ⟨ldip, string⟩ := x
    refine .ite (fun _ => .pure fun _ => id) fun _ => .bind (advance_balanced _ _ _) fun r => ?_
    exact .bind (putInode_balanced.pre fun c h => h.perm List.perm_middle) fun _ =>
      .pure fun _ => id

end Balance

end Minix.FS.Inodes
