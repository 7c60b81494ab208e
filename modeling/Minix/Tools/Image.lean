import Mathlib.Algebra.Order.Group.Nat
import Mathlib.Logic.Function.Basic
import Minix.Lib.Outcome

/-!
# The image tool

The tool works on the image of a file system that is mapped in memory. The two bit maps, the inodes
and the blocks are apart here: on a consistent image they do not overlap, and a pointer to an inode
is its number.

Host files are lists of bytes. A path is what comes before the NUL, and so is a name, of which only
the first `DIRSIZ` bytes count.
-/

namespace Minix.Tools

open Function Transition

/-- block size -/
abbrev BSIZE : Nat := 1024

/-- the length of a name in a directory -/
abbrev DIRSIZ : Nat := 14

/-- `sizeof(struct dirent)` -/
abbrev DIRENT : Nat := 16

/-- the number of direct zones -/
abbrev NDIRECT : Nat := 7

/-- # zone numbers in a block -/
abbrev NINDIRECT : Nat := 512

/-- inode of the root directory -/
abbrev rootInode : Nat := 1

/-- The file type of a mode. -/
def S_IFMT (m : Nat) : Nat := m &&& 0o170000

/-- symbolic link -/
abbrev S_IFLNK : Nat := 0o120000
/-- regular file -/
abbrev S_IFREG : Nat := 0o100000
/-- block special -/
abbrev S_IFBLK : Nat := 0o60000
/-- directory -/
abbrev S_IFDIR : Nat := 0o40000
/-- character special -/
abbrev S_IFCHR : Nat := 0o20000
/-- named pipe -/
abbrev S_IFIFO : Nat := 0o10000
/-- mask for the rights of the owner -/
abbrev S_IRWXU : Nat := 0o700

/-- A regular file. -/
abbrev S_ISREG (m : Nat) : Prop := S_IFMT m = S_IFREG
/-- A directory. -/
abbrev S_ISDIR (m : Nat) : Prop := S_IFMT m = S_IFDIR

/-- Files that are not read or written by the tool. -/
abbrev IsSpecial (m : Nat) : Prop :=
  S_IFMT m = S_IFLNK ∨ S_IFMT m = S_IFCHR ∨ S_IFMT m = S_IFBLK ∨ S_IFMT m = S_IFIFO

/-- The super block. -/
structure Superblock where
  sNinodes : Nat
  sNzones : Nat
  sImapBlock : Nat
  sZmapBlock : Nat
  sFirstdatazone : Nat
  sMaxSize : Nat

/-- An inode on the disk, without owner and time. -/
structure Inode where
  iMode : Nat
  iSize : Nat
  iNlinks : Nat
  iZone : Nat → Nat

/-- The bytes of a block. -/
abbrev Block := Nat → UInt8

/-- An image. -/
structure Img where
  sb : Superblock
  imap : Nat → Bool
  zmap : Nat → Bool
  inode : Nat → Inode
  block : Nat → Block

/-- Why the tool does not go on. -/
inductive Stop where
  /-- `fatal` -/
  | fatal
  /-- an assertion that fails, or a null pointer -/
  | abort
  deriving DecidableEq

/-- What a function of the tool does to the image, unless it stops. -/
abbrev Tool : Type → Type := StateT Img (Except Stop)

/-- A number that is kept in an unsigned integer. -/
def uint (n : Nat) : Nat := n % 2 ^ 32

/-- An inode is changed. -/
def modifyInode (ip : Nat) (f : Inode → Inode) : Tool Unit :=
  modifyThe Img fun img => { img with inode := update img.inode ip (f (img.inode ip)) }

/-- A block is changed. -/
def modifyBlock (b : Nat) (f : Block → Block) : Tool Unit :=
  modifyThe Img fun img => { img with block := update img.block b (f (img.block b)) }

/-- An inode is looked at. -/
def inodeAt (ip : Nat) : Tool Inode := do return (← get).inode ip

/-- The size of a file. -/
def sizeOf (ip : Nat) : Tool Nat := do return (← inodeAt ip).iSize

/-- The mode of a file. -/
def modeOf (ip : Nat) : Tool Nat := do return (← inodeAt ip).iMode

/-- Stop unless the inode is that of a directory. -/
def assertDir (ip : Nat) : Tool Unit := do
  if S_ISDIR (← modeOf ip) then return else throwThe Stop .abort

/-! ## Bit maps -/

/-- The inode of a number, if there is one. -/
def iget (sb : Superblock) (inum : Nat) : Option Nat :=
  if 0 < inum ∧ inum < sb.sNinodes then some inum else none

/-- The first bit that is off. -/
def firstFree (map : Nat → Bool) (last : Nat) : Option Nat :=
  (List.range (last + 1)).find? fun b => !map b

/-- Allocate a free inode. -/
def ialloc (mode : Nat) : Tool Nat := do
  let img ← get
  match firstFree img.imap img.sb.sNinodes with
  | none => throwThe Stop .fatal
  | some b => do
    modifyThe Img fun img => { img with imap := update img.imap b true }
    match iget img.sb b with
    | none => throwThe Stop .abort
    | some ip => do
      modifyInode ip fun _ => ⟨mode, 0, 0, fun _ => 0⟩
      return ip

/-- A block that holds data. -/
def validDataBlock (sb : Superblock) (b : Nat) : Prop :=
  b ≥ sb.sFirstdatazone ∧ b ≤ uint (sb.sNzones + 2 ^ 32 - 1)

instance (sb : Superblock) (b : Nat) : Decidable (validDataBlock sb b) :=
  inferInstanceAs (Decidable (_ ∧ _))

/-- The number of data zones. -/
def datasize (sb : Superblock) : Nat := uint (sb.sNzones + 2 ^ 32 - sb.sFirstdatazone)

/-- Allocate a free data block, and zero it. -/
def balloc : Tool Nat := do
  let img ← get
  match firstFree img.zmap (datasize img.sb) with
  | none => throwThe Stop .fatal
  | some b => do
    modifyThe Img fun img => { img with zmap := update img.zmap b true }
    let blkno := uint (b + img.sb.sFirstdatazone + 2 ^ 32 - 1)
    if validDataBlock img.sb blkno then
      modifyBlock blkno fun _ _ => 0
      return blkno
    else throwThe Stop .fatal

/-- Free a data block. -/
def bfree (b : Nat) : Tool Unit := do
  let sb := (← get).sb
  if validDataBlock sb b then
    let nr := uint (b + 2 ^ 32 - sb.sFirstdatazone + 1)
    modifyThe Img fun img => { img with zmap := update img.zmap nr false }
  else throwThe Stop .fatal

/-! ## Zones -/

/-- A zone number of an inode. -/
def zoneAt (ip k : Nat) : Tool Nat := do return (← inodeAt ip).iZone k

/-- An inode with another zone number. -/
def setZoneOf (k z : Nat) (i : Inode) : Inode := { i with iZone := update i.iZone k z }

/-- Set a zone number of an inode. -/
def setZone (ip k z : Nat) : Tool Unit := modifyInode ip (setZoneOf k z)

/-- An entry of a block of zone numbers. -/
def entryOf (blk : Block) (j : Nat) : Nat := (blk (2 * j)).toNat + (blk (2 * j + 1)).toNat * 256

/-- A block with another entry. -/
def setEntryOf (j z : Nat) (blk : Block) : Block :=
  update (update blk (2 * j) (UInt8.ofNat z)) (2 * j + 1) (UInt8.ofNat (z / 256))

/-- An entry of an indirect block. -/
def entryAt (b j : Nat) : Tool Nat := do return entryOf ((← get).block b) j

/-- Set an entry of an indirect block. -/
def setEntry (b j z : Nat) : Tool Unit := modifyBlock b (setEntryOf j z)

/-- A zone number is looked up, and a block is allocated when there is none. -/
def orAlloc (look : Tool Nat) (store : Nat → Tool Unit) : Tool Nat := do
  let addr ← look
  if addr = 0 then
    let addr ← balloc
    store addr
    return addr
  else return addr

/-- The block of a file with a given number, which is allocated when it is missing. -/
def bmap (ip n : Nat) : Tool Nat := do
  if n < NDIRECT then
    orAlloc (zoneAt ip n) (setZone ip n)
  else if n - 7 < NINDIRECT then
    let iaddr ← orAlloc (zoneAt ip 7) (setZone ip 7)
    let _ ← orAlloc (entryAt iaddr (n - 7)) (setEntry iaddr (n - 7))
    entryAt iaddr (n - 7)
  else if n - 7 - 512 < NINDIRECT * NINDIRECT then
    let n := n - 7 - 512
    let iaddr ← orAlloc (zoneAt ip 8) (setZone ip 8)
    let iiaddr ← orAlloc (entryAt iaddr (n / 512)) (setEntry iaddr (n / 512))
    let _ ← orAlloc (entryAt iiaddr (n % 512)) (setEntry iiaddr (n % 512))
    entryAt iiaddr (n % 512)
  else return 0

/-- The loop of `iread`. Each turn copies a byte at least, so it goes round `n` times at most. -/
def ireadLoop (ip : Nat) : Nat → Nat → Nat → Tool (List UInt8)
  | 0, _, _ => return []
  | fuel + 1, n, off => do
    if n = 0 then return []
    else
      let b ← bmap ip (off / BSIZE)
      let img ← get
      if validDataBlock img.sb b then
        let m := min n (BSIZE - off % BSIZE)
        let rest ← ireadLoop ip fuel (n - m) (off + m)
        return (List.range m).map (fun i => img.block b (off % BSIZE + i)) ++ rest
      else return []

/-- The bytes that are read; none when the result is -1. -/
def iread (ip n off : Nat) : Tool (Option (List UInt8)) := do
  let i ← inodeAt ip
  if IsSpecial i.iMode then return none
  else if off > i.iSize ∨ uint (off + n) < off then return none
  else
    let n := if uint (off + n) > i.iSize then i.iSize - off else n
    return some (← ireadLoop ip n n off)

/-- Bytes are moved into a block. -/
def storeBytes (o : Nat) (bytes : List UInt8) (blk : Block) : Block := fun x =>
  if o ≤ x ∧ x < o + bytes.length then bytes.getD (x - o) 0 else blk x

/-- The loop of `iwrite`: how many bytes have been written. -/
def iwriteLoop (ip : Nat) : Nat → List UInt8 → Nat → Tool Nat
  | 0, _, _ => return 0
  | fuel + 1, buf, off => do
    if buf.length = 0 then return 0
    else
      let b ← bmap ip (off / BSIZE)
      if validDataBlock (← get).sb b then
        let m := min buf.length (BSIZE - off % BSIZE)
        modifyBlock b (storeBytes (off % BSIZE) (buf.take m))
        let t ← iwriteLoop ip fuel (buf.drop m) (off + m)
        return m + t
      else return 0

/-- How many bytes are written; none when the result is -1. -/
def iwrite (ip : Nat) (buf : List UInt8) (off : Nat) : Tool (Option Nat) := do
  let i ← inodeAt ip
  if IsSpecial i.iMode then return none
  else if off > i.iSize ∨ uint (off + buf.length) < off ∨
      uint (off + buf.length) > (← get).sb.sMaxSize then return none
  else
    let t ← iwriteLoop ip buf.length buf off
    provided (t > 0 ∧ off + t > (← sizeOf ip)) (modifyInode ip fun i => { i with iSize := off + t })
    return some t

/-- A block of zone numbers is freed, after what its entries lead to. -/
@[irreducible] def freeEntries (b : Nat) (free : Nat → Tool Unit) : Tool Unit := do
  (List.range NINDIRECT).forM fun i => do
    let z ← entryAt b i
    provided (z ≠ 0) (free z)
  bfree b

/-- Free the blocks of an indirect block. -/
def freeInd (b : Nat) : Tool Unit := freeEntries b bfree

/-- Free those of a double indirect block. -/
def freeDind (b : Nat) : Tool Unit := freeEntries b freeInd

/-- A zone of an inode is given up. -/
def dropZone (ip k : Nat) (free : Nat → Tool Unit) : Tool Unit := do
  let z ← zoneAt ip k
  provided (z ≠ 0) do
    free z
    setZone ip k 0

/-- Set the size of a file, and free its blocks when that is zero. -/
def itruncate (ip size : Nat) : Tool Int := do
  if IsSpecial (← modeOf ip) then return -1
  else if size ≠ 0 then return -1
  else
    (List.range NDIRECT).forM fun i => dropZone ip i bfree
    dropZone ip 7 freeInd
    dropZone ip 8 freeDind
    modifyInode ip fun i => { i with iSize := size }
    return 0

/-! ## Directories -/

/-- check if c is a path separator -/
def isSep (c : UInt8) : Bool := c = 47

/-- The next name of a path, and what follows it. -/
def skipelem (path : List UInt8) : List UInt8 × List UInt8 :=
  let s := path.dropWhile isSep
  ((s.takeWhile fun c => !isSep c).take DIRSIZ, s.dropWhile fun c => !isSep c)

/-- The number and the name of an entry. -/
def inumOf (de : List UInt8) : Nat := (de.getD 0 0).toNat + (de.getD 1 0).toNat * 256

/-- The name in an entry of a directory. -/
def nameOf (de : List UInt8) : List UInt8 := ((de.drop 2).take DIRSIZ).takeWhile (· ≠ 0)

/-- `strncmp(s, t, DIRSIZ) == 0` -/
abbrev SameName (s t : List UInt8) : Prop := s.take DIRSIZ = t.take DIRSIZ

/-- An entry with a number and a name. -/
def mkDirent (inum : Nat) (name : List UInt8) : List UInt8 :=
  UInt8.ofNat inum :: UInt8.ofNat (inum / 256) ::
    (name.take DIRSIZ ++ List.replicate (DIRSIZ - name.length) 0)

/-- `.` and `..`. -/
abbrev dot : List UInt8 := [46]
/-- The name of the parent directory. -/
abbrev dotDot : List UInt8 := [46, 46]

/-- The loop of `dlookup`, which has an entry left for each unit of fuel: the inode and the offset
of the entry that is found. -/
def dlookupLoop (dp : Nat) (name : List UInt8) : Nat → Nat → Tool (Option (Option Nat × Nat))
  | 0, _ => return none
  | fuel + 1, off => do
    match ← iread dp DIRENT off with
    | none => return none
    | some de =>
      if de.length ≠ DIRENT then return none
      else if SameName name (nameOf de) then
        return some (iget (← get).sb (inumOf de), off)
      else dlookupLoop dp name fuel (off + DIRENT)

/-- The number of entries in a directory, the last of which may be cut short. -/
def entries (size : Nat) : Nat := (size + (DIRENT - 1)) / DIRENT

/-- Look a name up in a directory. -/
def dlookup (dp : Nat) (name : List UInt8) : Tool (Option (Option Nat × Nat)) := do
  assertDir dp
  dlookupLoop dp name (entries (← sizeOf dp)) 0

/-- The loop of `daddent`: where the entry goes; none when there is an error. -/
def daddentLoop (dp : Nat) (name : List UInt8) : Nat → Nat → Tool (Option Nat)
  | 0, off => return some off
  | fuel + 1, off => do
    match ← iread dp DIRENT off with
    | none => return none
    | some de =>
      if de.length ≠ DIRENT then return none
      else if inumOf de = 0 then return some off
      else if SameName (nameOf de) name then return none
      else daddentLoop dp name fuel (off + DIRENT)

/-- Add an entry to a directory. -/
def daddent (dp : Nat) (name : List UInt8) (ip : Nat) : Tool Int := do
  match ← daddentLoop dp name (entries (← sizeOf dp)) 0 with
  | none => return -1
  | some off =>
    if (← iwrite dp (mkDirent ip name) off) ≠ some DIRENT then return -1
    else
      provided (¬SameName name dot)
        (modifyInode ip fun i => { i with iNlinks := (i.iNlinks + 1) % 256 })
      return 0

/-- The loop of `ilookup`. Each turn takes a name off the path. -/
def ilookupLoop : Nat → Nat → List UInt8 → Tool (Option Nat)
  | 0, _, _ => return none
  | fuel + 1, rp, path => do
    assertDir rp
    let (name, path) := skipelem path
    if name = [] then return some rp
    else
      match (← dlookup rp name).bind Prod.fst with
      | none => return none
      | some ip =>
        if path = [] then return some ip
        else if ¬S_ISDIR (← modeOf rp) then return none
        else ilookupLoop fuel ip path

/-- The inode that a path leads to. -/
def ilookup (rp : Nat) (path : List UInt8) : Tool (Option Nat) :=
  ilookupLoop (path.length + 1) rp path

/-- The loop of `icreat`: the inode, and its directory. -/
def icreatLoop (mode : Nat) : Nat → Nat → List UInt8 → Tool (Option (Nat × Nat))
  | 0, _, _ => return none
  | fuel + 1, rp, path => do
    assertDir rp
    let (name, path) := skipelem path
    if name = [] then return none
    else
      let ip := (← dlookup rp name).bind Prod.fst
      if path = [] then
        if ip ≠ none then return none
        else
          let ip ← ialloc mode
          let _ ← daddent rp name ip
          provided (S_ISDIR (← modeOf rp)) do
            let _ ← daddent ip dot ip
            let _ ← daddent ip dotDot rp
          return some (ip, rp)
      else
        match ip with
        | none => return none
        | some ip =>
          if ¬S_ISDIR (← modeOf ip) then return none
          else icreatLoop mode fuel ip path

/-- Create a file, with the entries `.` and `..` if it takes it for a directory. -/
def icreat (rp : Nat) (path : List UInt8) (mode : Nat) : Tool (Option (Nat × Nat)) :=
  icreatLoop mode (path.length + 1) rp path

/-! ## Commands -/

/-- How often a loop goes round that takes a block at a time. -/
def blocks (size : Nat) : Nat := (size + (BSIZE - 1)) / BSIZE

/-- The loop of `do_get`: what is written to the host file. -/
def getLoop (ip : Nat) : Nat → Nat → Tool (Option (List UInt8))
  | 0, _ => return some []
  | fuel + 1, off => do
    match ← iread ip BSIZE off with
    | none => return none
    | some buf => return (← getLoop ip fuel (off + BSIZE)).map (buf ++ ·)

/-- The host file, when the command succeeds. -/
def doGet (spath : List UInt8) : Tool (Option (List UInt8)) := do
  match ← ilookup rootInode spath with
  | none => return none
  | some ip => getLoop ip (blocks (← sizeOf ip)) 0

/-- The loop of `do_put`: the host file is read a block at a time. -/
def putLoop (ip : Nat) (host : List UInt8) : Nat → Nat → Tool Bool
  | 0, _ => return true
  | fuel + 1, off => do
    let buf := (host.drop off).take BSIZE
    if (← iwrite ip buf off) ≠ some buf.length then return false
    else if buf.length < BSIZE then return true
    else putLoop ip host fuel (off + BSIZE)

/-- Whether the command succeeds. -/
def doPut (dpath host : List UInt8) : Tool Bool := do
  match ← ilookup rootInode dpath with
  | none =>
    match ← icreat rootInode dpath (S_IFREG ||| S_IRWXU) with
    | none => return false
    | some (ip, _) => putLoop ip host (blocks (← get).sb.sMaxSize) 0
  | some ip =>
    if ¬S_ISREG (← modeOf ip) then return false
    else
      let _ ← itruncate ip 0
      putLoop ip host (blocks (← get).sb.sMaxSize) 0

end Minix.Tools
