import Minix.FS.NameCalls
import Minix.FS.ZoneMaps

/-!
# Files and their blocks

What happens to the blocks of a file when it is read, written, truncated or searched for a name.
Copies from and to user space are a parameter, as are the results of the checks that say nothing of
blocks.
-/

namespace Minix.FS.ZoneMaps

open Function Inodes Transition

/-- bad address -/
abbrev EFAULT : Int := -14

/-- highest block number -/
abbrev MAX_BLOCK_NR : Nat := 65535

/-- maximum positive long, i.e. 2**31 - 1 -/
abbrev MAX_P_LONG : Int := 2147483647

/-- # bytes/dir entry -/
abbrev DIR_ENTRY_SIZE : Nat := 16

/-- # dir entries/blk -/
abbrev NR_DIR_ENTRIES : Nat := 64

/-- What directory blocks are released as. -/
abbrev DIRECTORY_BLOCK : Nat := 1 + WRITE_IMMED

/-- What blocks that are partly used are released as. -/
abbrev PARTIAL_DATA_BLOCK : Nat := 7

variable {σ : Type}

/-- A number that is kept in a long. -/
def long (n : Int) : Int := n.bmod (2 ^ 32)

/-- The number of bytes in a zone. -/
def zoneSize (scale : Nat) : Int := long (BLOCK_SIZE * 2 ^ scale)

/-! ## New blocks -/

/-- Clear all the blocks between `blo` and `bhi`. No block number is above the highest one, and then
the loop has no end. -/
def clearBlocks (io : DevIo σ) (blo bhi : Nat) : B σ Unit :=
  if bhi = MAX_BLOCK_NR then throwThe Halt .stuck
  else
    (List.range' blo (bhi + 1 - blo)).forM fun b => do
      let bp ← getBlock io (← devOf) b .NO_READ
      zeroBlock bp
      putBlock io bp FULL_DATA_BLOCK

/-- Zero a zone, possibly starting in the middle. -/
def clearZone (io : DevIo σ) (sup : SuperPtr → Super) (pos : Int) (flag : Bool) : B σ Unit := do
  let scale ← scaleFactor sup
  -- if the block size and zone size are the same, it is not needed
  if scale = 0 then return
  else
    let pos := if flag then pos.tdiv (zoneSize scale) * zoneSize scale else pos
    let next := long (pos + BLOCK_SIZE - 1)
    -- if 'pos' is in the last block of a zone, do not clear the zone
    if next.tdiv (zoneSize scale) ≠ pos.tdiv (zoneSize scale) then return
    else
      let blo ← readMap io sup next
      if blo = NO_BLOCK then return
      else clearBlocks io blo (unshort (((blo >>> scale + 1) <<< scale : Nat) - 1))

/-- The zone that a new one should be near. -/
def firstZone (sup : SuperPtr → Super) : B σ Nat := do
  let ip := (← get).rip
  if ip.iSize = 0 then return (← superOf sup ip.iDev).sFirstdatazone
  else zoneAt 0

/-- Get a block without reading it, and zero it. -/
def freshBlock (io : DevIo σ) (b : Nat) : B σ (Option BufPtr) := do
  let bp ← getBlock io (← devOf) b .NO_READ
  zeroBlock bp
  return some bp

/-- Return a zone that could not be entered in the inode. -/
def giveBack (sup : SuperPtr → Super) (z : Nat) (r : Int) : B σ (Option BufPtr) := do
  freeZone sup (← devOf) z
  modifyThe (Work σ) fun s => { s with errCode := r }
  return none

/-- Acquire a new block and return a pointer to it. -/
def newBlock (io : DevIo σ) (sup : SuperPtr → Super) (position : Int) : B σ (Option BufPtr) := do
  -- is another block available in the current zone?
  let b ← readMap io sup position
  if b ≠ NO_BLOCK then freshBlock io b
  else
    let near ← firstZone sup
    let z ← allocZone sup (← devOf) near
    if z = NO_ZONE then return none
    else
      let r ← writeMap io sup position z
      if r ≠ OK then giveBack sup z r
      else
        -- if we are not writing at EOF, clear the zone, just to be safe
        provided (position ≠ (← get).rip.iSize) (clearZone io sup position true)
        let scale ← scaleFactor sup
        let block := (position.tmod (zoneSize scale)).tdiv BLOCK_SIZE
        freshBlock io (unshort ((z <<< scale : Nat) + block))

/-! ## Reading and writing -/

/-- What `rw_user` does for the user of a call. -/
structure UserSpace where
  /-- the bytes at an address, if they are all in the segment -/
  fetch : (vir bytes : Nat) → Option (Nat → UInt8)
  /-- whether bytes can be moved to an address -/
  store : (vir bytes : Nat) → Bool

/-- A block with `bytes` at offset `off`. -/
def splice (off chunk : Nat) (bytes : Nat → UInt8) (b : Block) : Block := fun i =>
  if off ≤ i.val ∧ i.val < off + chunk then bytes (i.val - off) else b i

/-- Whether a block is to be read in for a chunk. A block that is overwritten, or lies beyond the
end of the file, need not be. -/
def readFlag (rwFlag : RwFlag) (ip : Inode) (position : Int) (off chunk : Nat) : SearchFlag :=
  if rwFlag = .WRITING ∧ (chunk = BLOCK_SIZE ∨ off = 0 ∧ position ≥ ip.iSize) then .NO_READ
  else .NORMAL

/-- Get the block of a chunk. Reading from a nonexistent block gives zeros, writing to one creates
it. -/
def chunkBlock (io : DevIo σ) (sup : SuperPtr → Super) (rwFlag : RwFlag) (position : Int)
    (off chunk : Nat) : B σ (Option BufPtr) := do
  let ip := (← get).rip
  let n := readFlag rwFlag ip position off chunk
  if ip.type = I_BLOCK_SPECIAL then
    return some (← getBlock io (ip.iZone 0) (unshort (position.tdiv BLOCK_SIZE)) n)
  else
    let b ← readMap io sup position
    if b ≠ NO_BLOCK then return some (← getBlock io ip.iDev b n)
    else match rwFlag with
      | .READING =>
        let bp ← getBlock io NO_DEV NO_BLOCK .NORMAL
        zeroBlock bp
        return some bp
      | .WRITING => newBlock io sup position

/-- Copy a chunk between a block and the user. When it is written, the buffer is dirty then,
whatever the copy returned. -/
def rwUser (user : UserSpace) (rwFlag : RwFlag) (bp : BufPtr) (off chunk buff : Nat) :
    B σ Int :=
  match rwFlag with
  | .READING => return if user.store buff chunk then OK else EFAULT
  | .WRITING =>
    match user.fetch buff chunk with
    | some bytes => do
      storeBuf bp (splice off chunk bytes)
      return OK
    | none => do
      storeBuf bp id
      return EFAULT

/-- Whether a block holds nothing before a chunk is written into it. -/
def beyondEnd (rwFlag : RwFlag) (ip : Inode) (position : Int) (off chunk : Nat) : Prop :=
  rwFlag = .WRITING ∧ chunk ≠ BLOCK_SIZE ∧ ip.type ≠ I_BLOCK_SPECIAL ∧ position ≥ ip.iSize ∧ off = 0

instance (rwFlag : RwFlag) (ip : Inode) (position : Int) (off chunk : Nat) :
    Decidable (beyondEnd rwFlag ip position off chunk) := by unfold beyondEnd; infer_instance

/-- Read or write (part of) a block. -/
def rwChunk (io : DevIo σ) (sup : SuperPtr → Super) (user : UserSpace) (rwFlag : RwFlag)
    (position : Int) (off chunk buff : Nat) : B σ Int := do
  match ← chunkBlock io sup rwFlag position off chunk with
  | none => return (← get).errCode
  | some bp =>
    provided (beyondEnd rwFlag (← get).rip position off chunk) (zeroBlock bp)
    let r ← rwUser user rwFlag bp off chunk buff
    putBlock io bp (if off + chunk = BLOCK_SIZE then FULL_DATA_BLOCK else PARTIAL_DATA_BLOCK)
    return r

/-- How much of the request the next chunk is, within a block and, when it is read, the file. -/
def chunkSize (rwFlag : RwFlag) (fSize position : Int) (nbytes : Nat) : Nat :=
  let chunk := min nbytes (BLOCK_SIZE - unshort (position.tmod BLOCK_SIZE))
  if rwFlag = .READING then min chunk (fSize - position).toNat else chunk

/-- Split the transfer into chunks that don't span two blocks: the result, the position, and the
number of bytes that have been moved. -/
def rwLoop (io : DevIo σ) (sup : SuperPtr → Super) (user : UserSpace) (rwFlag : RwFlag)
    (fSize : Int) : (fuel : Nat) → Int → (buff nbytes cumIo : Nat) → B σ (Int × Int × Nat)
  | 0, _, _, _, _ => throwThe Halt .stuck
  | fuel + 1, position, buff, nbytes, cumIo => do
    if nbytes = 0 ∨ rwFlag = .READING ∧ fSize - position ≤ 0 then return (OK, position, cumIo)
    else
      let chunk := chunkSize rwFlag fSize position nbytes
      let r ← rwChunk io sup user rwFlag position (unshort (position.tmod BLOCK_SIZE)) chunk buff
      if r ≠ OK then return (r, position, cumIo)
      else if (← get).cache.rdwtErr < 0 then return (OK, position, cumIo)
      else
        rwLoop io sup user rwFlag fSize fuel (long (position + chunk)) (buff + chunk)
          (nbytes - chunk) (cumIo + chunk)

/-- The arguments of a READ or WRITE call, with what other parts of the system say to it. -/
structure Request where
  rwFlag : RwFlag
  /-- the call is made by the memory manager -/
  fromMm : Bool
  /-- virtual address of the user buffer -/
  buffer : Nat
  nbytes : Int
  /-- the count is an int -/
  isInt : -32768 ≤ nbytes ∧ nbytes ≤ 32767
  user : UserSpace
  /-- what a character device returns -/
  devIo : Int
  /-- what the check of a pipe returns -/
  pipeCheck : Int

/-- The size of a file as far as transfers go: devices without a size have no end. -/
def fileSize (ip : Inode) : Int :=
  if ip.type = I_BLOCK_SPECIAL ∧ ip.iSize = 0 then MAX_P_LONG else ip.iSize

/-- Check in advance to see if the file will grow too big, and clear the zone containing present EOF
if a hole is about to be created. -/
def checkGrowth (io : DevIo σ) (sup : SuperPtr → Super) (q : Request) (position : Int) :
    B σ (Option Int) := do
  let ip := (← get).rip
  if q.rwFlag = .WRITING ∧ ip.type ≠ I_BLOCK_SPECIAL then
    let sp ← superOf sup ip.iDev
    if position > long (sp.sMaxSize - q.nbytes) then return some EFBIG
    else
      provided (position > ip.iSize) (clearZone io sup ip.iSize false)
      return none
  else return none

/-- A transfer from `position` on. An error means that the call is over at once. -/
def transfer (io : DevIo σ) (sup : SuperPtr → Super) (q : Request) (position : Int) :
    B σ (Except Int (Int × Int × Nat)) := do
  modifyThe (Work σ) fun s => { s with cache.rdwtErr := OK }
  let ip := (← get).rip
  if ip.type = I_CHAR_SPECIAL then
    if q.devIo ≥ 0 then return .ok (OK, long (position + q.devIo), q.devIo.toNat)
    else return .ok (q.devIo, position, 0)
  else
    match ← checkGrowth io sup q position with
    | some r => return .error r
    | none =>
      if ip.iPipe ∧ q.pipeCheck ≤ 0 then return .error q.pipeCheck
      else
        let n := unshort q.nbytes
        return .ok (← rwLoop io sup q.user q.rwFlag (fileSize ip) (n + 1) position q.buffer n 0)

/-! ## Truncation -/

/-- Step through the file a zone at a time, finding and freeing the zones. -/
def freeZones (io : DevIo σ) (sup : SuperPtr → Super) (scale : Nat) :
    (fuel : Nat) → (position : Int) → B σ Unit
  | 0, _ => throwThe Halt .stuck
  | fuel + 1, position => do
    if position < (← get).rip.iSize then
      let b ← readMap io sup position
      provided (b ≠ NO_BLOCK) do freeZone sup (← devOf) (b >>> scale)
      freeZones io sup scale fuel (long (position + zoneSize scale))
    else return

/-- Free zones of an indirect block. -/
def freeInds (sup : SuperPtr → Super) (bp : BufPtr) (izs : List Nat) : B σ Unit :=
  izs.forM fun iz => do freeZone sup (← devOf) (← indAt bp iz)

/-- Free the zones that the double indirect zone leads to, and that zone. -/
def freeDouble (io : DevIo σ) (sup : SuperPtr → Super) (scale z : Nat) : B σ Unit := do
  let bp ← getBlock io (← devOf) (zoneBlock z scale) .NORMAL
  freeInds sup bp (List.range NR_INDIRECTS)
  putBlock io bp INDIRECT_BLOCK
  freeZone sup (← devOf) z

/-- Remove all the zones from the inode, and mark it dirty. -/
def truncate (io : DevIo σ) (sup : SuperPtr → Super) : B σ Unit := do
  let scale ← scaleFactor sup
  modifyRip fun ip => { ip with iSize := if ip.iPipe then Pipes.PIPE_SIZE else ip.iSize }
  freeZones io sup scale (((← get).rip.iSize / BLOCK_SIZE).toNat + 2) 0
  freeZone sup (← devOf) (← zoneAt NR_DZONE_NUM)
  let z ← zoneAt (NR_DZONE_NUM + 1)
  provided (z ≠ NO_ZONE) (freeDouble io sup scale z)
  modifyRip fun ip => { ip with iSize := 0, iDirt := DIRTY, iZone := fun _ => NO_ZONE }

/-! ## Directories -/

/-- The word that holds `dp->d_inum`. -/
def inumWord (dp : Fin NR_DIR_ENTRIES) : Fin INTS_PER_BLOCK :=
  ⟨8 * dp.val, by have := dp.isLt; simp only [NR_DIR_ENTRIES, INTS_PER_BLOCK] at *; omega⟩

/-- `dp->d_inum`. -/
def dirInum (b : Block) (dp : Fin NR_DIR_ENTRIES) : Nat := (wordAt b (inumWord dp)).toNat

/-- `dp->d_name`. -/
def dirName (b : Block) (dp : Fin NR_DIR_ENTRIES) : Name :=
  List.ofFn fun j : Fin NAME_SIZE => b ⟨DIR_ENTRY_SIZE * dp.val + 2 + j.val, by
    have := dp.isLt
    have := j.isLt
    simp only [NR_DIR_ENTRIES, NAME_SIZE, DIR_ENTRY_SIZE, BLOCK_SIZE] at *
    omega⟩

/-- A store into `dp->d_inum`. -/
def setInum (dp : Fin NR_DIR_ENTRIES) (numb : Nat) (b : Block) : Block :=
  setWord b (inumWord dp) (.ofNat 16 numb)

/-- A name is entered in a directory block with an inode number. -/
def setEntry (dp : Fin NR_DIR_ENTRIES) (string : Name) (numb : Nat) (b : Block) : Block :=
  setInum dp numb (splice (DIR_ENTRY_SIZE * dp.val + 2) NAME_SIZE (string.getD · 0) b)

/-- What a search comes to: to its end, to the name, or to a free slot. -/
inductive Search (α : Type) where
  | ended
  | found (dp : α)
  | room (dp : α)

/-- Search a directory block: also the number of slots that have been passed by now. -/
def scanSlots (b : Block) (string : Name) (flag : DirFlag) (oldSlots : Nat) :
    List (Fin NR_DIR_ENTRIES) → (newSlots : Nat) → Search (Fin NR_DIR_ENTRIES) × Nat
  | [], newSlots => (.ended, newSlots)
  | dp :: dps, newSlots =>
    let newSlots := unshort (newSlots + 1)
    -- not found, but room left
    if newSlots > oldSlots then (if flag = .ENTER then .room dp else .ended, newSlots)
    else if flag ≠ .ENTER ∧ dirInum b dp ≠ 0 ∧ dirName b dp = string then (.found dp, newSlots)
    else if flag = .ENTER ∧ dirInum b dp = 0 then (.room dp, newSlots)
    else scanSlots b string flag oldSlots dps newSlots

/-- Step through the directory one block at a time. -/
def scanBlocks (io : DevIo σ) (sup : SuperPtr → Super) (string : Name) (flag : DirFlag)
    (oldSlots : Nat) : (fuel : Nat) → (pos : Int) → (newSlots : Nat) →
      B σ (Search (BufPtr × Fin NR_DIR_ENTRIES) × Nat)
  | 0, _, _ => throwThe Halt .stuck
  | fuel + 1, pos, newSlots => do
    if pos < (← get).rip.iSize then
      let b ← readMap io sup pos
      let bp ← getBlock io (← devOf) b .NORMAL
      match scanSlots ((← get).cache.bData bp) string flag oldSlots (List.finRange _) newSlots with
      | (.found dp, newSlots) => return (.found (bp, dp), newSlots)
      | (.room dp, newSlots) => return (.room (bp, dp), newSlots)
      | (.ended, newSlots) =>
        putBlock io bp DIRECTORY_BLOCK
        scanBlocks io sup string flag oldSlots fuel (long (pos + BLOCK_SIZE)) newSlots
    else return (.ended, newSlots)

/-- LOOK_UP or DELETE found what it wanted. -/
def takeEntry (io : DevIo σ) (flag : DirFlag) (numb : Nat) (bp : BufPtr)
    (dp : Fin NR_DIR_ENTRIES) : B σ (Int × Nat) := do
  let inum := dirInum ((← get).cache.bData bp) dp
  provided (flag = .DELETE) (storeBuf bp (setInum dp 0))
  putBlock io bp DIRECTORY_BLOCK
  return (OK, if flag = .DELETE then numb else inum)

/-- The name goes to a slot of a directory block. -/
def enterName (io : DevIo σ) (string : Name) (numb oldSlots newSlots : Nat) (bp : BufPtr)
    (dp : Fin NR_DIR_ENTRIES) : B σ (Int × Nat) := do
  storeBuf bp (setEntry dp string numb)
  putBlock io bp DIRECTORY_BLOCK
  modifyRip fun ip => { ip with
    iDirt := DIRTY
    iSize := if newSlots > oldSlots then (newSlots * DIR_ENTRY_SIZE : Nat) else ip.iSize }
  return (OK, numb)

/-- The directory is full and there is no room left in the last block. -/
def extendDir (io : DevIo σ) (sup : SuperPtr → Super) (string : Name)
    (numb oldSlots newSlots : Nat) : B σ (Int × Nat) := do
  let newSlots := unshort (newSlots + 1) -- increase directory size by 1 entry
  if newSlots = 0 then return (EFBIG, numb) -- dir size limited by slot count
  else
    match ← newBlock io sup (← get).rip.iSize with
    | none => return ((← get).errCode, numb)
    | some bp => enterName io string numb oldSlots newSlots bp 0

/-- Search the directory for a name, enter it, or delete it. -/
def searchDir (io : DevIo σ) (sup : SuperPtr → Super) (fp : Fproc) (string : Name) (numb : Nat)
    (flag : DirFlag) : B σ (Int × Nat) := do
  let ip := (← get).rip
  -- if 'ldir_ptr' is not a pointer to a searchable dir inode, error
  if ip.type ≠ I_DIRECTORY then return (ENOTDIR, numb)
  else
    let bits := if flag = .LOOK_UP then X_BIT else W_BIT ||| X_BIT
    let r ← orStuck fun s => (forbidden sup fp ip bits false).map fun r => (r, s)
    if r ≠ OK then return (r, numb)
    else
      let oldSlots := unshort (ip.iSize.tdiv DIR_ENTRY_SIZE)
      match ← scanBlocks io sup string flag oldSlots ((ip.iSize / BLOCK_SIZE).toNat + 2) 0 0 with
      | (.found (bp, dp), _) => takeEntry io flag numb bp dp
      | (.room (bp, dp), newSlots) => enterName io string numb oldSlots newSlots bp dp
      | (.ended, newSlots) =>
        if flag ≠ .ENTER then return (ENOENT, numb)
        else extendDir io sup string numb oldSlots newSlots

end Minix.FS.ZoneMaps
