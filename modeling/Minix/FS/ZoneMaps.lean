import Minix.FS.BitMaps
import Minix.Lib.Outcome

/-!
# From file positions to blocks

An inode has the numbers of the first zones of its file, and of a single and a double indirect
block, which have the others. Zones and indirect blocks are entered as the file is written.

The time of the last change, which the code also notes, is left out.
-/

namespace Minix.FS.ZoneMaps

open Function Inodes Transition

abbrev OK : Int := 0

/-- file too large -/
abbrev EFBIG : Int := -27

/-- # zones in inode -/
abbrev NR_DZONE_NUM : Nat := NR_ZONE_NUMS - 2

/-- # zones/indir blk -/
abbrev NR_INDIRECTS : Nat := 512

/-- What pointer blocks are released as. -/
abbrev INDIRECT_BLOCK : Nat := 2 + WRITE_IMMED

/-- What blocks that are full of data are released as. -/
abbrev FULL_DATA_BLOCK : Nat := 6

/-- Why a piece of work does not come to its end. -/
inductive Halt where
  /-- a panic, a loop without end, or a pointer that leads nowhere -/
  | stuck
  /-- an index is outside its table -/
  | bounds
  deriving DecidableEq

/-- What works on the blocks of an inode. -/
abbrev B (σ : Type) : Type → Type := StateT (Work σ) (Except Halt)

variable {σ : Type}

/-- A piece of work that panics is stuck. -/
def orStuck {α : Type} (f : Work σ → Option (α × Work σ)) : B σ α := fun s =>
  match f s with
  | some r => .ok r
  | none => .error .stuck

def getBlock (io : DevIo σ) (dev block : Nat) (flag : SearchFlag) : B σ BufPtr :=
  orStuck fun s => (FS.getBlock io s.cache dev block flag).map fun r =>
    (r.1, { s with cache := r.2 })

def putBlock (io : DevIo σ) (bp : BufPtr) (blockType : Nat) : B σ Unit :=
  orStuck fun s => (FS.putBlock io s.cache (some bp) blockType).map fun c =>
    ((), { s with cache := c })

def allocZone (sup : SuperPtr → Super) (dev z : Nat) : B σ Nat :=
  orStuck (FS.allocZone sup dev z)

def freeZone (sup : SuperPtr → Super) (dev numb : Nat) : B σ Unit :=
  orStuck fun s => (FS.freeZone sup dev numb s.cache).map fun c => ((), { s with cache := c })

/-- The device that the inode is on. -/
def devOf : B σ Nat := do return (← get).rip.iDev

/-- The super block of a device. -/
def superOf (sup : SuperPtr → Super) (dev : Nat) : B σ Super :=
  orStuck fun s => ((getSuper sup dev).map sup).map fun sp => (sp, s)

/-- The scale factor used for converting blocks to zones. -/
def scaleFactor (sup : SuperPtr → Super) : B σ Nat := do
  let sp ← superOf sup (← devOf)
  return sp.sLogZoneSize.toNat

/-- Something is done to the inode. -/
def modifyRip (f : Inode → Inode) : B σ Unit :=
  modifyThe (Work σ) fun s => { s with rip := f s.rip }

/-- `rip->i_zone[i]`. -/
def zoneAt (i : Int) : B σ Nat := do
  if h : 0 ≤ i ∧ i.toNat < NR_ZONE_NUMS then
    return (← get).rip.iZone ⟨i.toNat, h.2⟩
  else throwThe Halt .bounds

/-- A store into `rip->i_zone[i]`. -/
def setZone (i : Int) (z : Nat) : B σ Unit :=
  if h : 0 ≤ i ∧ i.toNat < NR_ZONE_NUMS then
    modifyRip fun ip => { ip with iZone := update ip.iZone ⟨i.toNat, h.2⟩ z }
  else throwThe Halt .bounds

/-- `bp->b_ind[i]`. -/
def indAt (bp : BufPtr) (i : Int) : B σ Nat := do
  if h : 0 ≤ i ∧ i.toNat < NR_INDIRECTS then
    return (wordAt ((← get).cache.bData bp) ⟨i.toNat, h.2⟩).toNat
  else throwThe Halt .bounds

/-- Store into a buffer, and mark it dirty. -/
def storeBuf (bp : BufPtr) (f : Block → Block) : B σ Unit :=
  modifyThe (Work σ) fun s => { s with cache := FS.storeBuf s.cache bp (f (s.cache.bData bp)) }

/-- A store into `bp->b_ind[i]`. -/
def setInd (bp : BufPtr) (i : Int) (z : Nat) : B σ Unit :=
  if h : 0 ≤ i ∧ i.toNat < NR_INDIRECTS then
    storeBuf bp fun b => setWord b ⟨i.toNat, h.2⟩ (.ofNat 16 z)
  else throwThe Halt .bounds

/-- Zero a block. -/
def zeroBlock (bp : BufPtr) : B σ Unit := storeBuf bp fun _ _ => 0

/-- The first block of a zone. -/
def zoneBlock (z scale : Nat) : Nat := unshort (z <<< scale : Nat)

/-- A block of a zone, if there is such a zone. -/
def blockIn (z scale : Nat) (boff : Int) : Nat :=
  if z = NO_ZONE then NO_BLOCK else unshort ((z <<< scale : Nat) + boff)

/-- The zone of the single indirect block for a zone of the file that is not in the inode, and the
index into that block. -/
def singleInd (io : DevIo σ) (scale : Nat) (excess : Int) : B σ (Nat × Int) := do
  if excess < NR_INDIRECTS then
    return (← zoneAt NR_DZONE_NUM, excess)
  else
    let z ← zoneAt (NR_DZONE_NUM + 1)
    let excess := excess - NR_INDIRECTS -- single indir doesn't count
    if z = NO_ZONE then return (NO_ZONE, excess)
    else
      let bp ← getBlock io (← devOf) (zoneBlock z scale) .NORMAL
      let z ← indAt bp (excess / NR_INDIRECTS)
      putBlock io bp INDIRECT_BLOCK
      return (z, excess % NR_INDIRECTS)

/-- Given an inode and a position within the corresponding file, locate the block (not zone) number
in which that position is to be found and return it. -/
def readMap (io : DevIo σ) (sup : SuperPtr → Super) (position : Int) : B σ Nat := do
  let scale ← scaleFactor sup
  let blockPos := position.tdiv BLOCK_SIZE
  let zone := blockPos >>> scale
  let boff := blockPos - zone * 2 ^ scale
  if zone < NR_DZONE_NUM then
    let z ← zoneAt zone
    return blockIn z scale boff
  else
    let (z, excess) ← singleInd io scale (zone - NR_DZONE_NUM)
    if z = NO_ZONE then return NO_BLOCK
    else
      let bp ← getBlock io (← devOf) (zoneBlock z scale) .NORMAL
      let z ← indAt bp excess
      putBlock io bp INDIRECT_BLOCK
      return blockIn z scale boff

/-- The place where the number of a single indirect block goes. -/
inductive ZonePtr where
  /-- `&rip->i_zone[NR_DZONE_NUM]` -/
  | inode
  /-- `&bp->b_ind[index]`, in the double indirect block -/
  | ind (bp : BufPtr) (index : Int)

namespace ZonePtr

/-- `*zp`. -/
def read : ZonePtr → B σ Nat
  | .inode => zoneAt NR_DZONE_NUM
  | .ind bp index => indAt bp index

/-- A store into `*zp`. -/
def write (z : Nat) : ZonePtr → B σ Unit
  | .inode => setZone NR_DZONE_NUM z
  | .ind bp index => setInd bp index z

/-- Release the double indirect block, if there is one. -/
def release (io : DevIo σ) : ZonePtr → B σ Unit
  | .inode => return
  | .ind bp _ => putBlock io bp INDIRECT_BLOCK

end ZonePtr

/-- A zone for an indirect block, near the first zone of the file. -/
def allocInd (sup : SuperPtr → Super) : B σ Nat := do
  allocZone sup (← devOf) (← zoneAt 0)

/-- The zone of the double indirect block, and whether that has just been created. -/
def doubleInd (sup : SuperPtr → Super) : B σ (Nat × Bool) := do
  let z ← zoneAt (NR_DZONE_NUM + 1)
  if z = NO_ZONE then
    let z ← allocInd sup
    provided (z ≠ NO_ZONE) (setZone (NR_DZONE_NUM + 1) z)
    return (z, true)
  else return (z, false)

/-- Where an indirect zone number goes, and the index into that indirect block. -/
def placeInd (io : DevIo σ) (sup : SuperPtr → Super) (scale : Nat) (excess : Int) :
    B σ (Except Int (ZonePtr × Int)) := do
  if excess < NR_INDIRECTS then
    return .ok (.inode, excess)
  else
    let (z, newDbl) ← doubleInd sup
    if z = NO_ZONE then return .error (← get).errCode
    else
      let excess := excess - NR_INDIRECTS -- single indirect doesn't count
      let index := excess / NR_INDIRECTS
      if index ≥ NR_INDIRECTS then return .error EFBIG
      else
        let bp ← getBlock io (← devOf) (zoneBlock z scale) (if newDbl then .NO_READ else .NORMAL)
        provided newDbl (zeroBlock bp)
        return .ok (.ind bp index, excess % NR_INDIRECTS)

/-- The zone of the indirect block, and whether that has just been created. -/
def linkInd (sup : SuperPtr → Super) (zp : ZonePtr) : B σ (Nat × Bool) := do
  let z ← zp.read
  if z = NO_ZONE then
    let z ← allocInd sup
    zp.write z
    return (z, true)
  else return (z, false)

/-- Enter a zone in the indirect block that `zp` leads to. -/
def enterInd (io : DevIo σ) (sup : SuperPtr → Super) (scale : Nat) (zp : ZonePtr) (excess : Int)
    (newZone : Nat) : B σ Int := do
  let (z, newInd) ← linkInd sup zp
  zp.release io
  if z = NO_ZONE then return (← get).errCode -- couldn't create single ind
  else
    let bp ← getBlock io (← devOf) (zoneBlock z scale) (if newInd then .NO_READ else .NORMAL)
    provided newInd (zeroBlock bp)
    setInd bp excess newZone
    putBlock io bp INDIRECT_BLOCK
    return OK

/-- Write a new zone into an inode. -/
def writeMap (io : DevIo σ) (sup : SuperPtr → Super) (position : Int) (newZone : Nat) :
    B σ Int := do
  modifyRip fun ip => { ip with iDirt := DIRTY }
  let scale ← scaleFactor sup
  let zone := position.tdiv BLOCK_SIZE >>> scale
  if zone < NR_DZONE_NUM then
    setZone zone newZone
    return OK
  else
    match ← placeInd io sup scale (zone - NR_DZONE_NUM) with
    | .error r => return r
    | .ok (zp, excess) => enterInd io sup scale zp excess newZone

end Minix.FS.ZoneMaps
