import Minix.Lib.DList

/-!
# The buffer cache

The buffers of `buf[]`, field by field, with the LRU chain from `front` to `rear` and the
hash chains from `buf_hash`. The device behind the cache is a parameter: a request
either panics or ends with a result code, what the buffer holds then, and a new state of
the world.

A call that panics, follows links for ever or reads through `NIL_BUF` has no result.
-/

namespace Minix.FS

open Intrusive Function

/-- Bytes in a disk block. -/
abbrev BLOCK_SIZE : Nat := 1024

/-- Blocks in the buffer cache. -/
abbrev NR_BUFS : Nat := 20

/-- Size of the buffer hash table. -/
abbrev NR_BUF_HASH : Nat := 32

/-- `sizeof(struct buf)`: the data, three pointers, two numbers and two characters. -/
abbrev BUF_BYTES : Nat := BLOCK_SIZE + 3 * 2 + 2 * 2 + 2

/-- Absence of a device number, all ones in a 16-bit number. -/
abbrev NO_DEV : Nat := 65535

/-- Absence of a block number. -/
abbrev NO_BLOCK : Nat := 0

/-- The block should be written to disk now. -/
abbrev WRITE_IMMED : Nat := 64

/-- The block is not likely to be needed soon. -/
abbrev ONE_SHOT : Nat := 128

/-- What a super block is released as. -/
abbrev ZUPER_BLOCK : Nat := 5 + WRITE_IMMED + ONE_SHOT

/-- The drivers' code for a request beyond the end of the device. -/
abbrev EOF : Int := -104

/-- The disk and memory copies are identical. -/
abbrev CLEAN : Bool := false

/-- The disk and memory copies differ. -/
abbrev DIRTY : Bool := true

/-- A `struct buf *` that is not `NIL_BUF`. -/
abbrev BufPtr : Type := Fin NR_BUFS

/-- The data portion of a buffer. -/
abbrev Block : Type := Fin BLOCK_SIZE → UInt8

/-- The direction of a transfer. -/
inductive RwFlag where
  | READING
  | WRITING
  deriving DecidableEq

/-- `NO_READ` prevents `get_block` from doing disk read. -/
inductive SearchFlag where
  | NORMAL
  | NO_READ
  deriving DecidableEq

/-- `dev_io` for one block at a byte position of a device. -/
abbrev DevIo (σ : Type) : Type :=
  RwFlag → (dev pos : Nat) → Block → σ → Option (Int × Block × σ)

/-- The buffer cache, and the world behind the devices. -/
structure Cache (σ : Type) where
  bData : BufPtr → Block
  /-- used to link bufs in a chain -/
  bNext : BufPtr → Option BufPtr
  /-- used to link bufs the other way -/
  bPrev : BufPtr → Option BufPtr
  /-- used to link bufs on hash chains -/
  bHash : BufPtr → Option BufPtr
  /-- block number of its (minor) device -/
  bBlocknr : BufPtr → Nat
  /-- major | minor device where block resides -/
  bDev : BufPtr → Nat
  bDirt : BufPtr → Bool
  /-- number of users of this buffer -/
  bCount : BufPtr → Int8
  /-- the buffer hash table -/
  bufHash : Fin NR_BUF_HASH → Option BufPtr
  front : Option BufPtr
  rear : Option BufPtr
  /-- # bufs currently in use -/
  bufsInUse : Int16
  rdwtErr : Int
  world : σ

/-- `block & (NR_BUF_HASH - 1)`. -/
def hashSlot (block : Nat) : Fin NR_BUF_HASH :=
  ⟨block &&& (NR_BUF_HASH - 1), Nat.lt_of_le_of_lt Nat.and_le_right (by decide)⟩

variable {σ : Type}

/-- A finished transfer: an error is recorded, and end of file invalidates the block. -/
def transferDone (c : Cache σ) (bp : BufPtr) (r : Int) (data : Block) (w : σ) : Cache σ :=
  { c with
    bData := update c.bData bp data
    bDev := if r < 0 ∧ r = EOF then update c.bDev bp NO_DEV else c.bDev
    rdwtErr := if r < 0 then r else c.rdwtErr
    world := w }

/-- Read or write a disk block. -/
def rwBlock (io : DevIo σ) (c : Cache σ) (bp : BufPtr) (flag : RwFlag) : Option (Cache σ) :=
  let done : Option (Cache σ) :=
    if c.bDev bp ≠ NO_DEV then
      (io flag (c.bDev bp) (c.bBlocknr bp * BLOCK_SIZE) (c.bData bp) c.world).map fun res =>
        transferDone c bp res.1 res.2.1 res.2.2
    else some c
  done.map fun c => { c with bDirt := update c.bDirt bp CLEAN }

/-- Make a dirty block clean by rewriting it to disk. -/
def writeBack (io : DevIo σ) (c : Cache σ) (bp : BufPtr) : Option (Cache σ) :=
  if c.bDirt bp = DIRTY ∧ c.bDev bp ≠ NO_DEV then rwBlock io c bp .WRITING else some c

/-- Go get the requested block, unless `onlySearch` is `NO_READ`. -/
def readIn (io : DevIo σ) (c : Cache σ) (bp : BufPtr) (dev : Nat) (onlySearch : SearchFlag) :
    Option (Cache σ) :=
  if dev ≠ NO_DEV ∧ onlySearch = .NORMAL then rwBlock io c bp .READING else some c

/-- Search a hash chain for a block. -/
def findBlock (c : Cache σ) (dev block : Nat) : Option (Option BufPtr) :=
  (search c.bHash (fun bp => c.bBlocknr bp = block ∧ c.bDev bp = dev) (NR_BUFS + 1) none
    (c.bufHash (hashSlot block))).map Prod.snd

/-- The oldest block that is not in use; "No free buffer" is a panic. -/
def oldestFree (c : Cache σ) : Option BufPtr :=
  (search c.bNext (fun bp => ¬c.bCount bp > 0) (NR_BUFS + 1) none c.front).bind Prod.snd

/-- Remove the block that was just taken from its hash chain. -/
def unhash (c : Cache σ) (bp : BufPtr) : Option (Cache σ) :=
  let k := hashSlot (c.bBlocknr bp)
  (remove c.bHash (NR_BUFS + 1) (c.bufHash k) bp).map fun r =>
    { c with bHash := r.1, bufHash := update c.bufHash k r.2 }

/-- Fill in block's parameters and add it to the hash chain where it goes. -/
def rehash (c : Cache σ) (bp : BufPtr) (dev block : Nat) : Cache σ :=
  { c with
    bDev := update c.bDev bp dev
    bBlocknr := update c.bBlocknr bp block
    bCount := update c.bCount bp (c.bCount bp + 1)
    bHash := update c.bHash bp (c.bufHash (hashSlot block))
    bufHash := update c.bufHash (hashSlot block) (some bp) }

/-- The block is in the cache: one more user. -/
def useBlock (c : Cache σ) (bp : BufPtr) : Cache σ :=
  { c with
    bufsInUse := if c.bCount bp = 0 then c.bufsInUse + 1 else c.bufsInUse
    bCount := update c.bCount bp (c.bCount bp + 1) }

/-- The block is not in the cache: evict the oldest one that is not in use. -/
def takeBlock (io : DevIo σ) (c : Cache σ) (dev block : Nat) (onlySearch : SearchFlag) :
    Option (BufPtr × Cache σ) :=
  if c.bufsInUse = 20 then none -- panic: "All buffers in use"
  else do
    let c := { c with bufsInUse := c.bufsInUse + 1 }
    let bp ← oldestFree c
    let c ← unhash c bp
    let c ← writeBack io c bp
    let c ← readIn io (rehash c bp dev block) bp dev onlySearch
    return (bp, c)

/-- Get a pointer to a block, from the cache or by evicting some other block. -/
def getBlock (io : DevIo σ) (c : Cache σ) (dev block : Nat) (onlySearch : SearchFlag) :
    Option (BufPtr × Cache σ) :=
  match if dev ≠ NO_DEV then findBlock c dev block else some none with
  | none => none
  | some (some bp) => some (bp, useBlock c bp)
  | some none => takeBlock io c dev block onlySearch

/-- Remove a buffer from the LRU chain. -/
def unlinkLru (c : Cache σ) (bp : BufPtr) : Cache σ :=
  let nextPtr := c.bNext bp
  let prevPtr := c.bPrev bp
  { c with
    bNext := relink c.bNext prevPtr nextPtr
    front := rehead c.front prevPtr nextPtr
    bPrev := relink c.bPrev nextPtr prevPtr
    rear := rehead c.rear nextPtr prevPtr }

/-- Put the block on the front of the LRU chain, where it is the next one to be evicted. -/
def putFront (c : Cache σ) (bp : BufPtr) : Cache σ :=
  { c with
    bPrev := relink (update c.bPrev bp none) c.front (some bp)
    bNext := update c.bNext bp c.front
    rear := rehead c.rear c.front (some bp)
    front := some bp }

/-- Put the block on the rear of the LRU chain, where it stays in the cache for a long time. -/
def putRear (c : Cache σ) (bp : BufPtr) : Cache σ :=
  { c with
    bPrev := update c.bPrev bp c.rear
    bNext := relink (update c.bNext bp none) c.rear (some bp)
    front := rehead c.front c.rear (some bp)
    rear := some bp }

/-- Move a block that is no longer in use to the end of the LRU chain where it belongs. -/
def requeue (c : Cache σ) (bp : BufPtr) (blockType : Nat) : Cache σ :=
  let c := unlinkLru { c with bufsInUse := c.bufsInUse - 1 } bp
  if blockType &&& ONE_SHOT ≠ 0 then putFront c bp else putRear c bp

/-- Return a block to the list of available blocks. -/
def putBlock (io : DevIo σ) (c : Cache σ) (bp : Option BufPtr) (blockType : Nat) :
    Option (Cache σ) :=
  match bp with
  | none => some c
  | some bp =>
    let c := { c with bCount := update c.bCount bp (c.bCount bp - 1) }
    if c.bCount bp > 0 then some c -- block is still in use
    else
      let c := requeue c bp blockType
      let written := if blockType &&& WRITE_IMMED ≠ 0 then writeBack io c bp else some c
      -- super blocks must not be cached, lest mount use cached block
      written.map fun c =>
        if blockType = ZUPER_BLOCK then { c with bDev := update c.bDev bp NO_DEV } else c

/-- Store into a buffer, and mark it dirty. -/
def storeBuf (c : Cache σ) (bp : BufPtr) (data : Block) : Cache σ :=
  { c with bData := update c.bData bp data, bDirt := update c.bDirt bp DIRTY }

/-- Remove all the blocks belonging to some device from the cache. -/
def invalidate (c : Cache σ) (device : Nat) : Cache σ :=
  { c with bDev := fun bp => if c.bDev bp = device then NO_DEV else c.bDev bp }

/-- One sweep of `do_sync` over the dirty blocks, of the devices with minor number 0 or of the
others. -/
def flushSweep (io : DevIo σ) (minorZero : Bool) : List BufPtr → Cache σ → Option (Cache σ)
  | [], c => some c
  | bp :: l, c =>
    let d := c.bDev bp
    if d ≠ NO_DEV ∧ c.bDirt bp = DIRTY ∧ decide (d &&& 255 = 0) = minorZero then
      (rwBlock io c bp .WRITING).bind (flushSweep io minorZero l)
    else flushSweep io minorZero l c

/-- The end of `do_sync`, when the tables have left their results in the cache: write all the
dirty blocks to the disk, drive 0 first. -/
def flushBlocks (io : DevIo σ) (c : Cache σ) : Option (Cache σ) :=
  (flushSweep io true (List.finRange NR_BUFS) c).bind
    (flushSweep io false (List.finRange NR_BUFS))

/-- The block at address `a` spans a 64K boundary, which the DMA chip cannot cross. -/
def spans64K (a : Nat) : Bool := a / 65536 ≠ (a + BLOCK_SIZE - 1) / 65536

/-- `bp + 1`, and nil behind the last buffer. -/
def bufAfter (bp : BufPtr) : Option BufPtr :=
  if h : bp.val + 1 < NR_BUFS then some ⟨bp.val + 1, h⟩ else none

/-- `bp - 1`, and nil before the first buffer. -/
def bufBefore (bp : BufPtr) : Option BufPtr :=
  if bp.val = 0 then none else some ⟨bp.val - 1, by omega⟩

/-- Delete a buffer from the fresh chain. -/
def deleteBuf (c : Cache σ) (bp : BufPtr) : Cache σ :=
  if bp.val = 0 then
    { c with front := bufAfter bp, bPrev := relink c.bPrev (bufAfter bp) none }
  else if bp.val = NR_BUFS - 1 then
    { c with rear := bufBefore bp, bNext := relink c.bNext (bufBefore bp) none }
  else
    { c with
      bNext := relink c.bNext (c.bPrev bp) (bufAfter bp)
      bPrev := relink c.bPrev (c.bNext bp) (bufBefore bp) }

/-- The chain of all the buffers, before any is deleted. -/
def chainBufs (c : Cache σ) : Cache σ :=
  { c with
    bufsInUse := 0
    front := some 0
    rear := some 19
    bBlocknr := fun _ => NO_BLOCK
    bDev := fun _ => NO_DEV
    bNext := bufAfter
    bPrev := bufBefore }

/-- Initialize the buffer pool, which lies at address `addr`. -/
def bufPool (addr : Nat) (c : Cache σ) : Cache σ :=
  let c := (List.finRange NR_BUFS).foldl
    (fun c bp => if spans64K (addr + bp.val * BUF_BYTES) then deleteBuf c bp else c) (chainBufs c)
  { c with
    bHash := c.bNext
    bufHash := update c.bufHash (hashSlot NO_BLOCK) c.front }

/-- The cache before `buf_pool`: static data is zero, except for what the buffers hold. -/
def unpooled (data : BufPtr → Block) (w : σ) : Cache σ where
  bData := data
  bNext _ := none
  bPrev _ := none
  bHash _ := none
  bBlocknr _ := 0
  bDev _ := 0
  bDirt _ := CLEAN
  bCount _ := 0
  bufHash _ := none
  front := none
  rear := none
  bufsInUse := 0
  rdwtErr := 0
  world := w

end Minix.FS
