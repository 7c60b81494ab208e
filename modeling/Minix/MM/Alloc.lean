import Minix.Lib.Chain

/-!
# The hole table

Physical memory that nobody owns is a list of holes, kept in a table of fixed
size. Two lists share the table: the holes by address from `hole_head`, and the
slots not in use from `free_slots`. A click count is a 16-bit number, and sums of
them are computed as the machine computes them.

A call that panics or follows links for ever has no result.
-/

namespace Minix.MM

open Intrusive

/-- Entries in the hole table. -/
abbrev NR_HOLES : Nat := 128

/-- `NO_MEM`, what `alloc_mem` returns when no hole is big enough. -/
abbrev NO_MEM : Nat := 0

/-- A `struct hole *` that is not nil. -/
abbrev HolePtr : Type := Fin NR_HOLES

/-- Addition of `phys_clicks`, an unsigned 16-bit type. -/
def addClicks (a b : Nat) : Nat := (a + b) % 65536

/-- An entry of the hole table. -/
structure Hole where
  /-- where does the hole begin? -/
  hBase : Nat
  /-- how big is the hole? -/
  hLen : Nat
  /-- next entry on the list -/
  hNext : Option HolePtr
  deriving DecidableEq

/-- The hole table with its two list heads. -/
structure HoleTable where
  hole : HolePtr → Hole
  /-- first hole -/
  holeHead : Option HolePtr
  /-- list of unused table slots -/
  freeSlots : Option HolePtr

namespace HoleTable

/-- The link field of the whole table. -/
def next (t : HoleTable) : HolePtr → Option HolePtr := fun i => (t.hole i).hNext

/-- Overwrite one entry. -/
def set (t : HoleTable) (i : HolePtr) (h : Hole) : HoleTable :=
  { t with hole := Function.update t.hole i h }

/-- `hp->h_base = base; hp->h_len = len`. -/
def setExtent (t : HoleTable) (i : HolePtr) (base len : Nat) : HoleTable :=
  t.set i { t.hole i with hBase := base, hLen := len }

/-- `hp->h_next = v`. -/
def setNext (t : HoleTable) (i : HolePtr) (v : Option HolePtr) : HoleTable :=
  t.set i { t.hole i with hNext := v }

end HoleTable

/-- Remove `hp` from the hole list and put its slot on the free list. `prev_ptr` is not
set when `hp` is the first hole, and is not read then. -/
def delSlot (t : HoleTable) (prevPtr : Option HolePtr) (hp : HolePtr) : Option HoleTable :=
  let unlinked : Option HoleTable :=
    if t.holeHead = some hp then some { t with holeHead := (t.hole hp).hNext }
    else prevPtr.map fun prev => t.setNext prev (t.hole hp).hNext
  unlinked.map fun t => { t.setNext hp t.freeSlots with freeSlots := some hp }

/-- Allocate `clicks` by first fit: bite a piece off the first hole that is big enough. -/
def allocMem (t : HoleTable) (clicks : Nat) : Option (Nat × HoleTable) :=
  match search t.next (fun i => clicks ≤ (t.hole i).hLen) (NR_HOLES + 1) none t.holeHead with
  | none => none
  | some (_, none) => some (NO_MEM, t)
  | some (prevPtr, some hp) =>
    let oldBase := (t.hole hp).hBase
    let t := t.setExtent hp (addClicks oldBase clicks) ((t.hole hp).hLen - clicks)
    -- if the hole is only partly used, reduce its size and return
    if (t.hole hp).hLen ≠ 0 then some (oldBase, t)
    else (delSlot t prevPtr hp).map fun t => (oldBase, t)

/-- One half of `merge`: absorb the successor of `hp` when it starts where `hp` ends. The
pointer returned is the one the other half starts from. -/
def absorb (t : HoleTable) (hp : HolePtr) : Option (HolePtr × HoleTable) :=
  match (t.hole hp).hNext with
  | none => some (hp, t)
  | some nextPtr =>
    if addClicks (t.hole hp).hBase (t.hole hp).hLen = (t.hole nextPtr).hBase then
      (delSlot (t.setExtent hp (t.hole hp).hBase
        (addClicks (t.hole hp).hLen (t.hole nextPtr).hLen)) (some hp) nextPtr).map fun t => (hp, t)
    else some (nextPtr, t)

/-- Merge `hp` with its successors. The first half leaves the pointer alone when there is
no successor, and then the second half finds none either. -/
def merge (t : HoleTable) (hp : HolePtr) : Option HoleTable := do
  let (hp, t) ← absorb t hp
  let (_, t) ← absorb t hp
  return t

/-- `hp == NIL_HOLE || base <= hp->h_base` at the head of the hole list. -/
def goesOnFront (t : HoleTable) (base : Nat) : Bool :=
  t.holeHead.all fun hp => base ≤ (t.hole hp).hBase

/-- Link the entry of a returned block into the hole list by address, and merge it with the
holes around it. -/
def linkHole (t : HoleTable) (newPtr : HolePtr) (base : Nat) : Option HoleTable :=
  if goesOnFront t base then
    merge { t.setNext newPtr t.holeHead with holeHead := some newPtr } newPtr
  else
    -- find the first hole that does not lie below the block
    match search t.next (fun i => base ≤ (t.hole i).hBase) (NR_HOLES + 1) none t.holeHead with
    | some (some prevPtr, _) =>
      let t := t.setNext newPtr (t.hole prevPtr).hNext
      merge (t.setNext prevPtr (some newPtr)) prevPtr
    | _ => none

/-- Return a block to the hole list. -/
def freeMem (t : HoleTable) (base clicks : Nat) : Option HoleTable :=
  match t.freeSlots with
  | none => none -- panic: "Hole table full"
  | some newPtr =>
    let t := t.setExtent newPtr base clicks
    linkHole { t with freeSlots := (t.hole newPtr).hNext } newPtr base

/-- The largest hole, by a scan of the hole list. -/
def maxHoleFrom (t : HoleTable) : Nat → Option HolePtr → Nat → Option Nat
  | 0, _, _ => none
  | _ + 1, none, max => some max
  | n + 1, some hp, max =>
    maxHoleFrom t n (t.hole hp).hNext (if (t.hole hp).hLen > max then (t.hole hp).hLen else max)

/-- Scan the hole list and return the largest hole. -/
def maxHole (t : HoleTable) : Option Nat := maxHoleFrom t (NR_HOLES + 1) t.holeHead 0

/-- Initialize the hole lists: one hole of all the memory, every other slot free. The
extent of the other slots is whatever the table held before. -/
def memInit (t : HoleTable) (clicks : Nat) : HoleTable where
  hole i := if i = 0 then { hBase := 0, hLen := clicks, hNext := none }
    else { t.hole i with hNext := if h : i.val + 1 < NR_HOLES then some ⟨i.val + 1, h⟩ else none }
  holeHead := some 0
  freeSlots := some 1

end Minix.MM
