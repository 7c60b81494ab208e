import Minix.FS.Cache
import Minix.FS.Filedes
import Minix.Lib.Triple

/-!
# The inode table

The slots of `inode[]` that path names and descriptors lead to, with the number of their users,
and the super blocks as far as inodes depend on them. What is done to disk blocks is a parameter:
none of it looks at who uses a slot.
-/

namespace Minix.FS.Inodes

open Function Transition

/-- # zone numbers in an inode -/
abbrev NR_ZONE_NUMS : Nat := 9

/-- # slots in super block table -/
abbrev NR_SUPERS : Nat := 5

/-- max # of blocks in the inode bit map -/
abbrev I_MAP_SLOTS : Nat := 4

/-- max # of blocks in the zone bit map -/
abbrev ZMAP_SLOTS : Nat := 6

/-- inode number for root directory -/
abbrev ROOT_INODE : Nat := 1

/-- indicates absence of a zone number -/
abbrev NO_ZONE : Nat := 0

/-- this inode is free -/
abbrev I_NOT_ALLOC : Nat := 0

/-- A `struct super_block *` that is not `NIL_SUPER`. -/
abbrev SuperPtr : Type := Fin NR_SUPERS

/-- A pointer in the table of super blocks. A super block is read with all its pointers, so that they
may lead anywhere. -/
inductive Link (α : Type) where
  | nil
  | of (a : α)
  | wild
  deriving DecidableEq

/-- Declaration of the disk inode used in rw_inode(). -/
structure DInode where
  /-- file type, protection, etc. -/
  iMode : Nat
  /-- user id of the file's owner -/
  iUid : Int
  /-- current file size in bytes -/
  iSize : Int
  /-- when was file data last changed -/
  iModtime : Int
  /-- group number -/
  iGid : Int
  /-- how many links to this file -/
  iNlinks : UInt8
  /-- zone numbers for direct, ind, and dbl ind -/
  iZone : Fin NR_ZONE_NUMS → Nat

/-- A slot of the inode table, without the mark that a file was positioned. -/
structure Inode extends DInode where
  /-- which device is the inode on -/
  iDev : Nat
  /-- inode number on its (minor) device -/
  iNum : Nat
  /-- # times inode used; 0 means slot is free -/
  iCount : Int
  iDirt : Bool
  /-- set to I_PIPE if pipe -/
  iPipe : Bool
  /-- this bit is set if file mounted on -/
  iMount : Bool

/-- A slot of the super block table, without the time of the last update. -/
structure Super where
  /-- # usable inodes on the minor device -/
  sNinodes : Nat
  /-- total device size, including bit maps etc -/
  sNzones : Nat
  /-- # of blocks used by inode bit map -/
  sImapBlocks : Nat
  /-- # of blocks used by zone bit map -/
  sZmapBlocks : Nat
  /-- number of first data zone -/
  sFirstdatazone : Nat
  /-- log2 of blocks/zone -/
  sLogZoneSize : Int
  /-- maximum file size on this device -/
  sMaxSize : Int
  /-- magic number to recognize super-blocks -/
  sMagic : Int
  /-- pointers to the in-core inode bit map -/
  sImap : Fin I_MAP_SLOTS → Link BufPtr
  /-- pointers to the in-core zone bit map -/
  sZmap : Fin ZMAP_SLOTS → Link BufPtr
  /-- whose super block is this? -/
  sDev : Nat
  /-- inode for root dir of mounted file sys -/
  sIsup : Link InodePtr
  /-- inode mounted on -/
  sImount : Link InodePtr
  /-- set to 1 iff file sys mounted read only -/
  sRdOnly : Bool

/-- What search_dir is to do. -/
inductive DirFlag where
  | LOOK_UP
  | ENTER
  | DELETE
  deriving DecidableEq

/-- A component of a path, padded with zeros. -/
abbrev Name : Type := List UInt8

/-- What is done to blocks and by the clock. A panic has no result. -/
structure Disk (σ : Type) where
  /-- an inode is copied from the disk -/
  readInode : Super → Nat → σ → Option (DInode × σ)
  /-- an inode is copied to the disk -/
  writeInode : Super → Nat → DInode → σ → Option σ
  /-- remove all the zones from an inode -/
  truncate : Super → Inode → σ → Option (DInode × σ)
  /-- turn off a bit of the inode map -/
  freeBit : Super → Nat → σ → Option σ
  /-- find a free bit in the inode map -/
  allocBit : Super → σ → Option (Option Nat × σ)
  /-- the time in seconds -/
  clockTime : σ → Option (Int × σ)
  /-- step through a directory: the result, a number, the inode, and whether that is dirty now -/
  scan : Super → Inode → Name → DirFlag → Nat → σ → Option (((Int × Nat) × DInode × Bool) × σ)
  /-- read a super block, with all the pointers in it -/
  readSuper : Nat → σ → Option (Super × σ)
  /-- load the bit maps of a device: whether there were buffers enough, and where the maps are -/
  loadBitMaps : Super → σ →
    Option ((Bool × (Fin I_MAP_SLOTS → Link BufPtr) × (Fin ZMAP_SLOTS → Link BufPtr)) × σ)
  /-- unload the bit maps of a device -/
  unloadBitMaps : Super → σ → Option σ
  /-- write the super blocks and all the dirty blocks to the disk -/
  flush : (SuperPtr → Super) → σ → Option σ
  /-- remove all the cache blocks on some device -/
  invalidate : Nat → σ → σ
  /-- `i_mount` as it is read through `NIL_INODE` -/
  nilMount : Bool
  /-- what an earlier call has left in `err_code` -/
  staleErr : Int
  /-- how many file systems one search passes, mounted in a circle or not -/
  depth : Nat

/-- The inode table, and the world behind it. -/
structure Core (σ : Type) where
  inode : InodePtr → Inode
  world : σ

/-- What works on them, and may panic. -/
abbrev M (σ : Type) : Type → Type := StateT (Core σ) Option

variable {σ : Type}

/-- A write to one slot. -/
def Core.modify (c : Core σ) (rip : InodePtr) (f : Inode → Inode) : Core σ :=
  { c with inode := update c.inode rip (f (c.inode rip)) }

/-- What is done to one slot. -/
def modifyInode (rip : InodePtr) (f : Inode → Inode) : M σ Unit :=
  modifyThe (Core σ) fun c => c.modify rip f

/-- What is in one slot. -/
def inodeOf (rip : InodePtr) : M σ Inode := do return (← get).inode rip

/-- Something is done to the world. -/
def onWorld {α : Type} (f : σ → Option (α × σ)) : M σ α := fun c =>
  (f c.world).map fun r => (r.1, { c with world := r.2 })

/-- The same, without a result. -/
def inWorld (f : σ → Option σ) : M σ Unit := fun c =>
  (f c.world).map fun w => ((), { c with world := w })

/-- Search the superblock table for this device; that it is not there is a panic. -/
def getSuper (sup : SuperPtr → Super) (dev : Nat) : Option SuperPtr :=
  (List.finRange NR_SUPERS).find? fun sp => (sup sp).sDev = dev

/-- The super block of an inode. -/
def superOf (sup : SuperPtr → Super) (dev : Nat) : M σ Super :=
  StateT.lift ((getSuper sup dev).map sup)

/-- The part of an inode that is on the disk is replaced. -/
def Inode.setDisk (ip : Inode) (di : DInode) : Inode := { ip with toDInode := di }

/-- An entry of the inode table is to be copied to or from the disk. -/
def rwInode (d : Disk σ) (sup : SuperPtr → Super) (rip : InodePtr) (flag : RwFlag) : M σ Unit := do
  let ip ← inodeOf rip
  let sp ← superOf sup ip.iDev
  match flag with
  | .READING =>
    let di ← onWorld (d.readInode sp ip.iNum)
    modifyInode rip fun ip => { ip.setDisk di with iDirt := CLEAN }
  | .WRITING =>
    inWorld (d.writeInode sp ip.iNum ip.toDInode)
    modifyInode rip fun ip => { ip with iDirt := CLEAN }

/-- The slot that is in use for an inode. -/
def findInode (c : Core σ) (dev numb : Nat) : Option InodePtr :=
  (List.finRange NR_INODES).find? fun rip =>
    (c.inode rip).iCount > 0 ∧ (c.inode rip).iDev = dev ∧ (c.inode rip).iNum = numb

/-- The last free slot. -/
def freeInodeSlot (c : Core σ) : Option InodePtr :=
  (List.finRange NR_INODES).reverse.find? fun rip => ¬(c.inode rip).iCount > 0

/-- Find a slot in the inode table, load the specified inode into it, and return a pointer to the
slot. If 'dev' == NO_DEV, just return a free slot. -/
def getInode (d : Disk σ) (sup : SuperPtr → Super) (dev numb : Nat) : M σ (Except Int InodePtr) := do
  match findInode (← get) dev numb with
  | some rip =>
    modifyInode rip fun ip => { ip with iCount := ip.iCount + 1 }
    return .ok rip
  | none =>
    match freeInodeSlot (← get) with
    | none => return .error ENFILE -- inode table completely full
    | some xp =>
      modifyInode xp fun ip => { ip with iDev := dev, iNum := numb, iCount := 1 }
      onlyIf (dev ≠ NO_DEV) (rwInode d sup xp .READING)
      return .ok xp

/-- Someone else is using an inode table entry. -/
def dupInode (rip : InodePtr) : M σ Unit :=
  modifyInode rip fun ip => { ip with iCount := ip.iCount + 1 }

/-- An inode without links: return all the disk blocks, and free the inode. -/
def eraseInode (d : Disk σ) (sup : SuperPtr → Super) (rip : InodePtr) : M σ Unit := do
  let ip ← inodeOf rip
  let sp ← superOf sup ip.iDev
  let di ← onWorld (d.truncate sp ip)
  modifyInode rip fun ip =>
    { ip.setDisk { di with iMode := I_NOT_ALLOC } with iDirt := DIRTY, iPipe := false }
  inWorld (d.freeBit sp ip.iNum)

/-- The caller is no longer using this inode. If no one else is using it either write it back to the
disk immediately. If it has no links, truncate it and return it to the pool of available inodes. -/
def putInode (d : Disk σ) (sup : SuperPtr → Super) (rip : InodePtr) : M σ Unit := do
  modifyInode rip fun ip => { ip with iCount := ip.iCount - 1 }
  if (← inodeOf rip).iCount = 0 then
    onlyIf ((← inodeOf rip).iNlinks = 0) (eraseInode d sup rip)
    onlyIf ((← inodeOf rip).iDirt = DIRTY) (rwInode d sup rip .WRITING)

/-- Checking for `NIL_INODE` here is easier than in caller. -/
def putInodeOpt (d : Disk σ) (sup : SuperPtr → Super) : Option InodePtr → M σ Unit
  | none => return
  | some rip => putInode d sup rip

/-- Erase some fields in the inode. -/
def wiped (di : DInode) (now : Int) : DInode :=
  { di with iSize := 0, iModtime := now, iZone := fun _ => NO_ZONE }

/-- Allocate a free inode on 'dev', and return a pointer to it. -/
def allocInode (d : Disk σ) (sup : SuperPtr → Super) (dev bits : Nat) (uid gid : Int) :
    M σ (Except Int InodePtr) := do
  let sp ← superOf sup dev
  match ← onWorld (d.allocBit sp) with
  | none => return .error ENFILE -- "Out of i-nodes"
  | some b =>
    match ← getInode d sup NO_DEV b with
    | .error e =>
      -- No inode table slots available. Free the inode just allocated.
      inWorld (d.freeBit sp b)
      return .error e
    | .ok rip =>
      let now ← onWorld d.clockTime
      modifyInode rip fun ip =>
        { ip.setDisk (wiped { ip.toDInode with
            iMode := bits, iNlinks := 0, iUid := uid, iGid := gid } now) with
          iDev := dev, iDirt := DIRTY }
      return .ok rip

/-! ## Who uses a slot -/

/-- Each slot has as many users as its references `refs` outside and `held` by the call in progress. -/
def Balanced (refs : InodePtr → Nat) (held : List InodePtr) (c : Core σ) : Prop :=
  ∀ rip, (c.inode rip).iCount = refs rip + held.count rip

/-- What a search leaves in hand. -/
def got : Except Int InodePtr → List InodePtr
  | .error _ => []
  | .ok rip => [rip]

section Balance

variable {d : Disk σ} {sup : SuperPtr → Super} {refs : InodePtr → Nat} {held : List InodePtr}
  {rip : InodePtr} {c c' : Core σ} {f : Inode → Inode}

theorem modify_self (c : Core σ) (rip : InodePtr) (f : Inode → Inode) :
    (c.modify rip f).inode rip = f (c.inode rip) := update_self ..

theorem modify_ne (c : Core σ) {rip ip : InodePtr} (h : ip ≠ rip) (f : Inode → Inode) :
    (c.modify rip f).inode ip = c.inode ip := update_of_ne h ..

theorem Balanced.congr (h : Balanced refs held c)
    (hc : ∀ rip, (c'.inode rip).iCount = (c.inode rip).iCount) : Balanced refs held c' :=
  fun rip => (hc rip).trans (h rip)

theorem Balanced.perm {held' : List InodePtr} (h : Balanced refs held c)
    (hp : held.Perm held') : Balanced refs held' c := fun rip => by
  rw [h rip, hp.count_eq]

/-- A write that leaves the number of users alone. -/
theorem Balanced.modify (h : Balanced refs held c) (hf : ∀ ip, (f ip).iCount = ip.iCount) :
    Balanced refs held (c.modify rip f) := by
  refine h.congr fun ip => ?_
  by_cases he : ip = rip
  · rw [he, modify_self, hf]
  · rw [modify_ne c he]

/-- One more user. -/
theorem Balanced.take (h : Balanced refs held c)
    (hf : (f (c.inode rip)).iCount = (c.inode rip).iCount + 1) :
    Balanced refs (rip :: held) (c.modify rip f) := by
  intro ip
  have hip := h ip
  by_cases he : ip = rip
  · rw [he, modify_self, hf, List.count_cons_self]
    rw [he] at hip
    omega
  · rw [modify_ne c he, List.count_cons_of_ne (Ne.symm he)]
    exact hip

/-- One user less. -/
theorem Balanced.drop (h : Balanced refs (rip :: held) c) :
    Balanced refs held (c.modify rip fun ip => { ip with iCount := ip.iCount - 1 }) := by
  intro ip
  have hip := h ip
  by_cases he : ip = rip
  · rw [he, modify_self]
    rw [he, List.count_cons_self] at hip
    dsimp only
    omega
  · rw [modify_ne c he]
    rwa [List.count_cons_of_ne (Ne.symm he)] at hip

theorem modifyInode_balanced (hf : ∀ ip, (f ip).iCount = ip.iCount) :
    Triple (Balanced (σ := σ) refs held) (modifyInode rip f) fun _ => Balanced refs held :=
  .modify fun _ h => h.modify hf

theorem inodeOf_balanced :
    Triple (Balanced (σ := σ) refs held) (inodeOf rip) fun _ => Balanced refs held :=
  .bind (.get (Q := fun _ => Balanced refs held) fun _ => id) fun _ => .pure fun _ => id

theorem onWorld_balanced {α : Type} (f : σ → Option (α × σ)) :
    Triple (Balanced refs held) (onWorld f) fun _ => Balanced refs held := by
  refine .step fun c r c' h he => ?_
  obtain ⟨x, -, he⟩ := Option.map_eq_some_iff.mp he
  exact (Prod.mk.inj he).2 ▸ h

theorem inWorld_balanced (f : σ → Option σ) :
    Triple (Balanced refs held) (inWorld f) fun _ => Balanced refs held := by
  refine .step fun c r c' h he => ?_
  obtain ⟨x, -, he⟩ := Option.map_eq_some_iff.mp he
  exact (Prod.mk.inj he).2 ▸ h

theorem superOf_balanced (dev : Nat) :
    Triple (Balanced (σ := σ) refs held) (superOf sup dev) fun _ => Balanced refs held :=
  .lift fun _ _ h _ => h

theorem rwInode_balanced (flag : RwFlag) :
    Triple (Balanced refs held) (rwInode d sup rip flag) fun _ => Balanced refs held := by
  refine .bind inodeOf_balanced fun ip => .bind (superOf_balanced _) fun sp => ?_
  cases flag with
  | READING =>
    exact .bind (onWorld_balanced _) fun di => modifyInode_balanced fun _ => rfl
  | WRITING =>
    exact .bind (inWorld_balanced _) fun _ => modifyInode_balanced fun _ => rfl

/-- A slot that is in use gets one more user, and a free one its first. -/
theorem getInode_balanced (dev numb : Nat) :
    Triple (Balanced refs held) (getInode d sup dev numb) fun r =>
      Balanced refs (got r ++ held) := by
  refine .bind (.get (Q := fun c₀ c => c = c₀ ∧ Balanced refs held c) fun c h => ⟨rfl, h⟩)
    fun c₀ => ?_
  cases findInode c₀ dev numb with
  | some rip =>
    refine .bind (.modify (Q := fun _ => Balanced refs (rip :: held)) fun c h => h.2.take rfl)
      fun _ => .pure fun _ => id
  | none =>
    refine .bind (.get (Q := fun c₁ c => c = c₁ ∧ Balanced refs held c) fun c h => ⟨rfl, h.2⟩)
      fun c₁ => ?_
    cases hfree : freeInodeSlot c₁ with
    | none => exact .pure fun _ h => h.2
    | some xp =>
      have hzero : ¬(c₁.inode xp).iCount > 0 := by
        have := List.find?_some hfree
        rwa [decide_eq_true_eq] at this
      have htake : Triple (fun c => c = c₁ ∧ Balanced refs held c)
          (modifyInode xp fun ip => { ip with iDev := dev, iNum := numb, iCount := 1 })
          fun _ => Balanced refs (xp :: held) := by
        refine .modify fun c h => h.2.take ?_
        have hc := h.2 xp
        rw [h.1] at hc ⊢
        dsimp only
        omega
      exact .bind htake fun _ => .bind (.onlyIf fun _ => rwInode_balanced _) fun _ =>
        .pure fun _ => id

theorem dupInode_balanced :
    Triple (Balanced (σ := σ) refs held) (dupInode rip) fun _ => Balanced refs (rip :: held) :=
  .modify fun _ h => h.take rfl

theorem eraseInode_balanced :
    Triple (Balanced refs held) (eraseInode d sup rip) fun _ => Balanced refs held :=
  .bind inodeOf_balanced fun _ => .bind (superOf_balanced _) fun _ =>
    .bind (onWorld_balanced _) fun _ => .bind (modifyInode_balanced fun _ => rfl) fun _ =>
      inWorld_balanced _

/-- The caller must have held what it gives back. -/
theorem putInode_balanced :
    Triple (Balanced refs (rip :: held)) (putInode d sup rip) fun _ => Balanced refs held := by
  refine .bind (.modify (Q := fun _ => Balanced refs held) fun _ h => h.drop) fun _ =>
    .bind inodeOf_balanced fun _ => .ite (fun _ => ?_) fun _ => .pure fun _ => id
  exact .bind inodeOf_balanced fun _ => .bind (.onlyIf fun _ => eraseInode_balanced) fun _ =>
    .bind inodeOf_balanced fun _ => .onlyIf fun _ => rwInode_balanced _

theorem putInodeOpt_balanced (r : Option InodePtr) :
    Triple (Balanced refs (r.toList ++ held)) (putInodeOpt d sup r) fun _ =>
      Balanced refs held := by
  cases r with
  | none => exact .pure fun _ => id
  | some rip => exact putInode_balanced

theorem allocInode_balanced (dev bits : Nat) (uid gid : Int) :
    Triple (Balanced refs held) (allocInode d sup dev bits uid gid) fun r =>
      Balanced refs (got r ++ held) := by
  refine .bind (superOf_balanced _) fun sp => .bind (onWorld_balanced _) fun b => ?_
  cases b with
  | none => exact .pure fun _ => id
  | some b =>
    refine .bind (getInode_balanced _ _) fun r => ?_
    cases r with
    | error e => exact .bind (inWorld_balanced _) fun _ => .pure fun _ => id
    | ok rip =>
      exact .bind (onWorld_balanced _) fun now => .bind (modifyInode_balanced fun _ => rfl)
        fun _ => .pure fun _ => id

end Balance

end Minix.FS.Inodes
