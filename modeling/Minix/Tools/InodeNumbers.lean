import Minix.FS.MapBuffers
import Minix.Tools.Image

/-!
# Inode numbers of the tool and of the file system

Both programs count the inodes of an image from 1 and look for them behind the bit maps. The file
system hands out `s_ninodes` as the last number; the tool does not find an inode of that number.
-/

namespace Minix.Tools

open Function
open FS (Cache BufPtr InodePtr Word MapPtrs allocBit bitSet imapPtr unshort unpooled wordOf setWord
  wordAt INT_BITS BLOCK_BITS NO_BIT NO_DEV)
open FS.Inodes (Super SuperPtr Disk Core Link M I_MAP_SLOTS ZMAP_SLOTS getSuper getInode allocInode)
open Transition

/-- # inodes in a block -/
abbrev IPB : Nat := 32

/-- # inodes/disk blk -/
abbrev INODES_PER_BLOCK : Nat := 32

/-- Where an inode is. -/
structure Place where
  block : Nat
  /-- its place in the block -/
  slot : Nat
  deriving DecidableEq

/-! ## The tool -/

/-- The block of inode 1. -/
def firstinode (sb : Superblock) : Nat := sb.sImapBlock + sb.sZmapBlock + 2

/-- What the pointer to an inode is. -/
def inodePtr (sb : Superblock) (inum : Nat) : Place :=
  let ioff := uint (inum + 2 ^ 32 - 1)
  ⟨uint (firstinode sb + ioff / IPB), ioff % IPB⟩

/-- `iget`, with the pointer it returns. -/
def igetPtr (sb : Superblock) (inum : Nat) : Option Place := (iget sb inum).map (inodePtr sb)

/-- Retrieves the inode number of a pointer. -/
def geti (sb : Superblock) (ip : Place) : Option Nat :=
  ((List.range (sb.sNinodes / IPB + 1)).find? fun i => ip.block = i + firstinode sb).map
    fun i => ip.slot + i * IPB + 1

/-! ## The file system -/

variable {σ : Type}

/-- Where `rw_inode` gets an inode. -/
def rwInodePtr (sp : Super) (iNum : Nat) : Place :=
  let num := unshort ((iNum : Int) - 1)
  ⟨unshort (num / INODES_PER_BLOCK + sp.sImapBlocks + sp.sZmapBlocks + 2 : Nat),
    num % INODES_PER_BLOCK⟩

/-- Acquire an inode from the bit map. -/
def inodeBit (sp : Super) (c : Cache σ) : Option (Option Nat × Cache σ) := do
  let (b, c) ← allocBit c (imapPtr sp) (unshort (sp.sNinodes + 1)) sp.sImapBlocks 0
  return (if b = NO_BIT then none else some b, c)

/-- A number that `alloc_inode` gives to a new inode, when the map is in the cache and its bit 0 is
busy. -/
def HandedOut (sp : Super) (numb : Nat) : Prop :=
  ∃ (d : Disk (Cache Unit)) (sup : SuperPtr → Super) (dev bits : Nat) (uid gid : Int)
    (s s' : Core (Cache Unit)) (rip : InodePtr),
    d.allocBit = inodeBit ∧ (getSuper sup dev).map sup = some sp ∧
      bitSet s.world (imapPtr sp) 0 = true ∧
      allocInode d sup dev bits uid gid s = some (.ok rip, s') ∧ (s'.inode rip).iNum = numb

/-- A super block that can be mounted: the map has a bit for each inode, and its blocks are in the
cache. -/
structure ValidSuper (sp : Super) : Prop where
  inodes : 1 ≤ sp.sNinodes
  imapBlocks : sp.sImapBlocks ≤ I_MAP_SLOTS
  zmapBlocks : sp.sZmapBlocks ≤ ZMAP_SLOTS
  bits : sp.sNinodes + 1 ≤ sp.sImapBlocks * BLOCK_BITS
  ptrs : MapPtrs (imapPtr sp) sp.sImapBlocks

/-- A super block as it is on the disk. -/
def onDisk (sp : Super) : Superblock where
  sNinodes := sp.sNinodes
  sNzones := sp.sNzones
  sImapBlock := sp.sImapBlocks
  sZmapBlock := sp.sZmapBlocks
  sFirstdatazone := sp.sFirstdatazone
  sMaxSize := sp.sMaxSize.toNat

/-! ## Numbers that are handed out -/

variable {sp : Super} {numb : Nat}

/-- What is in the slot has this number. -/
def Numbered (numb : Nat) (r : Except Int InodePtr) (s : Core σ) : Prop :=
  ∀ rip, r = .ok rip → (s.inode rip).iNum = numb

theorem getInode_numbered (d : Disk σ) (sup : SuperPtr → Super) (numb : Nat) :
    Triple (fun _ => True) (getInode d sup NO_DEV numb) (Numbered numb) := by
  refine .bind (.get (Q := fun s₀ s => s = s₀) fun _ _ => rfl) fun s₀ => ?_
  cases hfind : FS.Inodes.findInode s₀ NO_DEV numb with
  | some rip =>
    have hnum := List.find?_some hfind
    rw [decide_eq_true_iff] at hnum
    refine .bind (.modify (Q := fun _ s => (s.inode rip).iNum = numb) ?_) fun _ => .pure ?_
    · rintro s rfl
      simp only [Core.modify, update_self, hnum.2.2]
    · rintro s h _ ⟨⟩
      exact h
  | none =>
    refine .bind (.get (Q := fun _ _ => True) fun _ _ => trivial) fun s₁ => ?_
    cases FS.Inodes.freeInodeSlot s₁ with
    | none => exact .pure fun _ _ _ => nofun
    | some xp =>
      refine .bind (.modify (Q := fun _ s => (s.inode xp).iNum = numb) ?_) fun _ =>
        .bind (.onlyIf fun h => absurd rfl h) fun _ => .pure ?_
      · intro s _
        simp only [Core.modify, update_self]
      · rintro s h _ ⟨⟩
        exact h

/-- The bits of the map of a valid super block. -/
theorem ValidSuper.mapBits (hv : ValidSuper sp) : unshort (sp.sNinodes + 1) = sp.sNinodes + 1 := by
  have := hv.bits
  have := hv.imapBlocks
  unfold unshort
  dsimp only [BLOCK_BITS, I_MAP_SLOTS] at *
  omega

/-- `alloc_bit` finds the number of an inode that is free, if there is one. -/
theorem ValidSuper.inodeBit_spec (hv : ValidSuper sp) {c : Cache σ}
    (h0 : bitSet c (imapPtr sp) 0 = true) : ∃ r c', inodeBit sp c = some (r, c') ∧
      (r = none ∧ (∀ n ≤ sp.sNinodes, bitSet c (imapPtr sp) n = true) ∨
        ∃ n, r = some n ∧ 1 ≤ n ∧ n ≤ sp.sNinodes ∧ bitSet c (imapPtr sp) n = false) := by
  obtain ⟨bit, c', he, hcase⟩ :=
    FS.allocBit_spec (c := c) hv.ptrs (hv.mapBits.le.trans hv.bits) 0
  refine ⟨if bit = NO_BIT then none else some bit, c', by rw [inodeBit, he]; rfl, ?_⟩
  rw [hv.mapBits] at hcase
  rcases hcase with ⟨rfl, -, hfull⟩ | ⟨hlt, bp, htaken⟩
  · exact Or.inl ⟨rfl, fun n hn => hfull n (Nat.lt_succ_of_le hn)⟩
  · have hne : bit ≠ NO_BIT := by
      rintro rfl
      exact absurd (htaken.clear.symm.trans h0) (by decide)
    exact Or.inr ⟨bit, if_neg hne, Nat.pos_of_ne_zero hne, Nat.le_of_lt_succ hlt, htaken.clear⟩

/-- The number of a new inode is the one that is acquired from the bit map. -/
theorem allocInode_number (d : Disk σ) {sup : SuperPtr → Super} {dev : Nat}
    (hsup : (getSuper sup dev).map sup = some sp) (bits : Nat) (uid gid : Int) (w : σ) :
    Triple (fun s => s.world = w) (allocInode d sup dev bits uid gid) fun r s =>
      ∀ rip, r = .ok rip → ∃ w', d.allocBit sp w = some (some (s.inode rip).iNum, w') := by
  refine .bind (Q := fun sp' s => sp' = sp ∧ s.world = w) ?_ fun sp' => ?_
  · refine .lift fun s sp' hw hsp' => ⟨?_, hw⟩
    rw [hsup] at hsp'
    exact (Option.some.inj hsp').symm
  refine .bind (Q := fun b _ => ∃ w', d.allocBit sp w = some (b, w')) ?_ fun b => ?_
  · rintro s ⟨rfl, rfl⟩ b s' he
    obtain ⟨r, hr, he⟩ := Option.map_eq_some_iff.mp he
    obtain ⟨rfl, rfl⟩ := Prod.mk.inj he
    exact ⟨r.2, hr⟩
  · cases b with
    | none => exact .pure fun _ _ _ => nofun
    | some n =>
      refine Triple.pre (P := fun s => True ∧ ∃ w', d.allocBit sp w = some (some n, w'))
        (.known (P := fun _ => True) fun hn => ?_) fun s h => ⟨trivial, h⟩
      refine .bind (getInode_numbered d sup n) fun r => ?_
      cases r with
      | error e => exact .bind (.step fun _ _ _ _ _ => trivial) fun _ => .pure fun _ _ _ => nofun
      | ok rip =>
        refine .bind (Q := fun _ s => (s.inode rip).iNum = n) ?_ fun now => ?_
        · rintro s h t s' he
          obtain ⟨r, -, he⟩ := Option.map_eq_some_iff.mp he
          obtain ⟨rfl, rfl⟩ := Prod.mk.inj he
          exact h rip rfl
        · refine .bind (.modify (Q := fun _ s => (s.inode rip).iNum = n) fun s h => ?_) fun _ =>
            .pure ?_
          · simpa only [Core.modify, update_self, FS.Inodes.Inode.setDisk] using h
          · rintro s h _ ⟨⟩
            rw [h]
            exact hn

/-- A number that is handed out is the number of an inode. -/
theorem ValidSuper.range_of_handedOut (hv : ValidSuper sp) (h : HandedOut sp numb) :
    1 ≤ numb ∧ numb ≤ sp.sNinodes := by
  obtain ⟨d, sup, dev, bits, uid, gid, s, s', rip, hd, hsup, h0, he, rfl⟩ := h
  obtain ⟨w', hw⟩ := allocInode_number d hsup bits uid gid s.world s rfl _ s' he rip rfl
  obtain ⟨r, c', hr, hcase⟩ := hv.inodeBit_spec h0
  rw [hd, hr] at hw
  rcases hcase with ⟨rfl, -⟩ | ⟨n, rfl, hpos, hle, -⟩
  · simp at hw
  · obtain ⟨hn, -⟩ := Prod.mk.inj (Option.some.inj hw)
    rw [← Option.some.inj hn]
    exact ⟨hpos, hle⟩

/-- A word whose bits are all set but one. -/
def allBut (i : Nat) : Word := ~~~(0 : Word) &&& ~~~((1 : Word) <<< i)

/-- A cache with a map whose bits are all set but one. -/
def lastFree (mapPtr : Nat → Link BufPtr) (n : Nat) : Cache Unit :=
  unpooled (fun bp =>
    if mapPtr (n / BLOCK_BITS) = .of bp then
      setWord (fun _ => 255) (wordOf n) (allBut (n % INT_BITS))
    else fun _ => 255) ()

theorem bitSet_lastFree {mapPtr : Nat → Link BufPtr} {bitBlocks : Nat}
    (hm : MapPtrs mapPtr bitBlocks) {m n : Nat} (hn : n < bitBlocks * BLOCK_BITS)
    (hlt : m < bitBlocks * BLOCK_BITS) :
    bitSet (lastFree mapPtr n) mapPtr m = decide (m ≠ n) := by
  have hlast (k : Nat) : k % INT_BITS < INT_BITS := Nat.mod_lt k (by decide)
  have hones (w) : wordAt (fun _ => 255) w = ~~~(0 : Word) := by
    change ((255 : UInt8).toBitVec ++ (255 : UInt8).toBitVec : BitVec (8 + 8)) = ~~~0
    decide
  have hset (i : Nat) (hi : i < INT_BITS) : (~~~(0 : Word)).getLsbD i = true :=
    FS.allOnes_getLsbD rfl ⟨i, hi⟩
  have hblk : m / BLOCK_BITS < bitBlocks := Nat.div_lt_of_lt_mul (Nat.mul_comm .. ▸ hlt)
  obtain ⟨bp, hbp⟩ := hm.buf _ hblk
  simp only [bitSet, hbp, lastFree, unpooled]
  by_cases hblock : mapPtr (n / BLOCK_BITS) = .of bp
  · rw [if_pos hblock]
    by_cases hword : wordOf m = wordOf n
    · rw [hword, FS.wordAt_setWord_self, allBut, FS.bit_drop _ (hlast n) (hlast m),
        hset _ (hlast m), Bool.true_and, ← decide_not]
      refine decide_eq_decide.mpr (not_congr ⟨fun he => ?_, fun he => he ▸ rfl⟩)
      have hsame : n / BLOCK_BITS = m / BLOCK_BITS :=
        hm.distinct _ (Nat.div_lt_of_lt_mul (Nat.mul_comm .. ▸ hn)) _ hblk (hblock.trans hbp.symm)
      rw [FS.bit_split m, FS.bit_split n, hsame, hword, he]
    · rw [FS.wordAt_setWord_of_ne _ hword, hones, hset _ (hlast m)]
      refine (decide_eq_true ?_).symm
      rintro rfl
      exact hword rfl
  · rw [if_neg hblock, hones, hset _ (hlast m)]
    refine (decide_eq_true ?_).symm
    rintro rfl
    exact hblock hbp

/-- A disk on which nothing but the bit map is used. -/
def mapDisk : Disk (Cache Unit) where
  readInode _ _ _ := none
  writeInode _ _ _ _ := none
  truncate _ _ _ := none
  freeBit _ _ _ := none
  allocBit := inodeBit
  clockTime c := some (0, c)
  scan _ _ _ _ _ _ := none
  readSuper _ _ := none
  loadBitMaps _ _ := none
  unloadBitMaps _ _ := none
  flush _ _ := none
  invalidate _ c := c
  nilMount := false
  staleErr := 0
  depth := 0

/-- A slot that nobody uses. -/
def idleInode : FS.Inodes.Inode where
  iMode := 0
  iUid := 0
  iSize := 0
  iModtime := 0
  iGid := 0
  iNlinks := 0
  iZone _ := 0
  iDev := 0
  iNum := 0
  iCount := 0
  iDirt := false
  iPipe := false
  iMount := false

theorem ValidSuper.handedOut (hv : ValidSuper sp) (hpos : 1 ≤ numb) (hle : numb ≤ sp.sNinodes) :
    HandedOut sp numb := by
  have hlt (n : Nat) (hn : n ≤ sp.sNinodes) : n < sp.sImapBlocks * BLOCK_BITS :=
    (Nat.lt_succ_of_le hn).trans_le hv.bits
  have hset (n : Nat) (hn : n ≤ sp.sNinodes) := bitSet_lastFree hv.ptrs (hlt numb hle) (hlt n hn)
  have h0 : bitSet (lastFree (imapPtr sp) numb) (imapPtr sp) 0 = true :=
    (hset 0 (Nat.zero_le _)).trans (decide_eq_true (Nat.ne_of_lt hpos))
  obtain ⟨r, c', hr, hcase⟩ := hv.inodeBit_spec h0
  obtain rfl : r = some numb := by
    rcases hcase with ⟨-, hfull⟩ | ⟨n, rfl, -, hn, hclear⟩
    · exact absurd ((hset numb hle).symm.trans (hfull numb hle)) (by simp)
    · rw [hset n hn, decide_eq_false_iff_not, not_not] at hclear
      rw [hclear]
  let s : Core (Cache Unit) := ⟨fun _ => idleInode, lastFree (imapPtr sp) numb⟩
  have hsup : (getSuper (fun _ => sp) sp.sDev).map (fun _ => sp) = some sp := by
    have hfirst : getSuper (fun _ => sp) sp.sDev = some 0 :=
      List.find?_cons_of_pos (decide_eq_true rfl)
    rw [hfirst]
    rfl
  have hfirst : FS.Inodes.superOf (fun _ => sp) sp.sDev s = some (sp, s) := by
    change ((getSuper (fun _ => sp) sp.sDev).map fun _ => sp).bind _ = _
    rw [hsup]
    rfl
  have hbit : FS.Inodes.onWorld (mapDisk.allocBit sp) s = some (some numb, ⟨s.inode, c'⟩) := by
    rw [FS.Inodes.onWorld, show mapDisk.allocBit sp s.world = _ from hr]
    rfl
  have hget : ∃ s', getInode mapDisk (fun _ => sp) NO_DEV numb ⟨s.inode, c'⟩ = some (.ok 31, s') :=
    ⟨_, rfl⟩
  obtain ⟨s', hs'⟩ := hget
  have hrun : ∃ s'', allocInode mapDisk (fun _ => sp) sp.sDev 0 0 0 s = some (.ok 31, s'') := by
    unfold allocInode
    rw [run_bind hfirst, run_bind hbit]
    dsimp only
    rw [run_bind hs']
    exact ⟨_, rfl⟩
  obtain ⟨s'', hs''⟩ := hrun
  obtain ⟨w', hw⟩ := allocInode_number mapDisk hsup 0 0 0 s.world s rfl _ s'' hs'' 31 rfl
  have hw : some _ = some _ := hr.symm.trans hw
  obtain ⟨hn, -⟩ := Prod.mk.inj (Option.some.inj hw)
  exact ⟨mapDisk, fun _ => sp, sp.sDev, 0, 0, 0, s, s'', 31, rfl, hsup, h0, hs'',
    (Option.some.inj hn).symm⟩

/-- `alloc_inode` hands out the numbers from 1 to `s_ninodes`. -/
theorem ValidSuper.handedOut_iff (hv : ValidSuper sp) :
    HandedOut sp numb ↔ 1 ≤ numb ∧ numb ≤ sp.sNinodes :=
  ⟨hv.range_of_handedOut, fun h => hv.handedOut h.1 h.2⟩

/-! ## Addresses -/

/-- Both programs look for an inode at the same place. -/
theorem ValidSuper.inodePtr_eq (hv : ValidSuper sp) (hpos : 1 ≤ numb) (hle : numb ≤ sp.sNinodes) :
    inodePtr (onDisk sp) numb = rwInodePtr sp numb := by
  have hbits := hv.bits
  have himap := hv.imapBlocks
  have hzmap := hv.zmapBlocks
  dsimp only [BLOCK_BITS, I_MAP_SLOTS, ZMAP_SLOTS] at *
  have hoff : uint (numb + 2 ^ 32 - 1) = numb - 1 := by
    unfold uint
    omega
  have hnum : unshort ((numb : Int) - 1) = numb - 1 := by
    unfold unshort
    omega
  have hblock : uint (firstinode (onDisk sp) + (numb - 1) / IPB) = unshort
      ((numb - 1) / INODES_PER_BLOCK + sp.sImapBlocks + sp.sZmapBlocks + 2 : Nat) := by
    unfold uint firstinode onDisk unshort
    dsimp only [IPB, INODES_PER_BLOCK]
    omega
  unfold inodePtr rwInodePtr
  simp only [hoff, hnum, hblock]

/-- `geti` finds the number from the pointer that `iget` returns. -/
theorem geti_igetPtr {sb : Superblock} {inum : Nat} {ip : Place} (himap : sb.sImapBlock < 65536)
    (hzmap : sb.sZmapBlock < 65536) (hninodes : sb.sNinodes < 65536)
    (h : igetPtr sb inum = some ip) : geti sb ip = some inum := by
  obtain ⟨n, hn, rfl⟩ := Option.map_eq_some_iff.mp h
  unfold iget at hn
  split at hn
  · obtain rfl := Option.some.inj hn
    rename_i hrange
    have hoff : uint (inum + 2 ^ 32 - 1) = inum - 1 := by
      unfold uint
      omega
    have hblock : uint (firstinode sb + (inum - 1) / IPB) = firstinode sb + (inum - 1) / IPB := by
      unfold uint firstinode
      dsimp only [IPB]
      omega
    have hfind : (List.range (sb.sNinodes / IPB + 1)).find?
        (fun i => (inodePtr sb inum).block = i + firstinode sb) = some ((inum - 1) / IPB) := by
      simp only [inodePtr, hoff, hblock, List.find?_range_eq_some, decide_eq_true_iff,
        List.mem_range, Bool.not_eq_true', decide_eq_false_iff_not]
      exact ⟨Nat.add_comm _ _, by dsimp only [IPB]; omega, fun j hj => by omega⟩
    have hnum : (inum - 1) % IPB + (inum - 1) / IPB * IPB + 1 = inum := by
      dsimp only [IPB]
      omega
    rw [geti, hfind]
    simp only [Option.map_some, inodePtr, hoff, hnum]
  · cases hn

/-- What the two programs should have in common: a number is accepted by `iget` when it can be
handed out, and it stands for the same place. -/
def SameInode (sp : Super) (inum : Nat) : Prop :=
  (igetPtr (onDisk sp) inum ≠ none ↔ HandedOut sp inum) ∧
    (HandedOut sp inum → igetPtr (onDisk sp) inum = some (rwInodePtr sp inum))

theorem ValidSuper.sameInode_iff (hv : ValidSuper sp) (inum : Nat) :
    SameInode sp inum ↔ inum ≠ sp.sNinodes := by
  have hget : igetPtr (onDisk sp) inum ≠ none ↔ 0 < inum ∧ inum < sp.sNinodes := by
    unfold igetPtr iget
    rw [ne_eq, Option.map_eq_none_iff]
    split
    · exact iff_of_true (Option.some_ne_none _) ‹_›
    · exact iff_of_false (fun h => h rfl) ‹_›
  unfold SameInode
  rw [hget, hv.handedOut_iff]
  constructor
  · rintro ⟨hiff, -⟩ rfl
    exact absurd (hiff.mpr ⟨hv.inodes, le_rfl⟩).2 (lt_irrefl _)
  · refine fun hne => ⟨by omega, fun hrange => ?_⟩
    have haccept : iget (onDisk sp) inum = some inum :=
      if_pos ⟨hrange.1, lt_of_le_of_ne hrange.2 hne⟩
    rw [igetPtr, haccept, Option.map_some, hv.inodePtr_eq hrange.1 hrange.2]

/-! ## Allocation -/

variable {img : Img}

/-- `ialloc` returns an inode that can be used: one that was free, and that `iget` accepts. -/
def Allocated (img : Img) (mode : Nat) : Prop :=
  ∃ ip img', ialloc mode img = .ok (ip, img') ∧ iget img.sb ip = some ip ∧ img.imap ip = false

/-- An inode is free. -/
def AnyFree (img : Img) : Prop := ∃ b, 1 ≤ b ∧ b ≤ img.sb.sNinodes ∧ img.imap b = false

/-- What `ialloc` should do. -/
def Allocates (img : Img) (mode : Nat) : Prop :=
  (Allocated img mode ↔ AnyFree img) ∧ ialloc mode img ≠ .error .abort

/-- The image with a new inode. -/
def allocated (img : Img) (mode b : Nat) : Img :=
  { img with imap := update img.imap b true, inode := update img.inode b ⟨mode, 0, 0, fun _ => 0⟩ }

/-- `ialloc` takes the first number whose bit is clear, which may be one that `iget` refuses. -/
theorem ialloc_eq (img : Img) (mode : Nat) :
    ialloc mode img = match firstFree img.imap img.sb.sNinodes with
      | none => .error .fatal
      | some b => if 0 < b ∧ b < img.sb.sNinodes then .ok (b, allocated img mode b)
        else .error .abort := by
  unfold ialloc
  change (match firstFree img.imap img.sb.sNinodes with
    | none => throwThe Stop .fatal
    | some b => do
      modifyThe Img fun img => { img with imap := update img.imap b true }
      match iget img.sb b with
      | none => throwThe Stop .abort
      | some ip => do
        modifyInode ip fun _ => ⟨mode, 0, 0, fun _ => 0⟩
        return ip : Tool Nat) img = _
  cases firstFree img.imap img.sb.sNinodes with
  | none => rfl
  | some b =>
    dsimp only
    by_cases hb : 0 < b ∧ b < img.sb.sNinodes
    · rw [show iget img.sb b = some b from if_pos hb, if_pos hb]
      rfl
    · rw [show iget img.sb b = none from if_neg hb, if_neg hb]
      rfl

/-- `ialloc` goes wrong exactly when the last inode is the only one that is free. -/
theorem allocates_iff (hreserved : img.imap 0 = true) (mode : Nat) :
    Allocates img mode ↔ (img.imap img.sb.sNinodes = true ∨
      ∃ b, 1 ≤ b ∧ b < img.sb.sNinodes ∧ img.imap b = false) := by
  unfold Allocates Allocated
  rw [ialloc_eq]
  cases hfind : firstFree img.imap img.sb.sNinodes with
  | none =>
    have hfull (b : Nat) (hb : b ≤ img.sb.sNinodes) : img.imap b = true := by
      have := List.find?_range_eq_none.mp hfind b (Nat.lt_succ_of_le hb)
      simpa using this
    refine iff_of_true ⟨iff_of_false ?_ ?_, nofun⟩ (Or.inl (hfull _ le_rfl))
    · rintro ⟨ip, img', he, -⟩
      cases he
    · rintro ⟨b, -, hb, hfree⟩
      rw [hfull b hb] at hfree
      cases hfree
  | some b =>
    obtain ⟨hfree, hle, hbefore⟩ := List.find?_range_eq_some.mp hfind
    rw [Bool.not_eq_true'] at hfree
    have hle := Nat.le_of_lt_succ (List.mem_range.mp hle)
    have hpos : 0 < b := Nat.pos_of_ne_zero fun h => by
      rw [h, hreserved] at hfree
      cases hfree
    have hany : AnyFree img := ⟨b, hpos, hle, hfree⟩
    dsimp only
    split
    · rename_i hb
      refine iff_of_true ⟨iff_of_true ⟨b, _, rfl, if_pos hb, hfree⟩ hany, nofun⟩ (Or.inr ?_)
      exact ⟨b, hpos, hb.2, hfree⟩
    · rename_i hb
      obtain rfl : b = img.sb.sNinodes := by omega
      refine iff_of_false (fun h => h.2 rfl) ?_
      rintro (h | ⟨b, -, hlt, h⟩)
      · rw [hfree] at h
        cases h
      · have := hbefore b hlt
        simp [h] at this

/-- The tool and the file system agree on all the inodes but the last, and the tool finds a free
inode unless that is the last. -/
theorem inode_numbers_iff (hv : ValidSuper sp) :
    (∀ inum, (HandedOut sp inum ↔ 1 ≤ inum ∧ inum ≤ sp.sNinodes) ∧
      (SameInode sp inum ↔ inum ≠ sp.sNinodes)) ∧
    ∀ img mode, img.sb = onDisk sp → img.imap 0 = true →
      (Allocates img mode ↔ (img.imap sp.sNinodes = true ∨
        ∃ b, 1 ≤ b ∧ b < sp.sNinodes ∧ img.imap b = false)) := by
  refine ⟨fun inum => ⟨hv.handedOut_iff, hv.sameInode_iff inum⟩, fun img mode hsb hreserved => ?_⟩
  have hninodes : img.sb.sNinodes = sp.sNinodes := congrArg Superblock.sNinodes hsb
  have h := allocates_iff hreserved mode
  rwa [hninodes] at h

/-- A super block of a device with 32 inodes. -/
def exampleSuper : Super where
  sNinodes := 32
  sNzones := 20
  sImapBlocks := 1
  sZmapBlocks := 1
  sFirstdatazone := 5
  sLogZoneSize := 0
  sMaxSize := 268966912
  sMagic := 0x137F
  sImap _ := .of 0
  sZmap _ := .of 1
  sDev := 0
  sIsup := .nil
  sImount := .nil
  sRdOnly := false

theorem exampleSuper_valid : ValidSuper exampleSuper where
  inodes := by decide
  imapBlocks := by decide
  zmapBlocks := by decide
  bits := by decide
  ptrs := ⟨by decide, fun b hb => ⟨0, dif_pos (hb.trans (by decide))⟩, fun b hb b' hb' _ => by
    have hone : exampleSuper.sImapBlocks = 1 := rfl
    omega⟩

theorem inode_numbers_example : SameInode exampleSuper 31 ↔ 31 ≠ exampleSuper.sNinodes :=
  ((inode_numbers_iff exampleSuper_valid).1 31).2

/-- All the inodes but the last one are in use. -/
def exampleFull : Img where
  sb := onDisk exampleSuper
  imap b := b < 32
  zmap b := b ≤ 1
  inode _ := ⟨0, 0, 0, fun _ => 0⟩
  block _ _ := 0

theorem inode_numbers_last : ¬∀ sp, ValidSuper sp → (∀ inum, SameInode sp inum) ∧
    ∀ img mode, img.sb = onDisk sp → img.imap 0 = true → Allocates img mode := by
  intro hall
  have habort : ialloc 0o100644 exampleFull = .error .abort := by
    rw [ialloc_eq]
    rfl
  exact ((hall exampleSuper exampleSuper_valid).2 exampleFull 0o100644 rfl rfl).2 habort

end Minix.Tools
