import Minix.FS.Volumes
import Minix.Lib.IndexTree

/-!
# The zones of a file are a tree of index blocks

In the store of a mounted device the zone numbers of an inode and the contents of indirect blocks
make up a tree of index blocks. `read_map` looks a slot of that tree up, and `write_map` links the
blocks that are missing and then stores into the slot.
-/

namespace Minix.FS.ZoneMaps

open Function Inodes Transition IndexTree

variable {σ : Type}

/-- The entries of a data zone, when it is taken as an indirect block. -/
def indOf (sp : Super) (m : Flat) (z : Nat) (j : Fin NR_INDIRECTS) : Nat :=
  if DataZone sp z then (wordAt (m sp.sDev (zoneBlock z (scaleOf sp))) j).toNat else NO_ZONE

/-- The zone numbers that are in the inode. -/
def rootOf (ip : Inode) : Root Nat NR_DZONE_NUM where
  direct i := ip.iZone (i.castLE (by decide))
  single := ip.iZone 7
  double := ip.iZone 8

/-- The zone of a slot. -/
abbrev zoneOf (sp : Super) (m : Flat) (ip : Inode) : Slot NR_DZONE_NUM NR_INDIRECTS → Nat :=
  lookup (indOf sp m) (rootOf ip)

/-- The indirect blocks of an inode are in busy zones of their own. -/
structure Tree (sp : Super) (m : Flat) (ip : Inode) : Prop where
  separate : Separate (indOf sp m) (rootOf ip)
  zone : ∀ z, IsIndex (indOf sp m) (rootOf ip) z → DataZone sp z
  busy : ∀ z, IsIndex (indOf sp m) (rootOf ip) z → Busy m sp z

/-- What serves a mounted device. -/
structure Serving (io : DevIo σ) (disk : σ → Flat) (sup : SuperPtr → Super) (sp : Super) :
    Prop where
  works : Works io disk
  answers : Answers io
  layout : Layout sp
  superBlock : (getSuper sup sp.sDev).map sup = some sp

/-- Work goes on for an inode of a mounted device. -/
structure On (disk : σ → Flat) (usable : BufPtr → Prop) (sp : Super) (U : Cache σ → Prop)
    (K : Int → Prop) (m : Flat) (ip : Inode) (s : Work σ) : Prop where
  mounted : Mounted disk usable sp m s.cache
  use : U s.cache
  err : K s.errCode
  rip : s.rip = ip
  dev : ip.iDev = sp.sDev

/-- A buffer has been fetched for a block, and still has other contents. -/
structure New (disk : σ → Flat) (usable : BufPtr → Prop) (sp : Super) (c₀ : Cache σ) (bp : BufPtr)
    (block : Nat) (K : Int → Prop) (m : Flat) (ip : Inode) (s : Work σ) : Prop where
  mounted : ∀ data,
    Mounted disk usable sp (m.set sp.sDev block data) (FS.storeBuf s.cache bp data)
  use : Holding usable sp c₀ bp block s.cache
  err : K s.errCode
  rip : s.rip = ip
  dev : ip.iDev = sp.sDev

variable {io : DevIo σ} {disk : σ → Flat} {usable : BufPtr → Prop} {sup : SuperPtr → Super}
  {sp : Super} {c₀ : Cache σ} {U : Cache σ → Prop} {K : Int → Prop} {m m' : Flat}
  {ip ip' : Inode} {bp : BufPtr} {block : Nat}

/-! ## The store as index blocks -/

/-- A store into the first block of a data zone. -/
theorem indOf_set (hlay : Layout sp) {z : Nat} (hz : DataZone sp z) (data : Block) :
    indOf sp (m.set sp.sDev (zoneBlock z (scaleOf sp)) data) =
      update (indOf sp m) z fun j => (wordAt data j).toNat := by
  funext z' j
  unfold indOf
  by_cases hzz : z' = z
  · rw [hzz, update_self, if_pos hz, Flat.set_self]
  · rw [update_of_ne hzz]
    split
    · rename_i hz'
      rw [Flat.set_of_ne fun h => hzz (hlay.zoneBlock_inj hz'.2 hz.2 h.2)]
    · rfl

/-- A store of one entry. -/
theorem indOf_setWord (hlay : Layout sp) {z : Nat} (hz : DataZone sp z) (j : Fin NR_INDIRECTS)
    {v : Nat} (hv : v < 65536) :
    indOf sp (m.set sp.sDev (zoneBlock z (scaleOf sp))
        (setWord (m sp.sDev (zoneBlock z (scaleOf sp))) j (.ofNat 16 v))) =
      update (indOf sp m) z (update (indOf sp m z) j v) := by
  rw [indOf_set hlay hz]
  congr 1
  funext j'
  by_cases hj : j' = j
  · rw [hj, wordAt_setWord_self, update_self, BitVec.toNat_ofNat, Nat.mod_eq_of_lt hv]
  · rw [wordAt_setWord_of_ne _ hj, update_of_ne hj, indOf, if_pos hz]

/-- An empty block. -/
theorem indOf_zero (hlay : Layout sp) {z : Nat} (hz : DataZone sp z) :
    indOf sp (m.set sp.sDev (zoneBlock z (scaleOf sp)) fun _ => 0) =
      update (indOf sp m) z fun _ => 0 := by
  rw [indOf_set hlay hz]
  congr 1
  funext j
  have hword : (0 : UInt8).toBitVec ++ (0 : UInt8).toBitVec = (0 : Word) := by decide
  exact congrArg BitVec.toNat hword

/-- The zone map is in no data zone. -/
theorem indOf_frame (hlay : Layout sp)
    (h : ∀ dev block, (dev = sp.sDev → OffMap sp block) → m' dev block = m dev block) :
    indOf sp m' = indOf sp m := by
  funext z' j
  unfold indOf
  split
  · rename_i hz'
    rw [h _ _ fun _ => hlay.offMap hz']
  · rfl

/-- A zone claimed for the file is on no block of its tree, so the indirect blocks read the same. -/
theorem claims_indOf (hlay : Layout sp) {z : Nat} (h : Claims sp m m' z) :
    indOf sp m' = indOf sp m := indOf_frame hlay h.frame

/-- A store into a data zone leaves the zone map alone. -/
theorem busy_set (hlay : Layout sp) {z z' : Nat} (hz : DataZone sp z) (hz' : DataZone sp z')
    (data : Block) :
    Busy (m.set sp.sDev (zoneBlock z (scaleOf sp)) data) sp z' ↔ Busy m sp z' := by
  unfold Busy
  rw [mapBit_set (hlay.bit_lt hz').1 (hlay.offMap hz)]

/-! ## Zones that are no indirect blocks -/

/-- A block of a zone. -/
def InZone (sp : Super) (z block : Nat) : Prop :=
  z * 2 ^ scaleOf sp ≤ block ∧ block < (z + 1) * 2 ^ scaleOf sp

/-- A busy data zone that is no indirect block of the inode. -/
structure Spare (sp : Super) (m : Flat) (ip : Inode) (z : Nat) : Prop where
  zone : DataZone sp z
  busy : Busy m sp z
  other : ¬IsIndex (indOf sp m) (rootOf ip) z

/-- Such zones stay that, with their contents. -/
def Leaves (sp : Super) (m : Flat) (ip : Inode) (m' : Flat) (ip' : Inode) : Prop :=
  ∀ z, Spare sp m ip z → Spare sp m' ip' z ∧
    ∀ block, InZone sp z block → m' sp.sDev block = m sp.sDev block

/-- Nothing has been done yet, and nothing is disturbed. -/
theorem Leaves.refl : Leaves sp m ip m ip := fun _ hz => ⟨hz, fun _ _ => rfl⟩

/-- Two steps that disturb no zone of the file. -/
theorem Leaves.trans {m'' : Flat} {ip'' : Inode} (h : Leaves sp m ip m' ip')
    (h' : Leaves sp m' ip' m'' ip'') : Leaves sp m ip m'' ip'' := fun z hz => by
  obtain ⟨hz', hsame⟩ := h z hz
  obtain ⟨hz'', hsame'⟩ := h' z hz'
  exact ⟨hz'', fun block hb => (hsame' block hb).trans (hsame block hb)⟩

/-- A block is in one zone. -/
theorem InZone.unique {z z' : Nat} (h : InZone sp z block) (h' : InZone sp z' block) : z = z' := by
  have hlt := Nat.lt_of_mul_lt_mul_right (h.1.trans_lt h'.2)
  have hlt' := Nat.lt_of_mul_lt_mul_right (h'.1.trans_lt h.2)
  omega

/-- The first block of a zone is in it. -/
theorem zoneBlock_inZone (hlay : Layout sp) {z : Nat} (hz : DataZone sp z) :
    InZone sp z (zoneBlock z (scaleOf sp)) := by
  rw [hlay.zoneBlock_eq hz.2, Nat.shiftLeft_eq]
  exact ⟨le_rfl, Nat.mul_lt_mul_of_pos_right (Nat.lt_succ_self z) (Nat.two_pow_pos _)⟩

/-- A block of a data zone is no block of the map. -/
theorem InZone.offMap {z : Nat} (h : InZone sp z block) (hlay : Layout sp) (hz : DataZone sp z) :
    OffMap sp block := fun b hb => by
  have hlt := hlay.zmapBlock_lt hz hb
  rw [hlay.zoneBlock_eq hz.2, Nat.shiftLeft_eq] at hlt
  exact (hlt.trans_le h.1).ne

/-- A store into the first block of another zone. -/
theorem InZone.set_first {z z' : Nat} (h : InZone sp z block) (hlay : Layout sp)
    (hz' : DataZone sp z') (hne : z ≠ z') (data : Block) :
    m.set sp.sDev (zoneBlock z' (scaleOf sp)) data sp.sDev block = m sp.sDev block :=
  Flat.set_of_ne fun he => hne (h.unique (he.2 ▸ zoneBlock_inZone hlay hz'))

/-- A zone that is claimed was not busy. -/
theorem Spare.ne_claimed {z z' : Nat} (h : Spare sp m ip z) (hc : Claims sp m m' z') : z ≠ z' :=
  fun he => hc.free (he ▸ h.busy)

/-- A spare zone is still spare after another has been claimed. -/
theorem Spare.claims {z z' : Nat} (h : Spare sp m ip z) (hlay : Layout sp)
    (hc : Claims sp m m' z') : Spare sp m' ip z :=
  ⟨h.zone, (hc.busy z h.zone).mpr (Or.inl h.busy), by
    rw [claims_indOf hlay hc]
    exact h.other⟩

/-- Claiming a zone disturbs no other. -/
theorem leaves_claims (hlay : Layout sp) {z : Nat} (hc : Claims sp m m' z) :
    Leaves sp m ip m' ip := fun _ hz =>
  ⟨hz.claims hlay hc, fun _ hb => hc.frame _ _ fun _ => hb.offMap hlay hz.zone⟩

/-- What is stored into a zone that was claimed for it is in no spare one. -/
theorem Spare.set_claimed {z z' : Nat} (h : Spare sp m ip z) (hlay : Layout sp)
    (hc : Claims sp m m' z') (hb : InZone sp z block) (data : Block) :
    m'.set sp.sDev (zoneBlock z' (scaleOf sp)) data sp.sDev block = m sp.sDev block :=
  (hb.set_first hlay hc.zone (h.ne_claimed hc) data).trans
    ((leaves_claims hlay hc z h).2 block hb)

/-! ## What each operation does -/

/-- A lifted operation that always returns does so here as well. -/
theorem orStuck_returns {α : Type} {P : Work σ → Prop} {f : Work σ → Option (α × Work σ)}
    {Q : α → Work σ → Prop} (h : ∀ s, P s → ∃ r s', f s = some (r, s') ∧ Q r s') :
    Returns P (orStuck f) Q := by
  intro s hs
  obtain ⟨r, s', he, hq⟩ := h s hs
  unfold orStuck
  rw [he]
  exact hq

/-- `get_super` finds the super block of the device. -/
theorem superOf_serving (hsv : Serving io disk sup sp) (s : Work σ) :
    superOf sup sp.sDev s = .ok (sp, s) := by
  unfold superOf orStuck
  rw [hsv.superBlock]
  rfl

/-- The index of an array is in its bounds. -/
theorem index_in {n : Nat} (i : Fin n) : 0 ≤ (i.val : Int) ∧ (i.val : Int).toNat < n :=
  ⟨Int.natCast_nonneg _, i.isLt⟩

section Reads

variable {α : Type} {E : Halt → Prop} {Q : α → Work σ → Prop}

/-- Reading `i_dev` and going on. -/
theorem devOf_bind {f : Nat → B σ α} (h : Outcome (On disk usable sp U K m ip) (f sp.sDev) Q E) :
    Outcome (On disk usable sp U K m ip) (devOf >>= f) Q E :=
  .read (fun s hs => by rw [← hs.dev, ← hs.rip]; rfl) h

/-- The inode is read. -/
theorem rip_bind {f : Work σ → B σ α}
    (h : ∀ s, s.rip = ip → Outcome (On disk usable sp U K m ip) (f s) Q E) :
    Outcome (On disk usable sp U K m ip) (MonadState.get >>= f) Q E :=
  Outcome.bind (Outcome.get fun _ hs => ⟨hs.rip, hs⟩) fun s => .fact (h s)

/-- Finding the super block and going on. -/
theorem superOf_bind (hsv : Serving io disk sup sp) {f : Super → B σ α}
    (h : Outcome (On disk usable sp U K m ip) (f sp) Q E) :
    Outcome (On disk usable sp U K m ip) (superOf sup sp.sDev >>= f) Q E :=
  .read (fun s _ => superOf_serving hsv s) h

/-- Reading the zone size and going on. -/
theorem scaleFactor_bind (hsv : Serving io disk sup sp) {f : Nat → B σ α}
    (h : Outcome (On disk usable sp U K m ip) (f (scaleOf sp)) Q E) :
    Outcome (On disk usable sp U K m ip) (scaleFactor sup >>= f) Q E := by
  refine .read (fun s hs => ?_) h
  have hdev : s.rip.iDev = sp.sDev := by rw [hs.rip, hs.dev]
  have hsuper := superOf_serving hsv s
  change (superOf sup s.rip.iDev s >>= fun r => (pure r.1.sLogZoneSize.toNat : B σ Nat) r.2) = _
  rw [hdev, hsuper]
  rfl

/-- Reading a zone number of the inode and going on. -/
theorem zoneAt_bind {f : Nat → B σ α} (i : Fin NR_ZONE_NUMS)
    (h : Outcome (On disk usable sp U K m ip) (f (ip.iZone i)) Q E) :
    Outcome (On disk usable sp U K m ip) (zoneAt (i.val : Int) >>= f) Q E := by
  refine .read (fun s hs => ?_) h
  unfold zoneAt
  rw [dif_pos (index_in i), ← hs.rip]
  rfl

/-- Reading an entry of the indirect block that is held, and going on. -/
theorem indAt_bind (hlay : Layout sp) {f : Nat → B σ α} (j : Fin NR_INDIRECTS)
    (h : Outcome (On disk usable sp (Holding usable sp c₀ bp block) K m ip)
      (f (wordAt (m sp.sDev block) j).toNat) Q E) :
    Outcome (On disk usable sp (Holding usable sp c₀ bp block) K m ip)
      (indAt bp (j.val : Int) >>= f) Q E := by
  refine .read (fun s hs => ?_) h
  unfold indAt
  rw [dif_pos (index_in j), ← hs.mounted.holds hlay hs.use]
  rfl

end Reads

section Calls

variable (hsv : Serving io disk sup sp) (hroom : Room usable c₀)

include hsv hroom

/-- A block is fetched. -/
theorem getBlock_on (block : Nat) :
    Returns (On disk usable sp (SameUse c₀) K m ip) (getBlock io sp.sDev block .NORMAL)
      fun bp => On disk usable sp (Holding usable sp c₀ bp block) K m ip := by
  refine orStuck_returns fun s hs => ?_
  obtain ⟨bp, c, he, hm, hh⟩ := hs.mounted.getBlock hsv.works hsv.answers (hroom.same hs.use) block
  rw [he]
  exact ⟨_, _, rfl, hm, hh.of_same hs.use, hs.err, hs.rip, hs.dev⟩

/-- A block is fetched to be filled. -/
theorem getNew_on (hoff : OffMap sp block) :
    Returns (On disk usable sp (SameUse c₀) K m ip) (getBlock io sp.sDev block .NO_READ)
      fun bp => New disk usable sp c₀ bp block K m ip := by
  refine orStuck_returns fun s hs => ?_
  obtain ⟨bp, c, he, hh, hm⟩ := hs.mounted.getNew hsv.layout hsv.works hsv.answers
    (hroom.same hs.use) hoff
  rw [he]
  exact ⟨_, _, rfl, hm, hh.of_same hs.use, hs.err, hs.rip, hs.dev⟩

/-- A block is released. -/
theorem putBlock_on (hoff : OffMap sp block) (blockType : Nat) :
    Returns (On disk usable sp (Holding usable sp c₀ bp block) K m ip) (putBlock io bp blockType)
      fun _ => On disk usable sp (SameUse c₀) K m ip := by
  refine orStuck_returns fun s hs => ?_
  obtain ⟨c, he, hm, hsame⟩ := hs.mounted.putBlock hsv.works hsv.answers hroom.users hs.use hoff
    blockType
  rw [he]
  exact ⟨_, _, rfl, hm, hsame, hs.err, hs.rip, hs.dev⟩

end Calls

/-- The new block is zeroed. -/
theorem zeroBlock_on : Returns (New disk usable sp c₀ bp block K m ip) (zeroBlock bp)
    fun _ => On disk usable sp (Holding usable sp c₀ bp block) K
      (m.set sp.sDev block fun _ => 0) ip :=
  Outcome.modify fun _ hs => ⟨hs.mounted _, hs.use.storeBuf bp _, hs.err, hs.rip, hs.dev⟩

/-- Something is stored into the block at hand. -/
theorem storeBuf_on (hlay : Layout sp) (hoff : OffMap sp block) (f : Block → Block) :
    Returns (On disk usable sp (Holding usable sp c₀ bp block) K m ip) (storeBuf bp f)
      fun _ => On disk usable sp (Holding usable sp c₀ bp block) K
        (m.set sp.sDev block (f (m sp.sDev block))) ip := by
  refine Outcome.modify fun s hs => ⟨?_, ?_, hs.err, hs.rip, hs.dev⟩
  · rw [hs.mounted.holds hlay hs.use]
    exact hs.mounted.storeBuf hlay hs.use.dev hs.use.block hoff _
  · exact hs.use.storeBuf bp _

/-- An entry of the block at hand is stored. -/
theorem setInd_on (hlay : Layout sp) (hoff : OffMap sp block) (j : Fin NR_INDIRECTS) (v : Nat) :
    Returns (On disk usable sp (Holding usable sp c₀ bp block) K m ip) (setInd bp (j.val : Int) v)
      fun _ => On disk usable sp (Holding usable sp c₀ bp block) K
        (m.set sp.sDev block (setWord (m sp.sDev block) j (.ofNat 16 v))) ip := by
  unfold setInd
  rw [dif_pos (index_in j)]
  exact storeBuf_on hlay hoff _

/-- A zone number of the inode is stored. -/
theorem setZone_on (i : Fin NR_ZONE_NUMS) (v : Nat) :
    Returns (On disk usable sp U K m ip) (setZone (i.val : Int) v)
      fun _ => On disk usable sp U K m { ip with iZone := update ip.iZone i v } := by
  unfold setZone
  rw [dif_pos (index_in i)]
  exact Outcome.modify fun s hs => ⟨hs.mounted, hs.use, hs.err, by rw [← hs.rip]; rfl, hs.dev⟩

/-- A zone is allocated, or there is none. -/
theorem allocZone_on (hsv : Serving io disk sup sp)
    (hU : ∀ c bp data, U c → U (FS.storeBuf c bp data)) (near : Nat) :
    Returns (On disk usable sp U K m ip) (allocZone sup sp.sDev near) fun z s =>
      (z = NO_ZONE ∧ On disk usable sp U (· = ENOSPC) m ip s) ∨
      (z ≠ NO_ZONE ∧ ∃ m', Claims sp m m' z ∧ On disk usable sp U K m' ip s) := by
  refine orStuck_returns fun s hs => ?_
  obtain ⟨z, s', he, hrip, hcase⟩ := hs.mounted.allocZone hsv.layout hsv.superBlock near
  refine ⟨z, s', he, ?_⟩
  rcases hcase with ⟨hz, hcache, herr, -⟩ | ⟨hz, herr, m', bp, data, hclaims, hcache, hm⟩
  · exact Or.inl ⟨hz, hcache ▸ hs.mounted, hcache ▸ hs.use, herr, hrip.trans hs.rip, hs.dev⟩
  · exact Or.inr ⟨hz, m', hclaims, hm, hcache ▸ hU _ bp data hs.use, herr ▸ hs.err,
      hrip.trans hs.rip, hs.dev⟩

/-- A zone is allocated for an indirect block, or there is none. -/
theorem allocInd_on (hsv : Serving io disk sup sp)
    (hU : ∀ c bp data, U c → U (FS.storeBuf c bp data)) :
    Returns (On disk usable sp U K m ip) (allocInd sup) fun z s =>
      (z = NO_ZONE ∧ On disk usable sp U (· = ENOSPC) m ip s) ∨
      (z ≠ NO_ZONE ∧ ∃ m', Claims sp m m' z ∧ On disk usable sp U K m' ip s) :=
  devOf_bind (zoneAt_bind 0 (allocZone_on hsv hU _))

/-! ## Lookup -/

/-- The zone of the file that a position is in. -/
def fileZone (sp : Super) (position : Int) : Int := position.tdiv BLOCK_SIZE >>> scaleOf sp

/-- The block of that zone. -/
def fileOff (sp : Super) (position : Int) : Int :=
  position.tdiv BLOCK_SIZE - fileZone sp position * 2 ^ scaleOf sp

section Lookup

variable (hsv : Serving io disk sup sp) (hroom : Room usable c₀) (htree : Tree sp m ip)

include hsv hroom htree

/-- The single indirect block of a slot is found, or there is none. -/
theorem singleInd_on {n : Nat} {s : Slot NR_DZONE_NUM NR_INDIRECTS}
    (hs : slotOf NR_DZONE_NUM NR_INDIRECTS n = some s) (hn : NR_DZONE_NUM ≤ n) :
    Returns (On disk usable sp (SameUse c₀) K m ip)
      (singleInd io (scaleOf sp) ((n : Int) - NR_DZONE_NUM)) fun r t =>
        (r.1 = NO_ZONE ∧ zoneOf sp m ip s = NO_ZONE ∨
          ∃ j : Fin NR_INDIRECTS, r.2 = (j.val : Int) ∧ Leaf (indOf sp m) (rootOf ip) s r.1 j) ∧
        On disk usable sp (SameUse c₀) K m ip t := by
  unfold singleInd
  rcases slotOf_cases hs with ⟨i, rfl, rfl⟩ | ⟨j, rfl, rfl⟩ | ⟨i, j, rfl, rfl⟩
  · exact absurd i.isLt (Nat.not_lt.mpr hn)
  · have hj := j.isLt
    rw [if_pos (by simp only [NR_DZONE_NUM, NR_ZONE_NUMS, NR_INDIRECTS] at *; omega)]
    refine zoneAt_bind 7 (Outcome.pure fun t ht => ⟨Or.inr ⟨j, ?_, .single j⟩, ht⟩)
    dsimp only
    omega
  · have hi := i.isLt
    have hj := j.isLt
    rw [if_neg (by simp only [NR_DZONE_NUM, NR_ZONE_NUMS, NR_INDIRECTS] at *; omega)]
    refine zoneAt_bind 8 (Outcome.ite (fun h0 => Outcome.pure fun t ht => ⟨Or.inl ⟨rfl, ?_⟩, ht⟩)
      fun h0 => devOf_bind (Outcome.bind (getBlock_on hsv hroom _) fun bp => ?_))
    · have hd : (rootOf ip).double = 0 := h0
      simp only [lookup, hd, entry_zero]
    · have hz : DataZone sp (ip.iZone 8) := htree.zone _ (.double h0)
      have hdiv : ((NR_DZONE_NUM + NR_INDIRECTS + NR_INDIRECTS * i.val + j.val : Nat) : Int) -
          NR_DZONE_NUM - NR_INDIRECTS = NR_INDIRECTS * (i.val : Int) + j.val := by
        push_cast
        omega
      have hdiv' : (NR_INDIRECTS * (i.val : Int) + j.val) / NR_INDIRECTS = i.val := by
        simp only [NR_INDIRECTS] at *
        omega
      have hmod : (NR_INDIRECTS * (i.val : Int) + j.val) % NR_INDIRECTS = j.val := by
        simp only [NR_INDIRECTS] at *
        omega
      rw [hdiv, hdiv', hmod]
      refine indAt_bind hsv.layout i (Outcome.bind (putBlock_on hsv hroom (hsv.layout.offMap hz) _)
        fun _ => Outcome.pure fun t ht => ⟨Or.inr ⟨j, rfl, ?_⟩, ht⟩)
      have he : entry (indOf sp m) (rootOf ip).double i =
          (wordAt (m sp.sDev (zoneBlock (ip.iZone 8) (scaleOf sp))) i).toNat := by
        exact (entry_of_ne (b := ip.iZone 8) h0).trans (if_pos hz)
      dsimp only
      rw [← he]
      exact .double i j

/-- `read_map` looks the slot of a position up. -/
theorem readMap_on {position : Int} {n : Nat} (hn : fileZone sp position = n)
    {s : Slot NR_DZONE_NUM NR_INDIRECTS} (hs : slotOf NR_DZONE_NUM NR_INDIRECTS n = some s) :
    Returns (On disk usable sp (SameUse c₀) K m ip) (readMap io sup position) fun b t =>
      b = blockIn (zoneOf sp m ip s) (scaleOf sp) (fileOff sp position) ∧
        On disk usable sp (SameUse c₀) K m ip t := by
  unfold readMap
  refine scaleFactor_bind hsv ?_
  have hoff : position.tdiv BLOCK_SIZE - n * 2 ^ scaleOf sp = fileOff sp position := by
    rw [fileOff, hn]
  have hzone : position.tdiv BLOCK_SIZE >>> scaleOf sp = (n : Int) := hn
  dsimp only
  rw [hzone, hoff]
  refine Outcome.ite (fun hlt => ?_) fun hge => Outcome.bind (singleInd_on hsv hroom htree hs ?_)
    fun r => ?_
  · rcases slotOf_cases hs with ⟨i, rfl, rfl⟩ | ⟨j, rfl, rfl⟩ | ⟨i, j, rfl, rfl⟩
    · exact zoneAt_bind (i.castLE (by decide)) (Outcome.pure fun t ht => ⟨rfl, ht⟩)
    · omega
    · omega
  · omega
  · obtain ⟨z, excess⟩ := r
    refine Outcome.ite (fun h0 => Outcome.pure fun t ht => ⟨?_, ht.2⟩) fun h0 => ?_
    · have hnone : zoneOf sp m ip s = NO_ZONE := by
        rcases ht.1 with ⟨-, hnone⟩ | ⟨j, -, hl⟩
        · exact hnone
        · refine hl.lookup.trans ?_
          rw [show z = 0 from h0, entry_zero]
      rw [blockIn, if_pos hnone]
    · refine Outcome.known (p := ∃ j : Fin NR_INDIRECTS, excess = (j.val : Int) ∧
          Leaf (indOf sp m) (rootOf ip) s z j) (fun t ht => ?_) fun ⟨j, hj, hl⟩ => ?_
      · exact ht.1.resolve_left fun h => h0 h.1
      · have hz : DataZone sp z := htree.zone z (hl.isIndex h0)
        refine Outcome.pre (P := On disk usable sp (SameUse c₀) K m ip) ?_ fun t ht => ht.2
        refine devOf_bind (Outcome.bind (getBlock_on hsv hroom _) fun bp => ?_)
        rw [hj]
        refine indAt_bind hsv.layout j (Outcome.bind
          (putBlock_on hsv hroom (hsv.layout.offMap hz) _) fun _ =>
            Outcome.pure fun t ht => ⟨?_, ht⟩)
        rw [show zoneOf sp m ip s = indOf sp m z j from hl.lookup.trans (entry_of_ne h0), indOf,
          if_pos hz]

end Lookup

/-! ## Entry -/

/-- Indirect blocks may have been linked: the zones in the slots are the same, and the blocks that
are new are empty. -/
structure Grown (sp : Super) (m : Flat) (ip : Inode) (m' : Flat) (ip' : Inode) : Prop where
  names : ∀ s, zoneOf sp m' ip' s = zoneOf sp m ip s
  tree : Tree sp m' ip'
  empty : ∀ z, IsIndex (indOf sp m') (rootOf ip') z →
    IsIndex (indOf sp m) (rootOf ip) z ∨ ∀ j, indOf sp m' z j = NO_ZONE
  leaves : Leaves sp m ip m' ip'

/-- A zone has been entered in a slot. -/
structure Entered (sp : Super) (s : Slot NR_DZONE_NUM NR_INDIRECTS) (v : Nat) (m : Flat)
    (ip : Inode) (m' : Flat) (ip' : Inode) : Prop where
  names : ∀ s', zoneOf sp m' ip' s' = if s' = s then v else zoneOf sp m ip s'
  tree : Tree sp m' ip'
  leaves : Leaves sp m ip m' ip'

/-- A tree has grown from itself. -/
theorem Grown.refl (h : Tree sp m ip) : Grown sp m ip m ip :=
  ⟨fun _ => rfl, h, fun _ => Or.inl, .refl⟩

/-- A zone is entered after indirect blocks have been linked. -/
theorem Grown.entered {s : Slot NR_DZONE_NUM NR_INDIRECTS} {v : Nat} {m'' : Flat} {ip'' : Inode}
    (h : Grown sp m ip m' ip') (he : Entered sp s v m' ip' m'' ip'') :
    Entered sp s v m ip m'' ip'' :=
  ⟨fun s' => by rw [he.names, h.names], he.tree, h.leaves.trans he.leaves⟩

/-- A direct zone number is none of the indirect ones. -/
theorem castLE_ne (i : Fin NR_DZONE_NUM) {k : Fin NR_ZONE_NUMS} (hk : NR_DZONE_NUM ≤ k.val) :
    i.castLE (by decide : NR_DZONE_NUM ≤ NR_ZONE_NUMS) ≠ k := by
  rintro rfl
  exact absurd i.isLt (Nat.not_lt.mpr hk)

/-- The root after the single indirect zone has been set. -/
theorem rootOf_single (ip : Inode) (z : Nat) :
    rootOf { ip with iZone := update ip.iZone 7 z } = { rootOf ip with single := z } := by
  unfold rootOf
  congr 1
  funext i
  exact update_of_ne (castLE_ne i (by decide)) ..

/-- The root after the double indirect zone has been set. -/
theorem rootOf_double (ip : Inode) (z : Nat) :
    rootOf { ip with iZone := update ip.iZone 8 z } = { rootOf ip with double := z } := by
  unfold rootOf
  congr 1
  funext i
  exact update_of_ne (castLE_ne i (by decide)) ..

/-- The root after a direct zone has been set. -/
theorem rootOf_direct (ip : Inode) (i : Fin NR_DZONE_NUM) (z : Nat) :
    rootOf { ip with iZone := update ip.iZone (i.castLE (by decide)) z } =
      { rootOf ip with direct := update (rootOf ip).direct i z } := by
  unfold rootOf
  congr 1
  · funext i'
    show update ip.iZone _ z _ = update (rootOf ip).direct i z i'
    by_cases h : i' = i
    · rw [h, update_self, update_self]
    · rw [update_of_ne h, update_of_ne fun he => h (Fin.castLE_injective _ he)]
      rfl
  · exact update_of_ne (castLE_ne i (by decide)).symm ..
  · exact update_of_ne (castLE_ne i (by decide)).symm ..

/-- A zone that is claimed for an indirect block is not one yet. -/
theorem Tree.new {z : Nat} (h : Tree sp m ip) (hc : Claims sp m m' z) :
    ¬IsIndex (indOf sp m) (rootOf ip) z := fun hz => hc.free (h.busy z hz)

/-- An empty block in a zone that was claimed for it, linked to the tree. -/
theorem Tree.link {z : Nat} {m₁ : Flat} (h : Tree sp m ip) (hc : Claims sp m m₁ z)
    (hl : IndexTree.Linked (indOf sp m) (rootOf ip) (indOf sp m') (rootOf ip') z)
    (hbusy : ∀ z', DataZone sp z' → (Busy m' sp z' ↔ Busy m₁ sp z'))
    (hempty : ∀ j, indOf sp m' z j = NO_ZONE)
    (hsame : ∀ z', Spare sp m ip z' → ∀ block, InZone sp z' block →
      m' sp.sDev block = m sp.sDev block) : Grown sp m ip m' ip' := by
  refine ⟨hl.names, ⟨hl.separate, fun z' hz' => ?_, fun z' hz' => ?_⟩, fun z' hz' => ?_,
    fun z' hz' => ⟨⟨hz'.zone, ?_, fun hi => ?_⟩, hsame z' hz'⟩⟩
  · rcases hl.index z' hz' with rfl | hold
    · exact hc.zone
    · exact h.zone z' hold
  · rcases hl.index z' hz' with rfl | hold
    · exact (hbusy _ hc.zone).mpr ((hc.busy _ hc.zone).mpr (Or.inr rfl))
    · have hz := h.zone z' hold
      exact (hbusy _ hz).mpr ((hc.busy _ hz).mpr (Or.inl (h.busy z' hold)))
  · rcases hl.index z' hz' with rfl | hold
    · exact Or.inr hempty
    · exact Or.inl hold
  · exact (hbusy _ hz'.zone).mpr ((hc.busy _ hz'.zone).mpr (Or.inl hz'.busy))
  · rcases hl.index z' hi with rfl | hold
    · exact hz'.ne_claimed hc rfl
    · exact hz'.other hold

/-- A zone is entered in the block that has the slot. -/
theorem Tree.enter {s : Slot NR_DZONE_NUM NR_INDIRECTS} {z v : Nat} {j : Fin NR_INDIRECTS}
    (h : Tree sp m ip) (hlay : Layout sp) (hl : Leaf (indOf sp m) (rootOf ip) s z j) (hz : z ≠ 0)
    (hv : v < 65536) : Entered sp s v m ip
      (m.set sp.sDev (zoneBlock z (scaleOf sp))
        (setWord (m sp.sDev (zoneBlock z (scaleOf sp))) j (.ofNat 16 v))) ip := by
  have hdz := h.zone z (hl.isIndex hz)
  have hblk := indOf_setWord (m := m) hlay hdz j hv
  have hdouble (i : Fin NR_INDIRECTS) := hl.double_entry (e := update (indOf sp m z) j v)
    h.separate hz i
  refine ⟨fun s' => ?_, ⟨?_, fun z' hz' => ?_, fun z' hz' => ?_⟩, fun z' hz' =>
    ⟨⟨hz'.zone, (busy_set hlay hdz hz'.zone _).mpr hz'.busy, fun hi => ?_⟩, fun block hb => ?_⟩⟩
  · unfold zoneOf
    rw [hblk]
    exact lookup_setLeaf h.separate hl hz s'
  · rw [hblk]
    exact h.separate.congr hdouble
  · rw [hblk, isIndex_congr hdouble] at hz'
    exact h.zone z' hz'
  · rw [hblk, isIndex_congr hdouble] at hz'
    exact (busy_set hlay hdz (h.zone z' hz') _).mpr (h.busy z' hz')
  · rw [hblk, isIndex_congr hdouble] at hi
    exact hz'.other hi
  · refine hb.set_first hlay hdz ?_ _
    rintro rfl
    exact hz'.other (hl.isIndex hz)

/-- A zone is entered in the inode. -/
theorem Tree.enter_direct (h : Tree sp m ip) (i : Fin NR_DZONE_NUM) (v : Nat) :
    Entered sp (.direct i) v m ip m
      { ip with iZone := update ip.iZone (i.castLE (by decide)) v } := by
  have hroot := rootOf_direct ip i v
  have hindex : ∀ z, IsIndex (indOf sp m)
      { rootOf ip with direct := update (rootOf ip).direct i v } z →
      IsIndex (indOf sp m) (rootOf ip) z := by
    intro z hz
    cases hz with
    | single hz => exact .single hz
    | double hz => exact .double hz
    | entry i hz => exact .entry i hz
  refine ⟨fun s' => ?_, ⟨?_, fun z hz => ?_, fun z hz => ?_⟩,
    fun z hz => ⟨⟨hz.zone, hz.busy, fun hi => ?_⟩, fun _ _ => rfl⟩⟩
  · unfold zoneOf
    rw [hroot]
    exact lookup_setDirect i s'
  · rw [hroot]
    exact ⟨h.separate.roots, h.separate.single, h.separate.double, h.separate.entries⟩
  · rw [hroot] at hz
    exact h.zone z (hindex z hz)
  · rw [hroot] at hz
    exact h.busy z (hindex z hz)
  · rw [hroot] at hi
    exact hz.other (hindex z hi)

section Linking

variable (hsv : Serving io disk sup sp)

include hsv

/-- The double indirect block has a zone, or there is none to be had. -/
theorem doubleInd_on :
    Returns (On disk usable sp (SameUse c₀) K m ip) (doubleInd sup) fun r t =>
      (r.1 = NO_ZONE ∧ On disk usable sp (SameUse c₀) (· = ENOSPC) m ip t) ∨
      (r = (ip.iZone 8, false) ∧ ip.iZone 8 ≠ NO_ZONE ∧ On disk usable sp (SameUse c₀) K m ip t) ∨
      (r.2 = true ∧ r.1 ≠ NO_ZONE ∧ ip.iZone 8 = NO_ZONE ∧ ∃ m', Claims sp m m' r.1 ∧
        On disk usable sp (SameUse c₀) K m' { ip with iZone := update ip.iZone 8 r.1 } t) := by
  unfold doubleInd
  refine zoneAt_bind 8 (Outcome.ite (fun h0 => ?_) fun h0 =>
    Outcome.pure fun t ht => Or.inr (Or.inl ⟨rfl, h0, ht⟩))
  refine Outcome.bind (allocInd_on hsv fun _ _ _ hs => hs.storeBuf _ _) fun z =>
    .or (.fact fun hz => ?_) (.fact fun hz => .given fun m' => .fact fun hc => ?_)
  · rw [provided, if_neg (not_not.mpr hz)]
    exact Outcome.pure fun t ht => Or.inl ⟨hz, ht⟩
  · rw [provided, if_pos hz]
    exact Outcome.bind (setZone_on 8 z) fun _ => Outcome.pure fun t ht =>
      Or.inr (Or.inr ⟨rfl, hz, h0, m', hc, ht⟩)

variable (htree : Tree sp m ip) (hroom : Room usable c₀)

include htree hroom

/-- A place for an indirect zone number is found. If the double indirect block is new, it is
empty. -/
theorem placeInd_on {n : Nat} {s : Slot NR_DZONE_NUM NR_INDIRECTS}
    (hs : slotOf NR_DZONE_NUM NR_INDIRECTS n = some s) (hn : NR_DZONE_NUM ≤ n) :
    Returns (On disk usable sp (SameUse c₀) K m ip)
      (placeInd io sup (scaleOf sp) ((n : Int) - NR_DZONE_NUM)) fun r t =>
        (r = .error ENOSPC ∧ On disk usable sp (SameUse c₀) (fun _ => True) m ip t) ∨
        (∃ j : Fin NR_INDIRECTS, r = .ok (.inode, (j.val : Int)) ∧ s = .single j ∧
          On disk usable sp (SameUse c₀) K m ip t) ∨
        ∃ (bp : BufPtr) (i j : Fin NR_INDIRECTS), r = .ok (.ind bp i.val, (j.val : Int)) ∧
          s = .double i j ∧ ∃ m' ip', Grown sp m ip m' ip' ∧ ip'.iZone 8 ≠ NO_ZONE ∧
            On disk usable sp (Holding usable sp c₀ bp (zoneBlock (ip'.iZone 8) (scaleOf sp))) K
              m' ip' t := by
  unfold placeInd
  rcases slotOf_cases hs with ⟨i, rfl, rfl⟩ | ⟨j, rfl, rfl⟩ | ⟨i, j, rfl, rfl⟩
  · exact absurd i.isLt (Nat.not_lt.mpr hn)
  · have hj := j.isLt
    rw [if_pos (by simp only [NR_DZONE_NUM, NR_ZONE_NUMS, NR_INDIRECTS] at *; omega)]
    refine Outcome.pure fun t ht => Or.inr (Or.inl ⟨j, ?_, rfl, ht⟩)
    congr 2
    omega
  · have hi := i.isLt
    have hj := j.isLt
    rw [if_neg (by simp only [NR_DZONE_NUM, NR_ZONE_NUMS, NR_INDIRECTS] at *; omega)]
    have hdiv : ((NR_DZONE_NUM + NR_INDIRECTS + NR_INDIRECTS * i.val + j.val : Nat) : Int) -
        NR_DZONE_NUM - NR_INDIRECTS = NR_INDIRECTS * (i.val : Int) + j.val := by
      push_cast
      omega
    have hdiv' : (NR_INDIRECTS * (i.val : Int) + j.val) / NR_INDIRECTS = i.val := by
      simp only [NR_INDIRECTS] at *
      omega
    have hmod : (NR_INDIRECTS * (i.val : Int) + j.val) % NR_INDIRECTS = j.val := by
      simp only [NR_INDIRECTS] at *
      omega
    have hindex : ¬(i.val : Int) ≥ NR_INDIRECTS := by omega
    refine Outcome.bind (doubleInd_on hsv) fun r => ?_
    obtain ⟨z, newDbl⟩ := r
    dsimp only
    rw [hdiv, hdiv', hmod, if_neg hindex]
    refine .or (.fact fun hz => ?_) (.or (.fact fun hr => .fact fun h0 => ?_)
      (.fact fun hr => .fact fun hz => .fact fun h0 => .given fun m' => .fact fun hc => ?_))
    · rw [if_pos hz]
      exact fun t ht => Or.inl ⟨congrArg Except.error ht.err, ht.mounted, ht.use, trivial, ht.rip,
        ht.dev⟩
    · obtain ⟨rfl, rfl⟩ := Prod.mk.inj hr
      have hz : DataZone sp (ip.iZone 8) := htree.zone _ (.double h0)
      rw [if_neg h0]
      refine devOf_bind (Outcome.bind (getBlock_on hsv hroom _) fun bp =>
        Outcome.pure fun t ht => ?_)
      exact Or.inr (Or.inr ⟨bp, i, j, rfl, rfl, m, ip, .refl htree, h0, ht⟩)
    · subst hr
      have hlay := hsv.layout
      have hgrown : Grown sp m ip (m'.set sp.sDev (zoneBlock z (scaleOf sp)) fun _ => 0)
          { ip with iZone := update ip.iZone 8 z } := by
        have hblk := indOf_zero (m := m') hlay hc.zone
        rw [claims_indOf hlay hc] at hblk
        refine htree.link hc ?_ (fun z' hz' => busy_set hlay hc.zone hz' _) (fun j => ?_)
          fun z' hz' block hb => hz'.set_claimed hlay hc hb _
        · rw [hblk, rootOf_double]
          exact link_double hz (htree.new hc) h0
        · rw [hblk, update_self]
      rw [if_neg hz]
      refine devOf_bind (Outcome.bind (getNew_on hsv hroom (hlay.offMap hc.zone)) fun bp =>
        Outcome.bind zeroBlock_on fun _ => Outcome.pure fun t ht => ?_)
      have h8 : ({ ip with iZone := update ip.iZone 8 z } : Inode).iZone 8 = z :=
        update_self (8 : Fin NR_ZONE_NUMS) z ip.iZone
      refine Or.inr (Or.inr ⟨bp, i, j, rfl, rfl, _, _, hgrown, ?_, ?_⟩)
      · rwa [h8]
      · rwa [h8]

/-- The place for the indirect zone number of a slot. -/
inductive Place (ip : Inode) : ZonePtr → Slot NR_DZONE_NUM NR_INDIRECTS → Fin NR_INDIRECTS → Prop
  | inode (j : Fin NR_INDIRECTS) : Place ip .inode (.single j) j
  | ind (bp : BufPtr) (i j : Fin NR_INDIRECTS) : ip.iZone 8 ≠ NO_ZONE →
    Place ip (.ind bp i.val) (.double i j) j

/-- Whether the double indirect block is at hand. -/
def useOf (usable : BufPtr → Prop) (sp : Super) (c₀ : Cache σ) (zd : Nat) :
    ZonePtr → Cache σ → Prop
  | .inode => SameUse c₀
  | .ind bp _ => Holding usable sp c₀ bp (zoneBlock zd (scaleOf sp))

omit hroom in
/-- The block that has a slot gets its zone, or there is none to be had. A new one still has to be
emptied. -/
theorem linkInd_on {s : Slot NR_DZONE_NUM NR_INDIRECTS} {zp : ZonePtr} {j : Fin NR_INDIRECTS}
    (hp : Place ip zp s j) :
    Returns (On disk usable sp (useOf usable sp c₀ (ip.iZone 8) zp) K m ip) (linkInd sup zp)
      fun r t =>
        (r.1 = NO_ZONE ∧
          On disk usable sp (useOf usable sp c₀ (ip.iZone 8) zp) (· = ENOSPC) m ip t) ∨
        (r.1 ≠ NO_ZONE ∧ r.2 = false ∧ Leaf (indOf sp m) (rootOf ip) s r.1 j ∧
          On disk usable sp (useOf usable sp c₀ (ip.iZone 8) zp) K m ip t) ∨
        (r.1 ≠ NO_ZONE ∧ r.2 = true ∧ DataZone sp r.1 ∧ ∃ m' ip',
          Grown sp m ip (m'.set sp.sDev (zoneBlock r.1 (scaleOf sp)) fun _ => 0) ip' ∧
          Leaf (indOf sp (m'.set sp.sDev (zoneBlock r.1 (scaleOf sp)) fun _ => 0)) (rootOf ip') s
            r.1 j ∧ On disk usable sp (useOf usable sp c₀ (ip.iZone 8) zp) K m' ip' t) := by
  have hlay := hsv.layout
  unfold linkInd
  cases hp with
  | inode =>
    refine zoneAt_bind 7 (Outcome.ite (fun h0 => ?_) fun h0 =>
      Outcome.pure fun t ht => Or.inr (Or.inl ⟨h0, rfl, .single j, ht⟩))
    refine Outcome.bind (allocInd_on hsv fun _ _ _ hs => hs.storeBuf _ _) fun z =>
      .or (.fact fun hz => ?_) (.fact fun hz => .given fun m' => .fact fun hc => ?_)
    · have hsame : { ip with iZone := update ip.iZone 7 z } = ip := by
        rw [hz, ← h0, update_eq_self]
      refine Outcome.bind (setZone_on 7 z) fun _ => Outcome.pure fun t ht => Or.inl ⟨hz, ?_⟩
      rwa [hsame] at ht
    · refine Outcome.bind (setZone_on 7 z) fun _ => Outcome.pure fun t ht =>
        Or.inr (Or.inr ⟨hz, rfl, hc.zone, m', _, ?_, ?_, ht⟩)
      · have hblk := indOf_zero (m := m') hlay hc.zone
        rw [claims_indOf hlay hc] at hblk
        refine htree.link hc ?_ (fun z' hz' => busy_set hlay hc.zone hz' _) (fun j => ?_)
          fun z' hz' block hb => hz'.set_claimed hlay hc hb _
        · rw [hblk, rootOf_single]
          exact link_single hz (htree.new hc) htree.separate h0
        · rw [hblk, update_self]
      · rw [rootOf_single]
        exact .single j
  | ind bp i _ hd =>
    have hdz : DataZone sp (ip.iZone 8) := htree.zone _ (.double hd)
    have hoff := hlay.offMap hdz
    have he : entry (indOf sp m) (rootOf ip).double i =
        (wordAt (m sp.sDev (zoneBlock (ip.iZone 8) (scaleOf sp))) i).toNat :=
      (entry_of_ne (b := ip.iZone 8) hd).trans (if_pos hdz)
    refine indAt_bind hlay i ?_
    rw [← he]
    refine Outcome.ite (fun h0 => ?_) fun h0 =>
      Outcome.pure fun t ht => Or.inr (Or.inl ⟨h0, rfl, .double i j, ht⟩)
    refine Outcome.bind (allocInd_on hsv fun _ _ _ hs => hs.storeBuf _ _) fun z =>
      .or (.fact fun hz => ?_) (.fact fun hz => .given fun m' => .fact fun hc => ?_)
    · have hword : BitVec.ofNat 16 z =
          wordAt (m sp.sDev (zoneBlock (ip.iZone 8) (scaleOf sp))) i := by
        refine BitVec.eq_of_toNat_eq ?_
        rw [← he, h0, hz]
        rfl
      have hsame : m.set sp.sDev (zoneBlock (ip.iZone 8) (scaleOf sp))
          (setWord (m sp.sDev (zoneBlock (ip.iZone 8) (scaleOf sp))) i (.ofNat 16 z)) = m := by
        rw [hword, setWord_wordAt, Flat.set_same]
      refine Outcome.bind (setInd_on hlay hoff i z) fun _ => Outcome.pure fun t ht =>
        Or.inl ⟨hz, ?_⟩
      rwa [hsame] at ht
    · have hz16 : z < 65536 := hc.zone.2.trans hlay.nzones
      have hne : ip.iZone 8 ≠ z := fun h => htree.new hc (h ▸ .double hd)
      generalize hm'' : m'.set sp.sDev (zoneBlock (ip.iZone 8) (scaleOf sp))
        (setWord (m' sp.sDev (zoneBlock (ip.iZone 8) (scaleOf sp))) i (.ofNat 16 z)) = m''
      have hblk : indOf sp (m''.set sp.sDev (zoneBlock z (scaleOf sp)) fun _ => 0) =
          update (update (indOf sp m) (ip.iZone 8) (update (indOf sp m (ip.iZone 8)) i z)) z
            fun _ => 0 := by
        rw [indOf_zero hlay hc.zone, ← hm'', indOf_setWord hlay hdz i hz16, claims_indOf hlay hc]
      refine Outcome.bind (setInd_on hlay hoff i z) fun _ => Outcome.pure fun t ht =>
        Or.inr (Or.inr ⟨hz, rfl, hc.zone, m'', ip, ?_, ?_, hm'' ▸ ht⟩)
      · refine htree.link hc ?_ (fun z' hz' => (busy_set hlay hc.zone hz' _).trans ?_) (fun j => ?_)
          fun z' hz' block hb => (hb.set_first hlay hc.zone (hz'.ne_claimed hc) _).trans ?_
        · rw [hblk]
          exact link_entry hz (htree.new hc) htree.separate hd h0
        · rw [← hm'']
          exact busy_set hlay hdz hz' _
        · rw [hblk, update_self]
        · rw [← hm'']
          have hne' : z' ≠ ip.iZone 8 := fun he => hz'.other (he ▸ .double hd)
          exact (hb.set_first hlay hdz hne' _).trans ((leaves_claims hlay hc z' hz').2 block hb)
      · have hentry : entry (indOf sp (m''.set sp.sDev (zoneBlock z (scaleOf sp)) fun _ => 0))
            (rootOf ip).double i = z := by
          rw [hblk]
          refine (entry_update_ne hne).trans ?_
          exact (entry_update_self hd).trans (update_self ..)
        have hleaf : Leaf (indOf sp (m''.set sp.sDev (zoneBlock z (scaleOf sp)) fun _ => 0))
          (rootOf ip) (.double i j) _ j := .double i j
        rwa [hentry] at hleaf

omit htree in
/-- The double indirect block is released. -/
theorem release_on {zp : ZonePtr} {zd : Nat} (hd : ∀ bp i, zp = .ind bp i → DataZone sp zd) :
    Returns (On disk usable sp (useOf usable sp c₀ zd zp) K m ip) (zp.release io)
      fun _ => On disk usable sp (SameUse c₀) K m ip := by
  cases zp with
  | inode => exact Outcome.pure fun _ ht => ht
  | ind bp i => exact putBlock_on hsv hroom (hsv.layout.offMap (hd bp i rfl)) _

omit htree in
/-- A zone is stored in the block that has the slot, which is then released. -/
theorem setLeaf_on {s : Slot NR_DZONE_NUM NR_INDIRECTS} {z v : Nat} {j : Fin NR_INDIRECTS}
    (ht : Tree sp m ip) (hl : Leaf (indOf sp m) (rootOf ip) s z j) (hz : z ≠ NO_ZONE)
    (hv : v < 65536) :
    Returns (On disk usable sp (Holding usable sp c₀ bp (zoneBlock z (scaleOf sp))) K m ip)
      (do
        setInd bp (j.val : Int) v
        putBlock io bp INDIRECT_BLOCK
        return OK)
      fun r t => r = OK ∧ ∃ m', Entered sp s v m ip m' ip ∧
        On disk usable sp (SameUse c₀) K m' ip t := by
  have hoff := hsv.layout.offMap (ht.zone z (hl.isIndex hz))
  exact Outcome.bind (setInd_on hsv.layout hoff j v) fun _ =>
    Outcome.bind (putBlock_on hsv hroom hoff _) fun _ => Outcome.pure fun t hon =>
      ⟨rfl, _, ht.enter hsv.layout hl hz hv, hon⟩

/-- A zone is entered in the slot, or there is no zone for an indirect block. -/
theorem enterInd_on {s : Slot NR_DZONE_NUM NR_INDIRECTS} {zp : ZonePtr} {j : Fin NR_INDIRECTS}
    {v : Nat} (hp : Place ip zp s j) (hv : v < 65536) :
    Returns (On disk usable sp (useOf usable sp c₀ (ip.iZone 8) zp) K m ip)
      (enterInd io sup (scaleOf sp) zp (j.val : Int) v) fun r t =>
        (r = OK ∧ ∃ m' ip', Entered sp s v m ip m' ip' ∧
          On disk usable sp (SameUse c₀) (fun _ => True) m' ip' t) ∨
        (r = ENOSPC ∧ On disk usable sp (SameUse c₀) (fun _ => True) m ip t) := by
  have hlay := hsv.layout
  have hd : ∀ bp i, zp = .ind bp i → DataZone sp (ip.iZone 8) := by
    rintro bp i rfl
    cases hp with
    | ind _ _ _ hd => exact htree.zone _ (.double hd)
  unfold enterInd
  refine Outcome.bind (linkInd_on hsv htree hp) fun r => ?_
  obtain ⟨z, newInd⟩ := r
  refine .or (.fact fun hz => ?_) (.or (.fact fun hz => .fact fun hr => .fact fun hl => ?_)
    (.fact fun hz => .fact fun hr => .fact fun hdz => .given fun m' => .given fun ip' =>
      .fact fun hg => .fact fun hl => ?_))
  · refine Outcome.bind (release_on hsv hroom hd) fun _ => ?_
    dsimp only at hz ⊢
    rw [if_pos hz]
    exact fun t ht => Or.inr ⟨ht.err, ht.mounted, ht.use, trivial, ht.rip, ht.dev⟩
  · refine Outcome.bind (release_on hsv hroom hd) fun _ => ?_
    dsimp only at hz hr hl ⊢
    subst hr
    rw [if_neg hz]
    refine devOf_bind (Outcome.bind (getBlock_on hsv hroom _) fun bp => Outcome.post
      (setLeaf_on hsv hroom htree hl hz hv) fun r t ⟨hr, m', he, ht⟩ => Or.inl ⟨hr, m', ip, he, ?_⟩)
    exact ⟨ht.mounted, ht.use, trivial, ht.rip, ht.dev⟩
  · refine Outcome.bind (release_on hsv hroom hd) fun _ => ?_
    dsimp only at hz hr hdz hg hl ⊢
    subst hr
    rw [if_neg hz]
    refine devOf_bind (Outcome.bind (getNew_on hsv hroom (hlay.offMap hdz)) fun bp =>
      Outcome.bind zeroBlock_on fun _ => Outcome.post (setLeaf_on hsv hroom hg.tree hl hz hv)
        fun r t ⟨hr, m'', he, ht⟩ => Or.inl ⟨hr, m'', ip', hg.entered he, ?_⟩)
    exact ⟨ht.mounted, ht.use, trivial, ht.rip, ht.dev⟩

/-- `write_map` enters a zone in the slot of a position, or there is no zone for an indirect
block. -/
theorem writeMap_on {position : Int} {n v : Nat} (hn : fileZone sp position = n)
    {s : Slot NR_DZONE_NUM NR_INDIRECTS} (hs : slotOf NR_DZONE_NUM NR_INDIRECTS n = some s)
    (hv : v < 65536) :
    Returns (On disk usable sp (SameUse c₀) K m ip) (writeMap io sup position v) fun r t =>
      (r = OK ∧ ∃ m' ip', Entered sp s v m ip m' ip' ∧
        On disk usable sp (SameUse c₀) (fun _ => True) m' ip' t) ∨
      (r = ENOSPC ∧ ∃ m' ip', Grown sp m ip m' ip' ∧
        On disk usable sp (SameUse c₀) (fun _ => True) m' ip' t) := by
  have htree' : Tree sp m { ip with iDirt := DIRTY } :=
    ⟨htree.separate, htree.zone, htree.busy⟩
  have hdirt : Leaves sp m ip m { ip with iDirt := DIRTY } := fun z hz =>
    ⟨⟨hz.zone, hz.busy, hz.other⟩, fun _ _ => rfl⟩
  have hdirty : Returns (On disk usable sp (SameUse c₀) K m ip)
      (modifyRip fun ip => { ip with iDirt := DIRTY })
      fun _ => On disk usable sp (SameUse c₀) K m { ip with iDirt := DIRTY } :=
    Outcome.modify fun t ht => ⟨ht.mounted, ht.use, ht.err, by rw [← ht.rip], ht.dev⟩
  refine Outcome.post (Q := fun r t =>
    (r = OK ∧ ∃ m' ip', Entered sp s v m { ip with iDirt := DIRTY } m' ip' ∧
      On disk usable sp (SameUse c₀) (fun _ => True) m' ip' t) ∨
    (r = ENOSPC ∧ ∃ m' ip', Grown sp m { ip with iDirt := DIRTY } m' ip' ∧
      On disk usable sp (SameUse c₀) (fun _ => True) m' ip' t)) ?_ fun r t h =>
    h.imp
      (fun ⟨hr, m', ip', he, ht⟩ => ⟨hr, m', ip', ⟨he.names, he.tree, hdirt.trans he.leaves⟩, ht⟩)
      fun ⟨hr, m', ip', hg, ht⟩ =>
        ⟨hr, m', ip', ⟨hg.names, hg.tree, hg.empty, hdirt.trans hg.leaves⟩, ht⟩
  unfold writeMap
  refine Outcome.bind hdirty fun _ => scaleFactor_bind hsv ?_
  have hzone : position.tdiv BLOCK_SIZE >>> scaleOf sp = (n : Int) := hn
  dsimp only
  rw [hzone]
  refine Outcome.ite (fun hlt => ?_) fun hge =>
    Outcome.bind (placeInd_on hsv htree' hroom hs (by omega)) fun r => ?_
  · rcases slotOf_cases hs with ⟨i, rfl, rfl⟩ | ⟨j, rfl, rfl⟩ | ⟨i, j, rfl, rfl⟩
    · refine Outcome.bind (setZone_on (i.castLE (by decide)) v) fun _ =>
        Outcome.pure fun t ht => Or.inl ⟨rfl, m, _, htree'.enter_direct i v, ?_⟩
      exact ⟨ht.mounted, ht.use, trivial, ht.rip, ht.dev⟩
    · omega
    · omega
  · refine .or (.fact fun hr => ?_) (.or (.given fun j => .fact fun hr => .fact fun hsj => ?_)
      (.given fun bp => .given fun i => .given fun j => .fact fun hr => .fact fun hsij =>
        .given fun m' => .given fun ip' => .fact fun hg => .fact fun hd => ?_))
    · subst hr
      exact Outcome.pure fun t ht => Or.inr ⟨rfl, m, _, .refl htree', ht⟩
    · subst hr hsj
      exact Outcome.post (enterInd_on hsv htree' hroom (.inode j) hv) fun r t h =>
        h.imp_right fun ⟨hr, ht⟩ => ⟨hr, m, _, .refl htree', ht⟩
    · subst hr hsij
      refine Outcome.post (enterInd_on hsv hg.tree hroom (.ind bp i j hd) hv) fun r t h => ?_
      exact h.imp (fun ⟨hr, m'', ip'', he, ht⟩ => ⟨hr, m'', ip'', hg.entered he, ht⟩)
        fun ⟨hr, ht⟩ => ⟨hr, m', ip', hg, ht⟩

end Linking

/-! ## The two agree -/

/-- `read_map` gives block `b` for a position. -/
def Reads (io : DevIo σ) (sup : SuperPtr → Super) (s : Work σ) (position : Int) (b : Nat) : Prop :=
  ∃ s', readMap io sup position s = .ok (b, s')

/-- The zone of a position has a place in the inode or its indirect blocks. -/
def Mappable (sp : Super) (position : Int) : Prop :=
  0 ≤ fileZone sp position ∧
    fileZone sp position < NR_DZONE_NUM + NR_INDIRECTS + NR_INDIRECTS * NR_INDIRECTS

/-- Blocks of data zones have numbers of 16 bits. -/
theorem blockIn_dataZone (hlay : Layout sp) {z : Nat} (hz : DataZone sp z) (position : Int) :
    (blockIn z (scaleOf sp) (fileOff sp position) : Int) =
      (z <<< scaleOf sp : Nat) + fileOff sp position := by
  have hne := hlay.dataZone_ne hz
  have hfits := hlay.fits
  have hend : (z + 1) * 2 ^ scaleOf sp ≤ sp.sNzones * 2 ^ scaleOf sp := Nat.mul_le_mul_right _ hz.2
  have hoff : fileOff sp position = position.tdiv BLOCK_SIZE % (2 ^ scaleOf sp : Nat) := by
    unfold fileOff fileZone
    rw [Int.shiftRight_eq_div_pow]
    have := Int.mul_ediv_add_emod (position.tdiv BLOCK_SIZE) ((2 ^ scaleOf sp : Nat) : Int)
    push_cast at *
    rw [Int.mul_comm] at this
    omega
  have hpos : (0 : Int) < (2 ^ scaleOf sp : Nat) := by exact_mod_cast Nat.two_pow_pos _
  have hlow := Int.emod_nonneg (position.tdiv BLOCK_SIZE) hpos.ne'
  have hhigh := Int.emod_lt_of_pos (position.tdiv BLOCK_SIZE) hpos
  rw [← hoff] at hlow hhigh
  rw [Nat.shiftLeft_eq] at hfits
  rw [Nat.add_mul, Nat.one_mul] at hend
  unfold blockIn unshort
  rw [if_neg hne, Nat.shiftLeft_eq]
  omega

/-- A zone that is entered with `write_map` is what `read_map` then finds at the positions of that
zone, and other positions are mapped as before. Without a zone for an indirect block nothing changes
for `read_map`, and an indirect block that has been linked is empty. -/
theorem write_map_read_map (hsv : Serving io disk sup sp) {s : Work σ}
    (hm : Mounted disk usable sp m s.cache) (hroom : Room usable s.cache)
    (hdev : s.rip.iDev = sp.sDev) (htree : Tree sp m s.rip) {position : Int}
    (hpos : Mappable sp position) {z : Nat} (hz : DataZone sp z) :
    ∃ r s' m', writeMap io sup position z s = .ok (r, s') ∧ Mounted disk usable sp m' s'.cache ∧
      Tree sp m' s'.rip ∧
      (r = OK → ∀ p, Mappable sp p → ∃ b b', Reads io sup s p b ∧ Reads io sup s' p b' ∧
        if fileZone sp p = fileZone sp position then
          (b' : Int) = (z <<< scaleOf sp : Nat) + fileOff sp p
        else b' = b) ∧
      (r ≠ OK → (∀ p, Mappable sp p → ∃ b, Reads io sup s p b ∧ Reads io sup s' p b) ∧
        ∀ i, IsIndex (indOf sp m') (rootOf s'.rip) i →
          IsIndex (indOf sp m) (rootOf s.rip) i ∨ ∀ j, indOf sp m' i j = NO_ZONE) := by
  have hlay := hsv.layout
  -- any position that can be mapped has a slot
  have hslot {p : Int} (hp : Mappable sp p) : ∃ (n : Nat) (t : Slot NR_DZONE_NUM NR_INDIRECTS),
      fileZone sp p = n ∧ slotOf NR_DZONE_NUM NR_INDIRECTS n = some t := by
    obtain ⟨h0, hlt⟩ := hp
    obtain ⟨n, hn⟩ := Int.eq_ofNat_of_zero_le h0
    rw [hn] at hlt
    obtain ⟨t, ht⟩ := slotOf_isSome (k := NR_DZONE_NUM) (n := NR_INDIRECTS) (z := n)
      (by exact_mod_cast hlt)
    exact ⟨n, t, hn, ht⟩
  obtain ⟨n, t, hn, ht⟩ := hslot hpos
  have hon : On disk usable sp (SameUse s.cache) (fun _ => True) m s.rip s :=
    ⟨hm, ⟨rfl, rfl⟩, trivial, rfl, hdev⟩
  have hreads {s' : Work σ} {m' : Flat} {ip' : Inode} (htree' : Tree sp m' ip')
      (hon' : On disk usable sp (SameUse s.cache) (fun _ => True) m' ip' s') {p : Int} {n' : Nat}
      {t' : Slot NR_DZONE_NUM NR_INDIRECTS} (hn' : fileZone sp p = n')
      (ht' : slotOf NR_DZONE_NUM NR_INDIRECTS n' = some t') :
      Reads io sup s' p (blockIn (zoneOf sp m' ip' t') (scaleOf sp) (fileOff sp p)) := by
    obtain ⟨b, s'', he, rfl, -⟩ := (readMap_on hsv hroom htree' hn' ht').returns hon'
    exact ⟨s'', he⟩
  obtain ⟨r, s', he, hcase⟩ :=
    (writeMap_on hsv htree hroom hn ht (hz.2.trans hlay.nzones)).returns hon
  rcases hcase with ⟨rfl, m', ip', hent, hon'⟩ | ⟨rfl, m', ip', hgrown, hon'⟩
  · refine ⟨OK, s', m', he, hon'.mounted, hon'.rip ▸ hent.tree, fun _ p hp => ?_,
      fun hne => absurd rfl hne⟩
    obtain ⟨n', t', hn', ht'⟩ := hslot hp
    refine ⟨_, _, hreads htree hon hn' ht', hreads hent.tree hon' hn' ht', ?_⟩
    rw [hent.names]
    split
    · rename_i hsame
      have hnn : n' = n := by
        rw [hn', hn] at hsame
        exact_mod_cast hsame
      obtain rfl : t' = t := Option.some.inj (ht'.symm.trans (hnn ▸ ht))
      rw [if_pos rfl]
      exact blockIn_dataZone hlay hz p
    · rename_i hother
      rw [if_neg]
      rintro rfl
      exact hother (by rw [hn', hn, slotOf_inj ht' ht])
  · refine ⟨ENOSPC, s', m', he, hon'.mounted, hon'.rip ▸ hgrown.tree, fun h => absurd h (by decide),
      fun _ => ⟨fun p hp => ?_, fun i hi => ?_⟩⟩
    · obtain ⟨n', t', hn', ht'⟩ := hslot hp
      have hread := hreads hgrown.tree hon' hn' ht'
      rw [hgrown.names] at hread
      exact ⟨_, hreads htree hon hn' ht', hread⟩
    · rw [hon'.rip] at hi
      exact hgrown.empty i hi

/-! ## A fresh device -/

/-- A disk on which no zone is busy. -/
def blankDisk : Flat := fun _ _ _ => 1

/-- A file without zones on the device of `exampleSuper`. -/
def emptyFile : Inode where
  iMode := 0
  iUid := 0
  iSize := 0
  iModtime := 0
  iGid := 0
  iNlinks := 1
  iZone _ := NO_ZONE
  iDev := 256
  iNum := 2
  iCount := 1
  iDirt := false
  iPipe := false
  iMount := false

section Direct

variable (h7 : ip.iZone 7 = NO_ZONE) (h8 : ip.iZone 8 = NO_ZONE)

include h8

/-- A file without a double indirect block has no entry there. -/
theorem entry_of_direct (i : Fin NR_INDIRECTS) :
    entry (indOf sp m) (rootOf ip).double i = NO_ZONE := by
  have hd : (rootOf ip).double = 0 := h8
  rw [hd]
  exact entry_zero

include h7

/-- A file without indirect blocks. -/
theorem not_isIndex_of_direct (z : Nat) : ¬IsIndex (indOf sp m) (rootOf ip) z := by
  rintro (h | h | ⟨i, h⟩)
  · exact h h7
  · exact h h8
  · exact h (entry_of_direct h8 i)

/-- A file with direct zones alone is a tree as soon as these are apart. -/
theorem tree_of_direct : Tree sp m ip := by
  have hnone (z : Nat) : ¬IsIndex (indOf sp m) (rootOf ip) z := not_isIndex_of_direct h7 h8 z
  refine ⟨⟨fun h => absurd h7 h, fun h => absurd h7 h, fun h => absurd h8 h, ?_⟩,
    fun z hz => absurd hz (hnone z), fun z hz => absurd hz (hnone z)⟩
  exact fun i _ h => absurd (entry_of_direct h8 i) h

end Direct

/-- The empty file is one. -/
theorem emptyFile_tree (sp : Super) (m : Flat) : Tree sp m emptyFile := tree_of_direct rfl rfl

/-- The super block of a device whose zone map is in buffer `bp`. -/
def pinnedSuper (bp : BufPtr) : Super := { exampleSuper with sZmap := fun _ => .of bp }

/-- The example's device is laid out as `mkfs` does it. -/
theorem pinnedSuper_layout (bp : BufPtr) : Layout (pinnedSuper bp) where
  mounted := (by decide : 256 ≠ NO_DEV)
  scale := (by decide : (0 : Int) ≤ 0)
  ptrs := by
    refine ⟨(by decide : 1 ≤ 8), fun b hb => ⟨bp, dif_pos ?_⟩, fun b hb b' hb' _ => ?_⟩
    · exact (show b < 1 from hb).trans (by decide)
    · exact (Nat.lt_one_iff.mp hb).trans (Nat.lt_one_iff.mp hb').symm
  first := (by decide : 1 ≤ 8)
  data := (by decide : 8 ≤ 360)
  nzones := (by decide : 360 < 65536)
  bits := (by decide : 360 - 8 + 1 ≤ 1 * BLOCK_BITS)
  fits := (by decide : 360 <<< 0 ≤ 65536)
  maps := (by decide : SUPER_BLOCK + 1 + 1 + 1 ≤ 8 <<< 0)

/-- The zone map of a device, of one block, is fetched. -/
def fetchZmap (base : Super) (m : Flat) : Option (BufPtr × Cache Flat) :=
  FS.getBlock Store.flatDevice (Store.init id 0 (fun _ _ => 0) m).cache base.sDev (zmapBlock base 0)
    .NORMAL

/-- After its zone map, of one block, has been fetched, a device is mounted. -/
theorem exists_mounted_of (base : Super) (m : Flat) (hone : base.sZmapBlocks = 1)
    (hlay : ∀ bp : BufPtr, Layout { base with sZmap := fun _ => .of bp })
    (hzero : mapBit m base 0 = true) : ∃ (bp : BufPtr) (c : Cache Flat),
      fetchZmap base m = some (bp, c) ∧
      Serving Store.flatDevice id (fun _ => { base with sZmap := fun _ => .of bp })
        { base with sZmap := fun _ => .of bp } ∧
      Mounted id (Usable 0) { base with sZmap := fun _ => .of bp } m c ∧ Room (Usable 0) c := by
  have hinv := Store.inv_init id 0 (fun _ _ => 0) m
  obtain ⟨L, H, hl⟩ := hinv.linked
  have hans := flatDevice_answers
  obtain ⟨hcount, hbufs⟩ := bufPool_use 0 (fun _ _ => 0) m
  have hall : ∀ b, Usable 0 b := by decide
  unfold fetchZmap
  generalize hc₀ : (Store.init id 0 (fun _ _ => 0) m).cache = c₀ at hl ⊢
  have hcount₀ : c₀.bCount = fun _ => 0 := hc₀ ▸ hcount
  have hbufs₀ : c₀.bufsInUse = 0 := hc₀ ▸ hbufs
  have hroom₀ : Room (Usable 0) c₀ := hc₀ ▸ init_room m
  obtain ⟨bp, c, he⟩ := hl.getBlock_total hans hroom₀ base.sDev (zmapBlock base 0) .NORMAL
  have hcoh : Coherent id c₀ m fun _ => True := hc₀ ▸ hinv.coherent
  obtain ⟨hc, hname, -⟩ := hcoh.get hl Store.flatDevice_works he
  obtain ⟨-, H', hl'⟩ := hl.getBlock he
  have ht := getBlock_taken hroom₀.users he
  have hsuper : (getSuper (fun _ : SuperPtr => { base with sZmap := fun _ => .of bp })
      base.sDev).map (fun _ => { base with sZmap := fun _ => .of bp }) =
        some { base with sZmap := fun _ => .of bp } := by
    unfold getSuper
    simp only [decide_true]
    rfl
  refine ⟨bp, c, he, ⟨Store.flatDevice_works, hans, hlay bp, hsuper⟩,
    ⟨⟨L, H', hl'⟩, hc, fun b hb p hp => ?_, hzero⟩, ?_, ?_, fun b => ?_⟩
  · have hb0 : b = 0 := Nat.lt_one_iff.mp (hone ▸ hb)
    subst hb0
    obtain rfl : bp = p := Link.of.inj hp
    refine ⟨?_, hname.dev, hname.block⟩
    rw [ht.count, hcount₀, update_self]
    exact (by decide : (0 : Int8) + 1 > 0)
  · rw [ht.bufs, hcount₀, hbufs₀]
    exact (by decide : (if (0 : Int8) > 0 then (0 : Int16) else 0 + 1) ≠ 20)
  · obtain ⟨b, hb⟩ : ∃ b, b ≠ bp := exists_ne bp
    refine ⟨b, hall b, ?_⟩
    rw [ht.count, update_of_ne hb, hcount₀]
    exact (by decide : ¬(0 : Int8) > 0)
  · rw [ht.count, hcount₀, update_apply]
    split
    · exact (by decide : 0 ≤ ((0 : Int8) + 1).toInt ∧ ((0 : Int8) + 1).toInt ≤ 126)
    · exact (by decide : 0 ≤ (0 : Int8).toInt ∧ (0 : Int8).toInt ≤ 126)

/-- The example's device can be mounted. -/
theorem exists_mounted : ∃ (bp : BufPtr) (c : Cache Flat),
    fetchZmap exampleSuper blankDisk = some (bp, c) ∧
    Serving Store.flatDevice id (fun _ => pinnedSuper bp) (pinnedSuper bp) ∧
      Mounted id (Usable 0) (pinnedSuper bp) blankDisk c ∧ Room (Usable 0) c :=
  exists_mounted_of exampleSuper blankDisk rfl pinnedSuper_layout
    (by decide +kernel : (wordAt (fun _ => (1 : UInt8)) (wordOf 0)).getLsbD (0 % INT_BITS) = true)

/-- Zone 20 is entered at the first position that needs an indirect block. -/
theorem write_map_read_map_example : ∃ (sup : SuperPtr → Super) (s s' : Work Flat),
    writeMap Store.flatDevice sup 7168 20 s = .ok (OK, s') ∧
      Reads Store.flatDevice sup s' 7168 20 := by
  obtain ⟨bp, c, hc, hsv, hm, hroom⟩ := exists_mounted
  have hmap : Mappable (pinnedSuper bp) 7168 :=
    (by decide : (0 : Int) ≤ 7 ∧
      (7 : Int) < NR_DZONE_NUM + NR_INDIRECTS + NR_INDIRECTS * NR_INDIRECTS)
  have hz : DataZone (pinnedSuper bp) 20 := (by decide : 8 ≤ 20 ∧ 20 < 360)
  obtain ⟨r, s', m', he, -, -, hok, -⟩ := write_map_read_map hsv (s := ⟨c, emptyFile, 0⟩) hm hroom
    rfl (emptyFile_tree _ _) hmap hz
  have hrun : ((fetchZmap exampleSuper blankDisk).bind fun x =>
      (writeMap Store.flatDevice (fun _ => pinnedSuper x.1) 7168 20
        ⟨x.2, emptyFile, 0⟩).toOption.map Prod.fst) = some OK := by
    decide +kernel
  obtain rfl : r = OK := by
    rw [hc, Option.bind_some, he] at hrun
    exact Option.some.inj hrun
  obtain ⟨b, b', -, hread, hb'⟩ := hok rfl 7168 hmap
  rw [if_pos rfl] at hb'
  obtain rfl : b' = 20 := Int.ofNat.inj hb'
  exact ⟨_, _, s', he, hread⟩

end Minix.FS.ZoneMaps
