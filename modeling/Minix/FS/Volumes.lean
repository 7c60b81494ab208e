import Minix.FS.Coherence
import Minix.FS.MapBuffers
import Minix.FS.ZoneMaps

/-!
# A mounted device

While a device that works is mounted, the cache is a store of blocks in which the blocks of the zone
map stay in buffers of their own. Fetching a block and releasing it leaves everybody else's buffers
as they were, so that as long as one buffer can be had, any number of blocks can be fetched one
after the other.
-/

namespace Minix.FS

open Function Inodes Intrusive ZoneMaps

variable {σ : Type} {io : DevIo σ} {disk : σ → Flat} {c c' : Cache σ} {m : Flat}
  {usable hashed : BufPtr → Prop} {L : List BufPtr} {H : Fin NR_BUF_HASH → List BufPtr}
  {bp : BufPtr}

/-- No transfer panics. -/
def Answers (io : DevIo σ) : Prop :=
  ∀ flag dev pos data w, ∃ r, io flag dev pos data w = some r

/-- A buffer can be had, and the numbers of users do not overflow. -/
structure Room (usable : BufPtr → Prop) (c : Cache σ) : Prop where
  spare : c.bufsInUse ≠ 20
  free : ∃ bp, usable bp ∧ ¬c.bCount bp > 0
  users : Users 126 c

theorem Room.same (h : Room usable c) (hs : SameUse c c') : Room usable c' := by
  refine ⟨?_, ?_, hs.users h.users⟩
  · rw [hs.2]
    exact h.spare
  · rw [hs.1]
    exact h.free

theorem rwBlock_total (hio : Answers io) (c : Cache σ) (bp : BufPtr) (flag : RwFlag) :
    ∃ c', rwBlock io c bp flag = some c' := by
  unfold rwBlock
  dsimp only
  split
  · obtain ⟨r, hr⟩ := hio flag (c.bDev bp) (c.bBlocknr bp * BLOCK_SIZE) (c.bData bp) c.world
    rw [hr]
    exact ⟨_, rfl⟩
  · exact ⟨_, rfl⟩

theorem writeBack_total (hio : Answers io) (c : Cache σ) (bp : BufPtr) :
    ∃ c', writeBack io c bp = some c' := by
  unfold writeBack
  split
  · exact rwBlock_total hio c bp .WRITING
  · exact ⟨c, rfl⟩

theorem readIn_total (hio : Answers io) (c : Cache σ) (bp : BufPtr) (dev : Nat)
    (flag : SearchFlag) : ∃ c', readIn io c bp dev flag = some c' := by
  unfold readIn
  split
  · exact rwBlock_total hio c bp .READING
  · exact ⟨c, rfl⟩

theorem Linked.oldestFree_total (h : Linked c usable hashed L H)
    (hfree : ∃ bp, usable bp ∧ ¬c.bCount bp > 0) : ∃ bp, FS.oldestFree c = some bp := by
  obtain ⟨b, hu, hb⟩ := hfree
  obtain ⟨r, hr, hs⟩ := Option.map_eq_some_iff.mp
    (search_find (p := fun bp => ¬c.bCount bp > 0) none h.lru.fwd (length_lt_of_chain h.lru.fwd))
  unfold FS.oldestFree
  rw [hr, Option.bind_some, hs]
  refine Option.isSome_iff_exists.mp ?_
  rw [List.find?_isSome]
  exact ⟨b, (h.lru_mem b).mpr hu, decide_eq_true hb⟩

/-- `get_block` returns as long as a buffer can be had. -/
theorem Linked.getBlock_total (h : Linked c usable usable L H) (hio : Answers io)
    (hroom : Room usable c) (dev block : Nat) (flag : SearchFlag) :
    ∃ bp c', FS.getBlock io c dev block flag = some (bp, c') := by
  have htake : ∃ bp c', FS.takeBlock io c dev block flag = some (bp, c') := by
    have hc : Linked { c with bufsInUse := c.bufsInUse + 1 } usable usable L H :=
      ⟨h.lru, h.lru_mem, h.hash, h.hash_mem, h.unique, h.unusable⟩
    obtain ⟨bp, hold⟩ := hc.oldestFree_total hroom.free
    obtain ⟨bHash, bufHash, hun, -⟩ := hc.unhash (hc.oldestFree hold).1
    obtain ⟨c₂, hw⟩ := writeBack_total hio { c with
      bufsInUse := c.bufsInUse + 1, bHash := bHash, bufHash := bufHash } bp
    obtain ⟨c₃, hr⟩ := readIn_total hio (FS.rehash c₂ bp dev block) bp dev flag
    refine ⟨bp, c₃, ?_⟩
    unfold FS.takeBlock
    rw [if_neg hroom.spare]
    simp only [hold, hun, hw, hr, Option.bind_eq_bind, Option.bind_some]
    rfl
  obtain ⟨r, hfind, -, -⟩ := h.findBlock dev block
  unfold FS.getBlock
  rw [hfind]
  by_cases hd : dev ≠ NO_DEV
  · rw [if_pos hd]
    cases r with
    | some bp => exact ⟨_, _, rfl⟩
    | none => exact htake
  · rw [if_neg hd]
    exact htake

theorem putBlock_total (hio : Answers io) (c : Cache σ) (bp : Option BufPtr) (blockType : Nat) :
    ∃ c', putBlock io c bp blockType = some c' := by
  cases bp with
  | none => exact ⟨c, rfl⟩
  | some bp =>
    unfold putBlock
    dsimp only
    split
    · exact ⟨_, rfl⟩
    · obtain ⟨c', hc'⟩ : ∃ c', (if blockType &&& WRITE_IMMED ≠ 0 then writeBack io (requeue
            { c with bCount := update c.bCount bp (c.bCount bp - 1) } bp blockType) bp
          else some (requeue
            { c with bCount := update c.bCount bp (c.bCount bp - 1) } bp blockType)) = some c' := by
        split
        · exact writeBack_total hio _ bp
        · exact ⟨_, rfl⟩
      rw [hc']
      exact ⟨_, rfl⟩

/-- Releasing a buffer undoes what fetching it has done to the numbers of users. -/
theorem Taken.put {c₀ : Cache σ} (h : Taken c₀ c bp) (hu : Users 126 c₀) {blockType : Nat}
    (he : putBlock io c (some bp) blockType = some c') : SameUse c₀ c' := by
  have hcount : c.bCount bp = c₀.bCount bp + 1 := by rw [h.count, update_self]
  have hback : c.bCount bp - 1 = c₀.bCount bp := by
    have hone : (1 : Int8).toInt = 1 := rfl
    have hsucc := count_succ (n := c₀.bCount bp) (Int.lt_of_le_of_lt (hu bp).2 (by decide))
    refine Int8.toInt.inj ?_
    rw [hcount, count_pred (by have := (hu bp).1; omega), hsucc, Int.add_sub_cancel]
  have hundo : update c.bCount bp (c.bCount bp - 1) = c₀.bCount := by
    rw [hback, h.count, update_idem, update_eq_self]
  unfold putBlock at he
  dsimp only at he
  rw [hundo] at he
  split at he
  · rename_i hstill
    obtain rfl := Option.some.inj he
    refine ⟨rfl, ?_⟩
    dsimp only at hstill ⊢
    rw [h.bufs, if_pos hstill]
  · rename_i hfree
    obtain ⟨c₁, hw, rfl⟩ := Option.map_eq_some_iff.mp he
    have hc₁ : SameUse c₀ c₁ := by
      obtain ⟨hcount', hbufs⟩ := requeue_use { c with bCount := c₀.bCount } bp blockType
      have hq : SameUse c₀ (requeue { c with bCount := c₀.bCount } bp blockType) := by
        refine ⟨hcount', hbufs.trans ?_⟩
        dsimp only at hfree ⊢
        rw [h.bufs, if_neg hfree, Int16.add_sub_cancel]
      split at hw
      · exact hq.trans (writeBack_sameUse hw)
      · exact Option.some.inj hw ▸ hq
    split
    · exact ⟨hc₁.1, hc₁.2⟩
    · exact hc₁

theorem flatDevice_answers : Answers Store.flatDevice := fun flag dev pos data w => by
  cases flag with
  | READING => exact ⟨(BLOCK_SIZE, w dev (pos / BLOCK_SIZE), w), rfl⟩
  | WRITING => exact ⟨(BLOCK_SIZE, data, w.set dev (pos / BLOCK_SIZE) data), rfl⟩

/-- Nothing is in use after `buf_pool`. -/
theorem init_room (w : Flat) : Room (Usable 0) (Store.init id 0 (fun _ _ => 0) w).cache := by
  obtain ⟨hcount, hbufs⟩ := bufPool_use 0 (fun _ _ => 0) w
  generalize hc : (Store.init id 0 (fun _ _ => 0) w).cache = c
  have hcount' : c.bCount = fun _ => 0 := hc ▸ hcount
  have hbufs' : c.bufsInUse = 0 := hc ▸ hbufs
  refine ⟨?_, ⟨0, (by decide : ∀ b, Usable 0 b) 0, ?_⟩, fun b => ?_⟩
  · rw [hbufs']
    decide
  · rw [hcount']
    decide
  · rw [hcount']
    exact (by decide : 0 ≤ (0 : Int8).toInt ∧ (0 : Int8).toInt ≤ 126)

/-- log2 of blocks/zone. -/
def scaleOf (sp : Super) : Nat := sp.sLogZoneSize.toNat

/-- Where `load_bit_maps` finds the blocks of the zone map. -/
def zmapBlock (sp : Super) (b : Nat) : Nat := SUPER_BLOCK + 1 + sp.sImapBlocks + b

/-- The layout of a device: its zone map is loaded and has a bit for every data zone, the blocks
have numbers of 16 bits, and the maps lie before the data. -/
structure Layout (sp : Super) : Prop where
  mounted : sp.sDev ≠ NO_DEV
  scale : 0 ≤ sp.sLogZoneSize
  ptrs : MapPtrs (zmapPtr sp) sp.sZmapBlocks
  first : 1 ≤ sp.sFirstdatazone
  data : sp.sFirstdatazone ≤ sp.sNzones
  nzones : sp.sNzones < 65536
  bits : sp.sNzones - sp.sFirstdatazone + 1 ≤ sp.sZmapBlocks * BLOCK_BITS
  fits : sp.sNzones <<< scaleOf sp ≤ 65536
  maps : zmapBlock sp sp.sZmapBlocks ≤ sp.sFirstdatazone <<< scaleOf sp

/-- A bit of the zone map, as it is in the store. -/
def mapBit (m : Flat) (sp : Super) (bit : Nat) : Bool :=
  (wordAt (m sp.sDev (zmapBlock sp (bit / BLOCK_BITS))) (wordOf bit)).getLsbD (bit % INT_BITS)

/-- This is the number of a data zone. -/
def DataZone (sp : Super) (z : Nat) : Prop := sp.sFirstdatazone ≤ z ∧ z < sp.sNzones

instance (sp : Super) (z : Nat) : Decidable (DataZone sp z) := inferInstanceAs (Decidable (_ ∧ _))

/-- A zone is marked as busy. -/
def Busy (m : Flat) (sp : Super) (z : Nat) : Prop := mapBit m sp (zoneBit sp z) = true

/-- The cache holds the store `m` of a mounted device. -/
structure Mounted (disk : σ → Flat) (usable : BufPtr → Prop) (sp : Super) (m : Flat)
    (c : Cache σ) : Prop where
  linked : ∃ L H, Linked c usable usable L H
  coherent : Coherent disk c m fun _ => True
  pinned : ∀ b < sp.sZmapBlocks, ∀ bp, zmapPtr sp b = .of bp →
    c.bCount bp > 0 ∧ c.bDev bp = sp.sDev ∧ c.bBlocknr bp = zmapBlock sp b
  zero : mapBit m sp 0 = true

variable {sp : Super}

theorem Layout.zoneBlock_eq (hlay : Layout sp) {z : Nat} (hz : z < sp.sNzones) :
    zoneBlock z (scaleOf sp) = z <<< scaleOf sp := by
  refine unshort_of_lt ((?_ : z <<< scaleOf sp < sp.sNzones <<< scaleOf sp).trans_le hlay.fits)
  rw [Nat.shiftLeft_eq, Nat.shiftLeft_eq]
  exact Nat.mul_lt_mul_of_pos_right hz (Nat.two_pow_pos _)

theorem Layout.dataZone_ne (hlay : Layout sp) {z : Nat} (hz : DataZone sp z) : z ≠ NO_ZONE := by
  rintro rfl
  exact absurd (hlay.first.trans hz.1) (by decide)

/-- Data zones lie behind the maps. -/
theorem Layout.zmapBlock_lt (hlay : Layout sp) {z b : Nat} (hz : DataZone sp z)
    (hb : b < sp.sZmapBlocks) : zmapBlock sp b < zoneBlock z (scaleOf sp) := by
  have hmaps := hlay.maps
  rw [hlay.zoneBlock_eq hz.2]
  have hle : sp.sFirstdatazone <<< scaleOf sp ≤ z <<< scaleOf sp := by
    rw [Nat.shiftLeft_eq, Nat.shiftLeft_eq]
    exact Nat.mul_le_mul_right _ hz.1
  unfold zmapBlock at *
  omega

/-- Different zones have different first blocks. -/
theorem Layout.zoneBlock_inj (hlay : Layout sp) {z z' : Nat} (hz : z < sp.sNzones)
    (hz' : z' < sp.sNzones) (h : zoneBlock z (scaleOf sp) = zoneBlock z' (scaleOf sp)) :
    z = z' := by
  rw [hlay.zoneBlock_eq hz, hlay.zoneBlock_eq hz', Nat.shiftLeft_eq, Nat.shiftLeft_eq] at h
  exact Nat.eq_of_mul_eq_mul_right (Nat.two_pow_pos _) h

theorem Layout.bit_lt (hlay : Layout sp) {z : Nat} (hz : DataZone sp z) :
    zoneBit sp z < sp.sZmapBlocks * BLOCK_BITS ∧ zoneBit sp z ≠ 0 := by
  have hfirst := hlay.first
  have hnz := hlay.nzones
  have hbits := hlay.bits
  obtain ⟨hle, hlt⟩ := hz
  unfold zoneBit unshort
  simp only [BLOCK_BITS] at *
  omega

theorem Layout.zoneBit_inj (hlay : Layout sp) {z z' : Nat} (hz : DataZone sp z)
    (hz' : DataZone sp z') (h : zoneBit sp z = zoneBit sp z') : z = z' := by
  have hfirst := hlay.first
  have hnz := hlay.nzones
  obtain ⟨hle, hlt⟩ := hz
  obtain ⟨hle', hlt'⟩ := hz'
  unfold zoneBit unshort at h
  omega

/-- A store that misses the zone map. -/
theorem mapBit_set {block n : Nat} (hn : n < sp.sZmapBlocks * BLOCK_BITS)
    (hb : ∀ b < sp.sZmapBlocks, zmapBlock sp b ≠ block) (data : Block) :
    mapBit (m.set sp.sDev block data) sp n = mapBit m sp n := by
  have hlt : n / BLOCK_BITS < sp.sZmapBlocks := Nat.div_lt_of_lt_mul (Nat.mul_comm .. ▸ hn)
  unfold mapBit
  rw [Flat.set_of_ne fun h => hb _ hlt h.2]

namespace Mounted

variable (h : Mounted disk usable sp m c) (hlay : Layout sp)

include h hlay

/-- The zone map can be read off the store. -/
theorem bitSet_eq {n : Nat} (hn : n < sp.sZmapBlocks * BLOCK_BITS) :
    bitSet c (zmapPtr sp) n = mapBit m sp n := by
  have hlt : n / BLOCK_BITS < sp.sZmapBlocks := Nat.div_lt_of_lt_mul (Nat.mul_comm .. ▸ hn)
  obtain ⟨bp, hbp⟩ := hlay.ptrs.buf _ hlt
  obtain ⟨-, hdev, hblock⟩ := h.pinned _ hlt bp hbp
  have hdata := h.coherent.cached bp trivial (hdev ▸ hlay.mounted)
  rw [hdev, hblock] at hdata
  simp only [bitSet, mapBit, hbp, hdata]

theorem zoneMap : ZoneMap c sp := by
  refine ⟨hlay.ptrs, hlay.first, hlay.data, hlay.nzones, hlay.bits, ?_⟩
  rw [h.bitSet_eq hlay, h.zero]
  have := hlay.bits
  simp only [BLOCK_BITS] at *
  omega

end Mounted

/-- A block outside the zone map. -/
def OffMap (sp : Super) (block : Nat) : Prop := ∀ b < sp.sZmapBlocks, zmapBlock sp b ≠ block

theorem Layout.offMap (hlay : Layout sp) {z : Nat} (hz : DataZone sp z) :
    OffMap sp (zoneBlock z (scaleOf sp)) := fun _ hb => (hlay.zmapBlock_lt hz hb).ne

theorem Layout.mapBit_zero (hlay : Layout sp) {block : Nat} (hoff : OffMap sp block)
    (data : Block) : mapBit (m.set sp.sDev block data) sp 0 = mapBit m sp 0 := by
  refine mapBit_set ?_ hoff data
  have := hlay.bits
  simp only [BLOCK_BITS] at *
  omega

/-- A buffer has been fetched for a block since `c₀`. -/
structure Holding (usable : BufPtr → Prop) (sp : Super) (c₀ : Cache σ) (bp : BufPtr) (block : Nat)
    (c : Cache σ) : Prop where
  taken : Taken c₀ c bp
  usable : usable bp
  dev : c.bDev bp = sp.sDev
  block : c.bBlocknr bp = block

/-- What a store into a buffer does not change. -/
theorem Holding.storeBuf {c₀ : Cache σ} {block : Nat} (h : Holding usable sp c₀ bp block c)
    (b : BufPtr) (data : Block) : Holding usable sp c₀ bp block (FS.storeBuf c b data) :=
  ⟨⟨h.taken.count, h.taken.bufs⟩, h.usable, h.dev, h.block⟩

theorem SameUse.storeBuf {c₀ : Cache σ} (h : SameUse c₀ c) (b : BufPtr) (data : Block) :
    SameUse c₀ (FS.storeBuf c b data) := ⟨h.1, h.2⟩

theorem Taken.of_same {c₀ : Cache σ} (h : Taken c c' bp) (hs : SameUse c₀ c) : Taken c₀ c' bp := by
  refine ⟨?_, ?_⟩
  · rw [h.count, hs.1]
  · rw [h.bufs, hs.1, hs.2]

/-- A buffer that is fetched keeps the users it has. -/
theorem Taken.pos (h : Taken c c' bp) (hu : Users 126 c) {b : BufPtr} (hb : c.bCount b > 0) :
    c'.bCount b > 0 := by
  rw [h.count, update_apply]
  split
  · rename_i he
    have hpos := (count_pos_iff _).mp hb
    have hle := (hu bp).2
    rw [he] at hpos
    refine (count_pos_iff _).mpr ?_
    rw [count_succ (by omega)]
    omega
  · exact hb

theorem Holding.of_same {c₀ : Cache σ} {block : Nat} (h : Holding usable sp c bp block c')
    (hs : SameUse c₀ c) : Holding usable sp c₀ bp block c' :=
  ⟨h.taken.of_same hs, h.usable, h.dev, h.block⟩

namespace Mounted

section Calls

variable (h : Mounted disk usable sp m c)

include h

/-- What a call keeps that leaves the buffers of the zone map alone. -/
theorem of_frame {m' : Flat} (hl : ∃ L H, Linked c' usable usable L H)
    (hc : Coherent disk c' m' fun _ => True)
    (hframe : ∀ b < sp.sZmapBlocks, ∀ bp, zmapPtr sp b = .of bp →
      c'.bCount bp > 0 ∧ c'.bDev bp = c.bDev bp ∧ c'.bBlocknr bp = c.bBlocknr bp)
    (hzero : mapBit m' sp 0 = mapBit m sp 0) : Mounted disk usable sp m' c' := by
  refine ⟨hl, hc, fun b hb bp hbp => ?_, hzero.trans h.zero⟩
  obtain ⟨-, hdev, hblock⟩ := h.pinned b hb bp hbp
  obtain ⟨hpos', hdev', hblock'⟩ := hframe b hb bp hbp
  exact ⟨hpos', hdev'.trans hdev, hblock'.trans hblock⟩

/-- `get_block` with `NORMAL`. -/
theorem getBlock (hio : Works io disk) (hans : Answers io) (hroom : Room usable c) (block : Nat) :
    ∃ bp c', FS.getBlock io c sp.sDev block .NORMAL = some (bp, c') ∧
      Mounted disk usable sp m c' ∧ Holding usable sp c bp block c' := by
  obtain ⟨L, H, hl⟩ := h.linked
  obtain ⟨bp, c', he⟩ := hl.getBlock_total hans hroom sp.sDev block .NORMAL
  obtain ⟨hc, hname, -⟩ := h.coherent.get hl hio he
  obtain ⟨hu, H', hl'⟩ := hl.getBlock he
  have ht := getBlock_taken hroom.users he
  refine ⟨bp, c', he, h.of_frame ⟨L, H', hl'⟩ hc (fun b hb p hp => ?_) rfl,
    ht, hu, hname.dev, hname.block⟩
  have hpos := (h.pinned b hb p hp).1
  exact ⟨ht.pos hroom.users hpos, hname.frame p hpos⟩

/-- `put_block` gives back what was taken. -/
theorem putBlock (hio : Works io disk) (hans : Answers io) {c₀ : Cache σ} (hu : Users 126 c₀)
    {block : Nat} (hh : Holding usable sp c₀ bp block c) (hoff : OffMap sp block)
    (blockType : Nat) : ∃ c', FS.putBlock io c (some bp) blockType = some c' ∧
      Mounted disk usable sp m c' ∧ SameUse c₀ c' := by
  obtain ⟨L, H, hl⟩ := h.linked
  obtain ⟨c', he⟩ := putBlock_total hans c (some bp) blockType
  obtain ⟨hc, -, hname⟩ := h.coherent.put hio he
  obtain ⟨L', hl'⟩ := hl.putBlock (fun b hb => Option.some.inj hb ▸ hh.usable) he
  have hsame := hh.taken.put hu he
  refine ⟨c', he, h.of_frame ⟨L', H, hl'⟩ hc (fun b hb p hp => ?_) rfl, hsame⟩
  obtain ⟨hpos, -, hblock⟩ := h.pinned b hb p hp
  have hne : p ≠ bp := fun e => hoff b hb (hblock.symm.trans (e ▸ hh.block))
  have hpos' : c'.bCount p > 0 := by
    rw [hsame.1]
    rwa [hh.taken.count, update_of_ne hne] at hpos
  exact ⟨hpos', hname p hpos'⟩

variable (hlay : Layout sp)

include hlay

/-- What a buffer holds. -/
theorem holds {c₀ : Cache σ} {block : Nat} (hh : Holding usable sp c₀ bp block c) :
    c.bData bp = m sp.sDev block := by
  have hdata := h.coherent.cached bp trivial (hh.dev ▸ hlay.mounted)
  rwa [hh.dev, hh.block] at hdata

/-- `get_block` with `NO_READ`, before the buffer is filled. -/
theorem getNew (hio : Works io disk) (hans : Answers io) (hroom : Room usable c) {block : Nat}
    (hoff : OffMap sp block) : ∃ bp c', FS.getBlock io c sp.sDev block .NO_READ = some (bp, c') ∧
      Holding usable sp c bp block c' ∧
      ∀ data, Mounted disk usable sp (m.set sp.sDev block data) (FS.storeBuf c' bp data) := by
  obtain ⟨L, H, hl⟩ := h.linked
  obtain ⟨bp, c', he⟩ := hl.getBlock_total hans hroom sp.sDev block .NO_READ
  obtain ⟨hu, H', hl'⟩ := hl.getBlock he
  have ht := getBlock_taken hroom.users he
  have hname := (h.coherent.overwrite hl hio he fun _ => 0).2
  refine ⟨bp, c', he, ⟨ht, hu, hname.dev, hname.block⟩, fun data => ?_⟩
  refine h.of_frame ⟨L, H', hl'.lru, hl'.lru_mem, hl'.hash, hl'.hash_mem, hl'.unique,
    hl'.unusable⟩ (h.coherent.overwrite hl hio he data).1 (fun b hb p hp => ?_)
    (hlay.mapBit_zero hoff data)
  have hpos := (h.pinned b hb p hp).1
  exact ⟨ht.pos hroom.users hpos, hname.frame p hpos⟩

/-- A store into a buffer that holds a block outside the zone map. -/
theorem storeBuf {block : Nat} (hdev : c.bDev bp = sp.sDev) (hblock : c.bBlocknr bp = block)
    (hoff : OffMap sp block) (data : Block) :
    Mounted disk usable sp (m.set sp.sDev block data) (FS.storeBuf c bp data) := by
  obtain ⟨L, H, hl⟩ := h.linked
  have hc := h.coherent.store bp (fun _ _ => trivial) hl.unique data
  rw [hdev, hblock] at hc
  exact h.of_frame ⟨L, H, hl.lru, hl.lru_mem, hl.hash, hl.hash_mem, hl.unique, hl.unusable⟩ hc
    (fun b hb p hp => ⟨(h.pinned b hb p hp).1, rfl, rfl⟩) (hlay.mapBit_zero hoff data)

end Calls

end Mounted

/-- One free zone becomes busy, and nothing else changes. -/
structure Claims (sp : Super) (m m' : Flat) (z : Nat) : Prop where
  zone : DataZone sp z
  free : ¬Busy m sp z
  busy : ∀ z', DataZone sp z' → (Busy m' sp z' ↔ Busy m sp z' ∨ z' = z)
  frame : ∀ dev block, (dev = sp.sDev → OffMap sp block) → m' dev block = m dev block

/-- `alloc_zone` finds a free zone if there is one. It stores into the zone map only. -/
theorem Mounted.allocZone (hlay : Layout sp) {sup : SuperPtr → Super}
    (hsup : (getSuper sup sp.sDev).map sup = some sp) {s : Work σ}
    (h : Mounted disk usable sp m s.cache) (near : Nat) :
    ∃ z s', FS.allocZone sup sp.sDev near s = some (z, s') ∧ s'.rip = s.rip ∧
      (z = NO_ZONE ∧ s'.cache = s.cache ∧ s'.errCode = ENOSPC ∧
        (∀ z, DataZone sp z → Busy m sp z) ∨
      z ≠ NO_ZONE ∧ s'.errCode = s.errCode ∧ ∃ m' bp data, Claims sp m m' z ∧
        s'.cache = FS.storeBuf s.cache bp data ∧ Mounted disk usable sp m' s'.cache) := by
  have hz := h.zoneMap hlay
  obtain ⟨z, s', he, hrip, hcase⟩ := hz.allocZone_spec hsup near s.rip s.errCode
  refine ⟨z, s', he, hrip, ?_⟩
  rcases hcase with ⟨rfl, rfl, hfull⟩ | ⟨hle, hlt, herr, bp, htaken⟩
  · refine Or.inl ⟨rfl, rfl, rfl, fun z hdz => ?_⟩
    have hb := hfull z hdz.1 hdz.2
    rwa [zoneBusy, h.bitSet_eq hlay (hlay.bit_lt hdz).1] at hb
  · have hdz : DataZone sp z := ⟨hle, hlt⟩
    obtain ⟨hbit, hbit0⟩ := hlay.bit_lt hdz
    obtain ⟨L, H, hl⟩ := h.linked
    have hblk : zoneBit sp z / BLOCK_BITS < sp.sZmapBlocks :=
      Nat.div_lt_of_lt_mul (Nat.mul_comm .. ▸ hbit)
    obtain ⟨hpos, hdev, hblock⟩ := h.pinned _ hblk bp htaken.block
    obtain ⟨data, hdata⟩ : ∃ data, s'.cache = FS.storeBuf s.cache bp data :=
      ⟨s'.cache.bData bp, htaken.frame⟩
    have hc := h.coherent.store bp (fun _ _ => trivial) hl.unique data
    rw [hdev, hblock] at hc
    generalize hm' : m.set sp.sDev (zmapBlock sp (zoneBit sp z / BLOCK_BITS)) data = m' at hc
    -- the new map is the one that `alloc_bit` leaves in the buffers
    have hpin : ∀ b < sp.sZmapBlocks, ∀ p, zmapPtr sp b = .of p →
        s'.cache.bDev p = sp.sDev ∧ s'.cache.bBlocknr p = zmapBlock sp b := by
      intro b hb p hp
      rw [hdata]
      exact (h.pinned b hb p hp).2
    have hbits : ∀ n < sp.sZmapBlocks * BLOCK_BITS,
        mapBit m' sp n = (mapBit m sp n || decide (n = zoneBit sp z)) := by
      intro n hn
      have hlt : n / BLOCK_BITS < sp.sZmapBlocks := Nat.div_lt_of_lt_mul (Nat.mul_comm .. ▸ hn)
      obtain ⟨p, hp⟩ := hlay.ptrs.buf _ hlt
      obtain ⟨hdev', hblock'⟩ := hpin _ hlt p hp
      have hcached := hc.cached p trivial
      rw [← hdata, hdev', hblock'] at hcached
      have hnew := htaken.bits n hn
      rw [h.bitSet_eq hlay hn] at hnew
      rw [← hnew]
      simp only [bitSet, mapBit, hp, hcached hlay.mounted]
    have hzero : mapBit m' sp 0 = mapBit m sp 0 := by
      rw [hbits 0 (by omega), decide_eq_false hbit0.symm, Bool.or_false]
    have hfree : ¬Busy m sp z := by
      have := htaken.clear
      rw [h.bitSet_eq hlay hbit] at this
      exact fun hb => absurd (hb.symm.trans this) (by decide)
    refine Or.inr ⟨fun h0 => ?_, herr, m', bp, data,
      ⟨hdz, hfree, fun z' hz' => ?_, fun d k hk => ?_⟩, hdata, ?_⟩
    · have := hlay.first
      rw [h0] at hle
      exact absurd (this.trans hle) (by decide)
    · unfold Busy
      rw [hbits _ (hlay.bit_lt hz').1, Bool.or_eq_true, decide_eq_true_iff]
      exact or_congr_right ⟨hlay.zoneBit_inj hz' hdz, fun e => e ▸ rfl⟩
    · rw [← hm']
      exact Flat.set_of_ne fun hn => hk hn.1 _ hblk hn.2.symm
    · rw [hdata] at hpin ⊢
      exact h.of_frame ⟨L, H, hl.lru, hl.lru_mem, hl.hash, hl.hash_mem, hl.unique, hl.unusable⟩ hc
        (fun b hb p hp => ⟨(h.pinned b hb p hp).1, rfl, rfl⟩) hzero

/-- One zone becomes free, and nothing else changes. -/
structure Frees (sp : Super) (m m' : Flat) (z : Nat) : Prop where
  busy : ∀ z', DataZone sp z' → (Busy m' sp z' ↔ Busy m sp z' ∧ z' ≠ z)
  frame : ∀ dev block, (dev = sp.sDev → OffMap sp block) → m' dev block = m dev block

/-- One bit of the zone map is reset. -/
theorem mapBit_drop {bit n : Nat} : mapBit (m.set sp.sDev (zmapBlock sp (bit / BLOCK_BITS))
      (setWord (m sp.sDev (zmapBlock sp (bit / BLOCK_BITS))) (wordOf bit)
        (wordAt (m sp.sDev (zmapBlock sp (bit / BLOCK_BITS))) (wordOf bit) &&&
          ~~~((1 : Word) <<< (bit % INT_BITS))))) sp n =
    (mapBit m sp n && !decide (n = bit)) := by
  have hlast (k : Nat) : k % INT_BITS < INT_BITS := Nat.mod_lt k (by decide)
  unfold mapBit
  by_cases hblock : n / BLOCK_BITS = bit / BLOCK_BITS
  · rw [hblock, Flat.set_self]
    by_cases hword : wordOf n = wordOf bit
    · rw [hword, wordAt_setWord_self, bit_drop _ (hlast bit) (hlast n)]
      congr 2
      refine decide_eq_decide.mpr ⟨fun he => ?_, fun he => he ▸ rfl⟩
      rw [bit_split n, bit_split bit, hblock, hword, he]
    · rw [wordAt_setWord_of_ne _ hword, decide_eq_false, Bool.not_false, Bool.and_true]
      rintro rfl
      exact hword rfl
  · rw [Flat.set_of_ne, decide_eq_false, Bool.not_false, Bool.and_true]
    · rintro rfl
      exact hblock rfl
    · rintro ⟨-, he⟩
      unfold zmapBlock at he
      omega

/-- `free_zone` of a busy zone stores into the zone map only. -/
theorem Mounted.freeZone (hlay : Layout sp) {sup : SuperPtr → Super}
    (hsup : (getSuper sup sp.sDev).map sup = some sp) (h : Mounted disk usable sp m c) {z : Nat}
    (hz : DataZone sp z) (hbusy : Busy m sp z) :
    ∃ m' bp data, FS.freeZone sup sp.sDev z c = some (FS.storeBuf c bp data) ∧ Frees sp m m' z ∧
      Mounted disk usable sp m' (FS.storeBuf c bp data) := by
  obtain ⟨L, H, hl⟩ := h.linked
  obtain ⟨hbit, hbit0⟩ := hlay.bit_lt hz
  have hblk : zoneBit sp z / BLOCK_BITS < sp.sZmapBlocks :=
    Nat.div_lt_of_lt_mul (Nat.mul_comm .. ▸ hbit)
  obtain ⟨bp, hbp⟩ := hlay.ptrs.buf _ hblk
  obtain ⟨-, hdev, hblock⟩ := h.pinned _ hblk bp hbp
  have hdata := h.coherent.cached bp trivial (hdev ▸ hlay.mounted)
  rw [hdev, hblock] at hdata
  have hset : ¬wordAt (c.bData bp) (wordOf (zoneBit sp z)) >>> (zoneBit sp z % INT_BITS) &&& 1 =
      0 := by
    rw [bit_clear_iff, hdata]
    exact fun hclear => absurd (hclear.symm.trans hbusy) (by decide)
  have hshift : zoneBit sp z >>> BIT_MAP_SHIFT = zoneBit sp z / BLOCK_BITS :=
    Nat.shiftRight_eq_div_pow ..
  obtain ⟨data, hset'⟩ : ∃ data, data = setWord
      (m sp.sDev (zmapBlock sp (zoneBit sp z / BLOCK_BITS))) (wordOf (zoneBit sp z))
      (wordAt (m sp.sDev (zmapBlock sp (zoneBit sp z / BLOCK_BITS))) (wordOf (zoneBit sp z)) &&&
        ~~~((1 : Word) <<< (zoneBit sp z % INT_BITS))) := ⟨_, rfl⟩
  have hbits (n : Nat) :
      mapBit (m.set sp.sDev (zmapBlock sp (zoneBit sp z / BLOCK_BITS)) data) sp n =
        (mapBit m sp n && !decide (n = zoneBit sp z)) := hset' ▸ mapBit_drop
  have hc := h.coherent.store bp (fun _ _ => trivial) hl.unique data
  rw [hdev, hblock] at hc
  refine ⟨m.set sp.sDev (zmapBlock sp (zoneBit sp z / BLOCK_BITS)) data, bp, data, ?_,
    ⟨fun z' hz' => ?_, fun d k hk => Flat.set_of_ne fun hn => hk hn.1 _ hblk hn.2.symm⟩,
    h.of_frame ⟨L, H, hl.lru, hl.lru_mem, hl.hash, hl.hash_mem, hl.unique, hl.unusable⟩ hc
      (fun b hb p hp => ⟨(h.pinned b hb p hp).1, rfl, rfl⟩) ?_⟩
  · unfold FS.freeZone freeBit
    rw [if_neg (hlay.dataZone_ne hz), hsup, Option.bind_eq_bind, Option.bind_some]
    dsimp only
    rw [hshift, hbp]
    dsimp only
    rw [if_neg hset, hdata, hset']
  · unfold Busy
    rw [hbits, Bool.and_eq_true, Bool.not_eq_true', decide_eq_false_iff_not]
    exact and_congr_right fun _ => not_congr ⟨hlay.zoneBit_inj hz' hz, fun e => e ▸ rfl⟩
  · rw [hbits, decide_eq_false hbit0.symm, Bool.not_false, Bool.and_true]

end Minix.FS
