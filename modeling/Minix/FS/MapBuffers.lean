import Minix.FS.BitMaps
import Minix.FS.CacheChains

/-!
# Buffers in use

`bufs_in_use` counts the buffers that somebody has got and not put back. The bit maps of a device
are blocks that stay in use from `load_bit_maps` to `unload_bit_maps`.
-/

namespace Minix.FS

open Function Inodes Transition

/-- block number of super block -/
abbrev SUPER_BLOCK : Nat := 1

/-- What the blocks of the inode bit map are released as. -/
abbrev I_MAP_BLOCK : Nat := 3 + WRITE_IMMED + ONE_SHOT

/-- What the blocks of the free zone map are released as. -/
abbrev ZMAP_BLOCK : Nat := 4 + WRITE_IMMED + ONE_SHOT

variable {σ : Type}

/-- `s_imap[b]`. -/
def imapPtr (sp : Super) (b : Nat) : Link BufPtr :=
  if h : b < I_MAP_SLOTS then sp.sImap ⟨b, h⟩ else .wild

/-- Load a map of `n` blocks from the disk. -/
def loadMap (io : DevIo σ) (dev base n : Nat) {slots : Nat} (map : Fin slots → Link BufPtr)
    (c : Cache σ) : Option ((Fin slots → Link BufPtr) × Cache σ) :=
  ((List.finRange slots).take n).foldlM (fun r (i : Fin slots) =>
    (getBlock io r.2 dev (base + i.val) .NORMAL).map fun got => (update r.1 i (.of got.1), got.2))
    (map, c)

/-- Mark bits of the first word of a map as busy. The block is not marked as dirty. -/
def markBusy (bits : Word) : Link BufPtr → Cache σ → Option (Cache σ)
  | .of bp, c => some { c with
      bData := update c.bData bp (setWord (c.bData bp) 0 (wordAt (c.bData bp) 0 ||| bits)) }
  | _, _ => none

/-- Load the bit maps of a device into the cache and set up its super block. The result says whether
there were buffers enough, and where the maps are. -/
def loadBitMaps (io : DevIo σ) (sp : Super) (c : Cache σ) :
    Option ((Bool × (Fin I_MAP_SLOTS → Link BufPtr) × (Fin ZMAP_SLOTS → Link BufPtr)) × Cache σ) :=
  if unshort (c.bufsInUse.toInt + sp.sImapBlocks + sp.sZmapBlocks) ≥ NR_BUFS - 3 then
    some ((false, sp.sImap, sp.sZmap), c) -- insufficient buffers left for bit maps
  else if sp.sImapBlocks > I_MAP_SLOTS ∨ sp.sZmapBlocks > ZMAP_SLOTS then
    none -- panic: "too many map blocks"
  else do
    let (imap, c) ← loadMap io sp.sDev (SUPER_BLOCK + 1) sp.sImapBlocks sp.sImap c
    let zbase := SUPER_BLOCK + 1 + sp.sImapBlocks
    let (zmap, c) ← loadMap io sp.sDev zbase sp.sZmapBlocks sp.sZmap c
    let c ← markBusy 3 (imap 0) c -- inodes 0, 1 busy
    let c ← markBusy 1 (zmap 0) c -- zone 0 busy
    let blocks := Int16.ofNat (sp.sImapBlocks + sp.sZmapBlocks)
    return ((true, imap, zmap), { c with bufsInUse := c.bufsInUse + blocks })

/-- The blocks of the maps of a device, and how they are released. -/
def mapBlocks (sp : Super) : List (Link BufPtr × Nat) :=
  (List.range sp.sImapBlocks).map (fun i => (imapPtr sp i, I_MAP_BLOCK)) ++
    (List.range sp.sZmapBlocks).map fun i => (zmapPtr sp i, ZMAP_BLOCK)

/-- Release blocks, by pointers that may be nil. -/
def putBlocks (io : DevIo σ) : List (Link BufPtr × Nat) → Cache σ → Option (Cache σ)
  | [], c => some c
  | (.nil, _) :: l, c => putBlocks io l c
  | (.of bp, blockType) :: l, c => (putBlock io c (some bp) blockType).bind (putBlocks io l)
  | (.wild, _) :: _, _ => none

/-- Unload the bit maps so a device can be unmounted. -/
def unloadBitMaps (io : DevIo σ) (sp : Super) (c : Cache σ) : Option (Cache σ) :=
  let blocks := Int16.ofNat (sp.sImapBlocks + sp.sZmapBlocks)
  putBlocks io (mapBlocks sp) { c with bufsInUse := c.bufsInUse - blocks }

/-- How many buffers have users. -/
def inUse (c : Cache σ) : Nat := ∑ bp, if c.bCount bp > 0 then 1 else 0

/-! ## What each operation does to the count -/

/-- By how much `bufs_in_use` is ahead of the number of buffers that have users. -/
def ahead (c : Cache σ) : Int := c.bufsInUse.toInt - inUse c

/-- Every buffer has between none and `k` users. -/
def Users (k : Int) (c : Cache σ) : Prop :=
  ∀ bp, 0 ≤ (c.bCount bp).toInt ∧ (c.bCount bp).toInt ≤ k

/-- Nothing that counts users has changed. -/
def SameUse (c c' : Cache σ) : Prop := c'.bCount = c.bCount ∧ c'.bufsInUse = c.bufsInUse

section Use

variable {io : DevIo σ} {c c' : Cache σ} {bp : BufPtr} {k : Int}

/-- Two steps that leave the use of the buffers alone. -/
theorem SameUse.trans {c₁ c₂ c₃ : Cache σ} (h : SameUse c₁ c₂) (h' : SameUse c₂ c₃) :
    SameUse c₁ c₃ := ⟨h'.1.trans h.1, h'.2.trans h.2⟩

/-- The counter is as far ahead as before. -/
theorem SameUse.ahead (h : SameUse c c') : ahead c' = FS.ahead c := by
  unfold FS.ahead inUse
  rw [h.1, h.2]

/-- Each buffer has as many users. -/
theorem SameUse.users (h : SameUse c c') (hu : Users k c) : Users k c' := by
  unfold Users
  rw [h.1]
  exact hu

/-- Reading or writing a block gives nobody a buffer. -/
theorem rwBlock_sameUse {flag : RwFlag} (he : rwBlock io c bp flag = some c') : SameUse c c' := by
  obtain ⟨data, dev, err, w, rfl, -⟩ := rwBlock_spec he
  exact ⟨rfl, rfl⟩

/-- Nor does writing the old block back. -/
theorem writeBack_sameUse (he : writeBack io c bp = some c') : SameUse c c' := by
  unfold writeBack at he
  split at he
  · exact rwBlock_sameUse he
  · exact Option.some.inj he ▸ ⟨rfl, rfl⟩

/-- Nor does reading the new one in. -/
theorem readIn_sameUse {dev : Nat} {flag : SearchFlag} (he : readIn io c bp dev flag = some c') :
    SameUse c c' := by
  unfold readIn at he
  split at he
  · exact rwBlock_sameUse he
  · exact Option.some.inj he ▸ ⟨rfl, rfl⟩

/-- Nor does taking a buffer off its hash chain. -/
theorem unhash_sameUse (he : unhash c bp = some c') : SameUse c c' := by
  obtain ⟨r, -, rfl⟩ := Option.map_eq_some_iff.mp he
  exact ⟨rfl, rfl⟩

/-- Nor does the sweep that writes all dirty blocks. -/
theorem sweep_sameUse {minorZero : Bool} {l : List BufPtr} :
    ∀ {c : Cache σ}, flushSweep io minorZero l c = some c' → SameUse c c' := by
  induction l with
  | nil => exact fun he => Option.some.inj he ▸ ⟨rfl, rfl⟩
  | cons bp l ih =>
    intro c he
    unfold flushSweep at he
    dsimp only at he
    split at he
    · obtain ⟨c₁, h₁, he⟩ := Option.bind_eq_some_iff.mp he
      exact (rwBlock_sameUse h₁).trans (ih he)
    · exact ih he

/-- Nor `flush` as a whole. -/
theorem flushBlocks_sameUse (he : flushBlocks io c = some c') : SameUse c c' := by
  obtain ⟨c₁, h₁, he⟩ := Option.bind_eq_some_iff.mp he
  exact (sweep_sameUse h₁).trans (sweep_sameUse he)

/-- A buffer is in use if it has users. -/
theorem count_pos_iff (n : Int8) : n > 0 ↔ 0 < n.toInt := Int8.lt_iff_toInt_lt

/-- One user more, while the count is below 127. -/
theorem count_succ {n : Int8} (h : n.toInt < 127) : (n + 1).toInt = n.toInt + 1 := by
  have hlow := n.le_toInt
  have hone : (1 : Int8).toInt = 1 := rfl
  rw [Int8.toInt_add, hone]
  exact Int.bmod_eq_of_le (by omega) (by omega)

/-- One user less, while there is one. -/
theorem count_pred {n : Int8} (h : 0 < n.toInt) : (n - 1).toInt = n.toInt - 1 := by
  have hlow := n.le_toInt
  have hhigh := n.toInt_lt
  have hone : (1 : Int8).toInt = 1 := rfl
  rw [Int8.toInt_sub, hone]
  exact Int.bmod_eq_of_le (by omega) (by omega)

/-- The number of buffers in use, when one has other users. -/
theorem inUse_update (c : Cache σ) (bp : BufPtr) (n : Int8) (h : c'.bCount = update c.bCount bp n) :
    inUse c' + (if c.bCount bp > 0 then 1 else 0) = inUse c + if n > 0 then 1 else 0 := by
  unfold inUse
  rw [h]
  exact sum_update c.bCount bp n fun _ n => if n > 0 then 1 else 0

/-- The buffer at the front of the LRU chain has no user. -/
theorem oldestFree_free (he : oldestFree c = some bp) : ¬c.bCount bp > 0 := by
  obtain ⟨⟨q, r⟩, hs, hr⟩ := Option.bind_eq_some_iff.mp he
  obtain rfl : r = some bp := hr
  have hp := Intrusive.search_sound hs
  exact of_decide_eq_true hp

/-- One more user of one buffer, which `bufs_in_use` counts if it is the first. -/
structure Taken (c c' : Cache σ) (bp : BufPtr) : Prop where
  count : c'.bCount = update c.bCount bp (c.bCount bp + 1)
  bufs : c'.bufsInUse = if c.bCount bp > 0 then c.bufsInUse else c.bufsInUse + 1

/-- `get_block` gives one more user to one buffer. -/
theorem getBlock_taken {dev block : Nat} {flag : SearchFlag} (hu : Users k c)
    (he : getBlock io c dev block flag = some (bp, c')) : Taken c c' bp := by
  unfold getBlock at he
  split at he
  · exact nomatch he
  · rename_i b hfind
    obtain ⟨rfl, rfl⟩ := Prod.mk.inj (Option.some.inj he)
    refine ⟨rfl, ?_⟩
    unfold useBlock
    dsimp only
    have hnonneg := (hu b).1
    by_cases hpos : c.bCount b > 0
    · have hne : c.bCount b ≠ 0 := fun hz => absurd (hz ▸ hpos) (by decide)
      rw [if_neg hne, if_pos hpos]
    · have hz : c.bCount b = 0 := by
        rw [count_pos_iff] at hpos
        exact Int8.toInt.inj (by change _ = (0 : Int); omega)
      rw [if_pos hz, if_neg hpos]
  · obtain ⟨c₁, c₂, hold, hun, hw, hr⟩ := takeBlock_cases he
    have hfree : ¬c.bCount bp > 0 := oldestFree_free hold
    have hsame := (unhash_sameUse hun).trans (writeBack_sameUse hw)
    have hread := readIn_sameUse hr
    refine ⟨hread.1.trans ?_, hread.2.trans ?_⟩
    · show update c₂.bCount bp (c₂.bCount bp + 1) = _
      rw [hsame.1]
    · rw [if_neg hfree]
      exact hsame.2

/-- `bufs_in_use` stays as far ahead as it was. -/
theorem Taken.ahead (h : Taken c c' bp) (hu : Users k c) (hk : k < 127) :
    (ahead c' - FS.ahead c) % 65536 = 0 ∧ Users (k + 1) c' := by
  obtain ⟨hnonneg, hle⟩ := hu bp
  have hsucc := count_succ (n := c.bCount bp) (by omega)
  constructor
  · have hsum := inUse_update c bp _ h.count
    have hpos : c.bCount bp + 1 > 0 := (count_pos_iff _).mpr (by omega)
    have hone : (1 : Int16).toInt = 1 := rfl
    unfold FS.ahead
    rw [h.bufs]
    rw [if_pos hpos] at hsum
    split at hsum
    · rename_i hold
      rw [if_pos hold]
      omega
    · rename_i hnew
      rw [if_neg hnew, Int16.toInt_add, hone]
      have hmod := Int.bmod_emod (x := c.bufsInUse.toInt + 1) (m := 2 ^ 16)
      omega
  · intro b
    rw [h.count, update_apply]
    split
    · rw [hsucc]
      omega
    · obtain ⟨h0, h1⟩ := hu b
      omega

/-- Putting a buffer back on the LRU chain lowers the counter by one. -/
theorem requeue_use (c : Cache σ) (bp : BufPtr) (blockType : Nat) :
    (requeue c bp blockType).bCount = c.bCount ∧
      (requeue c bp blockType).bufsInUse = c.bufsInUse - 1 := by
  unfold requeue
  dsimp only
  split
  · exact ⟨rfl, rfl⟩
  · exact ⟨rfl, rfl⟩

/-- A user less of one buffer that has some. -/
theorem putBlock_ahead {blockType : Nat} (hu : Users k c) (hpos : c.bCount bp > 0)
    (he : putBlock io c (some bp) blockType = some c') :
    (ahead c' - ahead c) % 65536 = 0 ∧ Users k c' ∧
      c'.bCount = update c.bCount bp (c.bCount bp - 1) := by
  have hpos' := (count_pos_iff _).mp hpos
  have hpred := count_pred hpos'
  have husers {c' : Cache σ} (hc : c'.bCount = update c.bCount bp (c.bCount bp - 1)) :
      Users k c' := by
    intro b
    have hb := hu bp
    rw [hc, update_apply]
    split
    · rw [hpred]
      omega
    · exact hu b
  have hone : (1 : Int16).toInt = 1 := rfl
  unfold putBlock at he
  dsimp only at he
  split at he
  · rename_i hstill
    rw [update_self] at hstill
    obtain rfl := Option.some.inj he
    refine ⟨?_, husers rfl, rfl⟩
    have hsum : inUse { c with bCount := update c.bCount bp (c.bCount bp - 1) } +
        (if c.bCount bp > 0 then 1 else 0) = inUse c + if c.bCount bp - 1 > 0 then 1 else 0 :=
      inUse_update c bp _ rfl
    rw [if_pos hpos, if_pos hstill] at hsum
    unfold ahead
    dsimp only
    omega
  · rename_i hfree
    rw [update_self] at hfree
    obtain ⟨c₁, hw, rfl⟩ := Option.map_eq_some_iff.mp he
    have hc₁ : c₁.bCount = update c.bCount bp (c.bCount bp - 1) ∧
        c₁.bufsInUse = c.bufsInUse - 1 := by
      obtain ⟨hcount, hbufs⟩ := requeue_use
        { c with bCount := update c.bCount bp (c.bCount bp - 1) } bp blockType
      split at hw
      · have hsame := writeBack_sameUse hw
        exact ⟨hsame.1.trans hcount, hsame.2.trans hbufs⟩
      · exact Option.some.inj hw ▸ ⟨hcount, hbufs⟩
    have hsame : SameUse c₁ (if blockType = ZUPER_BLOCK then
        { c₁ with bDev := update c₁.bDev bp NO_DEV } else c₁) := by
      split
      · exact ⟨rfl, rfl⟩
      · exact ⟨rfl, rfl⟩
    rw [hsame.ahead, hsame.1]
    refine ⟨?_, husers (hsame.1.trans hc₁.1), hc₁.1⟩
    have hsum := inUse_update c bp _ hc₁.1
    rw [if_pos hpos, if_neg hfree] at hsum
    have hmod := Int.bmod_emod (x := c.bufsInUse.toInt - 1) (m := 2 ^ 16)
    unfold ahead
    rw [hc₁.2, Int16.toInt_sub, hone]
    omega

/-- Loading a map takes its blocks one after the other. -/
theorem loadMap_ahead {dev base n : Nat} {slots : Nat} {map map' : Fin slots → Link BufPtr}
    (hu : Users k c) (hk : k + slots ≤ 127) (he : loadMap io dev base n map c = some (map', c')) :
    (ahead c' - ahead c) % 65536 = 0 ∧ Users (k + slots) c' := by
  have hfold : ∀ (l : List (Fin slots)) (r r' : (Fin slots → Link BufPtr) × Cache σ) (k : Int),
      Users k r.2 → k + l.length ≤ 127 →
      l.foldlM (fun r (i : Fin slots) => (getBlock io r.2 dev (base + i.val) .NORMAL).map fun got =>
        (update r.1 i (.of got.1), got.2)) r = some r' →
      (ahead r'.2 - ahead r.2) % 65536 = 0 ∧ Users (k + l.length) r'.2 := by
    intro l
    induction l with
    | nil =>
      intro r r' k hu _ he
      obtain rfl := Option.some.inj he
      rw [List.length_nil, Int.ofNat_zero, Int.add_zero]
      exact ⟨by omega, hu⟩
    | cons i l ih =>
      intro r r' k hu hk he
      rw [List.length_cons] at hk ⊢
      rw [List.foldlM_cons] at he
      obtain ⟨r₁, h₁, he⟩ := Option.bind_eq_some_iff.mp he
      obtain ⟨⟨bp, c₁⟩, hget, rfl⟩ := Option.map_eq_some_iff.mp h₁
      obtain ⟨hone, hu₁⟩ := (getBlock_taken hu hget).ahead hu (by omega)
      obtain ⟨hrest, hu'⟩ := ih _ r' (k + 1) hu₁ (by omega) he
      dsimp only at hrest
      refine ⟨by omega, ?_⟩
      rwa [show k + 1 + (l.length : Int) = k + ((l.length + 1 : Nat) : Int) by omega] at hu'
  have hlen : ((List.finRange slots).take n).length ≤ slots := by
    rw [List.length_take, List.length_finRange]
    exact Nat.min_le_right n slots
  obtain ⟨hahead, hu'⟩ := hfold _ (map, c) (map', c') k hu (by omega) he
  refine ⟨hahead, fun bp => ?_⟩
  have hbp := hu' bp
  dsimp only at hbp
  omega

/-- Setting the first bits of a map gives nobody a buffer. -/
theorem markBusy_sameUse {bits : Word} {ptr : Link BufPtr} (he : markBusy bits ptr c = some c') :
    SameUse c c' := by
  cases ptr with
  | nil => exact nomatch he
  | of bp => exact Option.some.inj he ▸ ⟨rfl, rfl⟩
  | wild => exact nomatch he

/-- The counter is right modulo 2^16. -/
theorem ofNat_mod (n : Nat) : ((Int16.ofNat n).toInt - n) % 65536 = 0 := by
  have hsize : Int16.size = 65536 := rfl
  have hmod := Int.bmod_emod (x := (n : Int)) (m := 65536)
  rw [Int16.toInt_ofNat', hsize]
  omega

/-- A number of blocks that is added to `bufs_in_use` without a look at the buffers. -/
theorem ahead_add (c : Cache σ) (n : Nat) :
    (ahead { c with bufsInUse := c.bufsInUse + Int16.ofNat n } - ahead c - n) % 65536 = 0 := by
  have huse : inUse { c with bufsInUse := c.bufsInUse + Int16.ofNat n } = inUse c := rfl
  have hn := ofNat_mod n
  have hmod := Int.bmod_emod (x := c.bufsInUse.toInt + (Int16.ofNat n).toInt) (m := 2 ^ 16)
  unfold ahead
  rw [huse]
  dsimp only
  rw [Int16.toInt_add]
  omega

/-- And one that is subtracted from it. -/
theorem ahead_sub (c : Cache σ) (n : Nat) :
    (ahead { c with bufsInUse := c.bufsInUse - Int16.ofNat n } - ahead c + n) % 65536 = 0 := by
  have huse : inUse { c with bufsInUse := c.bufsInUse - Int16.ofNat n } = inUse c := rfl
  have hn := ofNat_mod n
  have hmod := Int.bmod_emod (x := c.bufsInUse.toInt - (Int16.ofNat n).toInt) (m := 2 ^ 16)
  unfold ahead
  rw [huse]
  dsimp only
  rw [Int16.toInt_sub]
  omega

/-- Loading the maps of a device puts `bufs_in_use` ahead by the number of their blocks. -/
theorem loadBitMaps_ahead {sp : Super} {loaded : Bool} {maps} (hu : Users 100 c)
    (he : loadBitMaps io sp c = some ((loaded, maps), c')) :
    (ahead c' - ahead c - if loaded then ((sp.sImapBlocks + sp.sZmapBlocks : Nat) : Int) else 0) %
      65536 = 0 ∧ ∀ bp, 0 ≤ (c'.bCount bp).toInt := by
  unfold loadBitMaps at he
  split at he
  · obtain ⟨hloaded, rfl⟩ := Prod.mk.inj (Option.some.inj he)
    obtain ⟨rfl, -⟩ := Prod.mk.inj hloaded
    exact ⟨by rw [if_neg Bool.false_ne_true]; omega, fun bp => (hu bp).1⟩
  · split at he
    · exact nomatch he
    · simp only [Option.bind_eq_bind, Option.bind_eq_some_iff] at he
      obtain ⟨⟨imap, c₁⟩, h₁, ⟨zmap, c₂⟩, h₂, c₃, h₃, c₄, h₄, he⟩ := he
      obtain ⟨hloaded, rfl⟩ := Prod.mk.inj (Option.some.inj he)
      obtain ⟨rfl, -⟩ := Prod.mk.inj hloaded
      obtain ⟨ha₁, hu₁⟩ := loadMap_ahead hu (by decide) h₁
      obtain ⟨ha₂, hu₂⟩ := loadMap_ahead hu₁ (by decide) h₂
      have hsame := (markBusy_sameUse h₃).trans (markBusy_sameUse h₄)
      have hahead : ahead c₄ = ahead c₂ := hsame.ahead
      refine ⟨?_, fun bp => (hsame.users hu₂ bp).1⟩
      have hadd := ahead_add c₄ (sp.sImapBlocks + sp.sZmapBlocks)
      rw [if_pos rfl]
      omega

/-- Releasing blocks that are in use as often as they are released. -/
theorem putBlocks_ahead {l : List (Link BufPtr × Nat)} (hu : Users k c)
    (hl : ∀ bp, (((l.map Prod.fst).count (Link.of bp) : Nat) : Int) ≤ (c.bCount bp).toInt)
    (he : putBlocks io l c = some c') : (ahead c' - ahead c) % 65536 = 0 ∧ Users k c' := by
  induction l generalizing c with
  | nil => exact Option.some.inj he ▸ ⟨by omega, hu⟩
  | cons x l ih =>
    obtain ⟨ptr, blockType⟩ := x
    cases ptr with
    | nil =>
      refine ih hu (fun bp => ?_) he
      have hbp := hl bp
      rwa [List.map_cons, List.count_cons_of_ne (by simp)] at hbp
    | of b =>
      obtain ⟨c₁, hput, he⟩ := Option.bind_eq_some_iff.mp he
      have hb := hl b
      rw [List.map_cons, List.count_cons_self] at hb
      obtain ⟨hone, hu₁, hcount⟩ := putBlock_ahead hu ((count_pos_iff _).mpr (by omega)) hput
      have hl₁ : ∀ bp, (((l.map Prod.fst).count (Link.of bp) : Nat) : Int) ≤
          (c₁.bCount bp).toInt := by
        intro bp
        rw [hcount, update_apply]
        split
        · rename_i he
          rw [count_pred (by omega), he]
          omega
        · rename_i hne
          have hbp := hl bp
          rwa [List.map_cons, List.count_cons_of_ne fun h => hne (Link.of.inj h).symm] at hbp
      obtain ⟨hrest, hu'⟩ := ih hu₁ hl₁ he
      exact ⟨by omega, hu'⟩
    | wild => exact nomatch he

/-- Unloading the maps of a device puts `bufs_in_use` back by the number of their blocks. -/
theorem unloadBitMaps_ahead {sp : Super} (hu : Users k c)
    (hl : ∀ bp, ((((mapBlocks sp).map Prod.fst).count (Link.of bp) : Nat) : Int) ≤
      (c.bCount bp).toInt) (he : unloadBitMaps io sp c = some c') :
    (ahead c' - ahead c + ((sp.sImapBlocks + sp.sZmapBlocks : Nat) : Int)) % 65536 = 0 ∧
      Users k c' := by
  have hsub := ahead_sub c (sp.sImapBlocks + sp.sZmapBlocks)
  obtain ⟨hahead, hu'⟩ := putBlocks_ahead (k := k) (c := { c with
    bufsInUse := c.bufsInUse - Int16.ofNat (sp.sImapBlocks + sp.sZmapBlocks) }) hu hl he
  exact ⟨by omega, hu'⟩

end Use

/-! ## Whole runs -/

/-- The cache and the super blocks, and how many map blocks have been loaded and unloaded so far,
which the code does not keep. -/
structure MapState (σ : Type) where
  cache : Cache σ
  superBlock : SuperPtr → Super
  loaded : Nat
  unloaded : Nat

/-- A block is fetched, released, or stored into; all blocks are written out; those of a device are
dropped; a slot of the super block table is written; maps are loaded and unloaded. -/
inductive MapCall where
  | get (dev block : Nat) (onlySearch : SearchFlag)
  | put (bp : Option BufPtr) (blockType : Nat)
  | modify (bp : BufPtr) (data : Block)
  | sync
  | invalidate (device : Nat)
  | writeSuper (i : SuperPtr) (sp : Super)
  | load (dev : Nat)
  | unload (dev : Nat)

/-- The number of map blocks of a device. -/
def mapCount (sp : Super) : Nat := sp.sImapBlocks + sp.sZmapBlocks

/-- One call. -/
def mapStep (io : DevIo σ) (s : MapState σ) : MapCall → Option (MapState σ)
  | .get dev block flag => (getBlock io s.cache dev block flag).map fun r => { s with cache := r.2 }
  | .put bp blockType => (putBlock io s.cache bp blockType).map fun c => { s with cache := c }
  | .modify bp data => some { s with cache := storeBuf s.cache bp data }
  | .sync => (flushBlocks io s.cache).map fun c => { s with cache := c }
  | .invalidate device => some { s with cache := FS.invalidate s.cache device }
  | .writeSuper i sp => some { s with superBlock := update s.superBlock i sp }
  | .load dev => do
    let i ← getSuper s.superBlock dev
    let sp := s.superBlock i
    let ((loaded, imap, zmap), c) ← loadBitMaps io sp s.cache
    return { s with
      cache := c
      superBlock := update s.superBlock i { sp with sImap := imap, sZmap := zmap }
      loaded := s.loaded + if loaded then mapCount sp else 0 }
  | .unload dev => do
    let i ← getSuper s.superBlock dev
    let c ← unloadBitMaps io (s.superBlock i) s.cache
    return { s with cache := c, unloaded := s.unloaded + mapCount (s.superBlock i) }

/-- A block is released by somebody who has got it, and nobody holds a hundred. The pointers to the
maps that are unloaded are nil or lead to buffers in use. -/
def MapIssued (s : MapState σ) : MapCall → Prop
  | .get .. | .load _ => ∀ bp, (s.cache.bCount bp).toInt ≤ 100
  | .put (some bp) _ => s.cache.bCount bp > 0
  | .unload dev => ∀ i, getSuper s.superBlock dev = some i → ∀ bp,
    ((((mapBlocks (s.superBlock i)).map Prod.fst).count (Link.of bp) : Nat) : Int) ≤
      (s.cache.bCount bp).toInt
  | _ => True

/-- The buffer pool has been initialized. -/
def MapStarted (addr : Nat) (data : BufPtr → Block) (w : σ) (s : MapState σ) : Prop :=
  s.cache = bufPool addr (unpooled data w) ∧ s.loaded = 0 ∧ s.unloaded = 0

/-- `bufs_in_use` is the number of buffers in use, so that "All buffers in use" is true. -/
def ExactUse (c : Cache σ) : Prop :=
  c.bufsInUse.toInt = inUse c ∧ (c.bufsInUse = 20 → ∀ bp, c.bCount bp > 0)

/-- `bufs_in_use` is ahead by the map blocks that have been loaded and not unloaded. -/
structure MapState.Ahead (s : MapState σ) : Prop where
  ahead : (FS.ahead s.cache - s.loaded + s.unloaded) % 65536 = 0
  nonneg : ∀ bp, 0 ≤ (s.cache.bCount bp).toInt

section Run

variable {io : DevIo σ} {s s' : MapState σ} {addr : Nat} {data : BufPtr → Block} {w : σ}

/-- After `buf_pool` no buffer has a user. -/
theorem bufPool_use (addr : Nat) (data : BufPtr → Block) (w : σ) :
    (bufPool addr (unpooled data w)).bCount = (fun _ => 0) ∧
      (bufPool addr (unpooled data w)).bufsInUse = 0 := by
  have hsweep : ∀ (l : List BufPtr) (c : Cache σ), SameUse c (l.foldl (fun c bp =>
      if spans64K (addr + bp.val * BUF_BYTES) then deleteBuf c bp else c) c) := by
    intro l
    induction l with
    | nil => exact fun c => ⟨rfl, rfl⟩
    | cons bp l ih =>
      intro c
      refine SameUse.trans ?_ (ih _)
      dsimp only
      split
      · unfold deleteBuf
        split
        · exact ⟨rfl, rfl⟩
        · split
          · exact ⟨rfl, rfl⟩
          · exact ⟨rfl, rfl⟩
      · exact ⟨rfl, rfl⟩
  exact hsweep (List.finRange NR_BUFS) (chainBufs (unpooled data w))

/-- At the start the counter is not ahead. -/
theorem MapState.Ahead.started (h : MapStarted addr data w s) : s.Ahead := by
  obtain ⟨hcache, hloaded, hunloaded⟩ := h
  obtain ⟨hcount, hbufs⟩ := bufPool_use addr data w
  have huse : inUse s.cache = 0 := by
    unfold inUse
    rw [hcache, hcount]
    rfl
  refine ⟨?_, fun bp => ?_⟩
  · unfold FS.ahead
    rw [huse, hloaded, hunloaded, hcache, hbufs]
    rfl
  · rw [hcache, hcount]
    exact Int.le_refl 0

/-- A call that leaves the maps alone. -/
theorem MapState.Ahead.keep {k : Int} {c : Cache σ} (h : s.Ahead)
    (ha : (FS.ahead c - FS.ahead s.cache) % 65536 = 0) (hu : Users k c) :
    MapState.Ahead { s with cache := c } := by
  have hs := h.ahead
  refine ⟨?_, fun bp => (hu bp).1⟩
  dsimp only
  omega

/-- No buffer has more than 127 users. -/
theorem MapState.Ahead.users (h : s.Ahead) : Users 127 s.cache := fun bp =>
  ⟨h.nonneg bp, Int.le_of_lt_add_one (s.cache.bCount bp).toInt_lt⟩

/-- What leaves the use of the buffers alone keeps the invariant. -/
theorem MapState.Ahead.same {c : Cache σ} (h : s.Ahead) (hc : SameUse s.cache c) :
    MapState.Ahead { s with cache := c } :=
  h.keep (by rw [hc.ahead]; omega) (hc.users h.users)

/-- And so does each call. -/
theorem MapState.Ahead.step (h : s.Ahead) {call : MapCall} (hg : MapIssued s call)
    (he : mapStep io s call = some s') : s'.Ahead := by
  have hs := h.ahead
  have hhundred (hle : ∀ bp, (s.cache.bCount bp).toInt ≤ 100) : Users 100 s.cache :=
    fun bp => ⟨h.nonneg bp, hle bp⟩
  cases call with
  | get dev block flag =>
    obtain ⟨⟨bp, c⟩, hget, rfl⟩ := Option.map_eq_some_iff.mp he
    obtain ⟨ha, hu⟩ := (getBlock_taken (hhundred hg) hget).ahead (hhundred hg) (by decide)
    exact h.keep ha hu
  | put bp blockType =>
    obtain ⟨c, hput, rfl⟩ := Option.map_eq_some_iff.mp he
    cases bp with
    | none => exact Option.some.inj hput ▸ h
    | some bp =>
      obtain ⟨ha, hu, -⟩ := putBlock_ahead h.users hg hput
      exact h.keep ha hu
  | modify bp data =>
    obtain rfl := Option.some.inj he
    exact h.same ⟨rfl, rfl⟩
  | sync =>
    obtain ⟨c, hsync, rfl⟩ := Option.map_eq_some_iff.mp he
    exact h.same (flushBlocks_sameUse hsync)
  | invalidate device =>
    obtain rfl := Option.some.inj he
    exact h.same ⟨rfl, rfl⟩
  | writeSuper i sp =>
    obtain rfl := Option.some.inj he
    exact ⟨h.ahead, h.nonneg⟩
  | load dev =>
    obtain ⟨i, hi, he⟩ := Option.bind_eq_some_iff.mp he
    obtain ⟨⟨⟨loaded, imap, zmap⟩, c⟩, hload, he⟩ := Option.bind_eq_some_iff.mp he
    obtain rfl := Option.some.inj he
    obtain ⟨ha, hnonneg⟩ := loadBitMaps_ahead (hhundred hg) hload
    refine ⟨?_, hnonneg⟩
    unfold mapCount
    dsimp only
    cases loaded with
    | false =>
      rw [if_neg Bool.false_ne_true] at ha ⊢
      omega
    | true =>
      rw [if_pos rfl] at ha ⊢
      omega
  | unload dev =>
    obtain ⟨i, hi, he⟩ := Option.bind_eq_some_iff.mp he
    obtain ⟨c, hunload, he⟩ := Option.bind_eq_some_iff.mp he
    obtain rfl := Option.some.inj he
    obtain ⟨ha, hu⟩ := unloadBitMaps_ahead h.users (hg i hi) hunload
    refine ⟨?_, fun bp => (hu bp).1⟩
    unfold mapCount
    dsimp only
    omega

/-- There are 20 buffers. -/
theorem inUse_le (c : Cache σ) : inUse c ≤ 20 := by
  unfold inUse
  refine (Finset.sum_le_card_nsmul _ _ 1 fun bp _ => ?_).trans (Nat.le_of_eq rfl)
  split
  · exact Nat.le_refl 1
  · exact Nat.zero_le 1

/-- When the sum is 20 every buffer has users. -/
theorem all_inUse {c : Cache σ} (h : inUse c = 20) (bp : BufPtr) : c.bCount bp > 0 := by
  by_contra hn
  have hlt : inUse c < ∑ _ : BufPtr, 1 := by
    refine Finset.sum_lt_sum (fun b _ => ?_) ⟨bp, Finset.mem_univ bp, ?_⟩
    · split
      · exact Nat.le_refl 1
      · exact Nat.zero_le 1
    · rw [if_neg hn]
      exact Nat.zero_lt_one
  rw [h] at hlt
  exact absurd hlt (by decide)

/-- In every state of every run `bufs_in_use` is exact if and only if as many map blocks have been
unloaded as have been loaded, which `load_bit_maps` and `unload_bit_maps` count once more. -/
theorem bufs_in_use_exact
    (hr : Reach (mapStep io) MapIssued (MapStarted addr data w) s) :
    ExactUse s.cache ↔ ((s.loaded : Int) - s.unloaded) % 65536 = 0 := by
  have h : s.Ahead := hr.invariant MapState.Ahead (fun _ => .started)
    fun s call s' h hg he => h.step hg he
  have hs := h.ahead
  have hle := inUse_le s.cache
  have hlow := s.cache.bufsInUse.le_toInt
  have hhigh := s.cache.bufsInUse.toInt_lt
  unfold FS.ahead at hs
  constructor
  · rintro ⟨hexact, -⟩
    omega
  · intro heq
    have hexact : s.cache.bufsInUse.toInt = inUse s.cache := by omega
    refine ⟨hexact, fun hfull => all_inUse ?_⟩
    rw [hfull] at hexact
    have htwenty : (20 : Int16).toInt = 20 := rfl
    omega

end Run

section Example

/-- A device that always succeeds and changes nothing. -/
private def quietDevice : DevIo Unit := fun _ _ _ data w => some (BLOCK_SIZE, data, w)

/-- The super block of a device with one block of inode map and one of zone map. -/
def exampleSuper : Super where
  sNinodes := 64
  sNzones := 360
  sImapBlocks := 1
  sZmapBlocks := 1
  sFirstdatazone := 8
  sLogZoneSize := 0
  sMaxSize := 268966912
  sMagic := 0x137F
  sImap _ := .nil
  sZmap _ := .nil
  sDev := 256
  sIsup := .nil
  sImount := .nil
  sRdOnly := false

/-- The buffer pool has just been initialized, and the super block table is empty. -/
def exampleMaps : MapState Unit where
  cache := bufPool 0 (unpooled (fun _ _ => 0) ())
  superBlock _ := { exampleSuper with sDev := NO_DEV }
  loaded := 0
  unloaded := 0

instance (s : MapState σ) (call : MapCall) : Decidable (MapIssued s call) :=
  match call with
  | .get .. | .load _ => inferInstanceAs (Decidable (∀ bp, (s.cache.bCount bp).toInt ≤ 100))
  | .put (some bp) _ => inferInstanceAs (Decidable (s.cache.bCount bp > 0))
  | .unload dev => inferInstanceAs (Decidable (∀ i, getSuper s.superBlock dev = some i → ∀ bp,
      ((((mapBlocks (s.superBlock i)).map Prod.fst).count (Link.of bp) : Nat) : Int) ≤
        (s.cache.bCount bp).toInt))
  | .put none _ | .modify .. | .sync | .invalidate _ | .writeSuper .. =>
    inferInstanceAs (Decidable True)

/-- Maps that are loaded and unloaded again. -/
theorem bufs_in_use_exact_example : ∃ s, run (mapStep quietDevice) MapIssued exampleMaps
      [.writeSuper 0 exampleSuper, .load 256, .get 256 9 .NORMAL, .unload 256] = some s ∧
    ExactUse s.cache := by
  have hsome : ((run (mapStep quietDevice) MapIssued exampleMaps
      [.writeSuper 0 exampleSuper, .load 256, .get 256 9 .NORMAL, .unload 256]).map
        fun s => ((s.loaded : Int) - s.unloaded) % 65536) = some 0 := by
    decide +kernel
  obtain ⟨s, hs, hbalance⟩ := Option.map_eq_some_iff.mp hsome
  exact ⟨s, hs, (bufs_in_use_exact (Reach.of_run (.init ⟨rfl, rfl, rfl⟩) hs)).mpr hbalance⟩

/-- The maps of the root device have been loaded: two buffers are in use, and `bufs_in_use` is 4. -/
theorem bufs_in_use_doubled : ¬∀ s, Reach (mapStep quietDevice) MapIssued
    (MapStarted 0 (fun _ _ => 0) ()) s → ExactUse s.cache := by
  intro hall
  have hrun : ((run (mapStep quietDevice) MapIssued exampleMaps
      [.writeSuper 0 exampleSuper, .load 256]).map
        fun s => (s.cache.bufsInUse.toInt, inUse s.cache)) = some (4, 2) := by
    decide +kernel
  obtain ⟨s, hs, hcount⟩ := Option.map_eq_some_iff.mp hrun
  have hexact := (hall s (Reach.of_run (.init ⟨rfl, rfl, rfl⟩) hs)).1
  obtain ⟨hfour, htwo⟩ := Prod.mk.inj hcount
  rw [hfour, htwo] at hexact
  exact absurd hexact (by decide)

end Example

end Minix.FS
