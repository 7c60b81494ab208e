import Minix.FS.Revivals

/-!
# What a pipe contains

The bytes between the reader's position and the size of a pipe are those that have been written and
not yet been read, in the order in which they were written, through every suspension, revival and
reset of the positions.
-/

namespace Minix.FS.Pipes

open Function Relation Transition

/-- An offset in a block. -/
theorem blockOffset_lt (pos : Nat) : pos % BLOCK_SIZE < BLOCK_SIZE := Nat.mod_lt _ (by decide)

/-- The byte at a position of a file. A nonexistent block reads as zeros. -/
def byteAt (ip : Inode) (pos : Nat) : UInt8 :=
  match readMap ip pos with
  | none => 0
  | some b => b ⟨pos % BLOCK_SIZE, blockOffset_lt pos⟩

/-- So many bytes from a position on. -/
def contents (ip : Inode) (pos n : Nat) : List UInt8 :=
  (List.range n).map fun i => byteAt ip (pos + i)

/-- A byte has a block, and it is this one. -/
def Has (ip : Inode) (pos : Nat) (v : UInt8) : Prop :=
  (readMap ip pos).isSome = true ∧ byteAt ip pos = v

section Blocks

variable {ip ip' : Inode} {pos position : Nat} {b : Block}

/-- A byte depends on the block it is in. -/
theorem byteAt_congr (h : readMap ip' pos = readMap ip pos) : byteAt ip' pos = byteAt ip pos := by
  unfold byteAt
  rw [h]

/-- A byte of a block that is there. -/
theorem has_of_readMap (h : readMap ip pos = some b) :
    Has ip pos (b ⟨pos % BLOCK_SIZE, blockOffset_lt pos⟩) := by
  unfold Has byteAt
  rw [h]
  exact ⟨rfl, rfl⟩

/-- It is there as long as the block is the same. -/
theorem Has.congr {v : UInt8} (h : Has ip pos v) (he : readMap ip' pos = readMap ip pos) :
    Has ip' pos v := by
  unfold Has
  rw [he, byteAt_congr he]
  exact h

/-- Positions in other blocks have another zone or another place in it. -/
theorem place_ne (scale : Nat) (h : pos / BLOCK_SIZE ≠ position / BLOCK_SIZE)
    (hz : pos / BLOCK_SIZE / 2 ^ scale = position / BLOCK_SIZE / 2 ^ scale) :
    pos / BLOCK_SIZE % 2 ^ scale ≠ position / BLOCK_SIZE % 2 ^ scale := by
  intro hb
  refine h ?_
  rw [← Nat.div_add_mod (pos / BLOCK_SIZE) (2 ^ scale), hz, hb, Nat.div_add_mod]

/-- Storing a block changes the map at its own place only. -/
theorem readMap_store (hm : (readMap ip position).isSome = true) (b : Block) (pos : Nat) :
    readMap (storeBlock ip position b) pos =
      if pos / BLOCK_SIZE = position / BLOCK_SIZE then some b else readMap ip pos := by
  unfold readMap at hm ⊢
  unfold storeBlock zoneOf boff at *
  dsimp only
  obtain ⟨z, hz⟩ : ∃ z, ip.iZone (position / BLOCK_SIZE / 2 ^ ip.scale) = some z := by
    cases hz : ip.iZone (position / BLOCK_SIZE / 2 ^ ip.scale) with
    | none =>
      rw [hz] at hm
      cases hm
    | some z => exact ⟨z, rfl⟩
  by_cases hsame : pos / BLOCK_SIZE = position / BLOCK_SIZE
  · rw [if_pos hsame, hsame, update_self, hz]
    exact congrArg some (update_self ..)
  · rw [if_neg hsame]
    by_cases hzone : pos / BLOCK_SIZE / 2 ^ ip.scale = position / BLOCK_SIZE / 2 ^ ip.scale
    · rw [hzone, update_self, hz]
      exact congrArg some (update_of_ne (place_ne ip.scale hsame hzone) ..)
    · rw [update_of_ne hzone]

/-- The zone of the last byte of the block at the start of a zone. -/
theorem zone_of_start (scale position : Nat) :
    (position / (BLOCK_SIZE * 2 ^ scale) * (BLOCK_SIZE * 2 ^ scale) + BLOCK_SIZE - 1) /
      BLOCK_SIZE / 2 ^ scale = position / BLOCK_SIZE / 2 ^ scale := by
  have hge : BLOCK_SIZE ≤ BLOCK_SIZE * 2 ^ scale :=
    Nat.le_mul_of_pos_right _ (Nat.two_pow_pos scale)
  rw [Nat.div_div_eq_div_mul, Nat.div_div_eq_div_mul]
  generalize BLOCK_SIZE * 2 ^ scale = size at *
  have hsum : position / size * size + BLOCK_SIZE - 1 =
      (BLOCK_SIZE - 1) + position / size * size := Nat.add_comm _ _
  unfold BLOCK_SIZE at *
  rw [hsum, Nat.add_mul_div_right _ _ (by omega), Nat.div_eq_of_lt (by omega), Nat.zero_add]

/-- Clearing a zone from its start leaves the others alone. -/
theorem clearZone_zones (ip : Inode) (position : Nat) :
    (clearZone ip position true).scale = ip.scale ∧
    (∀ k, ((clearZone ip position true).iZone k).isSome = (ip.iZone k).isSome) ∧
    ∀ k, k ≠ zoneOf ip position → (clearZone ip position true).iZone k = ip.iZone k := by
  unfold clearZone
  dsimp only
  by_cases hs : ip.scale = 0
  · rw [if_pos hs]
    exact ⟨rfl, fun _ => rfl, fun _ _ => rfl⟩
  · rw [if_neg hs, if_pos rfl]
    split
    · exact ⟨rfl, fun _ => rfl, fun _ _ => rfl⟩
    · have hz := zone_of_start ip.scale position
      unfold zoneOf
      rw [hz]
      refine ⟨rfl, fun k => ?_, fun k hk => update_of_ne hk ..⟩
      dsimp only
      by_cases hk : k = position / BLOCK_SIZE / 2 ^ ip.scale
      · rw [hk, update_self, Option.isSome_map]
      · rw [update_of_ne hk]

/-- A block that is new: the other blocks that there were are left alone. -/
theorem readMap_newBlock (hm : readMap ip position = none) (zone : Nat → Block) (pos : Nat) :
    (pos / BLOCK_SIZE = position / BLOCK_SIZE →
      readMap (newBlock ip position zone) pos = some zeroBlock) ∧
    ((readMap ip pos).isSome = true →
      readMap (newBlock ip position zone) pos = readMap ip pos) := by
  have hnone : ip.iZone (zoneOf ip position) = none := Option.map_eq_none_iff.mp hm
  obtain ⟨ip₁, hip₁, hsome, hother, hscale⟩ : ∃ ip₁,
      newBlock ip position zone = storeBlock ip₁ position zeroBlock ∧
      (ip₁.iZone (zoneOf ip position)).isSome = true ∧
      (∀ k, k ≠ zoneOf ip position → ip₁.iZone k = ip.iZone k) ∧ ip₁.scale = ip.scale := by
    have hno : ¬(readMap ip position).isSome = true := by rw [hm]; exact Bool.false_ne_true
    unfold newBlock
    dsimp only
    rw [if_neg hno]
    by_cases hend : position ≠ ip.iSize
    · rw [if_pos hend]
      obtain ⟨hscale, hsome, hother⟩ := clearZone_zones
        { ip with iZone := update ip.iZone (zoneOf ip position) (some zone) } position
      refine ⟨_, rfl, ?_, fun k hk => (hother k hk).trans (update_of_ne hk ..), hscale⟩
      rw [hsome]
      dsimp only
      rw [update_self]
      rfl
    · rw [if_neg hend]
      refine ⟨_, rfl, ?_, fun k hk => update_of_ne hk .., rfl⟩
      dsimp only
      rw [update_self]
      rfl
  have hmap : (readMap ip₁ position).isSome = true := by
    unfold readMap
    rw [Option.isSome_map]
    unfold zoneOf at *
    rw [hscale]
    exact hsome
  rw [hip₁, readMap_store hmap]
  refine ⟨fun he => if_pos he, fun hs => ?_⟩
  have hzone : zoneOf ip pos ≠ zoneOf ip position := by
    intro he
    unfold readMap at hs
    rw [he, hnone] at hs
    cases hs
  have hne : pos / BLOCK_SIZE ≠ position / BLOCK_SIZE := by
    intro he
    apply hzone
    unfold zoneOf
    rw [he]
  rw [if_neg hne]
  unfold readMap zoneOf boff at *
  rw [hscale, hother _ hzone]

end Blocks

section Chunks

variable {ip ip' : Inode} {c : ChunkIo} {position chunk buff : Nat} {user : Nat → UInt8}

/-- After bytes of the user have been written at a position, these are there, and the ones before
the position are still there. -/
structure Written (ip ip' : Inode) (position n : Nat) (bytes : Nat → UInt8) : Prop where
  before : ∀ pos < position, ∀ v, Has ip pos v → Has ip' pos v
  here : ∀ i < n, Has ip' (position + i) (bytes i)

/-- Nothing has been written yet. -/
theorem Written.refl (ip : Inode) (position : Nat) (bytes : Nat → UInt8) :
    Written ip ip position 0 bytes := ⟨fun _ _ _ h => h, fun _ h => absurd h (Nat.not_lt_zero _)⟩

/-- First some bytes, then the others. -/
theorem Written.trans {ip₁ : Inode} {m n : Nat} {bytes bytes' : Nat → UInt8}
    (h : Written ip ip₁ position m bytes) (h' : Written ip₁ ip' (position + m) n bytes')
    (hbytes : ∀ i, bytes' i = bytes (m + i)) : Written ip ip' position (m + n) bytes := by
  refine ⟨fun pos hp v hv => h'.before pos (by omega) v (h.before pos hp v hv), fun i hi => ?_⟩
  by_cases hm : i < m
  · exact h'.before _ (by omega) _ (h.here i hm)
  · obtain ⟨k, rfl⟩ := Nat.exists_eq_add_of_le (Nat.le_of_not_lt hm)
    rw [← hbytes k, ← Nat.add_assoc]
    exact h'.here k (by omega)

/-- Bytes that fit the rest of a block are in that block. -/
theorem same_block {i : Nat} (hi : i < chunk) (hfit : position % BLOCK_SIZE + chunk ≤ BLOCK_SIZE) :
    (position + i) / BLOCK_SIZE = position / BLOCK_SIZE ∧
      (position + i) % BLOCK_SIZE = position % BLOCK_SIZE + i := by
  unfold BLOCK_SIZE at *
  omega

/-- The byte of a block after a copy from user space. -/
theorem copyIn_at {b : Block} {off : Nat} (k : Fin BLOCK_SIZE) :
    copyIn b off chunk user buff k =
      if off ≤ k.val ∧ k.val < off + chunk then user (buff + (k.val - off)) else b k := rfl

/-- A block is replaced by one into which the user's bytes have been copied. -/
theorem written_store {b : Block} {ip₁ : Inode} (hm : (readMap ip₁ position).isSome = true)
    (hfit : position % BLOCK_SIZE + chunk ≤ BLOCK_SIZE)
    (hkeep : ∀ pos < position, ∀ v, Has ip pos v → Has ip₁ pos v)
    (hb : position % BLOCK_SIZE ≠ 0 → readMap ip₁ position = some b) :
    Written ip (storeBlock ip₁ position (copyIn b (position % BLOCK_SIZE) chunk user buff))
      position chunk fun i => user (buff + i) := by
  have hstore := readMap_store hm (copyIn b (position % BLOCK_SIZE) chunk user buff)
  refine ⟨fun pos hpos v hv => ?_, fun i hi => ?_⟩
  · have hread := hstore pos
    have hold := hkeep pos hpos v hv
    by_cases hsame : pos / BLOCK_SIZE = position / BLOCK_SIZE
    · have hlt : pos % BLOCK_SIZE < position % BLOCK_SIZE := by
        unfold BLOCK_SIZE at *
        omega
      rw [if_pos hsame] at hread
      have hmap : readMap ip₁ pos = some b := by
        rw [← hb (by omega)]
        unfold readMap zoneOf boff
        rw [hsame]
      have hbyte := (has_of_readMap hmap).2.symm.trans hold.2
      have hnew := has_of_readMap hread
      rw [copyIn_at, if_neg (by dsimp only; omega), hbyte] at hnew
      exact hnew
    · rw [if_neg hsame] at hread
      exact hold.congr hread
  · obtain ⟨hsame, hmod⟩ := same_block hi hfit
    have hread := hstore (position + i)
    rw [if_pos hsame] at hread
    have hnew := has_of_readMap hread
    rw [copyIn_at, if_pos (by dsimp only; omega)] at hnew
    dsimp only at hnew
    rwa [hmod, Nat.add_sub_cancel_left] at hnew

/-- A chunk is written. -/
theorem rwChunk_written (ip : Inode) (hc : c.fault = none)
    (hfit : position % BLOCK_SIZE + chunk ≤ BLOCK_SIZE) (user : Nat → UInt8) (buff : Nat) :
    ∃ ip', rwChunk .WRITING ip position (position % BLOCK_SIZE) chunk user buff c =
      (true, ip', user) ∧ Written ip ip' position chunk fun i => user (buff + i) := by
  unfold rwChunk
  dsimp only
  rw [hc]
  cases hm : readMap ip position with
  | none =>
    dsimp only
    rw [if_neg (by decide), if_neg (by decide)]
    have hnew := readMap_newBlock hm c.zone
    have hself := (hnew position).1 rfl
    refine ⟨_, rfl, written_store ?_ hfit (fun pos _ v hv => hv.congr ((hnew pos).2 hv.1))
      fun _ => hself⟩
    rw [hself]
    rfl
  | some b =>
    dsimp only
    rw [if_neg (by decide)]
    refine ⟨_, rfl, written_store ?_ hfit (fun _ _ _ hv => hv) fun hoff => ?_⟩
    · rw [hm]
      rfl
    · unfold writeBuf
      rw [hm, if_neg (by omega), if_neg (by omega), hc, if_neg (by decide)]

/-- What is read arrives behind what has been read before. -/
structure Fetched (ip : Inode) (user user' : Nat → UInt8) (position buff n : Nat) : Prop where
  below : ∀ a < buff, user' a = user a
  here : ∀ i < n, user' (buff + i) = byteAt ip (position + i)

/-- A chunk is read. -/
theorem rwChunk_fetched (ip : Inode) (hc : c.fault = none)
    (hfit : position % BLOCK_SIZE + chunk ≤ BLOCK_SIZE) (user : Nat → UInt8) (buff : Nat) :
    ∃ user', rwChunk .READING ip position (position % BLOCK_SIZE) chunk user buff c =
      (true, ip, user') ∧ Fetched ip user user' position buff chunk := by
  unfold rwChunk
  dsimp only
  rw [hc, if_neg (by decide)]
  refine ⟨_, rfl, fun a ha => ?_, fun i hi => ?_⟩
  · unfold copyOut
    rw [dif_neg (by omega)]
  · obtain ⟨hsame, hmod⟩ := same_block hi hfit
    have hmap : readMap ip (position + i) = readMap ip position := by
      unfold readMap zoneOf boff
      rw [hsame]
    unfold copyOut byteAt
    rw [dif_pos ⟨by omega, by omega, by omega⟩, hmap]
    have hplace : (⟨position % BLOCK_SIZE + (buff + i - buff), by omega⟩ : Fin BLOCK_SIZE) =
        ⟨(position + i) % BLOCK_SIZE, blockOffset_lt (position + i)⟩ := by
      refine Fin.ext ?_
      dsimp only
      omega
    rw [hplace]
    cases readMap ip position with
    | none => rfl
    | some b => rfl

variable {io : Nat → ChunkIo} {fSize nbytes fuel : Nat}

/-- A chunk does not run over the end of its block. -/
theorem chunkSize_fits (flag : RwFlag) (fSize position nbytes : Nat) :
    position % BLOCK_SIZE + chunkSize flag fSize position nbytes ≤ BLOCK_SIZE := by
  have hmod : position % BLOCK_SIZE < BLOCK_SIZE := blockOffset_lt position
  unfold chunkSize
  cases flag with
  | READING =>
    dsimp only
    omega
  | WRITING =>
    dsimp only
    omega

/-- The whole of a request is written. -/
theorem rwLoop_written (hio : ∀ i, (io i).fault = none) (hfuel : nbytes ≤ fuel) (i : Nat)
    (ip : Inode) (user : Nat → UInt8) (position buff : Nat) :
    ∃ ip', rwLoop .WRITING io fSize fuel i ip user position buff nbytes =
      ⟨ip', user, position + nbytes, true⟩ ∧
      Written ip ip' position nbytes fun k => user (buff + k) := by
  induction fuel generalizing i ip position buff nbytes with
  | zero =>
    obtain rfl := Nat.le_zero.mp hfuel
    exact ⟨ip, rfl, .refl ..⟩
  | succ fuel ih =>
    have hmod : position % BLOCK_SIZE < BLOCK_SIZE := blockOffset_lt position
    have hle := chunkSize_le .WRITING fSize position nbytes
    have hfit := chunkSize_fits .WRITING fSize position nbytes
    have hzero : chunkSize .WRITING fSize position nbytes = 0 → nbytes = 0 := by
      unfold chunkSize
      dsimp only
      omega
    unfold rwLoop
    dsimp only
    generalize chunkSize .WRITING fSize position nbytes = chunk at *
    by_cases hc : chunk = 0
    · obtain rfl := hzero hc
      rw [if_pos hc]
      exact ⟨ip, rfl, .refl ..⟩
    · obtain ⟨ip₁, hchunk, hw⟩ := rwChunk_written ip (hio i) hfit user buff
      have hrest : nbytes - chunk ≤ fuel := by omega
      obtain ⟨ip', hrest, hw'⟩ := ih hrest (i + 1) ip₁ (position + chunk) (buff + chunk)
      rw [if_neg hc, hchunk, if_pos rfl, hrest]
      obtain ⟨m, rfl⟩ := Nat.exists_eq_add_of_le hle
      rw [Nat.add_sub_cancel_left] at hw' ⊢
      refine ⟨ip', ?_, hw.trans hw' fun k => ?_⟩
      · rw [Nat.add_assoc]
      · rw [Nat.add_assoc]

/-- What there is, up to the size of the request, is read. -/
theorem rwLoop_fetched (hio : ∀ i, (io i).fault = none) (hfuel : nbytes ≤ fuel) (i : Nat)
    (ip : Inode) (user : Nat → UInt8) (position buff : Nat) :
    ∃ user', rwLoop .READING io fSize fuel i ip user position buff nbytes =
      ⟨ip, user', position + min nbytes (fSize - position), true⟩ ∧
      Fetched ip user user' position buff (min nbytes (fSize - position)) := by
  induction fuel generalizing i user position buff nbytes with
  | zero =>
    obtain rfl := Nat.le_zero.mp hfuel
    rw [Nat.zero_min]
    exact ⟨user, rfl, fun _ _ => rfl, fun _ hi => absurd hi (Nat.not_lt_zero _)⟩
  | succ fuel ih =>
    have hmod : position % BLOCK_SIZE < BLOCK_SIZE := blockOffset_lt position
    have hfit := chunkSize_fits .READING fSize position nbytes
    have hle : chunkSize .READING fSize position nbytes ≤ min nbytes (fSize - position) := by
      unfold chunkSize
      dsimp only
      omega
    have hzero : chunkSize .READING fSize position nbytes = 0 →
        min nbytes (fSize - position) = 0 := by
      unfold chunkSize
      dsimp only
      omega
    unfold rwLoop
    dsimp only
    generalize chunkSize .READING fSize position nbytes = chunk at *
    by_cases hc : chunk = 0
    · rw [if_pos hc, hzero hc]
      exact ⟨user, rfl, fun _ _ => rfl, fun _ hi => absurd hi (Nat.not_lt_zero _)⟩
    · obtain ⟨user₁, hchunk, hf⟩ := rwChunk_fetched ip (hio i) hfit user buff
      have hrest : nbytes - chunk ≤ fuel := by omega
      obtain ⟨user', hrest, hf'⟩ := ih hrest (i + 1) user₁ (position + chunk) (buff + chunk)
      have hsum : chunk + min (nbytes - chunk) (fSize - (position + chunk)) =
          min nbytes (fSize - position) := by omega
      rw [if_neg hc, hchunk, if_pos rfl, hrest, Nat.add_assoc, hsum]
      refine ⟨user', rfl, fun a ha => ?_, fun k hk => ?_⟩
      · rw [hf'.below a (by omega), hf.below a ha]
      · by_cases hlt : k < chunk
        · rw [hf'.below _ (by omega), hf.here k hlt]
        · obtain ⟨m, rfl⟩ := Nat.exists_eq_add_of_le (Nat.le_of_not_lt hlt)
          rw [← Nat.add_assoc, ← Nat.add_assoc]
          exact hf'.here m (by omega)

end Chunks

section Contents

variable {ip ip' : Inode} {pos m n : Nat}

/-- The contents of a stretch, in two parts. -/
theorem contents_add (ip : Inode) (pos m n : Nat) :
    contents ip pos (m + n) = contents ip pos m ++ contents ip (pos + m) n := by
  unfold contents
  rw [List.range_add, List.map_append, List.map_map]
  congr 1
  refine List.map_congr_left fun i _ => ?_
  exact congrArg (byteAt ip) (Nat.add_assoc pos m i).symm

/-- The contents depend on the bytes of the stretch. -/
theorem contents_congr (h : ∀ i < n, byteAt ip' (pos + i) = byteAt ip (pos + i)) :
    contents ip' pos n = contents ip pos n :=
  List.map_congr_left fun i hi => h i (List.mem_range.mp hi)

/-- What the user has is the contents once each byte is. -/
theorem bytesAt_eq {user : Nat → UInt8} {buffer : Nat}
    (h : ∀ i < n, user (buffer + i) = byteAt ip (pos + i)) :
    bytesAt user buffer n = contents ip pos n :=
  List.map_congr_left fun i hi => h i (List.mem_range.mp hi)

end Contents

/-- Below its size a pipe has blocks. What has been read comes first of what has been written, and
the rest is in the pipe, from the reader's position on. -/
structure Carries (t : Files) (rip : InodePtr) (ip : Inode) (written read : List UInt8) : Prop where
  mapped : ∀ pos < ip.iSize, ∃ v, Has ip pos v
  before : read <+: written
  held : ∀ f ∈ users t rip, (t.filp f).filpMode.r = true →
    written = read ++ contents ip (t.filp f).filpPos (ip.iSize - (t.filp f).filpPos)

/-- Every pipe carries what has been written to the reader. -/
def Fifo (s : State) : Prop :=
  ∀ rip, (s.inode rip).iPipe = true →
    Carries s.files rip (s.inode rip) (s.writes rip).flatten (s.reads rip).flatten

section Fifo

variable {s s' : State} {who p : Proc} {k : Fd} {f : FilpPtr} {rip : InodePtr}

/-- The same blocks, and the slots that are left have the same positions. -/
theorem Carries.mono {t t' : Files} {ip ip' : Inode} {w r : List UInt8} (h : Carries t rip ip w r)
    (hsub : ∀ f ∈ users t' rip, f ∈ users t rip ∧
      (t'.filp f).filpMode = (t.filp f).filpMode ∧ (t'.filp f).filpPos = (t.filp f).filpPos)
    (hsize : ip'.iSize = ip.iSize) (hmap : ∀ pos, readMap ip' pos = readMap ip pos) :
    Carries t' rip ip' w r := by
  refine ⟨fun pos hp => ?_, h.before, fun f hf hm => ?_⟩
  · rw [hsize] at hp
    obtain ⟨v, hv⟩ := h.mapped pos hp
    exact ⟨v, hv.congr (hmap pos)⟩
  · obtain ⟨hf, hmode, hpos⟩ := hsub f hf
    rw [hmode] at hm
    rw [hpos, hsize, contents_congr fun i _ => byteAt_congr (hmap _)]
    exact h.held f hf hm

/-- Pipes that stay as they are. -/
theorem Fifo.kept (h : Fifo s) (hw : s'.writes = s.writes) (hr : s'.reads = s.reads)
    (hsub : ∀ ip, (s.inode ip).iPipe = true → ∀ f ∈ users s'.files ip, f ∈ users s.files ip ∧
      (s'.files.filp f).filpMode = (s.files.filp f).filpMode ∧
      (s'.files.filp f).filpPos = (s.files.filp f).filpPos)
    (hinode : ∀ ip, (s'.inode ip).iPipe = true → (s.inode ip).iPipe = true ∧
      (s'.inode ip).iSize = (s.inode ip).iSize ∧
      ∀ pos, readMap (s'.inode ip) pos = readMap (s.inode ip) pos) : Fifo s' := by
  intro ip hp
  obtain ⟨hp', hsize, hmap⟩ := hinode ip hp
  rw [hw, hr]
  exact (h ip hp').mono (hsub ip hp') hsize hmap

/-- The invariant is a matter of files, inodes and what has been written and read. -/
theorem Fifo.congr (h : Fifo s) (hs : SameFiles s s') : Fifo s' := by
  refine h.kept hs.writes hs.reads (fun ip _ f hf => ?_) fun ip hp => ?_
  · rw [hs.files] at hf ⊢
    exact ⟨hf, rfl, rfl⟩
  · rw [hs.inode] at hp ⊢
    exact ⟨hp, rfl, fun _ => rfl⟩

/-- It is kept when no slot in use for a pipe changes its place or its mode. -/
theorem Fifo.rest (h : Fifo s)
    (hfilp : ∀ f, (s'.files.filp f).filpCount = (s.files.filp f).filpCount ∧
      ((s.files.filp f).filpCount ≠ 0 →
        (s'.files.filp f).filpMode = (s.files.filp f).filpMode ∧
        (s'.files.filp f).filpIno = (s.files.filp f).filpIno ∧
        ((s.inode (s.files.filp f).filpIno).iPipe = true →
          (s'.files.filp f).filpPos = (s.files.filp f).filpPos)))
    (hinode : ∀ rip, s'.inode rip = s.inode rip ∨ (s.inode rip).iPipe = false ∧
      (s'.inode rip).iPipe = false ∧ (users s.files rip).card ≤ (s'.inode rip).iCount)
    (hw : s'.writes = s.writes) (hr : s'.reads = s.reads) : Fifo s' := by
  have husers : ∀ rip, users s'.files rip = users s.files rip :=
    users_congr (fun f => by rw [(hfilp f).1]) fun f hf => ((hfilp f).2 hf).2.1
  refine h.kept hw hr (fun ip hp f hf => ?_) fun ip hp => ?_
  · rw [husers] at hf
    obtain ⟨hc, hi⟩ := mem_users.mp hf
    obtain ⟨hm, -, hpos⟩ := (hfilp f).2 hc
    exact ⟨hf, hm, hpos (hi ▸ hp)⟩
  · rcases hinode ip with he | ⟨-, hp', -⟩
    · rw [he] at hp ⊢
      exact ⟨hp, rfl, fun _ => rfl⟩
    · rw [hp'] at hp
      cases hp

/-- It is kept when a file that is no pipe is opened. -/
theorem Fifo.opened {bits : Bits} (h : Fifo s) (hf : (s.files.filp f).filpCount = 0)
    (hp : (s.inode rip).iPipe = false) :
    Fifo { setInode s rip { s.inode rip with iCount := (s.inode rip).iCount + 1 } with
      files := openFiles s.files who k f bits rip } := by
  refine h.kept rfl rfl (fun ip hip g hg => ?_) fun ip hip => ?_
  · have hne : ip ≠ rip := by
      rintro rfl
      rw [hp] at hip
      cases hip
    change g ∈ users (openFiles s.files who k f bits rip) ip at hg
    rw [users_openFiles hf, if_neg hne] at hg
    have hgf : g ≠ f := by
      rintro rfl
      exact (mem_users.mp hg).1 hf
    change g ∈ _ ∧ ((openFiles s.files who k f bits rip).filp g).filpMode = _ ∧
      ((openFiles s.files who k f bits rip).filp g).filpPos = _
    rw [openFiles_ne _ _ _ _ _ hgf]
    exact ⟨hg, rfl, rfl⟩
  · change (update s.inode rip _ ip).iPipe = true at hip
    change _ ∧ (update s.inode rip _ ip).iSize = _ ∧
      ∀ pos, readMap (update s.inode rip _ ip) pos = _
    by_cases he : ip = rip
    · subst he
      rw [update_self] at hip
      exact absurd (hp.symm.trans hip) (by decide)
    · rw [update_of_ne he] at hip ⊢
      exact ⟨hip, rfl, fun _ => rfl⟩

/-- An inode that is put away and still is a pipe has the same blocks. -/
theorem putInode_kept {ip : InodePtr} (hp : ((putInode s rip).inode ip).iPipe = true) :
    (s.inode ip).iPipe = true ∧ ((putInode s rip).inode ip).iSize = (s.inode ip).iSize ∧
      ∀ pos, readMap ((putInode s rip).inode ip) pos = readMap (s.inode ip) pos := by
  unfold putInode setInode at hp ⊢
  dsimp only at hp ⊢
  by_cases he : ip = rip
  · subst he
    rw [update_self] at hp ⊢
    split at hp
    · cases hp
    · rename_i hno
      rw [if_neg hno]
      exact ⟨hp, rfl, fun _ => rfl⟩
  · rw [update_of_ne he] at hp ⊢
    exact ⟨hp, rfl, fun _ => rfl⟩

/-- And when a descriptor is closed. -/
theorem Fifo.closed (h : Fifo s) : Fifo (closed s who k f) := by
  obtain ⟨hw, hr⟩ : (Pipes.closed s who k f).writes = s.writes ∧
      (Pipes.closed s who k f).reads = s.reads := by
    unfold Pipes.closed putInode setInode
    split
    · exact ⟨rfl, rfl⟩
    · exact ⟨rfl, rfl⟩
  refine h.kept hw hr (fun ip _ g hg => ?_) fun ip hp => ?_
  · rw [closed_files] at hg ⊢
    obtain ⟨hm, -, hpos⟩ := dropFd_filp s.files who k f g
    refine ⟨?_, hm, hpos⟩
    rw [users_drop] at hg
    split at hg
    · exact Finset.mem_of_mem_erase hg
    · exact hg
  · rw [closed_inode] at hp ⊢
    by_cases hz : (s.files.filp f).filpCount - 1 = 0
    · rw [if_pos hz] at hp ⊢
      exact putInode_kept hp
    · rw [if_neg hz] at hp ⊢
      exact ⟨hp, rfl, fun _ => rfl⟩

/-- A new pipe is empty, and nothing has been written. -/
theorem Fifo.piped {k₀ k₁ : Fd} {f₀ f₁ : FilpPtr} (h : Fifo s)
    (hf₀ : (s.files.filp f₀).filpCount = 0) (hf₁ : (s.files.filp f₁).filpCount = 0) (hf : f₁ ≠ f₀)
    (scale : Nat) (sMaxSize : Int) :
    Fifo { newPipe s rip scale sMaxSize with
      files := pipeFiles s.files who k₀ f₀ k₁ f₁ rip } := by
  have hf₁' : ((openFiles s.files who k₀ f₀ ⟨true, false⟩ rip).filp f₁).filpCount = 0 := by
    rw [openFiles_ne _ _ _ _ _ hf]
    exact hf₁
  intro ip hp
  change (update s.inode rip _ ip).iPipe = true at hp
  change Carries (pipeFiles s.files who k₀ f₀ k₁ f₁ rip) ip (update s.inode rip _ ip)
    (update s.writes rip [] ip).flatten (update s.reads rip [] ip).flatten
  by_cases he : ip = rip
  · subst he
    rw [update_self, update_self, update_self]
    refine ⟨fun _ hpos => absurd hpos (Nat.not_lt_zero _), List.prefix_rfl, fun g _ _ => ?_⟩
    dsimp only
    rw [Nat.zero_sub]
    rfl
  · rw [update_of_ne he] at hp ⊢
    rw [update_of_ne he, update_of_ne he]
    refine (h ip hp).mono (fun g hg => ?_) rfl fun _ => rfl
    unfold pipeFiles at hg ⊢
    rw [users_openFiles hf₁', if_neg he, users_openFiles hf₀, if_neg he] at hg
    have hc := (mem_users.mp hg).1
    have hg₁ : g ≠ f₁ := by
      rintro rfl
      exact hc hf₁
    have hg₀ : g ≠ f₀ := by
      rintro rfl
      exact hc hf₀
    rw [openFiles_ne _ _ _ _ _ hg₁, openFiles_ne _ _ _ _ _ hg₀]
    exact ⟨hg, rfl, rfl⟩

/-- Another pipe is not concerned when one is read or written. -/
theorem Fifo.elsewhere (h : Fifo s) {ip : InodePtr} (hne : ip ≠ rip)
    (hinode : s'.inode ip = s.inode ip) (hw : s'.writes ip = s.writes ip)
    (hr : s'.reads ip = s.reads ip)
    (hfilp : ∀ g, (s'.files.filp g).filpCount = (s.files.filp g).filpCount ∧
      (s'.files.filp g).filpMode = (s.files.filp g).filpMode ∧
      (s'.files.filp g).filpIno = (s.files.filp g).filpIno ∧
      ((s.files.filp g).filpIno ≠ rip → (s'.files.filp g).filpPos = (s.files.filp g).filpPos))
    (hp : (s'.inode ip).iPipe = true) :
    Carries s'.files ip (s'.inode ip) (s'.writes ip).flatten (s'.reads ip).flatten := by
  rw [hinode] at hp ⊢
  rw [hw, hr]
  refine (h ip hp).mono (fun g hg => ?_) rfl fun _ => rfl
  have husers : users s'.files ip = users s.files ip :=
    users_congr (fun g => by rw [(hfilp g).1]) (fun g _ => (hfilp g).2.2.1) ip
  rw [husers] at hg
  refine ⟨hg, (hfilp g).2.1, (hfilp g).2.2.2 ?_⟩
  rw [(mem_users.mp hg).2]
  exact hne

/-- A write puts all its bytes behind the others. -/
theorem Fifo.wrote {ip' : Inode} {n buffer : Nat} (h : Fifo s) (ht : Tidy s)
    (hk : s.files.fpFilp who k = some f) (hr : (s.files.filp f).filpIno = rip)
    (hp : (s.inode rip).iPipe = true) (hm : (s.files.filp f).filpMode.r = false)
    (hip : ∃ z, ip' = { s.inode rip with iZone := z }) {user : Nat → UInt8}
    (hw : Written (s.inode rip) ip' (s.files.filp f).filpPos n fun i => user (buffer + i)) :
    Fifo (endWrite s rip f (s.inode rip).iSize (s.files.filp f).filpPos buffer
      ⟨ip', user, (s.files.filp f).filpPos + n, true⟩) := by
  have hend := ht.ends rip hp
  have hmem : f ∈ users s.files rip := hr ▸ ht.counted.mem_users hk
  have hsize : (s.files.filp f).filpPos = (s.inode rip).iSize := hend.writer f hmem hm
  have hc := h rip hp
  have hfilp := fun g => setPos_filp s.files f g ((s.files.filp f).filpPos + n)
  intro ip hpip
  by_cases he : ip = rip
  · subst he
    obtain ⟨z, rfl⟩ := hip
    rw [hsize] at hw hfilp ⊢
    have hself : (endWrite s ip f (s.inode ip).iSize (s.inode ip).iSize buffer
        ⟨{ s.inode ip with iZone := z }, user, (s.inode ip).iSize + n, true⟩).inode ip =
        { s.inode ip with iZone := z, iSize := (s.inode ip).iSize + n } := by
      unfold endWrite setInode
      dsimp only
      rw [update_self]
      split
      · rfl
      · rw [show n = 0 by omega]
        rfl
    have hbytes : ((endWrite s ip f (s.inode ip).iSize (s.inode ip).iSize buffer
        ⟨{ s.inode ip with iZone := z }, user, (s.inode ip).iSize + n, true⟩).writes ip).flatten =
        (s.writes ip).flatten ++ bytesAt user buffer n := by
      unfold endWrite
      dsimp only
      rw [if_pos rfl, update_self, List.flatten_append, Nat.add_sub_cancel_left, List.flatten_cons,
        List.flatten_nil, List.append_nil]
    rw [hself, hbytes]
    change Carries (setPos s.files f ((s.inode ip).iSize + n)) ip _ _ (s.reads ip).flatten
    refine ⟨fun pos hpos => ?_, hc.before.trans (List.prefix_append ..), fun g hg hmode => ?_⟩
    · change pos < (s.inode ip).iSize + n at hpos
      by_cases hlt : pos < (s.inode ip).iSize
      · obtain ⟨v, hv⟩ := hc.mapped pos hlt
        exact ⟨v, hw.before pos hlt v hv⟩
      · obtain ⟨i, rfl⟩ := Nat.exists_eq_add_of_le (Nat.le_of_not_lt hlt)
        exact ⟨_, hw.here i (by omega)⟩
    · rw [users_setPos] at hg
      rw [(hfilp g).2.1] at hmode
      have hgf : g ≠ f := by
        rintro rfl
        rw [hm] at hmode
        cases hmode
      rw [(hfilp g).2.2.2, if_neg hgf]
      have hle : (s.files.filp g).filpPos ≤ (s.inode ip).iSize := by
        rcases hend.reader g hg hmode with hlt | ⟨h₀, -⟩
        · exact Nat.le_of_lt hlt
        · rw [h₀]
          exact Nat.zero_le _
      have hheld := hc.held g hg hmode
      obtain ⟨m, hm'⟩ := Nat.exists_eq_add_of_le hle
      rw [hm', Nat.add_sub_cancel_left] at hheld
      have hold : ∀ i < m, byteAt { s.inode ip with iZone := z } ((s.files.filp g).filpPos + i) =
          byteAt (s.inode ip) ((s.files.filp g).filpPos + i) := by
        intro i hi
        have hlt : (s.files.filp g).filpPos + i < (s.inode ip).iSize := by omega
        obtain ⟨v, hv⟩ := hc.mapped _ hlt
        exact (hw.before _ hlt v hv).2.trans hv.2.symm
      have hnew : ∀ i < n, user (buffer + i) =
          byteAt { s.inode ip with iZone := z } ((s.files.filp g).filpPos + m + i) := by
        intro i hi
        rw [← hm']
        exact (hw.here i hi).2.symm
      change _ = (s.reads ip).flatten ++ contents { s.inode ip with iZone := z } _
        ((s.inode ip).iSize + n - (s.files.filp g).filpPos)
      rw [hheld, hm', Nat.add_assoc, Nat.add_sub_cancel_left, contents_add, contents_congr hold,
        bytesAt_eq hnew, List.append_assoc]
  · refine h.elsewhere he (update_of_ne he ..) ?_ rfl (fun g => ⟨(hfilp g).1, (hfilp g).2.1,
      (hfilp g).2.2.1, fun hne => (hfilp g).2.2.2.trans (if_neg ?_)⟩) hpip
    · exact update_of_ne he ..
    · rintro rfl
      exact hne hr

/-- A read takes out the first of the bytes that there are. -/
theorem Fifo.read {user : Nat → UInt8} {m buffer : Nat} (h : Fifo s) (ht : Tidy s)
    (hk : s.files.fpFilp who k = some f) (hr : (s.files.filp f).filpIno = rip)
    (hp : (s.inode rip).iPipe = true) (hm : (s.files.filp f).filpMode.r = true)
    (hle : (s.files.filp f).filpPos + m ≤ (s.inode rip).iSize)
    (hf : Fetched (s.inode rip) (s.mem who) user (s.files.filp f).filpPos buffer m) :
    Fifo (endRead s who rip f (s.files.filp f).filpPos buffer
      ⟨s.inode rip, user, (s.files.filp f).filpPos + m, true⟩) := by
  have hend := ht.ends rip hp
  have hmem : f ∈ users s.files rip := hr ▸ ht.counted.mem_users hk
  have hc := h rip hp
  have hheld := hc.held f hmem hm
  have hsplit : contents (s.inode rip) (s.files.filp f).filpPos
      ((s.inode rip).iSize - (s.files.filp f).filpPos) = bytesAt user buffer m ++
      contents (s.inode rip) ((s.files.filp f).filpPos + m)
        ((s.inode rip).iSize - ((s.files.filp f).filpPos + m)) := by
    rw [bytesAt_eq hf.here, ← contents_add]
    congr 1
    omega
  rw [hsplit, ← List.append_assoc] at hheld
  have hfiles := endRead_files s who rip f (s.files.filp f).filpPos buffer
    ⟨s.inode rip, user, (s.files.filp f).filpPos + m, true⟩
  have hinode := endRead_inode s who rip f (s.files.filp f).filpPos buffer
    ⟨s.inode rip, user, (s.files.filp f).filpPos + m, true⟩
  have hreads : (endRead s who rip f (s.files.filp f).filpPos buffer
      ⟨s.inode rip, user, (s.files.filp f).filpPos + m, true⟩).reads =
      update s.reads rip (s.reads rip ++ [bytesAt user buffer m]) := by
    unfold endRead
    dsimp only
    rw [if_pos rfl, Nat.add_sub_cancel_left]
  have hwrites : (endRead s who rip f (s.files.filp f).filpPos buffer
      ⟨s.inode rip, user, (s.files.filp f).filpPos + m, true⟩).writes = s.writes := rfl
  dsimp only at hfiles hinode
  generalize endRead s who rip f (s.files.filp f).filpPos buffer
    ⟨s.inode rip, user, (s.files.filp f).filpPos + m, true⟩ = s' at *
  have hbefore : (s.reads rip).flatten ++ bytesAt user buffer m <+: (s.writes rip).flatten := by
    rw [hheld]
    exact List.prefix_append ..
  have hread : (s'.reads rip).flatten = (s.reads rip).flatten ++ bytesAt user buffer m := by
    rw [hreads, update_self, List.flatten_append, List.flatten_cons, List.flatten_nil,
      List.append_nil]
  by_cases hd : (s.files.filp f).filpPos + m ≥ (s.inode rip).iSize
  · rw [if_pos hd] at hfiles hinode
    have hfilp := rewind_filp hend hmem hm
    have husers : ∀ ip, users s'.files ip = users s.files ip := by
      rw [hfiles]
      exact users_congr (fun g => by rw [(hfilp g).1]) fun g _ => (hfilp g).2.2.1
    intro ip hpip
    by_cases he : ip = rip
    · subst he
      rw [hread, hwrites, hinode, update_self]
      refine ⟨fun _ hpos => absurd hpos (Nat.not_lt_zero _), hbefore, fun g hg hmode => ?_⟩
      dsimp only
      rw [hheld, Nat.zero_sub, Nat.sub_eq_zero_of_le hd]
      rfl
    · refine h.elsewhere he ?_ (congrFun hwrites ip) ?_ (fun g => ?_) hpip
      · rw [hinode, update_of_ne he]
      · rw [hreads, update_of_ne he]
      · rw [hfiles]
        exact ⟨(hfilp g).1, (hfilp g).2.1, (hfilp g).2.2.1, (hfilp g).2.2.2.1⟩
  · rw [if_neg hd] at hfiles hinode
    have hfilp := fun g => setPos_filp s.files f g ((s.files.filp f).filpPos + m)
    intro ip hpip
    by_cases he : ip = rip
    · subst he
      rw [hread, hwrites, hinode, update_self, hfiles]
      refine ⟨hc.mapped, hbefore, fun g hg hmode => ?_⟩
      rw [users_setPos] at hg
      rw [(hfilp g).2.1] at hmode
      rw [(hfilp g).2.2.2, if_pos (hend.unique g hg f hmem (hmode.trans hm.symm))]
      exact hheld
    · refine h.elsewhere he ?_ (congrFun hwrites ip) ?_ (fun g => ?_) hpip
      · rw [hinode, update_of_ne he]
      · rw [hreads, update_of_ne he]
      · rw [hfiles]
        refine ⟨(hfilp g).1, (hfilp g).2.1, (hfilp g).2.2.1, fun hne => ?_⟩
        refine (hfilp g).2.2.2.trans (if_neg ?_)
        rintro rfl
        exact hne hr

/-- Nothing goes wrong in a transfer. -/
def NoFaults (io : Io) : Prop := ∀ i, (io.chunk i).fault = none

/-- And when a descriptor is duplicated. -/
theorem Fifo.shared {j : Fd} (h : Fifo s) (ht : Tidy s) (hj : s.files.fpFilp who j = some f) :
    Fifo { s with files := shareFilp s.files who k f } := by
  refine h.kept rfl rfl (fun ip _ g hg => ?_) fun _ hp => ⟨hp, rfl, fun _ => rfl⟩
  rw [users_share (ht.inUse hj)] at hg
  refine ⟨hg, ?_⟩
  unfold shareFilp
  dsimp only
  by_cases he : g = f
  · subst he
    rw [update_self]
    exact ⟨rfl, rfl⟩
  · rw [update_of_ne he]
    exact ⟨rfl, rfl⟩

/-- And by a fork. -/
theorem Fifo.forked (h : Fifo s) (ht : Tidy s) (parent child : Proc) :
    Fifo { s with
      files := forkFiles s.files parent child, live := update s.live child true } := by
  refine h.kept rfl rfl (fun ip _ g hg => ?_) fun _ hp => ⟨hp, rfl, fun _ => rfl⟩
  rw [ht.counted.users_fork] at hg
  exact ⟨hg, rfl, rfl⟩

/-- And when a process gets new files. -/
theorem Fifo.grows (h : Fifo s) (ht : Tidy s) (hg : Grows who s s') : Fifo s' := by
  cases hg with
  | rest _ hfilp hinode _ hw hr => exact h.rest hfilp hinode hw hr
  | opened _ _ hf hp hs => exact (h.opened hf hp).congr hs
  | shared hj _ hs => exact (h.shared ht hj).congr hs
  | forked _ _ hs => exact (h.forked ht _ _).congr hs
  | piped _ _ _ _ _ hf₀ hf₁ hf _ hs => exact (h.piped hf₀ hf₁ hf _ _).congr hs

/-- A write appends what it writes to the contents. -/
theorem Fifo.transfersIn {n buffer : Nat} {io : Io} (h : Fifo s) (ht : Tidy s)
    (hk : s.files.fpFilp who k = some f) (hr : (s.files.filp f).filpIno = rip)
    (hp : (s.inode rip).iPipe = true) (hm : (s.files.filp f).filpMode.r = false)
    (hio : NoFaults io) :
    Fifo (transfer s who f rip .WRITING (s.inode rip).iSize (s.files.filp f).filpPos buffer n
      io) := by
  obtain ⟨ip', hloop, hw⟩ := rwLoop_written hio (le_refl n) 0
    (s.inode rip) (s.mem who) (s.files.filp f).filpPos buffer
  have hip := rwLoop_ip .WRITING io.chunk (s.inode rip).iSize n 0 (s.inode rip) (s.mem who)
    (s.files.filp f).filpPos buffer n
  unfold transfer
  rw [hloop] at hip ⊢
  exact h.wrote ht hk hr hp hm hip hw

/-- A read takes what it reads from their front. -/
theorem Fifo.transfersOut {n buffer : Nat} {io : Io} (h : Fifo s) (ht : Tidy s)
    (hk : s.files.fpFilp who k = some f) (hr : (s.files.filp f).filpIno = rip)
    (hp : (s.inode rip).iPipe = true) (hm : (s.files.filp f).filpMode.r = true)
    (hpos : (s.files.filp f).filpPos < (s.inode rip).iSize) (hio : NoFaults io) :
    Fifo (transfer s who f rip .READING (s.inode rip).iSize (s.files.filp f).filpPos buffer n
      io) := by
  obtain ⟨user, hloop, hf⟩ := rwLoop_fetched hio (le_refl n) 0
    (s.inode rip) (s.mem who) (s.files.filp f).filpPos buffer
  unfold transfer
  rw [hloop]
  exact h.read ht hk hr hp hm (by omega) hf

/-- Whatever happens, pipes carry their bytes. -/
theorem Fifo.change (h : Fifo s) (ht : Tidy s) (hc : Change NoFaults s s') : Fifo s' := by
  cases hc with
  | grows hg => exact h.grows ht hg
  | closed _ hs => exact h.closed.congr hs
  | @died p _ hs =>
    have hlive : Fifo { s with live := update s.live p false } :=
      h.kept rfl rfl (fun _ _ _ hg => ⟨hg, rfl, rfl⟩) fun _ hp => ⟨hp, rfl, fun _ => rfl⟩
    exact hlive.congr hs
  | wrote hk hr hp hm _ hio hs => exact (h.transfersIn ht hk hr hp hm hio).congr hs
  | read hk hr hp hm hpos hio hs => exact (h.transfersOut ht hk hr hp hm hpos hio).congr hs

/-- And so does every run of such steps. -/
theorem Fifo.changes (h : Fifo s) (ht : Tidy s) (hc : ReflTransGen (Change NoFaults) s s') :
    Tidy s' ∧ Fifo s' := by
  induction hc with
  | refl => exact ⟨ht, h⟩
  | tail _ hc ih => exact ⟨ih.1.change hc, ih.2.change ih.1 hc⟩

/-- What is asked for, when no transfer goes wrong. -/
def IssuedSound (s : State) (r : Request) : Prop := AsIssued s r ∧ ∀ io, r.uses io → NoFaults io

/-- In every run in which no transfer goes wrong, through every suspension and revival of any number
of readers and writers, what has been read from a pipe is the beginning of what has been written,
write after write, and as long as it can be read the rest lies between the reader's position and the
size of the pipe. -/
theorem pipe_fifo (hr : Reach serve IssuedSound Started s) (hp : (s.inode rip).iPipe = true) :
    (s.reads rip).flatten <+: (s.writes rip).flatten ∧
    ∀ f ∈ users s.files rip, (s.files.filp f).filpMode.r = true →
      (s.writes rip).flatten = (s.reads rip).flatten ++
        contents (s.inode rip) (s.files.filp f).filpPos
          ((s.inode rip).iSize - (s.files.filp f).filpPos) := by
  have hinv : Tidy s ∧ Fifo s := by
    refine hr.invariant (fun s => Tidy s ∧ Fifo s)
      (fun s hs => ⟨Tidy.started hs, fun ip hip => ?_⟩) ?_
    · rw [hs.noPipes] at hip
      cases hip
    · rintro s r s' ⟨ht, hf⟩ ⟨hg, hio⟩ he
      exact hf.changes ht (serve_changes ht hg hio he)
  have hc := hinv.2 rip hp
  exact ⟨hc.before, hc.held⟩

/-- A run of requests whose copies do not fault. -/
theorem reach_sound {l : List Request} (hl : ∀ r ∈ l, ∀ io, r.uses io → NoFaults io)
    (hr : Reach serve IssuedSound Started s) (he : run serve AsIssued s l = some s') :
    Reach serve IssuedSound Started s' := by
  induction l generalizing s with
  | nil => exact Option.some.inj he ▸ hr
  | cons r l ih =>
    rw [run] at he
    split at he
    · rename_i hg
      obtain ⟨s₁, h₁, he⟩ := Option.bind_eq_some_iff.mp he
      exact ih (fun r' hr' => hl r' (List.mem_cons_of_mem r hr'))
        (hr.next ⟨hg, hl r List.mem_cons_self⟩ h₁) he
    · cases he

/-- Input and output that is always ready does not fault. -/
theorem quietIo_sound : NoFaults quietIo := fun _ => rfl

/-- INIT makes a pipe and forks; the child waits for data and gets four of six bytes. -/
def leaveTwo : List Request :=
  [.call 2 (.pipe (some (0, 100000))), .fork 2 3, .call 3 (.readWrite .READING 0 50 4 quietIo),
    .call 2 (.readWrite .WRITING 1 70 6 quietIo), .work quietIo]

/-- Nor does that of the example. -/
theorem leaveTwo_sound : ∀ r ∈ leaveTwo, ∀ io, r.uses io → NoFaults io := by
  intro r hr io hu
  simp only [leaveTwo, List.mem_cons, List.not_mem_nil, or_false] at hr
  rcases hr with rfl | rfl | rfl | rfl | rfl
  · exact hu.elim
  · exact hu.elim
  · exact hu ▸ quietIo_sound
  · exact hu ▸ quietIo_sound
  · exact hu ▸ quietIo_sound

/-- Six bytes are written and four are read: two are left. -/
theorem pipe_fifo_two : ∃ s, run serve AsIssued exampleStart leaveTwo = some s ∧
    s.writes 31 = [[70, 71, 72, 73, 74, 75]] ∧ s.reads 31 = [[70, 71, 72, 73]] ∧
    (s.reads 31).flatten <+: (s.writes 31).flatten ∧
    ∀ f ∈ users s.files 31, (s.files.filp f).filpMode.r = true →
      (s.writes 31).flatten = (s.reads 31).flatten ++
        contents (s.inode 31) (s.files.filp f).filpPos
          ((s.inode 31).iSize - (s.files.filp f).filpPos) := by
  have hrun : (run serve AsIssued exampleStart leaveTwo).any (fun s =>
      s.writes 31 = [[70, 71, 72, 73, 74, 75]] ∧ s.reads 31 = [[70, 71, 72, 73]] ∧
        (s.inode 31).iPipe = true) = true := by
    decide +kernel
  obtain ⟨s, hs, hm⟩ := (Option.any_eq_true _ _).mp hrun
  obtain ⟨hw, hr, hp⟩ := of_decide_eq_true hm
  exact ⟨s, hs, hw, hr,
    pipe_fifo (reach_sound leaveTwo_sound (.init exampleStart_started) hs) hp⟩

end Fifo

end Minix.FS.Pipes
