import Minix.FS.ReadWrite
import Minix.FS.ZoneTrees

/-!
# Block special files

A block special file is a device, byte for byte, as far as the number of a block goes. It has 16
bits, and no check stands between it and the positions, which have 31.
-/

namespace Minix.FS.ZoneMaps.Special

open Function Inodes Intrusive Transition

/-- The block that a position of a special file is looked for in. -/
def blockNr (position : Int) : Nat := unshort (position.tdiv BLOCK_SIZE)

/-- The offset of a position in its block. -/
def blockOff (position : Int) : Nat := unshort (position.tmod BLOCK_SIZE)

/-- A byte of a device. -/
def deviceByte (m : Flat) (dev x : Nat) : UInt8 :=
  m dev (x / BLOCK_SIZE) ⟨x % BLOCK_SIZE, Nat.mod_lt _ (by decide)⟩

variable {σ : Type} {io : DevIo σ} {disk : σ → Flat} {c c₀ c' : Cache σ} {m m' : Flat}
  {usable : BufPtr → Prop} {L : List BufPtr} {H : Fin NR_BUF_HASH → List BufPtr} {bp : BufPtr}
  {dev block : Nat} {flag : SearchFlag} {sup : SuperPtr → Super} {user : UserSpace}
  {rwFlag : RwFlag} {ip : Inode} {position : Int} {off chunk buff : Nat}

/-- The byte of its device that `rw_block` moves a block from or to. -/
def deviceOffset (c : Cache σ) (bp : BufPtr) : Nat := c.bBlocknr bp * BLOCK_SIZE

theorem blockNr_eq (hpos : 0 ≤ position) : (blockNr position : Int) = position / 1024 % 65536 := by
  unfold blockNr unshort
  rw [Int.tdiv_eq_ediv_of_nonneg hpos]
  exact Int.toNat_of_nonneg (Int.emod_nonneg _ (by decide))

theorem blockOff_eq (hpos : 0 ≤ position) : (blockOff position : Int) = position % 1024 := by
  have h : blockOff position = ((position % 1024) % 65536).toNat := by
    unfold blockOff unshort
    rw [Int.tmod_eq_emod_of_nonneg hpos]
    rfl
  omega

theorem blockOff_lt (hpos : 0 ≤ position) : blockOff position < 1024 := by
  have h := blockOff_eq hpos
  omega

/-- The number of a block is exact for the first 64 megabytes. -/
theorem blockNr_exact_iff (hpos : 0 ≤ position) (hmax : position ≤ MAX_P_LONG) :
    (blockNr position : Int) = position / 1024 ↔ position < 2 ^ 26 := by
  rw [blockNr_eq hpos]
  simp only [MAX_P_LONG] at hmax
  omega

/-- What `get_block` names the buffer, unless the device comes to its end. -/
theorem getBlock_named (hl : Linked c usable usable L H)
    (he : FS.getBlock io c dev block flag = some (bp, c')) :
    c'.bBlocknr bp = block ∧ (c'.bDev bp = dev ∨ c'.bDev bp = NO_DEV) := by
  rcases hl.getBlock_cases he with ⟨-, -, hdev, hblock, rfl⟩ | ⟨htake, -⟩
  · exact ⟨hblock, Or.inl hdev⟩
  · obtain ⟨c₁, c₂, -, -, -, hr⟩ := takeBlock_cases htake
    have hnew : (rehash c₂ bp dev block).bBlocknr bp = block ∧
        (rehash c₂ bp dev block).bDev bp = dev := ⟨update_self .., update_self ..⟩
    unfold readIn at hr
    split at hr
    · obtain ⟨data, dev', err, w, rfl, hdev⟩ := rwBlock_spec hr
      exact ⟨hnew.1, (hdev bp).imp_left fun h => h.trans hnew.2⟩
    · obtain rfl := Option.some.inj hr
      exact ⟨hnew.1, Or.inl hnew.2⟩

/-- Where the bytes of a chunk are on the device. -/
theorem deviceByte_eq {p i : Nat} (hp : p < 2 ^ 26) (hi : blockOff p + i < BLOCK_SIZE)
    (m : Flat) (dev : Nat) : deviceByte m dev (p + i) = m dev (blockNr p) ⟨blockOff p + i, hi⟩ := by
  have hnr := blockNr_eq (Int.natCast_nonneg p)
  have hoff := blockOff_eq (Int.natCast_nonneg p)
  have hlt : blockOff p + i < 1024 := hi
  have hblock : (p + i) / 1024 = blockNr p := by omega
  have hbyte : (p + i) % 1024 = blockOff p + i := by omega
  unfold deviceByte
  simp only [BLOCK_SIZE, hblock, hbyte]

/-! ## A cache in front of devices that work -/

/-- The cache and the devices hold the store `m`. -/
structure Held (disk : σ → Flat) (usable : BufPtr → Prop) (m : Flat) (c : Cache σ) : Prop where
  linked : ∃ L H, Linked c usable usable L H
  coherent : Coherent disk c m fun _ => True

namespace Held

variable (h : Held disk usable m c) (hio : Works io disk)

include h hio

/-- A block that is fetched. -/
theorem get (he : FS.getBlock io c dev block .NORMAL = some (bp, c')) :
    Held disk usable m c' ∧ c'.bDev bp = dev ∧ c'.bBlocknr bp = block := by
  obtain ⟨L, H, hl⟩ := h.linked
  obtain ⟨hc, hname, -⟩ := h.coherent.get hl hio he
  obtain ⟨-, H', hl'⟩ := hl.getBlock he
  exact ⟨⟨⟨L, H', hl'⟩, hc⟩, hname.dev, hname.block⟩

/-- A block that is filled, whether or not it has been read in. -/
theorem fill (he : FS.getBlock io c dev block flag = some (bp, c')) (data : Block) :
    Held disk usable (m.set dev block data) (FS.storeBuf c' bp data) := by
  obtain ⟨L, H, hl⟩ := h.linked
  obtain ⟨-, H', hl'⟩ := hl.getBlock he
  refine ⟨⟨L, H', hl'.lru, hl'.lru_mem, hl'.hash, hl'.hash_mem, hl'.unique, hl'.unusable⟩, ?_⟩
  cases flag with
  | NO_READ => exact (h.coherent.overwrite hl hio he data).1
  | NORMAL =>
    obtain ⟨hc, hname, -⟩ := h.coherent.get hl hio he
    have hs := hc.store bp (fun _ _ => trivial) hl'.unique data
    rwa [hname.dev, hname.block] at hs

/-- A block that is released. -/
theorem put (hu : usable bp) {blockType : Nat}
    (he : FS.putBlock io c (some bp) blockType = some c') : Held disk usable m c' := by
  obtain ⟨L, H, hl⟩ := h.linked
  obtain ⟨L', hl'⟩ := hl.putBlock (fun b hb => Option.some.inj hb ▸ hu) he
  exact ⟨⟨L', H, hl'⟩, (h.coherent.put hio he).1⟩

end Held

/-- Work goes on for a special file. -/
structure At (disk : σ → Flat) (usable : BufPtr → Prop) (c₀ : Cache σ) (ip : Inode) (m : Flat)
    (s : Work σ) : Prop where
  held : Held disk usable m s.cache
  use : SameUse c₀ s.cache
  rip : s.rip = ip

/-- The buffer of a chunk, which `m` is what the cache holds without. -/
structure Chunk (disk : σ → Flat) (usable : BufPtr → Prop) (c₀ : Cache σ) (ip : Inode) (m : Flat)
    (rwFlag : RwFlag) (position : Int) (bp : BufPtr) (s : Work σ) : Prop where
  taken : Taken c₀ s.cache bp
  rip : s.rip = ip
  held : rwFlag = .READING → Held disk usable m s.cache ∧
    s.cache.bDev bp = ip.iZone 0 ∧ s.cache.bBlocknr bp = blockNr position
  filled : ∀ data, Held disk usable (m.set (ip.iZone 0) (blockNr position) data)
    (FS.storeBuf s.cache bp data)
  free : usable bp

/-- What a chunk has done to the devices. -/
structure Moved (user : UserSpace) (ip : Inode) (rwFlag : RwFlag) (position : Int)
    (off chunk buff : Nat) (r : Int) (m m' : Flat) : Prop where
  read : rwFlag = .READING → m' = m
  others : ∀ dev block, ¬(dev = ip.iZone 0 ∧ block = blockNr position) → m' dev block = m dev block
  written : rwFlag = .WRITING → r = OK → ∃ bytes, user.fetch buff chunk = some bytes ∧
    ∀ i : Fin BLOCK_SIZE, off ≤ i.val → i.val < off + chunk →
      m' (ip.iZone 0) (blockNr position) i = bytes (i.val - off)

theorem readFlag_reading (hrd : rwFlag = .READING) :
    readFlag rwFlag ip position off chunk = .NORMAL := by
  subst hrd
  exact if_neg fun hw => by cases hw.1

/-- The block of a chunk is asked for by its number. -/
theorem chunkBlock_special {s : Work σ} (hsp : s.rip.type = I_BLOCK_SPECIAL) :
    chunkBlock io sup rwFlag position off chunk s =
      (some <$> ZoneMaps.getBlock io (s.rip.iZone 0) (blockNr position)
        (readFlag rwFlag s.rip position off chunk)) s := by
  unfold chunkBlock
  change (if s.rip.type = I_BLOCK_SPECIAL then _ else _ : B σ (Option BufPtr)) s = _
  rw [if_pos hsp]
  rfl

theorem getBlock_run (s : Work σ) :
    (some <$> ZoneMaps.getBlock io dev block flag : B σ (Option BufPtr)) s =
      match FS.getBlock io s.cache dev block flag with
      | some (bp, c) => .ok (some bp, { s with cache := c })
      | none => .error .stuck := by
  change (ZoneMaps.getBlock io dev block flag s >>= fun r => .ok (some r.1, r.2)) = _
  unfold ZoneMaps.getBlock orStuck
  dsimp only
  cases FS.getBlock io s.cache dev block flag <;> rfl

/-- The chunk has been copied. -/
structure Copied (disk : σ → Flat) (usable : BufPtr → Prop) (c₀ : Cache σ) (ip : Inode)
    (bp : BufPtr) (m : Flat) (s : Work σ) : Prop where
  held : Held disk usable m s.cache
  taken : Taken c₀ s.cache bp
  rip : s.rip = ip
  free : usable bp

/-- What `rw_user` does with the buffer of a chunk. -/
theorem rwUser_at :
    Returns (Chunk disk usable c₀ ip m rwFlag position bp)
      (rwUser user rwFlag bp off chunk buff)
      fun r s => ∃ m', Copied disk usable c₀ ip bp m' s ∧
        Moved user ip rwFlag position off chunk buff r m m' := by
  rintro s ⟨htaken, hrip, hheld, hfilled, hfree⟩
  have hstored (data : Block) (r : Int) (hr : rwFlag = .WRITING → r = OK → ∃ bytes,
      user.fetch buff chunk = some bytes ∧ ∀ i : Fin BLOCK_SIZE, off ≤ i.val →
        i.val < off + chunk → data i = bytes (i.val - off)) (hw : rwFlag = .WRITING) :
      ∃ m', Copied disk usable c₀ ip bp m' { s with cache := FS.storeBuf s.cache bp data } ∧
        Moved user ip rwFlag position off chunk buff r m m' := by
    refine ⟨_, ⟨hfilled data, ⟨htaken.count, htaken.bufs⟩, hrip, hfree⟩,
      fun h => (by rw [hw] at h; cases h), fun dev block hne => Flat.set_of_ne hne,
      fun hw hok => ?_⟩
    rw [Flat.set_self]
    exact hr hw hok
  cases rwFlag with
  | READING =>
    refine ⟨m, ⟨(hheld rfl).1, htaken, hrip, hfree⟩, fun _ => rfl, fun _ _ _ => rfl, fun h => ?_⟩
    cases h
  | WRITING =>
    unfold rwUser
    cases hf : user.fetch buff chunk with
    | none => exact hstored _ EFAULT (fun _ h => by cases h) rfl
    | some bytes =>
      refine hstored _ OK (fun _ _ => ⟨bytes, hf, fun i hlo hhi => ?_⟩) rfl
      exact if_pos ⟨hlo, hhi⟩

section Chunks

variable (hio : Works io disk) (hans : Answers io) (hroom : Room usable c₀)
  (hsp : ip.type = I_BLOCK_SPECIAL)

include hio hans hroom hsp

/-- The block of a chunk is fetched. -/
theorem chunkBlock_at : Returns (At disk usable c₀ ip m)
    (chunkBlock io sup rwFlag position off chunk)
    fun r s => ∃ bp, r = some bp ∧ Chunk disk usable c₀ ip m rwFlag position bp s := by
  rintro s ⟨hheld, hsame, rfl⟩
  obtain ⟨L, H, hl⟩ := hheld.linked
  obtain ⟨bp, c, he⟩ := hl.getBlock_total hans (hroom.same hsame) (s.rip.iZone 0)
    (blockNr position) (readFlag rwFlag s.rip position off chunk)
  rw [chunkBlock_special hsp, getBlock_run, he]
  refine ⟨bp, rfl, (getBlock_taken (hroom.same hsame).users he).of_same hsame, rfl, fun hrd => ?_,
    hheld.fill hio he, (hl.getBlock he).1⟩
  rw [readFlag_reading hrd] at he
  exact hheld.get hio he

omit hio hans hsp in
/-- The block of a chunk is released. -/
theorem putBlock_at (hio : Works io disk) (hans : Answers io) (blockType : Nat) :
    Returns (Copied disk usable c₀ ip bp m) (ZoneMaps.putBlock io bp blockType)
      fun _ => At disk usable c₀ ip m := by
  rintro s ⟨hheld, htaken, hrip, hfree⟩
  obtain ⟨c', he⟩ := putBlock_total hans s.cache (some bp) blockType
  unfold ZoneMaps.putBlock orStuck
  dsimp only
  rw [he]
  exact ⟨hheld.put hio hfree he, htaken.put hroom.users he, hrip⟩

/-- A chunk at one position of a special file. -/
theorem rwChunk_at :
    Returns (At disk usable c₀ ip m) (rwChunk io sup user rwFlag position off chunk buff)
      fun r s => ∃ m', At disk usable c₀ ip m' s ∧
        Moved user ip rwFlag position off chunk buff r m m' := by
  refine (chunkBlock_at hio hans hroom hsp).bind fun r => .given fun bp => .fact fun hr => ?_
  subst hr
  have hlook : Returns (Chunk disk usable c₀ ip m rwFlag position bp)
      (MonadState.get : B σ (Work σ)) fun s₁ s => s₁.rip = ip ∧ Chunk disk usable c₀ ip m rwFlag position bp s :=
    .get fun s hs => ⟨hs.rip, hs⟩
  refine hlook.bind fun s₁ => .fact fun hrip => ?_
  have hkeep : Returns (Chunk disk usable c₀ ip m rwFlag position bp)
      (provided (beyondEnd rwFlag s₁.rip position off chunk) (zeroBlock bp))
      fun _ => Chunk disk usable c₀ ip m rwFlag position bp :=
    .provided (fun hb => absurd (hrip ▸ hsp) hb.2.2.1) fun _ _ => id
  refine hkeep.bind fun _ => rwUser_at.bind fun r => .given fun m' => ?_
  refine .known (fun s hs => hs.2) fun hmoved => ?_
  exact ((putBlock_at hroom hio hans _).pre fun s hs => hs.1).bind fun _ =>
    .pure fun s hs => ⟨m', hs, hmoved⟩

end Chunks

/-- What a transfer has done to the devices. -/
structure Transferred (mem : Nat → UInt8) (ip : Inode) (rwFlag : RwFlag) (p buff n moved : Nat)
    (m m' : Flat) : Prop where
  read : rwFlag = .READING → m' = m
  others : ∀ dev block, (∀ x, p ≤ x → x < p + n → ¬(dev = ip.iZone 0 ∧ block = x / BLOCK_SIZE)) →
    m' dev block = m dev block
  written : rwFlag = .WRITING → ∀ i < moved, deviceByte m' (ip.iZone 0) (p + i) = mem (buff + i)

theorem chunkSize_le (rwFlag : RwFlag) (fSize : Int) (n p : Nat) :
    chunkSize rwFlag fSize p n ≤ n ∧ blockOff p + chunkSize rwFlag fSize p n ≤ 1024 := by
  have hoff := blockOff_lt (Int.natCast_nonneg p)
  have hle : chunkSize rwFlag fSize p n ≤ min n (1024 - blockOff p) := by
    unfold chunkSize
    dsimp only
    split
    · exact min_le_left _ _
    · exact le_rfl
  omega

/-- When more is to be written after a chunk, it ends with its block. -/
theorem chunkSize_writing {fSize : Int} {n p x : Nat}
    (hlo : p + chunkSize .WRITING fSize p n ≤ x) (hhi : x < p + n) : x / 1024 ≠ p / 1024 := by
  have hoff := blockOff_eq (Int.natCast_nonneg p)
  have hsize : chunkSize .WRITING fSize p n = min n (1024 - blockOff p) := rfl
  omega

/-- A chunk and the rest of a transfer. -/
theorem Transferred.next {mem : Nat → UInt8} {p n moved : Nat} {fSize : Int} {m₁ : Flat}
    (hmem : ∀ vir n bytes, user.fetch vir n = some bytes → ∀ i < n, bytes i = mem (vir + i))
    (hp : p + n ≤ 2 ^ 26) (hn : n ≠ 0)
    (h : Moved user ip rwFlag p (blockOff p) (chunkSize rwFlag fSize p n) buff OK m m₁)
    (h' : Transferred mem ip rwFlag (p + chunkSize rwFlag fSize p n)
      (buff + chunkSize rwFlag fSize p n) (n - chunkSize rwFlag fSize p n) moved m₁ m') :
    Transferred mem ip rwFlag p buff n (chunkSize rwFlag fSize p n + moved) m m' := by
  obtain ⟨hle, hfit⟩ := chunkSize_le rwFlag fSize n p
  have hnr := blockNr_eq (Int.natCast_nonneg p)
  have hblock : p / 1024 = blockNr p := by omega
  refine ⟨fun hrd => (h'.read hrd).trans (h.read hrd), fun dev block hout => ?_,
    fun hw i hi => ?_⟩
  · have hrest := h'.others dev block fun x hlo hhi => hout x (by omega) (by omega)
    refine hrest.trans (h.others dev block fun hb => hout p le_rfl (by omega) ⟨hb.1, ?_⟩)
    exact hb.2.trans hblock.symm
  · subst hw
    by_cases hfirst : i < chunkSize .WRITING fSize p n
    · obtain ⟨bytes, hfetch, hbytes⟩ := h.written rfl rfl
      have hlt : blockOff p + i < 1024 := by omega
      have hkept : m' (ip.iZone 0) (blockNr p) = m₁ (ip.iZone 0) (blockNr p) :=
        h'.others _ _ fun x hlo hhi hb =>
          chunkSize_writing hlo (by omega) (hb.2.symm.trans hblock.symm)
      rw [deviceByte_eq (by omega) hlt, hkept,
        hbytes ⟨blockOff p + i, hlt⟩ (Nat.le_add_right _ _) (by dsimp only; omega)]
      dsimp only
      rw [Nat.add_sub_cancel_left]
      exact hmem _ _ _ hfetch i hfirst
    · have hlater := h'.written rfl (i - chunkSize .WRITING fSize p n) (by omega)
      rwa [show p + chunkSize .WRITING fSize p n + (i - chunkSize .WRITING fSize p n) = p + i by
          omega, show buff + chunkSize .WRITING fSize p n + (i - chunkSize .WRITING fSize p n) =
          buff + i by omega] at hlater

/-- As long as the loop goes on, something is moved. -/
theorem chunkSize_pos {fSize : Int} {n p : Nat}
    (hgo : ¬(n = 0 ∨ rwFlag = .READING ∧ fSize - p ≤ 0)) : 0 < chunkSize rwFlag fSize p n := by
  have hoff : unshort ((p : Int).tmod BLOCK_SIZE) < 1024 := blockOff_lt (Int.natCast_nonneg p)
  unfold chunkSize
  dsimp only
  split
  · rename_i hrd
    have hleft : ¬(fSize - p ≤ 0) := fun h => hgo (Or.inr ⟨hrd, h⟩)
    simp only [BLOCK_SIZE] at *
    omega
  · simp only [BLOCK_SIZE] at *
    omega

/-- A chunk that the rest of a transfer does not follow. -/
theorem Moved.last {mem : Nat → UInt8} {p n : Nat} {fSize r : Int} (hp : p + n ≤ 2 ^ 26)
    (hn : n ≠ 0)
    (h : Moved user ip rwFlag p (blockOff p) (chunkSize rwFlag fSize p n) buff r m m') :
    Transferred mem ip rwFlag p buff n 0 m m' := by
  have hnr := blockNr_eq (Int.natCast_nonneg p)
  have hblock : p / 1024 = blockNr p := by omega
  refine ⟨h.read, fun dev block hout => h.others dev block fun hb => ?_,
    fun _ i hi => absurd hi (Nat.not_lt_zero i)⟩
  exact hout p le_rfl (by omega) ⟨hb.1, hb.2.trans hblock.symm⟩

theorem Transferred.none (mem : Nat → UInt8) (ip : Inode) (rwFlag : RwFlag) (p buff n : Nat)
    (m : Flat) : Transferred mem ip rwFlag p buff n 0 m m :=
  ⟨fun _ => rfl, fun _ _ _ => rfl, fun _ _ hi => absurd hi (Nat.not_lt_zero _)⟩

/-- The bytes of a special file that are moved below the first 64 megabytes are those of its
device. -/
theorem rwLoop_at (hio : Works io disk) (hans : Answers io) (hroom : Room usable c₀)
    (hsp : ip.type = I_BLOCK_SPECIAL) {mem : Nat → UInt8} (fSize : Int)
    (hmem : ∀ vir n bytes, user.fetch vir n = some bytes → ∀ i < n, bytes i = mem (vir + i))
    (fuel : Nat) : ∀ {m : Flat} {p buff n cumIo : Nat}, n < fuel → p + n ≤ 2 ^ 26 →
      Returns (At disk usable c₀ ip m) (rwLoop io sup user rwFlag fSize fuel p buff n cumIo)
        fun r s => ∃ m' moved, At disk usable c₀ ip m' s ∧ moved ≤ n ∧ r.2.1 = p + moved ∧
          r.2.2 = cumIo + moved ∧ Transferred mem ip rwFlag p buff n moved m m' := by
  induction fuel with
  | zero => exact fun h => absurd h (Nat.not_lt_zero _)
  | succ fuel ih =>
    intro m p buff n cumIo hfuel hp
    unfold rwLoop
    refine .ite (fun _ => ?_) fun hgo => ?_
    · exact .pure fun s hs => ⟨m, 0, hs, Nat.zero_le _, (add_zero _).symm, rfl, .none ..⟩
    · have hn : n ≠ 0 := fun h => hgo (Or.inl h)
      have hpos := chunkSize_pos hgo
      obtain ⟨hle, -⟩ := chunkSize_le rwFlag fSize n p
      refine (rwChunk_at hio hans hroom hsp).bind fun r => .given fun m₁ => ?_
      refine .known (fun s hs => hs.2) fun hmoved => ?_
      have hlook : Returns (fun s => At disk usable c₀ ip m₁ s ∧ Moved user ip rwFlag p (blockOff p)
          (chunkSize rwFlag fSize p n) buff r m m₁) (MonadState.get : B σ (Work σ))
          fun _ => At disk usable c₀ ip m₁ := .get fun s hs => hs.1
      refine .ite (fun _ => .pure fun s hs => ?_) fun hok => hlook.bind fun s₁ => .ite
        (fun _ => .pure fun s hs => ?_) fun _ => ?_
      · exact ⟨m₁, 0, hs.1, Nat.zero_le _, (add_zero _).symm, rfl, hmoved.last hp hn⟩
      · exact ⟨m₁, 0, hs, Nat.zero_le _, (add_zero _).symm, rfl, hmoved.last hp hn⟩
      · have hlong : long ((p : Int) + chunkSize rwFlag fSize p n) =
            ((p + chunkSize rwFlag fSize p n : Nat) : Int) := by
          unfold long
          rw [Int.bmod_eq_of_le] <;> omega
        rw [hlong]
        obtain rfl := not_not.mp hok
        refine (ih (by omega) (by omega)).post fun r s => ?_
        rintro ⟨m', moved, hs, hmle, hat, hcum, ht⟩
        refine ⟨m', _, hs, by omega, by omega, by omega, .next hmem hp hn hmoved ht⟩

/-! ## Positions that are addressed -/

/-- A transfer goes on at a position: only the end of a file that is read stops it. -/
def Accepts (rwFlag : RwFlag) (ip : Inode) (position : Int) : Prop :=
  ¬(rwFlag = .READING ∧ fileSize ip - position ≤ 0)

/-- The chunk at a position of a special file is in the block of the device that has the bytes from
this position on. -/
structure Addressed (io : DevIo σ) (sup : SuperPtr → Super) (rwFlag : RwFlag) (position : Int)
    (chunk : Nat) (s : Work σ) : Prop where
  place : ∃ bp s', chunkBlock io sup rwFlag position (blockOff position) chunk s =
      .ok (some bp, s') ∧ (s'.cache.bDev bp = s.rip.iZone 0 ∨ s'.cache.bDev bp = NO_DEV) ∧
    (deviceOffset s'.cache bp : Int) = 1024 * (position / 1024)
  read : rwFlag = .READING → ∀ disk m, Works io disk → (Coherent disk s.cache m fun _ => True) →
    ∀ bp s', chunkBlock io sup rwFlag position (blockOff position) chunk s = .ok (some bp, s') →
      ∀ i (h : blockOff position + i < BLOCK_SIZE), s'.cache.bData bp ⟨blockOff position + i, h⟩ =
        deviceByte m (s.rip.iZone 0) (position.toNat + i)

section Addressing

variable {s s' : Work σ}

/-- The buffer of a chunk. -/
theorem chunkBlock_cases (hsp : s.rip.type = I_BLOCK_SPECIAL)
    (he : chunkBlock io sup rwFlag position off chunk s = .ok (some bp, s')) :
    FS.getBlock io s.cache (s.rip.iZone 0) (blockNr position)
      (readFlag rwFlag s.rip position off chunk) = some (bp, s'.cache) := by
  rw [chunkBlock_special hsp, getBlock_run] at he
  cases hget : FS.getBlock io s.cache (s.rip.iZone 0) (blockNr position)
      (readFlag rwFlag s.rip position off chunk) with
  | none =>
    rw [hget] at he
    cases he
  | some r =>
    rw [hget] at he
    obtain ⟨hbp, rfl⟩ := Prod.mk.inj (Except.ok.inj he)
    rw [← Option.some.inj hbp]

variable (hl : ∃ L H, Linked s.cache usable usable L H) (hsp : s.rip.type = I_BLOCK_SPECIAL)
  (hpos : 0 ≤ position)

include hl hsp hpos

/-- Where the chunk at a position goes. -/
theorem chunkBlock_place
    (he : chunkBlock io sup rwFlag position off chunk s = .ok (some bp, s')) :
    (s'.cache.bDev bp = s.rip.iZone 0 ∨ s'.cache.bDev bp = NO_DEV) ∧
      (deviceOffset s'.cache bp : Int) = 1024 * (position / 1024 % 65536) := by
  obtain ⟨L, H, hl⟩ := hl
  obtain ⟨hblock, hdev⟩ := getBlock_named hl (chunkBlock_cases hsp he)
  refine ⟨hdev, ?_⟩
  unfold deviceOffset
  rw [hblock, Nat.cast_mul, blockNr_eq hpos, mul_comm]
  rfl

variable (hans : Answers io) (hroom : Room usable s.cache)

include hans hroom

omit hpos in
theorem chunkBlock_total (sup : SuperPtr → Super) (rwFlag : RwFlag) (position : Int)
    (off chunk : Nat) : ∃ bp s',
    chunkBlock io sup rwFlag position off chunk s = .ok (some bp, s') := by
  obtain ⟨L, H, hl⟩ := hl
  obtain ⟨bp, c, he⟩ := hl.getBlock_total hans hroom (s.rip.iZone 0) (blockNr position)
    (readFlag rwFlag s.rip position off chunk)
  rw [chunkBlock_special hsp, getBlock_run, he]
  exact ⟨bp, _, rfl⟩

theorem addressed_iff (hdev : s.rip.iZone 0 ≠ NO_DEV) (hmax : position ≤ MAX_P_LONG) :
    Addressed io sup rwFlag position chunk s ↔ position < 2 ^ 26 := by
  rw [← blockNr_exact_iff hpos hmax, blockNr_eq hpos]
  constructor
  · rintro ⟨⟨bp, s', he, -, hoff⟩, -⟩
    have hplace := (chunkBlock_place hl hsp hpos he).2
    omega
  · intro hexact
    obtain ⟨bp, s', he⟩ := chunkBlock_total hl hsp hans hroom sup rwFlag position
      (blockOff position) chunk
    obtain ⟨hd, hoff⟩ := chunkBlock_place hl hsp hpos he
    refine ⟨⟨bp, s', he, hd, by omega⟩, fun hrd disk m hio hc bp s' he i hi => ?_⟩
    have hget := chunkBlock_cases hsp he
    rw [readFlag_reading hrd] at hget
    obtain ⟨hheld, hdev', hblock⟩ := (Held.mk hl hc).get hio hget
    rw [hheld.coherent.cached bp trivial (hdev' ▸ hdev), hdev', hblock]
    lift position to Nat using hpos
    exact (deviceByte_eq (by omega) hi m _).symm

/-- A special file has the bytes of its device at the positions below 2^26, and no others that a
transfer goes on at. From there on the numbers of the blocks begin again: positions share a block
if theirs are equal modulo 2^16. A transfer that ends in time moves the bytes it should, and
touches no other block. -/
theorem special_addressing_iff (hdev : s.rip.iZone 0 ≠ NO_DEV) (hmax : position ≤ MAX_P_LONG) :
    ((Accepts rwFlag s.rip position → Addressed io sup rwFlag position chunk s) ↔
      (Accepts rwFlag s.rip position → position < 2 ^ 26)) ∧
    (∀ {s' s₂ s₂' : Work σ} {usable₂ rwFlag₂ position₂ off off₂ chunk₂ bp bp₂},
      (∃ L H, Linked s₂.cache usable₂ usable₂ L H) → s₂.rip.type = I_BLOCK_SPECIAL →
      0 ≤ position₂ →
      chunkBlock io sup rwFlag position off chunk s = .ok (some bp, s') →
      chunkBlock io sup rwFlag₂ position₂ off₂ chunk₂ s₂ = .ok (some bp₂, s₂') →
      (deviceOffset s'.cache bp = deviceOffset s₂'.cache bp₂ ↔
        position / 1024 % 65536 = position₂ / 1024 % 65536)) ∧
    ∀ disk m, Works io disk → (Coherent disk s.cache m fun _ => True) →
      ∀ (user : UserSpace) mem,
      (∀ vir n bytes, user.fetch vir n = some bytes → ∀ i < n, bytes i = mem (vir + i)) →
      ∀ p buff n : Nat, p + n ≤ 2 ^ 26 → ∃ r s' m',
        rwLoop io sup user rwFlag (fileSize s.rip) (n + 1) p buff n 0 s = .ok (r, s') ∧
        (Coherent disk s'.cache m' fun _ => True) ∧
        Transferred mem s.rip rwFlag p buff n r.2.2 m m' := by
  refine ⟨forall_congr' fun _ => addressed_iff hl hsp hpos hans hroom hdev hmax, ?_, ?_⟩
  · intro s' s₂ s₂' usable₂ rwFlag₂ position₂ off off₂ chunk₂ bp bp₂ hl₂ hsp₂ hpos₂ he he₂
    have hoff := (chunkBlock_place hl hsp hpos he).2
    have hoff₂ := (chunkBlock_place hl₂ hsp₂ hpos₂ he₂).2
    omega
  · intro disk m hio hc user mem hmem p buff n hp
    have hat : At disk usable s.cache s.rip m s := ⟨⟨hl, hc⟩, ⟨rfl, rfl⟩, rfl⟩
    obtain ⟨r, s', he, m', moved, hat', -, -, hcum, ht⟩ :=
      (rwLoop_at hio hans hroom hsp (fileSize s.rip) hmem (n + 1) (Nat.lt_succ_self n) hp).returns
        hat
    refine ⟨r, s', m', he, hat'.held.coherent, ?_⟩
    rwa [hcum, Nat.zero_add]

end Addressing

/-- A special file for device 256, of no size. -/
def specialFile : Inode := { emptyFile with
  iMode := I_BLOCK_SPECIAL
  iZone := fun _ => 256 }

/-- The special file, and a cache with nothing in it. -/
def freshSpecial : Work Flat :=
  ⟨(Store.init id 0 (fun _ _ => 0) fun _ _ _ => 0).cache, specialFile, 0⟩

theorem freshSpecial_linked : ∃ L H, Linked freshSpecial.cache (Usable 0) (Usable 0) L H :=
  (Store.inv_init id 0 (fun _ _ => 0) fun _ _ _ => 0).linked

/-- The last position that is addressed. -/
theorem special_addressing_iff_last :
    Addressed Store.flatDevice (fun _ => exampleSuper) .WRITING (2 ^ 26 - 1) 1 freshSpecial :=
  ((special_addressing_iff freshSpecial_linked rfl (by decide) flatDevice_answers (init_room _)
    (by decide) (by decide)).1.mpr fun _ => by decide) fun h => by cases h.1

/-- The position after that is the first one again. -/
theorem special_not_addressed :
    ¬(Accepts .WRITING freshSpecial.rip (2 ^ 26) →
      Addressed Store.flatDevice (fun _ => exampleSuper) .WRITING (2 ^ 26) 1 freshSpecial) := by
  intro h
  have haddr := h fun hr => by cases hr.1
  rw [addressed_iff freshSpecial_linked rfl (by decide) flatDevice_answers (init_room _)
    (by decide) (by decide)] at haddr
  omega

end Minix.FS.ZoneMaps.Special
