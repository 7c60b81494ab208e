import Minix.FS.CacheChains

/-!
# The buffer cache refines a flat store

When the devices work, the cache and the devices together are one map from device and
block number to contents. The map is changed by storing into a buffer alone; which blocks
are in memory, and which of them are on the disk already, cannot be seen in it.
-/

namespace Minix.FS

open Intrusive Function Transition

/-- The contents of every block of every device. -/
abbrev Flat : Type := Nat → Nat → Block

/-- Store one block. -/
def Flat.set (m : Flat) (dev block : Nat) (data : Block) : Flat :=
  fun d b => if d = dev ∧ b = block then data else m d b

@[simp] theorem Flat.set_self (m : Flat) (dev block : Nat) (data : Block) :
    m.set dev block data dev block = data := if_pos ⟨rfl, rfl⟩

theorem Flat.set_of_ne {m : Flat} {dev block d b : Nat} {data : Block}
    (h : ¬(d = dev ∧ b = block)) : m.set dev block data d b = m d b := if_neg h

/-- A store of the block that is there. -/
theorem Flat.set_same (m : Flat) (dev block : Nat) : m.set dev block (m dev block) = m := by
  funext d b
  by_cases h : d = dev ∧ b = block
  · rw [h.1, h.2, Flat.set_self]
  · exact Flat.set_of_ne h

variable {σ : Type}

/-- The devices store blocks and report no error: a transfer either panics, or reads the block
that is stored, or stores the block it is given. -/
structure Works (io : DevIo σ) (disk : σ → Flat) : Prop where
  read : ∀ {dev block data w r d w'},
    io .READING dev (block * BLOCK_SIZE) data w = some (r, d, w') →
    0 ≤ r ∧ d = disk w dev block ∧ disk w' = disk w
  write : ∀ {dev block data w r d w'},
    io .WRITING dev (block * BLOCK_SIZE) data w = some (r, d, w') →
    0 ≤ r ∧ d = data ∧ disk w' = (disk w).set dev block data

/-- The buffers that satisfy `valid` hold the blocks of `m` that they are named after, clean ones
have the same contents on disk, and what no such buffer holds is on disk. -/
structure Coherent (disk : σ → Flat) (c : Cache σ) (m : Flat) (valid : BufPtr → Prop) : Prop where
  cached : ∀ bp, valid bp → c.bDev bp ≠ NO_DEV → c.bData bp = m (c.bDev bp) (c.bBlocknr bp)
  clean : ∀ bp, valid bp → c.bDev bp ≠ NO_DEV → c.bDirt bp = CLEAN →
    disk c.world (c.bDev bp) (c.bBlocknr bp) = m (c.bDev bp) (c.bBlocknr bp)
  absent : ∀ dev block, dev ≠ NO_DEV →
    (∀ bp, valid bp → c.bDev bp = dev → c.bBlocknr bp ≠ block) → disk c.world dev block = m dev block

variable {io : DevIo σ} {disk : σ → Flat} {c c' : Cache σ} {m : Flat} {valid : BufPtr → Prop}
  {bp : BufPtr} {usable hashed : BufPtr → Prop} {L : List BufPtr} {H : Fin NR_BUF_HASH → List BufPtr}

/-- A transfer without an error leaves every buffer the block it has. -/
theorem transferDone_of_nonneg {r : Int} (hr : 0 ≤ r) (data : Block) (w : σ) :
    transferDone c bp r data w = { c with bData := update c.bData bp data, world := w } := by
  unfold transferDone
  rw [if_neg (by omega), if_neg (by omega)]

/-- Writing a buffer to a device that works stores its contents under its name. -/
theorem rwBlock_writing (hio : Works io disk) (he : rwBlock io c bp .WRITING = some c') :
    ∃ w, c' = { c with bDirt := update c.bDirt bp CLEAN, world := w } ∧
      (c.bDev bp = NO_DEV → w = c.world) ∧
      (c.bDev bp ≠ NO_DEV →
        disk w = (disk c.world).set (c.bDev bp) (c.bBlocknr bp) (c.bData bp)) := by
  obtain ⟨c₁, hdone, rfl⟩ := Option.map_eq_some_iff.mp he
  split at hdone
  · obtain ⟨⟨r, data, w⟩, htr, rfl⟩ := Option.map_eq_some_iff.mp hdone
    obtain ⟨hr, rfl, hw⟩ := hio.write htr
    refine ⟨w, ?_, fun hd => absurd hd ‹_›, fun _ => hw⟩
    rw [transferDone_of_nonneg hr, update_eq_self]
  · obtain rfl := Option.some.inj hdone
    exact ⟨c.world, rfl, fun _ => rfl, fun hd => absurd hd ‹_›⟩

/-- Reading a buffer that has a device fills it with the block it is named after. -/
theorem rwBlock_reading (hio : Works io disk) (hd : c.bDev bp ≠ NO_DEV)
    (he : rwBlock io c bp .READING = some c') :
    ∃ w, c' = { c with
        bData := update c.bData bp (disk c.world (c.bDev bp) (c.bBlocknr bp))
        bDirt := update c.bDirt bp CLEAN, world := w } ∧ disk w = disk c.world := by
  obtain ⟨c₁, hdone, rfl⟩ := Option.map_eq_some_iff.mp he
  rw [if_pos hd] at hdone
  obtain ⟨⟨r, data, w⟩, htr, rfl⟩ := Option.map_eq_some_iff.mp hdone
  obtain ⟨hr, rfl, hw⟩ := hio.read htr
  exact ⟨w, by rw [transferDone_of_nonneg hr], hw⟩

/-- Writing any valid buffer keeps the store, and leaves the buffer clean. -/
theorem Coherent.writing (h : Coherent disk c m valid) (hio : Works io disk) (hv : valid bp)
    (he : rwBlock io c bp .WRITING = some c') : Coherent disk c' m valid := by
  obtain ⟨w, rfl, hno, hset⟩ := rwBlock_writing hio he
  by_cases hd : c.bDev bp = NO_DEV
  · rw [hno hd]
    refine ⟨h.cached, fun b hvb hdb hcl => ?_, h.absent⟩
    have hb : b ≠ bp := fun e => hdb (e ▸ hd)
    change update c.bDirt bp CLEAN b = CLEAN at hcl
    rw [update_of_ne hb] at hcl
    exact h.clean b hvb hdb hcl
  · have hw := hset hd
    rw [h.cached bp hv hd] at hw
    -- the block that is written is the one of the store, so any block that was right stays right
    have hkeep : ∀ dev block, disk c.world dev block = m dev block →
        disk w dev block = m dev block := by
      intro dev block hm
      rw [hw]
      by_cases hn : dev = c.bDev bp ∧ block = c.bBlocknr bp
      · obtain ⟨rfl, rfl⟩ := hn
        exact Flat.set_self ..
      · rw [Flat.set_of_ne hn, hm]
    refine ⟨h.cached, fun b hvb hdb hcl => ?_, fun dev block hdev hno => ?_⟩
    · show disk w (c.bDev b) (c.bBlocknr b) = m (c.bDev b) (c.bBlocknr b)
      change update c.bDirt bp CLEAN b = CLEAN at hcl
      by_cases hb : b = bp
      · rw [hb, hw]
        exact Flat.set_self ..
      · rw [update_of_ne hb] at hcl
        exact hkeep _ _ (h.clean b hvb hdb hcl)
    · exact hkeep _ _ (h.absent dev block hdev hno)

/-- Reading a block into a buffer that nothing else claims to hold makes that buffer valid. -/
theorem Coherent.reading (h : Coherent disk c m valid) (hio : Works io disk)
    (hv : ∀ b, b ≠ bp → valid b) (hd : c.bDev bp ≠ NO_DEV)
    (hm : disk c.world (c.bDev bp) (c.bBlocknr bp) = m (c.bDev bp) (c.bBlocknr bp))
    (he : rwBlock io c bp .READING = some c') : Coherent disk c' m fun _ => True := by
  obtain ⟨w, rfl, hw⟩ := rwBlock_reading hio hd he
  refine ⟨fun b _ hdb => ?_, fun b _ hdb hcl => ?_, fun dev block hdev hno => ?_⟩
  · show update c.bData bp _ b = m (c.bDev b) (c.bBlocknr b)
    by_cases hb : b = bp
    · rw [hb, update_self, hm]
    · rw [update_of_ne hb]
      exact h.cached b (hv b hb) hdb
  · show disk w (c.bDev b) (c.bBlocknr b) = m (c.bDev b) (c.bBlocknr b)
    change update c.bDirt bp CLEAN b = CLEAN at hcl
    rw [hw]
    by_cases hb : b = bp
    · rw [hb, hm]
    · rw [update_of_ne hb] at hcl
      exact h.clean b (hv b hb) hdb hcl
  · show disk w dev block = m dev block
    rw [hw]
    exact h.absent dev block hdev fun b _ => hno b trivial

/-- A clean buffer can be given up: what it holds is on disk. -/
theorem Coherent.giveUp (h : Coherent disk c m fun _ => True) (bp : BufPtr)
    (hcl : c.bDev bp ≠ NO_DEV → c.bDirt bp = CLEAN) : Coherent disk c m (· ≠ bp) := by
  refine ⟨fun b _ => h.cached b trivial, fun b _ => h.clean b trivial, fun dev block hdev hno => ?_⟩
  by_cases hb : c.bDev bp = dev ∧ c.bBlocknr bp = block
  · obtain ⟨rfl, rfl⟩ := hb
    exact h.clean bp trivial hdev (hcl hdev)
  · refine h.absent dev block hdev fun b _ hd hn => ?_
    by_cases hbb : b = bp
    · exact hb ⟨hbb ▸ hd, hbb ▸ hn⟩
    · exact hno b hbb hd hn

/-- A buffer that is given up can be named anew. -/
theorem Coherent.rehash (h : Coherent disk c m (· ≠ bp)) (dev block : Nat) :
    Coherent disk (rehash c bp dev block) m (· ≠ bp) := by
  have hdev : ∀ b, b ≠ bp → update c.bDev bp dev b = c.bDev b := fun b hb => update_of_ne hb _ _
  have hblk : ∀ b, b ≠ bp → update c.bBlocknr bp block b = c.bBlocknr b :=
    fun b hb => update_of_ne hb _ _
  refine ⟨fun b hb hd => ?_, fun b hb hd hcl => ?_, fun d k hdk hno => ?_⟩
  · change update c.bDev bp dev b ≠ NO_DEV at hd
    show c.bData b = m (update c.bDev bp dev b) (update c.bBlocknr bp block b)
    rw [hdev b hb] at hd ⊢
    rw [hblk b hb]
    exact h.cached b hb hd
  · change update c.bDev bp dev b ≠ NO_DEV at hd
    show disk c.world (update c.bDev bp dev b) (update c.bBlocknr bp block b) =
      m (update c.bDev bp dev b) (update c.bBlocknr bp block b)
    rw [hdev b hb] at hd ⊢
    rw [hblk b hb]
    exact h.clean b hb hd hcl
  · refine h.absent d k hdk fun b hb hd hn => ?_
    exact hno b hb ((hdev b hb).trans hd) ((hblk b hb).trans hn)

/-- A buffer without a device is valid whatever it holds. -/
theorem Coherent.of_noDev (h : Coherent disk c m (· ≠ bp)) (hd : c.bDev bp = NO_DEV) :
    Coherent disk c m fun _ => True := by
  have hne : ∀ b, c.bDev b ≠ NO_DEV → b ≠ bp := fun b hb e => hb (e ▸ hd)
  exact ⟨fun b _ hb => h.cached b (hne b hb) hb, fun b _ hb => h.clean b (hne b hb) hb,
    fun dev block hdev hno => h.absent dev block hdev fun b _ => hno b trivial⟩

/-- Storing into a buffer stores into the block it is named after. -/
theorem Coherent.store (h : Coherent disk c m valid) (bp : BufPtr) (hv : ∀ b, b ≠ bp → valid b)
    (hu : ∀ a b, c.bDev a ≠ NO_DEV → c.bDev a = c.bDev b → c.bBlocknr a = c.bBlocknr b → a = b)
    (data : Block) : Coherent disk (storeBuf c bp data)
      (m.set (c.bDev bp) (c.bBlocknr bp) data) fun _ => True := by
  have hother : ∀ b, b ≠ bp → c.bDev b ≠ NO_DEV →
      m.set (c.bDev bp) (c.bBlocknr bp) data (c.bDev b) (c.bBlocknr b) =
        m (c.bDev b) (c.bBlocknr b) := fun b hb hd =>
    Flat.set_of_ne fun hn => hb (hu b bp hd hn.1 hn.2)
  refine ⟨fun b _ hd => ?_, fun b _ hd hcl => ?_, fun dev block hdev hno => ?_⟩
  · show update c.bData bp data b = m.set _ _ data (c.bDev b) (c.bBlocknr b)
    by_cases hb : b = bp
    · rw [hb, update_self, Flat.set_self]
    · rw [update_of_ne hb, hother b hb hd]
      exact h.cached b (hv b hb) hd
  · show disk c.world (c.bDev b) (c.bBlocknr b) = m.set _ _ data (c.bDev b) (c.bBlocknr b)
    change update c.bDirt bp DIRTY b = CLEAN at hcl
    have hb : b ≠ bp := by
      rintro rfl
      rw [update_self] at hcl
      cases hcl
    rw [update_of_ne hb] at hcl
    rw [hother b hb hd]
    exact h.clean b (hv b hb) hd hcl
  · show disk c.world dev block = m.set _ _ data dev block
    have hne : ¬(dev = c.bDev bp ∧ block = c.bBlocknr bp) :=
      fun hn => hno bp trivial hn.1.symm hn.2.symm
    rw [Flat.set_of_ne hne]
    exact h.absent dev block hdev fun b _ => hno b trivial

theorem Coherent.writeBack (h : Coherent disk c m valid) (hio : Works io disk) (hv : valid bp)
    (he : writeBack io c bp = some c') : Coherent disk c' m valid := by
  unfold FS.writeBack at he
  split at he
  · exact h.writing hio hv he
  · exact Option.some.inj he ▸ h

/-- With devices that work, writing back changes the dirty marks and the world at most. -/
theorem writeBack_spec (hio : Works io disk) (he : writeBack io c bp = some c') :
    ∃ dirt w, c' = { c with bDirt := dirt, world := w } ∧ (c.bDev bp ≠ NO_DEV → dirt bp = CLEAN) ∧
      ∀ b, c.bDirt b = CLEAN → dirt b = CLEAN := by
  unfold writeBack at he
  split at he
  · obtain ⟨w, rfl, _⟩ := rwBlock_writing hio he
    refine ⟨_, w, rfl, fun _ => update_self .., fun b hb => ?_⟩
    by_cases hbb : b = bp
    · rw [hbb, update_self]
    · rw [update_of_ne hbb, hb]
  · obtain rfl := Option.some.inj he
    refine ⟨c.bDirt, c.world, rfl, fun hd => ?_, fun _ => id⟩
    have hnot : ¬(c.bDirt bp = DIRTY ∧ c.bDev bp ≠ NO_DEV) := ‹_›
    exact Bool.eq_false_iff.mpr fun hdirty => hnot ⟨hdirty, hd⟩

/-- Every buffer that holds a block is clean. -/
def AllClean (c : Cache σ) : Prop := ∀ b, c.bDev b ≠ NO_DEV → c.bDirt b = CLEAN

/-- The buffer gets the name that was asked for, and buffers in use keep theirs. -/
structure Named (c c' : Cache σ) (bp : BufPtr) (dev block : Nat) : Prop where
  dev : c'.bDev bp = dev
  block : c'.bBlocknr bp = block
  frame : ∀ b, c.bCount b > 0 → c'.bDev b = c.bDev b ∧ c'.bBlocknr b = c.bBlocknr b

/-- An eviction before the block is read in: the buffer is named, and nothing is lost. -/
theorem Coherent.take (h : Coherent disk c m fun _ => True) (hl : Linked c usable usable L H)
    (hio : Works io disk) {dev block : Nat}
    (hnew : dev ≠ NO_DEV → ∀ b, c.bBlocknr b = block → c.bDev b ≠ dev) {flag : SearchFlag}
    (he : takeBlock io c dev block flag = some (bp, c')) :
    ∃ c₃, readIn io c₃ bp dev flag = some c' ∧ Named c c₃ bp dev block ∧
      Coherent disk c₃ m (· ≠ bp) ∧
      (dev ≠ NO_DEV → disk c₃.world dev block = m dev block) ∧
      (AllClean c → ∀ b, b ≠ bp → c₃.bDev b ≠ NO_DEV → c₃.bDirt b = CLEAN) := by
  obtain ⟨c₁, c₂, hold, hun, hw, hr⟩ := takeBlock_cases he
  have hc : Linked { c with bufsInUse := c.bufsInUse + 1 } usable usable L H :=
    ⟨hl.lru, hl.lru_mem, hl.hash, hl.hash_mem, hl.unique, hl.unusable⟩
  obtain ⟨hu, hfree⟩ := hc.oldestFree hold
  obtain ⟨bHash, bufHash, hun', _⟩ := hc.unhash hu
  obtain rfl := Option.some.inj (hun'.symm.trans hun)
  have h₂ := Coherent.writeBack (c := { c with
    bufsInUse := c.bufsInUse + 1, bHash := bHash, bufHash := bufHash })
    ⟨h.cached, h.clean, h.absent⟩ hio trivial hw
  obtain ⟨dirt, w, rfl, hclean, hkeep⟩ := writeBack_spec hio hw
  have h₃ := h₂.giveUp bp hclean
  refine ⟨_, hr, ⟨update_self .., update_self .., fun b hb => ?_⟩, h₃.rehash dev block,
    fun hd => ?_, fun hall b hb hdb => ?_⟩
  · have hne : b ≠ bp := fun e => hfree (e ▸ hb)
    exact ⟨update_of_ne hne .., update_of_ne hne ..⟩
  · exact h₃.absent dev block hd fun b _ hdb hn => hnew hd b hn hdb
  · change update c.bDev bp dev b ≠ NO_DEV at hdb
    rw [update_of_ne hb] at hdb
    exact hkeep b (hall b hdb)

/-- Reading the block in after an eviction. -/
theorem Coherent.take_normal (h : Coherent disk c m fun _ => True)
    (hl : Linked c usable usable L H) (hio : Works io disk) {dev block : Nat}
    (hnew : dev ≠ NO_DEV → ∀ b, c.bBlocknr b = block → c.bDev b ≠ dev)
    (he : takeBlock io c dev block .NORMAL = some (bp, c')) :
    Coherent disk c' m (fun _ => True) ∧ Named c c' bp dev block ∧
      (AllClean c → AllClean c') := by
  obtain ⟨c₃, hr, hname, h₃, hm, hall⟩ := h.take hl hio hnew he
  unfold readIn at hr
  by_cases hd : dev = NO_DEV
  · rw [if_neg fun hn => hn.1 hd] at hr
    obtain rfl := Option.some.inj hr
    refine ⟨h₃.of_noDev (hname.dev.trans hd), hname, fun hac b hb => hall hac b ?_ hb⟩
    exact fun e => hb (e ▸ hname.dev.trans hd)
  · rw [if_pos ⟨hd, rfl⟩] at hr
    have hdev : c₃.bDev bp ≠ NO_DEV := fun e => hd (hname.dev.symm.trans e)
    have hc' := h₃.reading hio (fun _ => id) hdev (by rw [hname.dev, hname.block]; exact hm hd) hr
    obtain ⟨w, rfl, _⟩ := rwBlock_reading hio hdev hr
    refine ⟨hc', ⟨hname.dev, hname.block, hname.frame⟩, fun hac b hb => ?_⟩
    show update c₃.bDirt bp CLEAN b = CLEAN
    by_cases hbb : b = bp
    · rw [hbb, update_self]
    · rw [update_of_ne hbb]
      exact hall hac b hbb hb

/-- `get_block` with `NORMAL` keeps the store, and its buffer holds the block. -/
theorem Coherent.get (h : Coherent disk c m fun _ => True) (hl : Linked c usable usable L H)
    (hio : Works io disk) {dev block : Nat}
    (he : getBlock io c dev block .NORMAL = some (bp, c')) :
    Coherent disk c' m (fun _ => True) ∧ Named c c' bp dev block ∧ (AllClean c → AllClean c') := by
  rcases hl.getBlock_cases he with ⟨_, _, hdev, hblock, rfl⟩ | ⟨htake, hnew⟩
  · exact ⟨⟨h.cached, h.clean, h.absent⟩, ⟨hdev, hblock, fun _ _ => ⟨rfl, rfl⟩⟩, id⟩
  · exact h.take_normal hl hio hnew htake

/-- `get_block` with `NO_READ`, when the whole block is then overwritten. -/
theorem Coherent.overwrite (h : Coherent disk c m fun _ => True)
    (hl : Linked c usable usable L H) (hio : Works io disk) {dev block : Nat}
    (he : getBlock io c dev block .NO_READ = some (bp, c')) (data : Block) :
    Coherent disk (storeBuf c' bp data) (m.set dev block data) (fun _ => True) ∧
      Named c c' bp dev block := by
  have hu' : ∃ H', Linked c' usable usable L H' := (hl.getBlock he).2
  obtain ⟨H', hl'⟩ := hu'
  rcases hl.getBlock_cases he with ⟨_, _, hdev, hblock, rfl⟩ | ⟨htake, hnew⟩
  · have hs := Coherent.store (c := useBlock c bp) ⟨h.cached, h.clean, h.absent⟩ bp
      (fun _ _ => trivial) hl'.unique data
    refine ⟨?_, ⟨hdev, hblock, fun _ _ => ⟨rfl, rfl⟩⟩⟩
    rwa [show (useBlock c bp).bDev bp = dev from hdev,
      show (useBlock c bp).bBlocknr bp = block from hblock] at hs
  · obtain ⟨c₃, hr, hname, h₃, _, _⟩ := h.take hl hio hnew htake
    rw [readIn, if_neg (by simp)] at hr
    obtain rfl := Option.some.inj hr
    have hs := h₃.store bp (fun _ => id) hl'.unique data
    rw [hname.dev, hname.block] at hs
    exact ⟨hs, hname⟩

/-- Taking the device from clean buffers loses nothing. -/
theorem Coherent.setDev (h : Coherent disk c m fun _ => True) {dev : BufPtr → Nat}
    (hdev : ∀ b, dev b = c.bDev b ∨ dev b = NO_DEV ∧ (c.bDev b ≠ NO_DEV → c.bDirt b = CLEAN)) :
    Coherent disk { c with bDev := dev } m fun _ => True := by
  have hold : ∀ b, dev b ≠ NO_DEV → dev b = c.bDev b := fun b hb =>
    (hdev b).resolve_right fun hn => hb hn.1
  refine ⟨fun b _ hd => ?_, fun b _ hd hcl => ?_, fun d k hdk hno => ?_⟩
  · change dev b ≠ NO_DEV at hd
    show c.bData b = m (dev b) (c.bBlocknr b)
    rw [hold b hd]
    exact h.cached b trivial (hold b hd ▸ hd)
  · change dev b ≠ NO_DEV at hd
    show disk c.world (dev b) (c.bBlocknr b) = m (dev b) (c.bBlocknr b)
    rw [hold b hd]
    exact h.clean b trivial (hold b hd ▸ hd) hcl
  · by_cases hb : ∃ b, c.bDev b = d ∧ c.bBlocknr b = k
    · obtain ⟨b, rfl, rfl⟩ := hb
      rcases hdev b with hn | ⟨_, hcl⟩
      · exact absurd rfl (hno b trivial hn)
      · exact h.clean b trivial hdk (hcl hdk)
    · exact h.absent d k hdk fun b _ hd hn => hb ⟨b, hd, hn⟩

/-- Releasing a buffer changes only the LRU chain and the number of buffers in use. -/
theorem requeue_spec (c : Cache σ) (bp : BufPtr) (blockType : Nat) :
    ∃ nx pv f r u, requeue c bp blockType =
      { c with bNext := nx, bPrev := pv, front := f, rear := r, bufsInUse := u } := by
  unfold requeue
  by_cases hone : blockType &&& ONE_SHOT ≠ 0
  · simp only [if_pos hone]
    exact ⟨_, _, _, _, _, rfl⟩
  · simp only [if_neg hone]
    exact ⟨_, _, _, _, _, rfl⟩

/-- `put_block` keeps the store. A buffer that is in use afterwards has kept its name. -/
theorem Coherent.put (h : Coherent disk c m fun _ => True) (hio : Works io disk)
    {bp : Option BufPtr} {blockType : Nat} (he : putBlock io c bp blockType = some c') :
    Coherent disk c' m (fun _ => True) ∧ (AllClean c → AllClean c') ∧
      ∀ b, c'.bCount b > 0 → c'.bDev b = c.bDev b ∧ c'.bBlocknr b = c.bBlocknr b := by
  cases bp with
  | none =>
    obtain rfl := Option.some.inj he
    exact ⟨h, id, fun _ _ => ⟨rfl, rfl⟩⟩
  | some bp =>
    simp only [putBlock] at he
    split at he
    · obtain rfl := Option.some.inj he
      exact ⟨⟨h.cached, h.clean, h.absent⟩, id, fun _ _ => ⟨rfl, rfl⟩⟩
    · rename_i hfree
      obtain ⟨c₁, hw, rfl⟩ := Option.map_eq_some_iff.mp he
      obtain ⟨nx, pv, f, r, u, hq⟩ := requeue_spec
        { c with bCount := update c.bCount bp (c.bCount bp - 1) } bp blockType
      rw [hq] at hw
      have hq' : Coherent disk { c with
          bCount := update c.bCount bp (c.bCount bp - 1), bNext := nx, bPrev := pv, front := f,
          rear := r, bufsInUse := u } m fun _ => True := ⟨h.cached, h.clean, h.absent⟩
      have hc₁ : Coherent disk c₁ m (fun _ => True) ∧ ∃ dirt w, c₁ = { c with
          bCount := update c.bCount bp (c.bCount bp - 1), bNext := nx, bPrev := pv, front := f,
          rear := r, bufsInUse := u, bDirt := dirt, world := w } ∧
          (blockType &&& WRITE_IMMED ≠ 0 → c.bDev bp ≠ NO_DEV → dirt bp = CLEAN) ∧
          ∀ b, c.bDirt b = CLEAN → dirt b = CLEAN := by
        split at hw
        · obtain ⟨dirt, w, hc₁, hcl, hkeep⟩ := writeBack_spec hio hw
          exact ⟨hq'.writeBack hio trivial hw, dirt, w, hc₁, fun _ => hcl, hkeep⟩
        · obtain rfl := Option.some.inj hw
          exact ⟨hq', c.bDirt, c.world, rfl, fun hn => absurd hn ‹_›, fun _ => id⟩
      obtain ⟨hcoh, dirt, w, rfl, himmed, hkeep⟩ := hc₁
      have hne : ∀ b, update c.bCount bp (c.bCount bp - 1) b > 0 → b ≠ bp :=
        fun b hb e => hfree (e ▸ hb)
      by_cases hz : blockType = ZUPER_BLOCK
      · have hclean : c.bDev bp ≠ NO_DEV → dirt bp = CLEAN := himmed (by rw [hz]; decide)
        rw [if_pos hz]
        refine ⟨hcoh.setDev fun b => ?_, fun hall b hb => ?_, fun b hb => ?_⟩
        · by_cases hbb : b = bp
          · exact Or.inr (by rw [hbb, update_self]; exact ⟨rfl, hclean⟩)
          · exact Or.inl (update_of_ne hbb ..)
        · change update c.bDev bp NO_DEV b ≠ NO_DEV at hb
          refine hkeep b (hall b fun hn => hb ?_)
          by_cases hbb : b = bp
          · rw [hbb, update_self]
          · rw [update_of_ne hbb, hn]
        · exact ⟨update_of_ne (hne b hb) .., rfl⟩
      · rw [if_neg hz]
        exact ⟨hcoh, fun hall b hb => hkeep b (hall b hb), fun b _ => ⟨rfl, rfl⟩⟩

/-- A dirty block may be written at any time, and a clean one read again. -/
theorem Coherent.rw (h : Coherent disk c m fun _ => True) (hio : Works io disk) {flag : RwFlag}
    (hflag : flag = .READING → c.bDev bp ≠ NO_DEV → c.bDirt bp = CLEAN)
    (he : rwBlock io c bp flag = some c') :
    Coherent disk c' m (fun _ => True) ∧ c'.bDev = c.bDev ∧ c'.bBlocknr = c.bBlocknr ∧
      c'.bDirt = update c.bDirt bp CLEAN := by
  cases flag with
  | WRITING =>
    have hc' := h.writing hio trivial he
    obtain ⟨w, rfl, _⟩ := rwBlock_writing hio he
    exact ⟨hc', rfl, rfl, rfl⟩
  | READING =>
    by_cases hd : c.bDev bp = NO_DEV
    · rw [rwBlock, if_neg (not_not.mpr hd), Option.map_some] at he
      obtain rfl := Option.some.inj he
      refine ⟨⟨h.cached, fun b _ hb hcl => h.clean b trivial hb ?_, h.absent⟩, rfl, rfl, rfl⟩
      have hbb : b ≠ bp := fun e => hb (e ▸ hd)
      change update c.bDirt bp CLEAN b = CLEAN at hcl
      rwa [update_of_ne hbb] at hcl
    · have hm := h.clean bp trivial hd (hflag rfl hd)
      have hc' := h.reading hio (fun _ _ => trivial) hd hm he
      obtain ⟨w, rfl, _⟩ := rwBlock_reading hio hd he
      exact ⟨hc', rfl, rfl, rfl⟩

/-- One sweep of `do_sync` keeps the store and the names, and cleans what it is for. -/
theorem Coherent.sweep (hio : Works io disk) {minorZero : Bool} {l : List BufPtr} :
    ∀ {c : Cache σ}, Coherent disk c m (fun _ => True) → flushSweep io minorZero l c = some c' →
      Coherent disk c' m (fun _ => True) ∧ c'.bDev = c.bDev ∧ c'.bBlocknr = c.bBlocknr ∧
        (∀ b, c.bDirt b = CLEAN → c'.bDirt b = CLEAN) ∧
        ∀ b ∈ l, c.bDev b ≠ NO_DEV → decide (c.bDev b &&& 255 = 0) = minorZero →
          c'.bDirt b = CLEAN := by
  induction l with
  | nil =>
    intro c h he
    obtain rfl := Option.some.inj he
    exact ⟨h, rfl, rfl, fun _ => id, by simp⟩
  | cons a l ih =>
    intro c h he
    simp only [flushSweep] at he
    split at he
    · obtain ⟨c₁, hw, he⟩ := Option.bind_eq_some_iff.mp he
      obtain ⟨h₁, hdev, hblk, hdirt⟩ := h.rw hio (fun hf => by cases hf) hw
      obtain ⟨h', hdev', hblk', hkeep, hl⟩ := ih h₁ he
      have hkeep₁ : ∀ b, c.bDirt b = CLEAN → c₁.bDirt b = CLEAN := by
        intro b hb
        rw [hdirt]
        by_cases hba : b = a
        · rw [hba, update_self]
        · rw [update_of_ne hba, hb]
      refine ⟨h', hdev'.trans hdev, hblk'.trans hblk, fun b hb => hkeep b (hkeep₁ b hb), ?_⟩
      rw [hdev] at hl
      exact List.forall_mem_cons.mpr ⟨fun _ _ => hkeep a (by rw [hdirt, update_self]), hl⟩
    · rename_i hskip
      obtain ⟨h', hdev', hblk', hkeep, hl⟩ := ih h he
      refine ⟨h', hdev', hblk', hkeep, List.forall_mem_cons.mpr ⟨fun hd hm => hkeep a ?_, hl⟩⟩
      exact Bool.eq_false_iff.mpr fun hdirty => hskip ⟨hd, hdirty, hm⟩

/-- After `do_sync` every block in memory is on disk. -/
theorem Coherent.sync (h : Coherent disk c m fun _ => True) (hio : Works io disk)
    (he : flushBlocks io c = some c') :
    Coherent disk c' m (fun _ => True) ∧ c'.bDev = c.bDev ∧ c'.bBlocknr = c.bBlocknr ∧
      AllClean c' := by
  obtain ⟨c₁, h₁, h₂⟩ := Option.bind_eq_some_iff.mp he
  obtain ⟨hc₁, hdev₁, hblk₁, _, hl₁⟩ := h.sweep hio h₁
  obtain ⟨hc', hdev', hblk', hkeep, hl'⟩ := hc₁.sweep hio h₂
  refine ⟨hc', hdev'.trans hdev₁, hblk'.trans hblk₁, fun b hb => ?_⟩
  rw [hdev'] at hb
  cases hm : decide (c₁.bDev b &&& 255 = 0) with
  | false => exact hl' b (List.mem_finRange b) hb hm
  | true =>
    rw [hdev₁] at hb hm
    exact hkeep b (hl₁ b (List.mem_finRange b) hb hm)

theorem Linked.sweep {minorZero : Bool} {l : List BufPtr} :
    ∀ {c : Cache σ}, Linked c usable hashed L H → flushSweep io minorZero l c = some c' →
      Linked c' usable hashed L H := by
  induction l with
  | nil =>
    intro c h he
    exact Option.some.inj he ▸ h
  | cons a l ih =>
    intro c h he
    simp only [flushSweep] at he
    split at he
    · obtain ⟨c₁, hw, he⟩ := Option.bind_eq_some_iff.mp he
      exact ih (h.rwBlock hw) he
    · exact ih h he

theorem Linked.sync (h : Linked c usable hashed L H) (he : flushBlocks io c = some c') :
    Linked c' usable hashed L H := by
  obtain ⟨c₁, h₁, h₂⟩ := Option.bind_eq_some_iff.mp he
  exact (h.sweep h₁).sweep h₂

/-- The cache, the contents last written to every block, and whether `do_sync` has run since a
block was last made dirty. The code looks at the cache alone. -/
structure Store (σ : Type) where
  cache : Cache σ
  flat : Flat
  synced : Bool

/-- The calls of the file system: a block is fetched, fetched to be overwritten, changed in
memory, released, transferred; all blocks are written out; those of a device are dropped. -/
inductive StoreCall where
  | get (dev block : Nat)
  | overwrite (dev block : Nat) (data : Block)
  | modify (bp : BufPtr) (data : Block)
  | put (bp : Option BufPtr) (blockType : Nat)
  | rw (bp : BufPtr) (flag : RwFlag)
  | sync
  | invalidate (device : Nat)

namespace Store

/-- The cache and the contents of the blocks after a call. -/
def step (io : DevIo σ) (s : Store σ) : StoreCall → Option (Store σ)
  | .get dev block =>
    (getBlock io s.cache dev block .NORMAL).map fun r => { s with cache := r.2 }
  | .overwrite dev block data =>
    (getBlock io s.cache dev block .NO_READ).map fun r =>
      ⟨storeBuf r.2 r.1 data, s.flat.set dev block data, false⟩
  | .modify bp data =>
    some ⟨storeBuf s.cache bp data, s.flat.set (s.cache.bDev bp) (s.cache.bBlocknr bp) data, false⟩
  | .put bp blockType => (putBlock io s.cache bp blockType).map fun c => { s with cache := c }
  | .rw bp flag => (rwBlock io s.cache bp flag).map fun c => { s with cache := c }
  | .sync => (flushBlocks io s.cache).map fun c => { s with cache := c, synced := true }
  | .invalidate device => some { s with cache := FS.invalidate s.cache device }

/-- A buffer is changed while it is in use, and released only if `get_block` can return it. A device
is invalidated only after `do_sync`. -/
def issued (addr : Nat) (s : Store σ) : StoreCall → Prop
  | .modify bp _ => s.cache.bCount bp > 0
  | .put (some bp) _ => Usable addr bp
  | .invalidate _ => s.synced = true
  | _ => True

instance (addr : Nat) (s : Store σ) (call : StoreCall) : Decidable (issued addr s call) :=
  match call with
  | .modify bp _ => inferInstanceAs (Decidable (s.cache.bCount bp > 0))
  | .put (some bp) _ => inferInstanceAs (Decidable (Usable addr bp))
  | .invalidate _ => inferInstanceAs (Decidable (s.synced = true))
  | .put none _ | .get .. | .overwrite .. | .rw .. | .sync => inferInstanceAs (Decidable True)

/-- `rw_block` does not look at `b_dirt`: a dirty block that is read again is lost. -/
def keepsDirty (s : Store σ) : StoreCall → Prop
  | .rw bp .READING => s.cache.bDev bp ≠ NO_DEV → s.cache.bDirt bp = CLEAN
  | _ => True

instance (s : Store σ) (call : StoreCall) : Decidable (keepsDirty s call) :=
  match call with
  | .rw bp .READING =>
    inferInstanceAs (Decidable (s.cache.bDev bp ≠ NO_DEV → s.cache.bDirt bp = CLEAN))
  | .rw _ .WRITING | .modify .. | .put .. | .get .. | .overwrite .. | .sync | .invalidate _ =>
    inferInstanceAs (Decidable True)

/-- The calls are issued as they should be, and no dirty block is read again. -/
def guard (addr : Nat) (s : Store σ) (call : StoreCall) : Prop :=
  issued addr s call ∧ keepsDirty s call

instance (addr : Nat) (s : Store σ) (call : StoreCall) : Decidable (guard addr s call) :=
  inferInstanceAs (Decidable (_ ∧ _))

/-- The chains are well formed, the cache refines the flat map, and after `do_sync` no block is
dirty. -/
structure Inv (disk : σ → Flat) (addr : Nat) (s : Store σ) : Prop where
  linked : ∃ L H, Linked s.cache (Usable addr) (Usable addr) L H
  coherent : Coherent disk s.cache s.flat fun _ => True
  synced : s.synced = true → AllClean s.cache

/-- A call keeps the invariant. Only `invalidate` takes the name from a buffer that is in use
before and after. -/
theorem Inv.step {addr : Nat} {s s' : Store σ} {call : StoreCall} (h : s.Inv disk addr)
    (hio : Works io disk) (hg : guard addr s call) (he : step io s call = some s') :
    s'.Inv disk addr ∧ ∀ b, s.cache.bCount b > 0 → s'.cache.bCount b > 0 →
      call ≠ .invalidate (s.cache.bDev b) →
      s'.cache.bDev b = s.cache.bDev b ∧ s'.cache.bBlocknr b = s.cache.bBlocknr b := by
  obtain ⟨⟨L, H, hl⟩, hc, hs⟩ := h
  cases call with
  | get dev block =>
    obtain ⟨⟨bp, c⟩, hget, rfl⟩ := Option.map_eq_some_iff.mp he
    obtain ⟨hc', hname, hall⟩ := hc.get hl hio hget
    obtain ⟨_, H', hl'⟩ := hl.getBlock hget
    exact ⟨⟨⟨L, H', hl'⟩, hc', fun hsy => hall (hs hsy)⟩, fun b hb _ _ => hname.frame b hb⟩
  | overwrite dev block data =>
    obtain ⟨⟨bp, c⟩, hget, rfl⟩ := Option.map_eq_some_iff.mp he
    obtain ⟨hc', hname⟩ := hc.overwrite hl hio hget data
    obtain ⟨_, H', hl'⟩ := hl.getBlock hget
    exact ⟨⟨⟨L, H', hl'.lru, hl'.lru_mem, hl'.hash, hl'.hash_mem, hl'.unique, hl'.unusable⟩, hc',
      fun hsy => by cases hsy⟩, fun b hb _ _ => hname.frame b hb⟩
  | modify bp data =>
    obtain rfl := Option.some.inj he
    exact ⟨⟨⟨L, H, hl.lru, hl.lru_mem, hl.hash, hl.hash_mem, hl.unique, hl.unusable⟩,
      hc.store bp (fun _ _ => trivial) hl.unique data, fun hsy => by cases hsy⟩,
      fun _ _ _ _ => ⟨rfl, rfl⟩⟩
  | put bp blockType =>
    obtain ⟨c, hput, rfl⟩ := Option.map_eq_some_iff.mp he
    obtain ⟨hc', hall, hframe⟩ := hc.put hio hput
    obtain ⟨L', hl'⟩ := hl.putBlock (fun b hb => by subst hb; exact hg.1) hput
    exact ⟨⟨⟨L', H, hl'⟩, hc', fun hsy => hall (hs hsy)⟩, fun b _ hb _ => hframe b hb⟩
  | rw bp flag =>
    obtain ⟨c, hrw, rfl⟩ := Option.map_eq_some_iff.mp he
    obtain ⟨hc', hdev, hblk, hdirt⟩ := hc.rw hio (fun hf => by subst hf; exact hg.2) hrw
    refine ⟨⟨⟨L, H, hl.rwBlock hrw⟩, hc', fun hsy b hb => ?_⟩,
      fun b _ _ _ => ⟨congrFun hdev b, congrFun hblk b⟩⟩
    change c.bDirt b = CLEAN
    change c.bDev b ≠ NO_DEV at hb
    rw [hdirt]
    by_cases hbb : b = bp
    · rw [hbb, update_self]
    · rw [update_of_ne hbb]
      exact hs hsy b (hdev ▸ hb)
  | sync =>
    obtain ⟨c, hsync, rfl⟩ := Option.map_eq_some_iff.mp he
    obtain ⟨hc', hdev, hblk, hall⟩ := hc.sync hio hsync
    exact ⟨⟨⟨L, H, hl.sync hsync⟩, hc', fun _ => hall⟩,
      fun b _ _ _ => ⟨congrFun hdev b, congrFun hblk b⟩⟩
  | invalidate device =>
    obtain rfl := Option.some.inj he
    have hclean := hs hg.1
    refine ⟨⟨⟨L, H, hl.invalidate device⟩, hc.setDev fun b => ?_, fun _ b hb => ?_⟩,
      fun b _ _ hne => ⟨if_neg fun hd => hne (by rw [hd]), rfl⟩⟩
    · by_cases hd : s.cache.bDev b = device
      · exact Or.inr ⟨if_pos hd, hclean b⟩
      · exact Or.inl (if_neg hd)
    · refine hclean b fun hn => hb ?_
      show (if s.cache.bDev b = device then NO_DEV else s.cache.bDev b) = NO_DEV
      rw [hn]
      split <;> rfl

/-- The cache after `buf_pool`; the devices hold whatever they hold. -/
def init (disk : σ → Flat) (addr : Nat) (data : BufPtr → Block) (w : σ) : Store σ :=
  ⟨bufPool addr (unpooled data w), disk w, false⟩

theorem inv_init (disk : σ → Flat) (addr : Nat) (data : BufPtr → Block) (w : σ) :
    (init disk addr data w).Inv disk addr := by
  obtain ⟨_, hd, _, _, hw⟩ := delete_sweep addr (unpooled data w)
  have hdev : ∀ b, (init disk addr data w).cache.bDev b = NO_DEV := congrFun hd
  refine ⟨bufPool_linked addr data w, ⟨fun b _ hb => absurd (hdev b) hb,
    fun b _ hb => absurd (hdev b) hb, fun dev block _ _ => ?_⟩, fun _ b hb => absurd (hdev b) hb⟩
  have hw' : (init disk addr data w).cache.world = w := hw
  rw [hw']
  rfl

/-- In every state that is reached with devices that work, fetching a block gives the contents
last written to it. A buffer that stays in use keeps the block it was fetched for, unless its
device is invalidated. -/
theorem cache_coherence (hio : Works io disk) {addr : Nat} {data : BufPtr → Block} {w : σ}
    {s : Store σ} (hr : Reach (step io) (guard addr) (fun s => s = init disk addr data w) s) :
    (∀ dev block bp c, dev ≠ NO_DEV → getBlock io s.cache dev block .NORMAL = some (bp, c) →
      c.bData bp = s.flat dev block ∧ c.bDev bp = dev ∧ c.bBlocknr bp = block) ∧
    ∀ call s', guard addr s call → step io s call = some s' →
      ∀ b, s.cache.bCount b > 0 → s'.cache.bCount b > 0 → call ≠ .invalidate (s.cache.bDev b) →
        s'.cache.bDev b = s.cache.bDev b ∧ s'.cache.bBlocknr b = s.cache.bBlocknr b := by
  have h : s.Inv disk addr := by
    refine hr.invariant (fun s => s.Inv disk addr) ?_
      fun s call s' hi hg he => (hi.step hio hg he).1
    rintro s rfl
    exact inv_init disk addr data w
  refine ⟨fun dev block bp c hd hget => ?_, fun call s' hg he => (h.step hio hg he).2⟩
  obtain ⟨L, H, hl⟩ := h.linked
  obtain ⟨hc, hname, _⟩ := h.coherent.get hl hio hget
  have hcached := hc.cached bp trivial (hname.dev ▸ hd)
  rw [hname.dev, hname.block] at hcached
  exact ⟨hcached, hname.dev, hname.block⟩

/-- A device that is the store itself. -/
def flatDevice : DevIo Flat := fun flag dev pos data w =>
  match flag with
  | .READING => some (BLOCK_SIZE, w dev (pos / BLOCK_SIZE), w)
  | .WRITING => some (BLOCK_SIZE, data, w.set dev (pos / BLOCK_SIZE) data)

theorem flatDevice_works : Works flatDevice id := by
  refine ⟨fun he => ?_, fun he => ?_⟩
  · obtain ⟨rfl, rfl, rfl⟩ := Option.some.inj he
    exact ⟨by decide, by rw [Nat.mul_div_cancel _ (by decide)]; rfl, rfl⟩
  · obtain ⟨rfl, rfl, rfl⟩ := Option.some.inj he
    exact ⟨by decide, rfl, by rw [Nat.mul_div_cancel _ (by decide)]; rfl⟩

/-- A block that is written, evicted by way of a super block, and dropped with its device. -/
theorem cache_coherence_example :
    ∃ s, run (step flatDevice) (guard 0) (init id 0 (fun _ _ => 0) fun _ _ _ => 0)
        [.overwrite 256 7 (fun _ => 9), .put (some 0) ZUPER_BLOCK, .get 256 1, .sync,
          .invalidate 256] = some s ∧
      ∀ bp c, getBlock flatDevice s.cache 256 7 .NORMAL = some (bp, c) →
        c.bData bp = s.flat 256 7 := by
  have hsome : (run (step flatDevice) (guard 0) (init id 0 (fun _ _ => 0) fun _ _ _ => 0)
      [.overwrite 256 7 (fun _ => 9), .put (some 0) ZUPER_BLOCK, .get 256 1, .sync,
        .invalidate 256]).isSome := by
    decide +kernel
  obtain ⟨s, hs⟩ := Option.isSome_iff_exists.mp hsome
  refine ⟨s, hs, fun bp c hget => ?_⟩
  exact ((cache_coherence flatDevice_works (Reach.of_run (.init rfl) hs)).1 256 7 bp c (by decide)
    hget).1

/-- A block is fetched, changed and read again before it is written out. -/
def rereadCalls : List StoreCall :=
  [.get 256 7, .modify 0 (fun _ => 9), .rw 0 .READING]

/-- Reading a dirty block again loses what was last written to it. -/
theorem cache_reread_loses :
    Works flatDevice id ∧
      ∃ s, run (step flatDevice) (issued 0) (init id 0 (fun _ _ => 0) fun _ _ _ => 0) rereadCalls =
          some s ∧
        ∃ bp c, getBlock flatDevice s.cache 256 7 .NORMAL = some (bp, c) ∧
          c.bData bp ≠ s.flat 256 7 := by
  have hlost : ((run (step flatDevice) (issued 0) (init id 0 (fun _ _ => 0) fun _ _ _ => 0)
      rereadCalls).bind fun s => (getBlock flatDevice s.cache 256 7 .NORMAL).map fun r =>
        decide (r.2.bData r.1 0 = s.flat 256 7 0)) = some false := by
    decide +kernel
  obtain ⟨s, hs, hget⟩ := Option.bind_eq_some_iff.mp hlost
  obtain ⟨⟨bp, c⟩, hr, hne⟩ := Option.map_eq_some_iff.mp hget
  exact ⟨flatDevice_works, s, hs, bp, c, hr, fun he => of_decide_eq_false hne (congrFun he 0)⟩

end Store

end Minix.FS
