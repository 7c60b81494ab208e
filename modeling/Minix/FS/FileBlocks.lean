import Minix.FS.MapBounds

/-!
# The blocks of a file

When the zones of a file are its own, the blocks it has are the blocks of no other part of the
device. A store into one of them leaves the others alone, and so does a new block at the end of the
file, for which a zone may have to be found.
-/

namespace Minix.FS.ZoneMaps

open Function Inodes Transition IndexTree

variable {σ : Type}

/-- The block of a file with a number, if the file has it. -/
def fileBlock (sp : Super) (m : Flat) (ip : Inode) (q : Nat) : Nat :=
  match slotOf NR_DZONE_NUM NR_INDIRECTS (q >>> scaleOf sp) with
  | some s => blockIn (zoneOf sp m ip s) (scaleOf sp) (q % 2 ^ scaleOf sp : Nat)
  | none => NO_BLOCK

/-- The zones of a file are busy data zones of its own. -/
structure Owned (sp : Super) (m : Flat) (ip : Inode) : Prop where
  tree : Tree sp m ip
  spare : ∀ s, zoneOf sp m ip s ≠ NO_ZONE → Spare sp m ip (zoneOf sp m ip s)
  apart : ∀ s s', zoneOf sp m ip s ≠ NO_ZONE → zoneOf sp m ip s = zoneOf sp m ip s' → s = s'

variable {io : DevIo σ} {disk : σ → Flat} {usable : BufPtr → Prop} {sup : SuperPtr → Super}
  {sp : Super} {c₀ : Cache σ} {U : Cache σ → Prop} {K : Int → Prop} {m m' : Flat}
  {ip ip' : Inode} {bp : BufPtr} {block q q' : Nat}

/-! ## Numbers of blocks -/

/-- The zone number of a block of the file. -/
theorem fileZone_block (q : Nat) :
    fileZone sp (BLOCK_SIZE * q : Nat) = (q >>> scaleOf sp : Nat) := by
  have hdiv : ((BLOCK_SIZE * q : Nat) : Int).tdiv BLOCK_SIZE = q := by
    rw [Int.tdiv_eq_ediv_of_nonneg (Int.natCast_nonneg _)]
    simp only [BLOCK_SIZE]
    omega
  unfold fileZone
  rw [hdiv]
  rfl

/-- And its place in that zone. -/
theorem fileOff_block (q : Nat) :
    fileOff sp (BLOCK_SIZE * q : Nat) = (q % 2 ^ scaleOf sp : Nat) := by
  have hdiv : ((BLOCK_SIZE * q : Nat) : Int).tdiv BLOCK_SIZE = q := by
    rw [Int.tdiv_eq_ediv_of_nonneg (Int.natCast_nonneg _)]
    simp only [BLOCK_SIZE]
    omega
  have hsplit := Nat.div_add_mod q (2 ^ scaleOf sp)
  unfold fileOff
  rw [fileZone_block, hdiv, Nat.shiftRight_eq_div_pow]
  rw [Nat.mul_comm] at hsplit
  have hcast : ((q / 2 ^ scaleOf sp * 2 ^ scaleOf sp + q % 2 ^ scaleOf sp : Nat) : Int) = q :=
    congrArg _ hsplit
  push_cast at *
  omega

/-- The number of a block of a zone. -/
theorem blockIn_eq (hlay : Layout sp) {z : Nat} (hz : DataZone sp z) (q : Nat) :
    blockIn z (scaleOf sp) (q % 2 ^ scaleOf sp : Nat) =
      z * 2 ^ scaleOf sp + q % 2 ^ scaleOf sp := by
  have h := blockIn_dataZone hlay hz (BLOCK_SIZE * q : Nat)
  rw [fileOff_block, Nat.shiftLeft_eq] at h
  exact_mod_cast h

/-- A block is in its zone. -/
theorem inZone_add (sp : Super) (z q : Nat) :
    InZone sp z (z * 2 ^ scaleOf sp + q % 2 ^ scaleOf sp) := by
  have hlt := Nat.mod_lt q (Nat.two_pow_pos (scaleOf sp))
  refine ⟨Nat.le_add_right .., ?_⟩
  rw [Nat.add_mul, Nat.one_mul]
  exact Nat.add_lt_add_left hlt _

/-- A block of the file, by the slot of its zone. -/
theorem fileBlock_of_slot {s : Slot NR_DZONE_NUM NR_INDIRECTS}
    (hs : slotOf NR_DZONE_NUM NR_INDIRECTS (q >>> scaleOf sp) = some s) :
    fileBlock sp m ip q = blockIn (zoneOf sp m ip s) (scaleOf sp) (q % 2 ^ scaleOf sp : Nat) := by
  unfold fileBlock
  rw [hs]

/-- Where the blocks of a file are depends on its zones. -/
theorem fileBlock_congr (hnames : ∀ s, zoneOf sp m' ip' s = zoneOf sp m ip s) (q : Nat) :
    fileBlock sp m' ip' q = fileBlock sp m ip q := by
  unfold fileBlock
  split
  · rw [hnames]
  · rfl

namespace Owned

variable (h : Owned sp m ip) (hlay : Layout sp)

include h

/-- What else is in the inode does not matter. -/
theorem of_root (hroot : rootOf ip' = rootOf ip) : Owned sp m ip' := by
  have hnames (s : Slot NR_DZONE_NUM NR_INDIRECTS) : zoneOf sp m ip' s = zoneOf sp m ip s := by
    unfold zoneOf
    rw [hroot]
  refine ⟨⟨hroot ▸ h.tree.separate, hroot ▸ h.tree.zone, hroot ▸ h.tree.busy⟩, fun s hs => ?_,
    fun s s' hs he => ?_⟩
  · rw [hnames] at hs ⊢
    have hsp := h.spare s hs
    exact ⟨hsp.zone, hsp.busy, hroot ▸ hsp.other⟩
  · rw [hnames] at hs
    rw [hnames, hnames] at he
    exact h.apart s s' hs he

/-- Other indirect blocks, at most. -/
theorem grown (hg : Grown sp m ip m' ip') : Owned sp m' ip' := by
  refine ⟨hg.tree, fun s hs => ?_, fun s s' hs he => ?_⟩
  · rw [hg.names] at hs ⊢
    exact (hg.leaves _ (h.spare s hs)).1
  · rw [hg.names] at hs
    rw [hg.names, hg.names] at he
    exact h.apart s s' hs he

/-- A zone that was not one of the file. -/
theorem entered {s : Slot NR_DZONE_NUM NR_INDIRECTS} {v : Nat} (he : Entered sp s v m ip m' ip')
    (hv : Spare sp m ip v) (hnew : ∀ s', zoneOf sp m ip s' ≠ v) : Owned sp m' ip' := by
  refine ⟨he.tree, fun s₁ h₁ => ?_, fun s₁ s₂ h₁ h₁₂ => ?_⟩
  · rw [he.names] at h₁ ⊢
    split
    · exact (he.leaves v hv).1
    · rename_i hne
      rw [if_neg hne] at h₁
      exact (he.leaves _ (h.spare s₁ h₁)).1
  · rw [he.names] at h₁ h₁₂
    rw [he.names] at h₁₂
    split at h₁₂
    · rename_i hs₁
      split at h₁₂
      · rename_i hs₂
        exact hs₁.trans hs₂.symm
      · exact absurd h₁₂.symm (hnew s₂)
    · rename_i hs₁
      rw [if_neg hs₁] at h₁
      split at h₁₂
      · exact absurd h₁₂ (hnew s₁)
      · exact h.apart s₁ s₂ h₁ h₁₂

include hlay

/-- A block of a file is in one of its zones. -/
theorem exists_zone (hq : fileBlock sp m ip q ≠ NO_BLOCK) :
    ∃ s, slotOf NR_DZONE_NUM NR_INDIRECTS (q >>> scaleOf sp) = some s ∧
      zoneOf sp m ip s ≠ NO_ZONE ∧
      fileBlock sp m ip q = zoneOf sp m ip s * 2 ^ scaleOf sp + q % 2 ^ scaleOf sp := by
  cases hs : slotOf NR_DZONE_NUM NR_INDIRECTS (q >>> scaleOf sp) with
  | none =>
    unfold fileBlock at hq
    rw [hs] at hq
    exact absurd rfl hq
  | some s =>
    rw [fileBlock_of_slot hs] at hq
    have hz : zoneOf sp m ip s ≠ NO_ZONE := fun h0 => hq (if_pos h0)
    exact ⟨s, rfl, hz, (fileBlock_of_slot hs).trans (blockIn_eq hlay (h.spare s hz).zone q)⟩

/-- A file with that zone has the block. -/
theorem fileBlock_ne {s : Slot NR_DZONE_NUM NR_INDIRECTS}
    (hs : slotOf NR_DZONE_NUM NR_INDIRECTS (q >>> scaleOf sp) = some s)
    (hz : zoneOf sp m ip s ≠ NO_ZONE) : fileBlock sp m ip q ≠ NO_BLOCK := by
  have hdz := (h.spare s hz).zone
  have hpos : 0 < zoneOf sp m ip s * 2 ^ scaleOf sp :=
    Nat.mul_pos (Nat.pos_of_ne_zero hz) (Nat.two_pow_pos _)
  rw [fileBlock_of_slot hs, blockIn_eq hlay hdz]
  exact (Nat.lt_of_lt_of_le hpos (Nat.le_add_right ..)).ne'

/-- A block of the file lies in one of its zones. -/
theorem block_inZone (hq : fileBlock sp m ip q ≠ NO_BLOCK) :
    ∃ s, zoneOf sp m ip s ≠ NO_ZONE ∧ Spare sp m ip (zoneOf sp m ip s) ∧
      InZone sp (zoneOf sp m ip s) (fileBlock sp m ip q) := by
  obtain ⟨s, -, hz, he⟩ := h.exists_zone hlay hq
  exact ⟨s, hz, h.spare s hz, he ▸ inZone_add sp _ q⟩

/-- And is no block of the zone map. -/
theorem block_offMap (hq : fileBlock sp m ip q ≠ NO_BLOCK) :
    OffMap sp (fileBlock sp m ip q) := by
  obtain ⟨s, -, hsp, hin⟩ := h.block_inZone hlay hq
  exact hin.offMap hlay hsp.zone

/-- Different blocks of a file are different blocks of the device. -/
theorem block_inj (hq : fileBlock sp m ip q ≠ NO_BLOCK)
    (he : fileBlock sp m ip q = fileBlock sp m ip q') : q = q' := by
  obtain ⟨s, hs, hz, hb⟩ := h.exists_zone hlay hq
  obtain ⟨s', hs', hz', hb'⟩ := h.exists_zone hlay (he ▸ hq)
  rw [hb, hb'] at he
  have hin := inZone_add sp (zoneOf sp m ip s) q
  rw [he] at hin
  have hzz := hin.unique (inZone_add sp (zoneOf sp m ip s') q')
  rw [hzz] at he
  have hmod := Nat.add_left_cancel he
  obtain rfl := h.apart s s' hz hzz
  have hshift := slotOf_inj hs hs'
  rw [Nat.shiftRight_eq_div_pow, Nat.shiftRight_eq_div_pow] at hshift
  rw [← Nat.div_add_mod q (2 ^ scaleOf sp), ← Nat.div_add_mod q' (2 ^ scaleOf sp), hmod, hshift]

/-- A store into a block of the file changes no zone number. -/
theorem indOf_store (hq : fileBlock sp m ip q ≠ NO_BLOCK) (data : Block) :
    ∃ z e, ¬IsIndex (indOf sp m) (rootOf ip) z ∧
      indOf sp (m.set sp.sDev (fileBlock sp m ip q) data) = update (indOf sp m) z e := by
  obtain ⟨s, -, hsp, hin⟩ := h.block_inZone hlay hq
  refine ⟨_, indOf sp (m.set sp.sDev (fileBlock sp m ip q) data) (zoneOf sp m ip s), hsp.other, ?_⟩
  funext z'
  by_cases hz : z' = zoneOf sp m ip s
  · rw [hz, update_self]
  · rw [update_of_ne hz]
    funext j
    unfold indOf
    split
    · rename_i hz'
      have hne : zoneBlock z' (scaleOf sp) ≠ fileBlock sp m ip q := fun he =>
        hz ((zoneBlock_inZone hlay hz').unique (he ▸ hin))
      rw [Flat.set_of_ne fun he => hne he.2]
    · rfl

/-- Writing a block of the file changes none of its zones. -/
theorem zoneOf_store (hq : fileBlock sp m ip q ≠ NO_BLOCK) (data : Block)
    (s : Slot NR_DZONE_NUM NR_INDIRECTS) :
    zoneOf sp (m.set sp.sDev (fileBlock sp m ip q) data) ip s = zoneOf sp m ip s := by
  obtain ⟨z, e, hz, he⟩ := h.indOf_store hlay hq data
  unfold zoneOf
  rw [he]
  exact lookup_outside hz s

/-- Nor which blocks are indirect ones. -/
theorem isIndex_store (hq : fileBlock sp m ip q ≠ NO_BLOCK) (data : Block) :
    IsIndex (indOf sp (m.set sp.sDev (fileBlock sp m ip q) data)) (rootOf ip) =
      IsIndex (indOf sp m) (rootOf ip) := by
  obtain ⟨z, e, hz, he⟩ := h.indOf_store hlay hq data
  rw [he]
  exact isIndex_congr fun i => entry_outside hz .double i

/-- Nor the zone map. -/
theorem busy_store (hq : fileBlock sp m ip q ≠ NO_BLOCK) (data : Block) {z : Nat}
    (hz : DataZone sp z) :
    Busy (m.set sp.sDev (fileBlock sp m ip q) data) sp z ↔ Busy m sp z := by
  unfold Busy
  rw [mapBit_set (hlay.bit_lt hz).1 (h.block_offMap hlay hq)]

/-- After a store into a block of the file its zones are still its own. -/
theorem store (hq : fileBlock sp m ip q ≠ NO_BLOCK) (data : Block) :
    Owned sp (m.set sp.sDev (fileBlock sp m ip q) data) ip := by
  have hindex := h.isIndex_store hlay hq data
  have hnames := h.zoneOf_store hlay hq data
  obtain ⟨z, e, hz, he⟩ := h.indOf_store hlay hq data
  refine ⟨⟨?_, fun z' hz' => ?_, fun z' hz' => ?_⟩, fun s hs => ?_, fun s s' hs hss => ?_⟩
  · rw [he]
    exact h.tree.separate.congr fun i => entry_outside hz .double i
  · rw [hindex] at hz'
    exact h.tree.zone z' hz'
  · rw [hindex] at hz'
    exact (h.busy_store hlay hq data (h.tree.zone z' hz')).mpr (h.tree.busy z' hz')
  · rw [hnames] at hs ⊢
    have hsp := h.spare s hs
    exact ⟨hsp.zone, (h.busy_store hlay hq data hsp.zone).mpr hsp.busy, by
      rw [hindex]
      exact hsp.other⟩
  · rw [hnames] at hs
    rw [hnames, hnames] at hss
    exact h.apart s s' hs hss

/-- What the blocks of the file have then. -/
theorem contents_store (data : Block) (hq' : fileBlock sp m ip q' ≠ NO_BLOCK) :
    m.set sp.sDev (fileBlock sp m ip q) data sp.sDev (fileBlock sp m ip q') =
      if q' = q then data else m sp.sDev (fileBlock sp m ip q') := by
  split
  · rename_i he
    rw [he, Flat.set_self]
  · rename_i hne
    exact Flat.set_of_ne fun he => hne (h.block_inj hlay hq' he.2)

/-- Another zone map in which the zones of the file are busy. -/
theorem frame
    (hframe : ∀ dev block, (dev = sp.sDev → OffMap sp block) → m' dev block = m dev block)
    (hbusy : ∀ z, DataZone sp z → Busy m sp z →
      (IsIndex (indOf sp m) (rootOf ip) z ∨ ∃ s, zoneOf sp m ip s = z) → Busy m' sp z) :
    Owned sp m' ip := by
  have hind := indOf_frame hlay hframe
  have hnames (s : Slot NR_DZONE_NUM NR_INDIRECTS) : zoneOf sp m' ip s = zoneOf sp m ip s := by
    unfold zoneOf
    rw [hind]
  refine ⟨⟨hind.symm ▸ h.tree.separate, fun z hz => ?_, fun z hz => ?_⟩, fun s hs => ?_,
    fun s s' hs hss => ?_⟩
  · rw [hind] at hz
    exact h.tree.zone z hz
  · rw [hind] at hz
    exact hbusy z (h.tree.zone z hz) (h.tree.busy z hz) (Or.inl hz)
  · rw [hnames] at hs ⊢
    have hsp := h.spare s hs
    exact ⟨hsp.zone, hbusy _ hsp.zone hsp.busy (Or.inr ⟨s, rfl⟩), by
      rw [hind]
      exact hsp.other⟩
  · rw [hnames] at hs
    rw [hnames, hnames] at hss
    exact h.apart s s' hs hss

/-- The file still owns its zones after another zone has been claimed. -/
theorem claims {z : Nat} (hc : Claims sp m m' z) : Owned sp m' ip :=
  h.frame hlay hc.frame fun _ hz hb _ => (hc.busy _ hz).mpr (Or.inl hb)

/-- And after one that is not its own has been given back. -/
theorem frees {z : Nat} (hf : Frees sp m m' z) (hz : Spare sp m ip z)
    (hnew : ∀ s, zoneOf sp m ip s ≠ z) : Owned sp m' ip := by
  refine h.frame hlay hf.frame fun z' hz' hb hcase => (hf.busy z' hz').mpr ⟨hb, ?_⟩
  rintro rfl
  rcases hcase with hi | ⟨s, hs⟩
  · exact hz.other hi
  · exact hnew s hs

/-- The contents of the file are in zones that are left alone. -/
theorem contents_leaves (hl : Leaves sp m ip m' ip') (hq : fileBlock sp m ip q ≠ NO_BLOCK) :
    m' sp.sDev (fileBlock sp m ip q) = m sp.sDev (fileBlock sp m ip q) := by
  obtain ⟨s, -, hsp, hin⟩ := h.block_inZone hlay hq
  exact (hl _ hsp).2 _ hin

/-- A block of the file reads the same when nothing but the map has changed. -/
theorem contents_frame
    (hframe : ∀ dev block, (dev = sp.sDev → OffMap sp block) → m' dev block = m dev block)
    (hq : fileBlock sp m ip q ≠ NO_BLOCK) :
    m' sp.sDev (fileBlock sp m ip q) = m sp.sDev (fileBlock sp m ip q) :=
  hframe _ _ fun _ => h.block_offMap hlay hq

end Owned

/-- A file that still has its blocks, with what was in them, except for number `q`. -/
structure Kept (sp : Super) (q : Option Nat) (m : Flat) (ip : Inode) (m' : Flat) (ip' : Inode) :
    Prop where
  file : SameFile ip ip'
  owned : Owned sp m' ip'
  blocks : ∀ q', some q' ≠ q → fileBlock sp m ip q' ≠ NO_BLOCK →
    fileBlock sp m' ip' q' = fileBlock sp m ip q' ∧
      m' sp.sDev (fileBlock sp m ip q') = m sp.sDev (fileBlock sp m ip q')

/-- A file that has got an empty block. -/
structure Extended (sp : Super) (q : Nat) (m : Flat) (ip : Inode) (m' : Flat) (ip' : Inode) :
    Prop extends Kept sp (some q) m ip m' ip' where
  mapped : fileBlock sp m' ip' q ≠ NO_BLOCK
  empty : m' sp.sDev (fileBlock sp m' ip' q) = fun _ => 0

namespace Kept

/-- Nothing has been done to the file. -/
theorem refl (h : Owned sp m ip) (q : Option Nat) : Kept sp q m ip m ip :=
  ⟨.refl ip, h, fun _ _ _ => ⟨rfl, rfl⟩⟩

/-- Two steps that each keep the other blocks of the file. -/
theorem trans {q : Option Nat} {m'' : Flat} {ip'' : Inode} (h : Kept sp q m ip m' ip')
    (h' : Kept sp q m' ip' m'' ip'') : Kept sp q m ip m'' ip'' := by
  refine ⟨h.file.trans h'.file, h'.owned, fun q' hne hq' => ?_⟩
  obtain ⟨hblock, hsame⟩ := h.blocks q' hne hq'
  obtain ⟨hblock', hsame'⟩ := h'.blocks q' hne (hblock ▸ hq')
  rw [hblock] at hsame'
  exact ⟨hblock'.trans hblock, hsame'.trans hsame⟩

/-- A step that keeps all of them keeps all but one. -/
theorem some (h : Kept sp none m ip m' ip') (q : Nat) : Kept sp (some q) m ip m' ip' :=
  ⟨h.file, h.owned, fun q' _ => h.blocks q' nofun⟩

/-- A step before the file is extended. -/
theorem extended {m'' : Flat} {ip'' : Inode} (h : Kept sp none m ip m' ip')
    (he : Extended sp q m' ip' m'' ip'') : Extended sp q m ip m'' ip'' :=
  ⟨(h.some q).trans he.toKept, he.mapped, he.empty⟩

end Kept

namespace Owned

variable (h : Owned sp m ip) (hlay : Layout sp)

include h hlay

/-- Claiming a zone keeps the contents of the file. -/
theorem kept_claims {z : Nat} (hc : Claims sp m m' z) : Kept sp none m ip m' ip := by
  refine ⟨.refl ip, h.claims hlay hc, fun q' _ hq' => ⟨fileBlock_congr (fun s => ?_) q',
    h.contents_frame hlay hc.frame hq'⟩⟩
  unfold zoneOf
  rw [claims_indOf hlay hc]

/-- So does giving one back that is not its own. -/
theorem kept_frees {z : Nat} (hf : Frees sp m m' z) (hz : Spare sp m ip z)
    (hnew : ∀ s, zoneOf sp m ip s ≠ z) : Kept sp none m ip m' ip := by
  refine ⟨.refl ip, h.frees hlay hf hz hnew, fun q' _ hq' => ⟨fileBlock_congr (fun s => ?_) q',
    h.contents_frame hlay hf.frame hq'⟩⟩
  unfold zoneOf
  rw [indOf_frame hlay hf.frame]

/-- And the growth of its tree. -/
theorem kept_grown (hf : SameFile ip ip') (hg : Grown sp m ip m' ip') :
    Kept sp none m ip m' ip' :=
  ⟨hf, h.grown hg, fun q' _ hq' =>
    ⟨fileBlock_congr hg.names q', h.contents_leaves hlay hg.leaves hq'⟩⟩

/-- A zone is entered in a slot that had none. -/
theorem kept_entered (hf : SameFile ip ip') {s : Slot NR_DZONE_NUM NR_INDIRECTS} {v : Nat}
    (he : Entered sp s v m ip m' ip') (hv : Spare sp m ip v) (hnew : ∀ s', zoneOf sp m ip s' ≠ v)
    (hs : zoneOf sp m ip s = NO_ZONE) : Kept sp none m ip m' ip' := by
  refine ⟨hf, h.entered he hv hnew, fun q' _ hq' => ⟨?_, h.contents_leaves hlay he.leaves hq'⟩⟩
  obtain ⟨s', hs', hz, -⟩ := h.exists_zone hlay hq'
  rw [fileBlock_of_slot hs', fileBlock_of_slot hs', he.names, if_neg]
  rintro rfl
  exact hz hs

/-- Writing a block keeps the other ones. -/
theorem kept_store (hq : fileBlock sp m ip q ≠ NO_BLOCK) (data : Block) :
    Kept sp (some q) m ip (m.set sp.sDev (fileBlock sp m ip q) data) ip := by
  refine ⟨.refl ip, h.store hlay hq data, fun q' hne hq' =>
    ⟨fileBlock_congr (h.zoneOf_store hlay hq data) q', ?_⟩⟩
  rw [h.contents_store hlay data hq', if_neg fun he => hne (congrArg _ he)]

/-- A block of the file is emptied. -/
theorem fresh (hq : fileBlock sp m ip q ≠ NO_BLOCK) :
    Extended sp q m ip (m.set sp.sDev (fileBlock sp m ip q) fun _ => 0) ip := by
  have hsame := fileBlock_congr (h.zoneOf_store hlay hq fun _ => 0) q
  refine ⟨h.kept_store hlay hq _, ?_, ?_⟩
  · rwa [hsame]
  · rw [hsame, Flat.set_self]

/-- A zone that is claimed becomes a spare one. -/
theorem claimed {z : Nat} (hc : Claims sp m m' z) :
    Spare sp m' ip z ∧ ∀ s, zoneOf sp m' ip s ≠ z := by
  have hind := claims_indOf hlay hc
  refine ⟨⟨hc.zone, (hc.busy z hc.zone).mpr (Or.inr rfl), ?_⟩, fun s hs => ?_⟩
  · rw [hind]
    exact h.tree.new hc
  · unfold zoneOf at hs
    rw [hind] at hs
    have hsp := h.spare s fun h0 => hlay.dataZone_ne hc.zone (hs.symm.trans h0)
    exact hc.free (hs ▸ hsp.busy)

end Owned

/-! ## What each operation does -/

/-- The block at hand is looked at. -/
theorem data_bind {α : Type} {E : Halt → Prop} {Q : α → Work σ → Prop} (hlay : Layout sp)
    {f : Work σ → B σ α} (h : ∀ s, s.cache.bData bp = m sp.sDev block →
      Outcome (On disk usable sp (Holding usable sp c₀ bp block) K m ip) (f s) Q E) :
    Outcome (On disk usable sp (Holding usable sp c₀ bp block) K m ip) (MonadState.get >>= f) Q E :=
  Outcome.bind (Outcome.get fun _ hs => ⟨hs.mounted.holds hlay hs.use, hs⟩) fun s => .fact (h s)

section Calls

variable (hsv : Serving io disk sup sp) (hroom : Room usable c₀)

include hsv hroom

/-- A block of the file is looked up. -/
theorem readMap_block (htree : Tree sp m ip) {s : Slot NR_DZONE_NUM NR_INDIRECTS}
    (hs : slotOf NR_DZONE_NUM NR_INDIRECTS (q >>> scaleOf sp) = some s) :
    Returns (On disk usable sp (SameUse c₀) K m ip) (readMap io sup (BLOCK_SIZE * q : Nat))
      fun b t => b = fileBlock sp m ip q ∧ On disk usable sp (SameUse c₀) K m ip t := by
  refine Outcome.post (readMap_on hsv hroom htree (fileZone_block q) hs) fun b t ⟨hb, ht⟩ =>
    ⟨?_, ht⟩
  rw [hb, fileBlock_of_slot hs, fileOff_block]

/-- A block is fetched to be filled, and emptied. -/
theorem freshBlock_on (hoff : OffMap sp block) :
    Returns (On disk usable sp (SameUse c₀) K m ip) (freshBlock io block) fun r t =>
      ∃ bp, r = some bp ∧ On disk usable sp (Holding usable sp c₀ bp block) K
        (m.set sp.sDev block fun _ => 0) ip t :=
  devOf_bind (Outcome.bind (getNew_on hsv hroom hoff) fun bp =>
    Outcome.bind zeroBlock_on fun _ => Outcome.pure fun _ ht => ⟨bp, rfl, ht⟩)

omit hroom in
/-- Where a search for a zone begins does not change the device. -/
theorem firstZone_on (hdev : ip.iDev = sp.sDev) :
    Returns (On disk usable sp U K m ip) (firstZone sup) fun _ => On disk usable sp U K m ip := by
  unfold firstZone
  refine rip_bind fun s hs => .ite (fun _ => ?_) fun _ => ?_
  · rw [hs, hdev]
    exact superOf_bind hsv (Outcome.pure fun _ ht => ht)
  · rw [← bind_pure (zoneAt 0)]
    exact zoneAt_bind 0 (Outcome.pure fun _ ht => ht)

omit hroom in
/-- A zone that could not be entered is freed. -/
theorem giveBack_on {z : Nat} (hz : DataZone sp z) (hbusy : Busy m sp z) (r : Int) :
    Returns (On disk usable sp (SameUse c₀) K m ip) (giveBack sup z r) fun o t =>
      o = none ∧ ∃ m', Frees sp m m' z ∧ On disk usable sp (SameUse c₀) (· = r) m' ip t := by
  unfold giveBack
  refine devOf_bind (Outcome.bind (Q := fun _ t => ∃ m', Frees sp m m' z ∧
    On disk usable sp (SameUse c₀) K m' ip t) (orStuck_returns fun s hs => ?_) fun _ => ?_)
  · obtain ⟨m', bp, data, he, hf, hm⟩ := hs.mounted.freeZone hsv.layout hsv.superBlock hz hbusy
    rw [he]
    exact ⟨_, _, rfl, m', hf, hm, hs.use.storeBuf bp data, hs.err, hs.rip, hs.dev⟩
  · refine .given fun m' => .fact fun hf => ?_
    refine Outcome.bind (Q := fun _ => On disk usable sp (SameUse c₀) (· = r) m' ip)
      (Outcome.modify fun s hs => ⟨hs.mounted, hs.use, rfl, hs.rip, hs.dev⟩) fun _ => ?_
    exact Outcome.pure fun t ht => ⟨rfl, m', hf, ht⟩

end Calls

section NewBlock

variable (hsv : Serving io disk sup sp)

include hsv

/-- The size of a zone, when blocks have numbers of 16 bits. -/
theorem zoneSize_eq : zoneSize (scaleOf sp) = (BLOCK_SIZE * 2 ^ scaleOf sp : Nat) := by
  have hlay := hsv.layout
  have hone : 1 * 2 ^ scaleOf sp ≤ sp.sNzones * 2 ^ scaleOf sp :=
    Nat.mul_le_mul_right _ (hlay.first.trans hlay.data)
  have hfits := hlay.fits
  rw [Nat.shiftLeft_eq] at hfits
  have hcast : ((2 ^ scaleOf sp : Nat) : Int) = 2 ^ scaleOf sp := by push_cast; rfl
  unfold zoneSize
  rw [← hcast, long_of_lt] <;> simp only [BLOCK_SIZE, MAX_P_LONG] at * <;> omega

/-- The number of a block in its zone. -/
theorem blockInZone (q : Nat) :
    (((BLOCK_SIZE * q : Nat) : Int).tmod (zoneSize (scaleOf sp))).tdiv BLOCK_SIZE =
      (q % 2 ^ scaleOf sp : Nat) := by
  rw [zoneSize_eq hsv, Int.tmod_eq_emod_of_nonneg (Int.natCast_nonneg _), ← Int.natCast_emod,
    Nat.mul_mod_mul_left, Int.tdiv_eq_ediv_of_nonneg (Int.natCast_nonneg _)]
  simp only [BLOCK_SIZE]
  omega

/-- `write_map` changes no more of the inode than its zones. -/
theorem writeMap_file (hroom : Room usable c₀) (htree : Tree sp m ip) {v : Nat}
    {s : Slot NR_DZONE_NUM NR_INDIRECTS}
    (hs : slotOf NR_DZONE_NUM NR_INDIRECTS (q >>> scaleOf sp) = some s) (hv : v < 65536) :
    Returns (On disk usable sp (SameUse c₀) K m ip) (writeMap io sup (BLOCK_SIZE * q : Nat) v)
      fun r t =>
        (r = OK ∧ ∃ m' ip', SameFile ip ip' ∧ Entered sp s v m ip m' ip' ∧
          On disk usable sp (SameUse c₀) (fun _ => True) m' ip' t) ∨
        (r = ENOSPC ∧ ∃ m' ip', SameFile ip ip' ∧ Grown sp m ip m' ip' ∧
          On disk usable sp (SameUse c₀) (fun _ => True) m' ip' t) := by
  have hmap := writeMap_on (K := K) hsv htree hroom (fileZone_block q) hs hv
  have hfile : Outcome (On disk usable sp (SameUse c₀) K m ip)
      (writeMap io sup (BLOCK_SIZE * q : Nat) v) (fun _ t => SameFile ip t.rip) fun _ => True :=
    ((writeMap_keeps (Int.natCast_nonneg _) v).pre fun t ht => .of_eq ht.rip).errors
      fun _ _ => trivial
  refine Outcome.post (hmap.and hfile) fun r t ⟨hcase, hf⟩ => ?_
  exact hcase.imp
    (fun ⟨hr, m', ip', he, ht⟩ => ⟨hr, m', ip', ht.rip ▸ hf, he, ht⟩)
    fun ⟨hr, m', ip', hg, ht⟩ => ⟨hr, m', ip', ht.rip ▸ hf, hg, ht⟩

/-- A fresh block has been given to the file. -/
theorem freshBlock_extends (hroom : Room usable c₀) (h : Owned sp m ip)
    (hq : fileBlock sp m ip q ≠ NO_BLOCK) :
    Returns (On disk usable sp (SameUse c₀) K m ip) (freshBlock io (fileBlock sp m ip q))
      fun r t => ∃ m' bp, r = some bp ∧ Extended sp q m ip m' ip ∧
        On disk usable sp (Holding usable sp c₀ bp (fileBlock sp m' ip q)) K m' ip t := by
  have hlay := hsv.layout
  refine Outcome.post (freshBlock_on hsv hroom (h.block_offMap hlay hq)) fun r t ⟨bp, hr, ht⟩ => ?_
  refine ⟨m.set sp.sDev (fileBlock sp m ip q) fun _ => 0, bp, hr, h.fresh hlay hq, ?_⟩
  rwa [fileBlock_congr (h.zoneOf_store hlay hq _)]

/-- A block for the end of the file is got, or there is none. -/
theorem newBlock_on (hroom : Room usable c₀) (h : Owned sp m ip) (hdev : ip.iDev = sp.sDev)
    (hsize : ip.iSize = (BLOCK_SIZE * q : Nat)) {s : Slot NR_DZONE_NUM NR_INDIRECTS}
    (hs : slotOf NR_DZONE_NUM NR_INDIRECTS (q >>> scaleOf sp) = some s) :
    Returns (On disk usable sp (SameUse c₀) K m ip) (newBlock io sup (BLOCK_SIZE * q : Nat))
      fun r t =>
        (∃ m' ip' bp, r = some bp ∧ Extended sp q m ip m' ip' ∧
          On disk usable sp (Holding usable sp c₀ bp (fileBlock sp m' ip' q)) (fun _ => True)
            m' ip' t) ∨
        (r = none ∧ ∃ m' ip', Kept sp none m ip m' ip' ∧
          On disk usable sp (SameUse c₀) (· = ENOSPC) m' ip' t) := by
  have hlay := hsv.layout
  unfold newBlock
  refine Outcome.bind (readMap_block hsv hroom h.tree hs) fun b => .fact fun hb => ?_
  subst hb
  refine .ite (fun hb => ?_) fun hb => ?_
  · -- the zone has a block that is not used yet
    refine Outcome.post (freshBlock_extends hsv hroom h hb) fun r t hres => ?_
    obtain ⟨m', bp, hr, he, ht⟩ := hres
    exact Or.inl ⟨m', ip, bp, hr, he, ht.mounted, ht.use, trivial, ht.rip, ht.dev⟩
  have hnone : zoneOf sp m ip s = NO_ZONE := by
    by_contra hz
    exact hb (h.fileBlock_ne hlay hs hz)
  refine Outcome.bind (firstZone_on hsv hdev) fun near => devOf_bind ?_
  refine Outcome.bind (allocZone_on hsv (fun _ _ _ hu => hu.storeBuf _ _) near) fun z =>
    .or (.fact fun hz => ?_) (.fact fun hz => .given fun m₁ => .fact fun hc => ?_)
  · rw [if_pos hz]
    exact Outcome.pure fun t ht => Or.inr ⟨rfl, m, ip, .refl h none, ht⟩
  rw [if_neg hz]
  have hk₁ := h.kept_claims hlay hc
  obtain ⟨hspare, hnew⟩ := h.claimed hlay hc
  have hnone₁ : zoneOf sp m₁ ip s = NO_ZONE := by
    unfold zoneOf
    rwa [claims_indOf hlay hc]
  refine Outcome.bind (writeMap_file hsv hroom hk₁.owned.tree hs (hc.zone.2.trans hlay.nzones))
    fun r => .or (.fact fun hr => .given fun m₂ => .given fun ip₂ => .fact fun hf => .fact fun he =>
      ?_) (.fact fun hr => .given fun m₂ => .given fun ip₂ => .fact fun hf => .fact fun hg => ?_)
  · -- the zone has been entered, and the file ends where it did
    have hk₂ := hk₁.owned.kept_entered hlay hf he hspare hnew hnone₁
    have hz₂ : zoneOf sp m₂ ip₂ s = z := by rw [he.names, if_pos rfl]
    have hblock : unshort ((z <<< scaleOf sp : Nat) + (((BLOCK_SIZE * q : Nat) : Int).tmod
        (zoneSize (scaleOf sp))).tdiv BLOCK_SIZE) = fileBlock sp m₂ ip₂ q := by
      rw [fileBlock_of_slot hs, hz₂, blockInZone hsv, blockIn, if_neg hz]
    rw [if_neg (not_not.mpr hr)]
    refine rip_bind fun s₀ hs₀ => Outcome.bind (Q := fun _ =>
      On disk usable sp (SameUse c₀) (fun _ => True) m₂ ip₂) (.provided (fun hne => ?_)
        fun _ _ ht => ht) fun _ => scaleFactor_bind hsv ?_
    · rw [hs₀, hf.iSize] at hne
      exact absurd hsize.symm hne
    · dsimp only
      rw [hblock]
      refine Outcome.post (freshBlock_extends hsv hroom hk₂.owned
        (hk₂.owned.fileBlock_ne hlay hs (hz₂.symm ▸ hz))) fun r t hres => ?_
      obtain ⟨m₃, bp, hr, hx, ht⟩ := hres
      exact Or.inl ⟨m₃, ip₂, bp, hr, (hk₁.trans hk₂).extended hx, ht⟩
  · -- there was no zone for an indirect block
    have hk₂ := hk₁.owned.kept_grown hlay hf hg
    have hspare₂ := (hg.leaves z hspare).1
    have hnew₂ : ∀ s', zoneOf sp m₂ ip₂ s' ≠ z := fun s' => hg.names s' ▸ hnew s'
    rw [if_pos (hr ▸ by decide)]
    refine Outcome.post (giveBack_on hsv hc.zone hspare₂.busy r) fun o t hres => ?_
    obtain ⟨ho, m₃, hfr, ht⟩ := hres
    refine Or.inr ⟨ho, m₃, ip₂, ?_, hr ▸ ht⟩
    exact (hk₁.trans hk₂).trans (hk₂.owned.kept_frees hlay hfr hspare₂ hnew₂)

end NewBlock

end Minix.FS.ZoneMaps
