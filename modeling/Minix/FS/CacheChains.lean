import Minix.FS.Cache
import Minix.Lib.Run

/-!
# The chains of the buffer cache

The buffers that can be used are threaded twice: all of them on the LRU chain, and each
of them on the hash chain of its block number. Evicting a block changes only the hash
chains, releasing one changes only the LRU chain.
-/

namespace Minix.FS

open Intrusive Function Transition

variable {σ : Type}

/-- The LRU chain is `L` and threads the usable buffers, the hash chains are `H` and thread
the `hashed` ones, and no block is in the cache twice. -/
structure Linked (c : Cache σ) (usable hashed : BufPtr → Prop) (L : List BufPtr)
    (H : Fin NR_BUF_HASH → List BufPtr) : Prop where
  lru : DList c.bNext c.bPrev c.front c.rear L
  lru_mem : ∀ bp, bp ∈ L ↔ usable bp
  hash : ∀ k, Chain c.bHash (c.bufHash k) (H k)
  hash_mem : ∀ k bp, bp ∈ H k ↔ hashed bp ∧ hashSlot (c.bBlocknr bp) = k
  unique : ∀ a b, c.bDev a ≠ NO_DEV → c.bDev a = c.bDev b → c.bBlocknr a = c.bBlocknr b → a = b
  unusable : ∀ bp, ¬usable bp → c.bDev bp = NO_DEV

variable {io : DevIo σ} {c c' : Cache σ} {usable hashed : BufPtr → Prop} {L : List BufPtr}
  {H : Fin NR_BUF_HASH → List BufPtr} {bp : BufPtr}

/-- A chain of buffers fits the fuel of a walk. -/
theorem length_lt_of_chain {next : BufPtr → Option BufPtr} {h : Option BufPtr} {l : List BufPtr}
    (hc : Chain next h l) : l.length < NR_BUFS + 1 := by
  have := hc.length_le
  rw [Fintype.card_fin] at this
  omega

/-- Taking the device from some buffers leaves the chains alone. -/
theorem Linked.setDev (h : Linked c usable hashed L H) {dev : BufPtr → Nat}
    (hdev : ∀ bp, dev bp = c.bDev bp ∨ dev bp = NO_DEV) :
    Linked { c with bDev := dev } usable hashed L H := by
  refine ⟨h.lru, h.lru_mem, h.hash, h.hash_mem, fun a b ha hab hn => ?_, fun bp hbp => ?_⟩
  · have ha' := (hdev a).resolve_right ha
    have hb' := (hdev b).resolve_right fun hb => ha (hab.trans hb)
    exact h.unique a b (ha' ▸ ha) (ha' ▸ hb' ▸ hab) hn
  · rcases hdev bp with hd | hd
    · exact hd.trans (h.unusable bp hbp)
    · exact hd

/-- A transfer invalidates a block or leaves the devices alone. -/
theorem transferDone_bDev (c : Cache σ) (bp : BufPtr) (r : Int) (data : Block) (w : σ)
    (b : BufPtr) : (transferDone c bp r data w).bDev b = c.bDev b ∨
      (transferDone c bp r data w).bDev b = NO_DEV := by
  simp only [transferDone]
  split
  · by_cases hb : b = bp
    · exact Or.inr (by rw [hb, update_self])
    · exact Or.inl (by rw [update_of_ne hb])
  · exact Or.inl rfl

/-- What a transfer can change: the contents, the device of an invalidated block, and the
world. -/
theorem rwBlock_spec {flag : RwFlag} (he : rwBlock io c bp flag = some c') :
    ∃ data dev err w, c' = { c with
        bData := data, bDev := dev, bDirt := update c.bDirt bp CLEAN, rdwtErr := err, world := w } ∧
      ∀ b, dev b = c.bDev b ∨ dev b = NO_DEV := by
  obtain ⟨c₁, hdone, rfl⟩ := Option.map_eq_some_iff.mp he
  split at hdone
  · obtain ⟨res, hio, rfl⟩ := Option.map_eq_some_iff.mp hdone
    exact ⟨_, _, _, _, rfl, transferDone_bDev c bp _ _ _⟩
  · obtain rfl := Option.some.inj hdone
    exact ⟨_, _, _, _, rfl, fun b => Or.inl rfl⟩

theorem Linked.rwBlock (h : Linked c usable hashed L H) {flag : RwFlag}
    (he : rwBlock io c bp flag = some c') : Linked c' usable hashed L H := by
  obtain ⟨data, dev, err, w, rfl, hdev⟩ := rwBlock_spec he
  obtain ⟨h₁, h₂, h₃, h₄, h₅, h₆⟩ := h.setDev hdev
  exact ⟨h₁, h₂, h₃, h₄, h₅, h₆⟩

/-- The search of a hash chain finds the buffer that holds the block, if there is one. -/
theorem Linked.findBlock (h : Linked c usable hashed L H) (dev block : Nat) :
    ∃ r, findBlock c dev block = some r ∧
      (∀ bp, r = some bp → hashed bp ∧ c.bDev bp = dev ∧ c.bBlocknr bp = block) ∧
      (r = none → ∀ bp, hashed bp → c.bBlocknr bp = block → c.bDev bp ≠ dev) := by
  have hfind := search_find (p := fun bp => c.bBlocknr bp = block ∧ c.bDev bp = dev) none
    (h.hash (hashSlot block)) (length_lt_of_chain (h.hash _))
  refine ⟨_, hfind, fun bp hbp => ?_, fun hnone bp hu hblock hd => ?_⟩
  · have hp := List.find?_some hbp
    rw [decide_eq_true_iff] at hp
    exact ⟨((h.hash_mem _ _).mp (List.mem_of_find?_eq_some hbp)).1, hp.2, hp.1⟩
  · have hmem : bp ∈ H (hashSlot block) := (h.hash_mem _ _).mpr ⟨hu, by rw [hblock]⟩
    exact List.find?_eq_none.mp hnone bp hmem (decide_eq_true ⟨hblock, hd⟩)

/-- The buffer to be evicted is usable and not in use. -/
theorem Linked.oldestFree (h : Linked c usable hashed L H) (he : oldestFree c = some bp) :
    usable bp ∧ ¬c.bCount bp > 0 := by
  have hfind := search_find (p := fun bp => ¬c.bCount bp > 0) none h.lru.fwd
    (length_lt_of_chain h.lru.fwd)
  obtain ⟨r, hr, hs⟩ := Option.map_eq_some_iff.mp hfind
  rw [Minix.FS.oldestFree, hr, Option.bind_some, hs] at he
  have hp := List.find?_some he
  rw [decide_eq_true_iff] at hp
  exact ⟨(h.lru_mem bp).mp (List.mem_of_find?_eq_some he), hp⟩

/-- Removing a buffer from its hash chain leaves every other chain alone. -/
theorem Linked.unhash (h : Linked c usable hashed L H) (hu : hashed bp) :
    ∃ bHash bufHash, unhash c bp = some { c with bHash := bHash, bufHash := bufHash } ∧
      Linked { c with bHash := bHash, bufHash := bufHash } usable (fun b => hashed b ∧ b ≠ bp) L
        fun k => (H k).erase bp := by
  have hk : bp ∈ H (hashSlot (c.bBlocknr bp)) := (h.hash_mem _ _).mpr ⟨hu, rfl⟩
  obtain ⟨l₁, l₂, hl⟩ := List.append_of_mem hk
  have hc := h.hash (hashSlot (c.bBlocknr bp))
  have hlen := length_lt_of_chain hc
  have hnd := hc.nodup
  rw [hl] at hc hlen hnd
  obtain ⟨next, head, hrem, hchain, hout⟩ := remove_spec hc hlen
  refine ⟨next, _, by rw [Minix.FS.unhash, hrem, Option.map_some], h.lru, h.lru_mem, fun k => ?_,
    fun k b => ?_, h.unique, h.unusable⟩
  · show Chain next (update c.bufHash _ head k) ((H k).erase bp)
    by_cases hkk : k = hashSlot (c.bBlocknr bp)
    · have hl₁ : bp ∉ l₁ := by
        simp only [List.nodup_append, List.mem_cons] at hnd
        exact fun hm => hnd.2.2 bp hm bp (Or.inl rfl) rfl
      rw [hkk, update_self, hl, List.erase_append_right _ hl₁, List.erase_cons_head]
      exact hchain
    · -- the other chains share no buffer with this one
      have hdis : ∀ b ∈ H k, b ∉ l₁ ++ bp :: l₂ := fun b hb hm =>
        hkk (((h.hash_mem k b).mp hb).2.symm.trans ((h.hash_mem _ b).mp (hl ▸ hm)).2)
      rw [update_of_ne hkk, List.erase_of_not_mem fun hm => hdis bp hm (by simp)]
      exact (h.hash k).congr fun b hb => hout b (hdis b hb)
  · rw [(h.hash k).nodup.mem_erase_iff, h.hash_mem]
    tauto

/-- The taken buffer goes to the front of the hash chain of its new block. -/
theorem Linked.rehash (h : Linked c usable (fun b => usable b ∧ b ≠ bp) L H) (hu : usable bp)
    {dev block : Nat} (hnew : dev ≠ NO_DEV → ∀ b, c.bBlocknr b = block → c.bDev b ≠ dev) :
    Linked (rehash c bp dev block) usable usable L
      (update H (hashSlot block) (bp :: H (hashSlot block))) := by
  have hout : ∀ k, bp ∉ H k := fun k hm => ((h.hash_mem k bp).mp hm).1.2 rfl
  refine ⟨h.lru, h.lru_mem, fun k => ?_, fun k b => ?_, fun a b ha hab hn => ?_, fun b hb => ?_⟩
  · show Chain (update c.bHash bp _) (update c.bufHash _ _ k) _
    by_cases hk : k = hashSlot block
    · rw [hk, update_self, update_self]
      exact (h.hash _).push (hout _)
    · rw [update_of_ne hk, update_of_ne hk]
      exact (h.hash k).update (hout k)
  · show _ ↔ usable b ∧ hashSlot (update c.bBlocknr bp block b) = k
    by_cases hb : b = bp
    · rw [hb, update_self]
      by_cases hk : k = hashSlot block
      · simp [hk, hu]
      · rw [update_of_ne hk]
        exact ⟨fun hm => absurd hm (hout k), fun hm => absurd hm.2.symm hk⟩
    · rw [update_of_ne hb]
      have hm := h.hash_mem k b
      by_cases hk : k = hashSlot block
      · rw [hk] at hm ⊢
        rw [update_self, List.mem_cons, hm]
        tauto
      · rw [update_of_ne hk, hm]
        tauto
  · change update c.bDev bp dev a ≠ NO_DEV at ha
    change update c.bDev bp dev a = update c.bDev bp dev b at hab
    change update c.bBlocknr bp block a = update c.bBlocknr bp block b at hn
    by_cases hab' : a = bp <;> by_cases hbb : b = bp
    · rw [hab', hbb]
    · rw [hab', update_self] at ha hab hn
      rw [update_of_ne hbb] at hab hn
      exact absurd hab.symm (hnew ha b hn.symm)
    · rw [update_of_ne hab'] at ha hab hn
      rw [hbb, update_self] at hab hn
      exact absurd hab (hnew (hab ▸ ha) a hn)
    · rw [update_of_ne hab'] at ha hab hn
      rw [update_of_ne hbb] at hab hn
      exact h.unique a b ha hab hn
  · show update c.bDev bp dev b = NO_DEV
    rw [update_of_ne fun e => hb (by rw [e]; exact hu)]
    exact h.unusable b hb

theorem Linked.writeBack (h : Linked c usable hashed L H) (he : writeBack io c bp = some c') :
    Linked c' usable hashed L H := by
  unfold FS.writeBack at he
  split at he
  · exact h.rwBlock he
  · exact Option.some.inj he ▸ h

/-- Writing back keeps the block number of every buffer, and takes a device away at most. -/
theorem writeBack_frame (he : writeBack io c bp = some c') (b : BufPtr) :
    c'.bBlocknr b = c.bBlocknr b ∧ (c'.bDev b = c.bDev b ∨ c'.bDev b = NO_DEV) := by
  unfold writeBack at he
  split at he
  · obtain ⟨data, dev, err, w, rfl, hd⟩ := rwBlock_spec he
    exact ⟨rfl, hd b⟩
  · obtain rfl := Option.some.inj he
    exact ⟨rfl, Or.inl rfl⟩

theorem Linked.readIn (h : Linked c usable hashed L H) {dev : Nat} {flag : SearchFlag}
    (he : readIn io c bp dev flag = some c') : Linked c' usable hashed L H := by
  unfold FS.readIn at he
  split at he
  · exact h.rwBlock he
  · exact Option.some.inj he ▸ h

/-- The steps of an eviction: the oldest free buffer leaves its hash chain, is written back if it
is dirty, joins the chain of the new block, and is filled if asked. -/
theorem takeBlock_cases {dev block : Nat} {flag : SearchFlag}
    (he : takeBlock io c dev block flag = some (bp, c')) :
    ∃ c₁ c₂, oldestFree { c with bufsInUse := c.bufsInUse + 1 } = some bp ∧
      unhash { c with bufsInUse := c.bufsInUse + 1 } bp = some c₁ ∧ writeBack io c₁ bp = some c₂ ∧
      readIn io (rehash c₂ bp dev block) bp dev flag = some c' := by
  unfold takeBlock at he
  split at he
  · cases he
  · simp only [Option.bind_eq_bind, Option.bind_eq_some_iff] at he
    obtain ⟨b, hold, c₁, hun, c₂, hw, c₃, hr, hp⟩ := he
    obtain ⟨rfl, rfl⟩ := Prod.mk.inj (Option.some.inj hp)
    exact ⟨c₁, c₂, hold, hun, hw, hr⟩

/-- Evicting a block for one that is not in the cache. -/
theorem Linked.takeBlock (h : Linked c usable usable L H) {dev block : Nat} {flag : SearchFlag}
    (hnew : dev ≠ NO_DEV → ∀ b, c.bBlocknr b = block → c.bDev b ≠ dev)
    (he : takeBlock io c dev block flag = some (bp, c')) :
    usable bp ∧ ∃ H', Linked c' usable usable L H' := by
  obtain ⟨c₁, c₂, hold, hun, hw, hr⟩ := takeBlock_cases he
  have hc : Linked { c with bufsInUse := c.bufsInUse + 1 } usable usable L H :=
    ⟨h.lru, h.lru_mem, h.hash, h.hash_mem, h.unique, h.unusable⟩
  have hu := (hc.oldestFree hold).1
  obtain ⟨bHash, bufHash, hun', h₁⟩ := hc.unhash hu
  obtain rfl := Option.some.inj (hun'.symm.trans hun)
  have hnew₂ : dev ≠ NO_DEV → ∀ b, c₂.bBlocknr b = block → c₂.bDev b ≠ dev := by
    intro hd b hb
    obtain ⟨hn, e | e⟩ := writeBack_frame hw b
    · rw [e]
      exact hnew hd b (hn.symm.trans hb)
    · rw [e]
      exact hd.symm
  exact ⟨hu, _, ((h₁.writeBack hw).rehash hu hnew₂).readIn hr⟩

/-- `get_block` finds the buffer that holds the block, or evicts one for it. -/
theorem Linked.getBlock_cases (h : Linked c usable usable L H) {dev block : Nat}
    {flag : SearchFlag} (he : FS.getBlock io c dev block flag = some (bp, c')) :
    (dev ≠ NO_DEV ∧ usable bp ∧ c.bDev bp = dev ∧ c.bBlocknr bp = block ∧ c' = useBlock c bp) ∨
      (FS.takeBlock io c dev block flag = some (bp, c') ∧
        (dev ≠ NO_DEV → ∀ b, c.bBlocknr b = block → c.bDev b ≠ dev)) := by
  obtain ⟨r, hfind, hsome, hnone⟩ := h.findBlock dev block
  unfold FS.getBlock at he
  rw [hfind] at he
  by_cases hd : dev ≠ NO_DEV
  · rw [if_pos hd] at he
    cases r with
    | some b =>
      obtain ⟨rfl, rfl⟩ := Prod.mk.inj (Option.some.inj he)
      exact Or.inl ⟨hd, (hsome b rfl).1, (hsome b rfl).2.1, (hsome b rfl).2.2, rfl⟩
    | none =>
      refine Or.inr ⟨he, fun _ b hb => ?_⟩
      by_cases hu : usable b
      · exact hnone rfl b hu hb
      · rw [h.unusable b hu]
        exact hd.symm
  · rw [if_neg hd] at he
    exact Or.inr ⟨he, fun hd' => absurd hd' hd⟩

/-- `get_block` returns a usable buffer and keeps the chains. -/
theorem Linked.getBlock (h : Linked c usable usable L H) {dev block : Nat} {flag : SearchFlag}
    (he : getBlock io c dev block flag = some (bp, c')) :
    usable bp ∧ ∃ H', Linked c' usable usable L H' := by
  rcases h.getBlock_cases he with ⟨_, hu, _, _, rfl⟩ | ⟨htake, hnew⟩
  · exact ⟨hu, H, h.lru, h.lru_mem, h.hash, h.hash_mem, h.unique, h.unusable⟩
  · exact h.takeBlock hnew htake

/-- Releasing a usable buffer moves it to one end of the LRU chain. -/
theorem Linked.requeue (h : Linked c usable hashed L H) (hu : usable bp) (blockType : Nat) :
    ∃ L', Linked (requeue c bp blockType) usable hashed L' H := by
  obtain ⟨l₁, l₂, rfl⟩ := List.append_of_mem ((h.lru_mem bp).mpr hu)
  have hnd := h.lru.fwd.nodup
  have hrest := h.lru.unlink
  have hbp : bp ∉ l₁ ++ l₂ := by
    simp only [List.nodup_append, List.nodup_cons, List.mem_cons] at hnd
    rw [List.mem_append]
    rintro (hm | hm)
    · exact hnd.2.2 bp hm bp (Or.inl rfl) rfl
    · exact hnd.2.1.1 hm
  have hmem : ∀ b, b = bp ∨ b ∈ l₁ ++ l₂ ↔ usable b := by
    intro b
    rw [← h.lru_mem b, List.mem_append, List.mem_append, List.mem_cons]
    tauto
  unfold FS.requeue
  by_cases hone : blockType &&& ONE_SHOT ≠ 0
  · simp only [if_pos hone]
    refine ⟨bp :: (l₁ ++ l₂), hrest.pushFront hbp, fun b => ?_, h.hash, h.hash_mem, h.unique,
      h.unusable⟩
    rw [List.mem_cons, hmem]
  · simp only [if_neg hone]
    refine ⟨(l₁ ++ l₂) ++ [bp], hrest.pushRear hbp, fun b => ?_, h.hash, h.hash_mem, h.unique,
      h.unusable⟩
    rw [List.mem_append, List.mem_singleton, or_comm, hmem]

/-- `put_block` keeps the chains. -/
theorem Linked.putBlock (h : Linked c usable hashed L H) {bp : Option BufPtr}
    (hu : ∀ b, bp = some b → usable b) {blockType : Nat}
    (he : putBlock io c bp blockType = some c') : ∃ L', Linked c' usable hashed L' H := by
  cases bp with
  | none =>
    obtain rfl := Option.some.inj he
    exact ⟨L, h⟩
  | some b =>
    have hc : Linked { c with bCount := update c.bCount b (c.bCount b - 1) } usable hashed L H :=
      ⟨h.lru, h.lru_mem, h.hash, h.hash_mem, h.unique, h.unusable⟩
    simp only [FS.putBlock] at he
    split at he
    · obtain rfl := Option.some.inj he
      exact ⟨L, hc⟩
    · obtain ⟨L', hq⟩ := hc.requeue (hu b rfl) blockType
      obtain ⟨c₁, hw, rfl⟩ := Option.map_eq_some_iff.mp he
      have h₁ : Linked c₁ usable hashed L' H := by
        split at hw
        · exact hq.writeBack hw
        · exact Option.some.inj hw ▸ hq
      refine ⟨L', ?_⟩
      split
      · refine h₁.setDev fun a => ?_
        by_cases ha : a = b
        · exact Or.inr (by rw [ha, update_self])
        · exact Or.inl (by rw [update_of_ne ha])
      · exact h₁

theorem Linked.invalidate (h : Linked c usable hashed L H) (device : Nat) :
    Linked (invalidate c device) usable hashed L H := by
  refine h.setDev fun b => ?_
  split
  · exact Or.inr rfl
  · exact Or.inl rfl

/-- A block that spans a boundary has a multiple of 64K inside. -/
theorem spans64K_spec {a : Nat} (h : spans64K a) :
    ∃ k, a < 65536 * k ∧ 65536 * k < a + BLOCK_SIZE := by
  simp only [spans64K, ne_eq, decide_eq_true_eq, BLOCK_SIZE] at h
  exact ⟨(a + 1024 - 1) / 65536, by omega, by show _ < a + 1024; omega⟩

/-- At most one of the buffers spans a 64K boundary: together they are shorter than that. -/
theorem spans64K_unique {addr : Nat} {a b : BufPtr} (ha : spans64K (addr + a.val * BUF_BYTES))
    (hb : spans64K (addr + b.val * BUF_BYTES)) : a = b := by
  obtain ⟨k, hk, hk'⟩ := spans64K_spec ha
  obtain ⟨m, hm, hm'⟩ := spans64K_spec hb
  have hla := a.isLt
  have hlb := b.isLt
  simp only [BUF_BYTES, BLOCK_SIZE, NR_BUFS] at hk hk' hm hm' hla hlb
  refine Fin.ext ?_
  rcases Nat.lt_trichotomy k m with h | h | h <;> omega

/-- The buffers that `buf_pool` keeps. -/
def Usable (addr : Nat) (bp : BufPtr) : Prop := ¬spans64K (addr + bp.val * BUF_BYTES)

instance (addr : Nat) (bp : BufPtr) : Decidable (Usable addr bp) :=
  inferInstanceAs (Decidable ¬_)

/-- Before any buffer is deleted the chain holds all of them. -/
theorem chainBufs_lru (c : Cache σ) :
    DList (chainBufs c).bNext (chainBufs c).bPrev (chainBufs c).front (chainBufs c).rear
      (List.finRange NR_BUFS) := by
  refine ⟨?_, ?_⟩
  · exact chain_drop_finRange (i := 0) fun _ _ => rfl
  · show Chain bufBefore (some 19) (List.finRange NR_BUFS).reverse
    decide

/-- Deleting a buffer from the fresh chain links its neighbours to each other. -/
theorem deleteBuf_lru (c : Cache σ) {l₁ l₂ : List BufPtr} (hl : List.finRange NR_BUFS = l₁ ++ bp :: l₂) :
    DList (deleteBuf (chainBufs c) bp).bNext (deleteBuf (chainBufs c) bp).bPrev
      (deleteBuf (chainBufs c) bp).front (deleteBuf (chainBufs c) bp).rear (l₁ ++ l₂) := by
  have h := chainBufs_lru c
  rw [hl] at h
  have hu := h.unlink
  have hprev : (chainBufs c).bPrev bp = bufBefore bp := rfl
  have hnext : (chainBufs c).bNext bp = bufAfter bp := rfl
  rw [hprev, hnext] at hu
  by_cases hfirst : bp.val = 0
  · have hbefore : bufBefore bp = none := if_pos hfirst
    have hafter : bufAfter bp = some ⟨bp.val + 1, by rw [hfirst]; decide⟩ := dif_pos _
    rw [hbefore] at hu
    rw [deleteBuf, if_pos hfirst]
    rw [hafter] at hu ⊢
    exact hu
  · have hbefore : bufBefore bp = some ⟨bp.val - 1, by omega⟩ := if_neg hfirst
    by_cases hlast : bp.val = NR_BUFS - 1
    · have hafter : bufAfter bp = none := dif_neg (by omega)
      rw [hafter] at hu
      rw [deleteBuf, if_neg hfirst, if_pos hlast]
      rw [hbefore] at hu ⊢
      exact hu
    · have hlt := bp.isLt
      have hafter : bufAfter bp = some ⟨bp.val + 1, by omega⟩ := dif_pos _
      rw [deleteBuf, if_neg hfirst, if_neg hlast, hprev, hnext]
      rw [hbefore, hafter] at hu ⊢
      exact hu

/-- Deleting buffers changes only the LRU chain. -/
theorem deleteBuf_fields (c : Cache σ) (bp : BufPtr) :
    (deleteBuf c bp).bDev = c.bDev ∧ (deleteBuf c bp).bBlocknr = c.bBlocknr ∧
      (deleteBuf c bp).bufHash = c.bufHash ∧ (deleteBuf c bp).world = c.world := by
  unfold deleteBuf
  split
  · exact ⟨rfl, rfl, rfl, rfl⟩
  · split <;> exact ⟨rfl, rfl, rfl, rfl⟩

/-- The sweep over the buffers deletes the one that spans a boundary, if there is one. -/
theorem delete_sweep (addr : Nat) (c : Cache σ) :
    let swept := (List.finRange NR_BUFS).foldl
      (fun c bp => if spans64K (addr + bp.val * BUF_BYTES) then deleteBuf c bp else c) (chainBufs c)
    (∃ L, DList swept.bNext swept.bPrev swept.front swept.rear L ∧
      ∀ bp, bp ∈ L ↔ Usable addr bp) ∧ swept.bDev = (fun _ => NO_DEV) ∧
      swept.bBlocknr = (fun _ => NO_BLOCK) ∧ swept.bufHash = c.bufHash ∧ swept.world = c.world := by
  have hskip : ∀ (l : List BufPtr) (c : Cache σ),
      (∀ b ∈ l, spans64K (addr + b.val * BUF_BYTES) = false) →
      l.foldl (fun c bp => if spans64K (addr + bp.val * BUF_BYTES) then deleteBuf c bp else c) c = c := by
    intro l
    induction l with
    | nil => exact fun _ _ => rfl
    | cons b l ih =>
      intro c hl
      rw [List.forall_mem_cons] at hl
      rw [List.foldl_cons, hl.1, if_neg Bool.false_ne_true]
      exact ih c hl.2
  intro swept
  rcases exists_first_split (fun bp : BufPtr => spans64K (addr + bp.val * BUF_BYTES))
    (List.finRange NR_BUFS) with hno | ⟨l₁, bp, l₂, hl, hno, hbp⟩
  · have hswept : swept = chainBufs c := hskip _ _ hno
    rw [hswept]
    refine ⟨⟨_, chainBufs_lru c, fun b => ?_⟩, rfl, rfl, rfl, rfl⟩
    exact ⟨fun hb => by simp [Usable, hno b hb], fun _ => List.mem_finRange b⟩
  · have hnd := List.nodup_finRange NR_BUFS
    rw [hl] at hnd
    simp only [List.nodup_append, List.nodup_cons, List.mem_cons] at hnd
    have hother : ∀ b, b ≠ bp → spans64K (addr + b.val * BUF_BYTES) = false := by
      intro b hb
      by_contra hs
      exact hb (spans64K_unique (Bool.not_eq_false _ ▸ hs) hbp)
    have hswept : swept = deleteBuf (chainBufs c) bp := by
      show (List.finRange NR_BUFS).foldl _ _ = _
      rw [hl, List.foldl_append, List.foldl_cons, hskip l₁ _ hno, if_pos hbp]
      exact hskip l₂ _ fun b hb => hother b fun e => hnd.2.1.1 (e ▸ hb)
    obtain ⟨hd, hn, hh, hw⟩ := deleteBuf_fields (chainBufs c) bp
    rw [hswept]
    refine ⟨⟨_, deleteBuf_lru c hl, fun b => ?_⟩, hd, hn, hh, hw⟩
    have hmem : b ∈ l₁ ++ bp :: l₂ := hl ▸ List.mem_finRange b
    by_cases hb : b = bp
    · rw [hb]
      refine ⟨fun hm => ?_, fun hu => absurd hbp hu⟩
      rcases List.mem_append.mp hm with hm | hm
      · exact absurd rfl (hnd.2.2 bp hm bp (Or.inl rfl))
      · exact absurd hm hnd.2.1.1
    · refine ⟨fun _ => by simp [Usable, hother b hb], fun _ => ?_⟩
      rw [List.mem_append, List.mem_cons] at hmem
      rw [List.mem_append]
      rcases hmem with hm | hm | hm
      · exact Or.inl hm
      · exact absurd hm hb
      · exact Or.inr hm

/-- After `buf_pool` the hash chain of `NO_BLOCK` is the LRU chain and the others are empty. -/
theorem bufPool_linked (addr : Nat) (data : BufPtr → Block) (w : σ) :
    ∃ L H, Linked (bufPool addr (unpooled data w)) (Usable addr) (Usable addr) L H := by
  obtain ⟨⟨L, hL, hmem⟩, hdev, hblock, hhash, _⟩ := delete_sweep addr (unpooled data w)
  unfold bufPool
  generalize List.foldl _ _ _ = swept at hL hdev hblock hhash
  refine ⟨L, update (fun _ => []) (hashSlot NO_BLOCK) L, hL, hmem, fun k => ?_, fun k b => ?_,
    fun a b ha => ?_, fun b _ => ?_⟩
  · show Chain swept.bNext (update swept.bufHash (hashSlot NO_BLOCK) swept.front k) _
    by_cases hk : k = hashSlot NO_BLOCK
    · rw [hk, update_self, update_self]
      exact hL.fwd
    · rw [update_of_ne hk, update_of_ne hk, hhash]
      rfl
  · show _ ↔ Usable addr b ∧ hashSlot (swept.bBlocknr b) = k
    rw [hblock]
    by_cases hk : k = hashSlot NO_BLOCK
    · rw [hk, update_self, hmem]
      exact ⟨fun h => ⟨h, rfl⟩, And.left⟩
    · rw [update_of_ne hk]
      exact ⟨fun h => absurd h List.not_mem_nil, fun h => absurd h.2.symm hk⟩
  · exact absurd (congrFun hdev a) ha
  · exact congrFun hdev b

/-- What the file system does to the cache: the four operations, and storing into a buffer that
it then marks dirty. -/
inductive CacheCall where
  | get (dev block : Nat) (onlySearch : SearchFlag)
  | put (bp : Option BufPtr) (blockType : Nat)
  | rw (bp : BufPtr) (flag : RwFlag)
  | invalidate (device : Nat)
  | modify (bp : BufPtr) (data : Block)

/-- The cache after a call. -/
def cacheStep (io : DevIo σ) (c : Cache σ) : CacheCall → Option (Cache σ)
  | .get dev block onlySearch => (getBlock io c dev block onlySearch).map Prod.snd
  | .put bp blockType => putBlock io c bp blockType
  | .rw bp flag => rwBlock io c bp flag
  | .invalidate device => some (invalidate c device)
  | .modify bp data => some (storeBuf c bp data)

/-- Only a buffer that `get_block` can return is given to `put_block`. -/
def cacheGuard (addr : Nat) (_ : Cache σ) : CacheCall → Prop
  | .put (some bp) _ => Usable addr bp
  | _ => True

instance (addr : Nat) (c : Cache σ) (call : CacheCall) : Decidable (cacheGuard addr c call) :=
  match call with
  | .put (some bp) _ => inferInstanceAs (Decidable (Usable addr bp))
  | .put none _ | .get .. | .rw .. | .invalidate _ | .modify .. => inferInstanceAs (Decidable True)

/-- In every state that the cache reaches, whatever the devices do, the LRU chain is a doubly
linked list of the usable buffers, each of them once, every usable buffer is on the hash chain of
its block number, once, and on no other, and no block is in the cache twice. `get_block` returns
usable buffers only. -/
theorem cache_structure {addr : Nat} {data : BufPtr → Block} {w : σ} {c : Cache σ}
    (hr : Reach (cacheStep io) (cacheGuard addr) (fun c => c = bufPool addr (unpooled data w)) c) :
    ∃ L H, Linked c (Usable addr) (Usable addr) L H ∧ L.Nodup ∧ (∀ k, (H k).Nodup) ∧
      ∀ dev block flag bp c', getBlock io c dev block flag = some (bp, c') → Usable addr bp := by
  have hinv : ∃ L H, Linked c (Usable addr) (Usable addr) L H := by
    refine hr.invariant (fun c => ∃ L H, Linked c (Usable addr) (Usable addr) L H) ?_ ?_
    · rintro c rfl
      exact bufPool_linked addr data w
    · rintro c call c' ⟨L, H, h⟩ hg he
      cases call with
      | get dev block flag =>
        obtain ⟨⟨bp, c₁⟩, hget, rfl⟩ := Option.map_eq_some_iff.mp he
        obtain ⟨_, H', h'⟩ := h.getBlock hget
        exact ⟨L, H', h'⟩
      | put bp blockType =>
        obtain ⟨L', h'⟩ := h.putBlock (fun b hb => by subst hb; exact hg) he
        exact ⟨L', H, h'⟩
      | rw bp flag => exact ⟨L, H, h.rwBlock he⟩
      | invalidate device =>
        obtain rfl := Option.some.inj he
        exact ⟨L, H, h.invalidate device⟩
      | modify bp data =>
        obtain rfl := Option.some.inj he
        exact ⟨L, H, h.lru, h.lru_mem, h.hash, h.hash_mem, h.unique, h.unusable⟩
  obtain ⟨L, H, h⟩ := hinv
  exact ⟨L, H, h, h.lru.fwd.nodup, fun k => (h.hash k).nodup, fun _ _ _ _ _ he => (h.getBlock he).1⟩

/-- A device that always succeeds and changes nothing. -/
private def idleDevice : DevIo Unit := fun _ _ _ data w => some (BLOCK_SIZE, data, w)

/-- Two blocks of one hash chain, the first of them released at the front, in a pool whose buffer 3
is deleted. -/
theorem cache_structure_example :
    ∃ c, run (cacheStep idleDevice) (cacheGuard 62000) (bufPool 62000 (unpooled (fun _ _ => 0) ()))
        [.get 256 1 .NORMAL, .get 256 33 .NO_READ, .put (some 0) ZUPER_BLOCK] = some c ∧
      ∃ L H, Linked c (Usable 62000) (Usable 62000) L H := by
  have hsome : (run (cacheStep idleDevice) (cacheGuard 62000)
      (bufPool 62000 (unpooled (fun _ _ => 0) ()))
      [.get 256 1 .NORMAL, .get 256 33 .NO_READ, .put (some 0) ZUPER_BLOCK]).isSome := by
    decide +kernel
  obtain ⟨c, hc⟩ := Option.isSome_iff_exists.mp hsome
  obtain ⟨L, H, h, _⟩ := cache_structure (Reach.of_run (.init rfl) hc)
  exact ⟨c, hc, L, H, h⟩

end Minix.FS
