import Minix.Lib.DList
import Minix.MM.HoleList

/-!
# The allocator over whole runs

Any sequence of requests and returns, starting from `mem_init`. A block may be
returned only while it is handed out; which blocks those are is recorded beside
the table, and the code never looks at that record.
-/

namespace Minix.MM

open Intrusive Extents Transition

/-- The scan of `max_hole` gives the largest length it meets, or what it started from. -/
theorem maxHoleFrom_spec {t : HoleTable} {h : Option HolePtr} {l : List HolePtr} {n m : Nat}
    (hc : Chain t.next h l) (hn : l.length < n) :
    ∃ r, maxHoleFrom t n h m = some r ∧ ∀ k, r < k ↔ m < k ∧ ∀ i ∈ l, (t.extent i).len < k := by
  induction l generalizing h n m with
  | nil =>
    obtain ⟨n, rfl⟩ := Nat.exists_eq_add_of_lt hn
    obtain rfl : h = none := hc
    exact ⟨m, rfl, by simp⟩
  | cons i l ih =>
    obtain ⟨n, rfl⟩ := Nat.exists_eq_add_of_lt hn
    obtain ⟨rfl, hc⟩ := hc
    have hn' : l.length < (i :: l).length + n := by
      simp only [List.length_cons]
      omega
    obtain ⟨r, hr, hk⟩ := ih (m := if (t.hole i).hLen > m then (t.hole i).hLen else m) hc hn'
    refine ⟨r, hr, fun k => ?_⟩
    rw [hk, List.forall_mem_cons, ← and_assoc]
    refine and_congr_left fun _ => ?_
    rw [HoleTable.extent_len]
    split <;> omega

/-- `max_hole` returns the length of the largest hole: a request is bigger than it exactly when
no hole is big enough. -/
theorem maxHole_spec {t : HoleTable} {L F : List HolePtr} (h : Lists t L F) :
    ∃ m, maxHole t = some m ∧
      ∀ k, 0 < k → (m < k ↔ ∀ e ∈ L.map t.extent, e.len < k) := by
  obtain ⟨m, hm, hk⟩ := maxHoleFrom_spec (m := 0) h.used h.length_lt
  refine ⟨m, hm, fun k hpos => ?_⟩
  rw [hk, List.forall_mem_map]
  exact ⟨And.right, fun h => ⟨hpos, h⟩⟩

/-- Every slot but the first comes behind the first. -/
private theorem mem_drop_finRange (i : HolePtr) :
    i ∈ (List.finRange NR_HOLES).drop 1 ↔ i ≠ 0 := by
  have htail : (List.finRange NR_HOLES).drop 1 = (List.finRange 127).map Fin.succ := by
    rw [List.finRange_succ, List.drop_succ_cons, List.drop_zero]
  rw [htail]
  simp only [List.mem_map, List.mem_finRange, true_and]
  exact Fin.exists_succ_eq

/-- `mem_init` leaves one hole of all the memory and every other slot unused. -/
theorem memInit_lists (t : HoleTable) (total : Nat) :
    Lists (memInit t total) [0] ((List.finRange NR_HOLES).drop 1) ∧
      [0].map (memInit t total).extent = [⟨0, total⟩] := by
  have hnext : ∀ i : HolePtr, i ≠ 0 → (memInit t total).next i =
      if h : i.val + 1 < NR_HOLES then some ⟨i.val + 1, h⟩ else none := by
    intro i hi
    simp only [HoleTable.next, memInit, if_neg hi]
  refine ⟨⟨⟨rfl, rfl⟩, chain_drop_finRange (i := 1) (fun j hj => hnext j (by
    rintro rfl
    cases hj)), fun i => ?_⟩, rfl⟩
  rw [mem_drop_finRange, List.mem_singleton, not_not]

/-- The hole list is in order, and its holes are the clicks below `total` that are not used. -/
def Holes (t : HoleTable) (total : Nat) (used : Nat → Prop) : Prop :=
  ∃ L F, Lists t L F ∧ Apart (L.map t.extent) ∧
    ∀ c, Covers (L.map t.extent) c ↔ c < total ∧ ¬used c

/-- Holes end within memory: their last click is free. -/
theorem below_of_covers {t : HoleTable} {total : Nat} {used : Nat → Prop} {L : List HolePtr}
    (ha : Apart (L.map t.extent))
    (hc : ∀ c, Covers (L.map t.extent) c ↔ c < total ∧ ¬used c) : Below t L total := by
  intro i hi
  have hpos := ha.pos _ (List.mem_map_of_mem hi)
  have hlast : (t.extent i).Has ((t.extent i).stop - 1) := by
    simp only [Extent.Has, Extent.stop]
    omega
  have := ((hc _).mp ⟨_, List.mem_map_of_mem hi, hlast⟩).1
  simp only [Extent.stop] at this hpos ⊢
  omega

namespace Holes

variable {t : HoleTable} {total : Nat} {used used' : Nat → Prop}

theorem congr (h : Holes t total used) (hu : ∀ c, used c ↔ used' c) : Holes t total used' := by
  obtain ⟨L, F, hl, ha, hc⟩ := h
  exact ⟨L, F, hl, ha, fun c => by rw [hc, hu]⟩

theorem init (t : HoleTable) (hpos : 0 < total) : Holes (memInit t total) total fun _ => False := by
  obtain ⟨hl, he⟩ := memInit_lists t total
  refine ⟨_, _, hl, ?_, fun c => ?_⟩
  · rw [he]
    exact apart_cons.mpr ⟨hpos, by simp, Apart.nil⟩
  · rw [he]
    simp [Extent.Has, Extent.stop]

/-- A request gets `n` clicks that were not used, or finds no run of so many free clicks in one
hole and changes nothing. -/
theorem alloc (h : Holes t total used) (hlt : total < 65536) {n : Nat} (hn : 0 < n) :
    (allocMem t n = some (NO_MEM, t) ∧ ∃ m, maxHole t = some m ∧ m < n) ∨
    ∃ base t', allocMem t n = some (base, t') ∧ (∃ m, maxHole t = some m ∧ n ≤ m) ∧
      base + n ≤ total ∧ (∀ c, (⟨base, n⟩ : Extent).Has c → ¬used c) ∧
      Holes t' total fun c => used c ∨ (⟨base, n⟩ : Extent).Has c := by
  obtain ⟨L, F, hl, ha, hc⟩ := h
  have hspec := allocMem_spec n hl (below_of_covers ha hc) hlt
  obtain ⟨m, hm, hmk⟩ := maxHole_spec hl
  cases hfit : firstFit n (L.map t.extent) with
  | none =>
    rw [hfit] at hspec
    exact Or.inl ⟨hspec, m, hm, (hmk n hn).mpr (firstFit_eq_none.mp hfit)⟩
  | some r =>
    obtain ⟨b, l⟩ := r
    rw [hfit] at hspec
    obtain ⟨t', L', F', he, hl', hext⟩ := hspec
    have hcov := ha.firstFit_covers hfit
    have hin : ∀ c, b ≤ c ∧ c < b + n → c < total ∧ ¬used c :=
      fun c hb => (hc c).mp ((hcov c).2 hb)
    have hmn : n ≤ m := by
      rw [← Nat.not_lt, hmk n hn, ← firstFit_eq_none, hfit]
      simp
    have hlast := (hin (b + n - 1) (by omega)).1
    refine Or.inr ⟨b, t', he, ⟨m, hm, hmn⟩, by omega, fun c hb => (hin c hb).2,
      L', F', hl', ?_, fun c => ?_⟩
    · rw [hext]
      exact ha.firstFit hfit
    · rw [hext, (hcov c).1, hc, not_or, and_assoc]
      rfl

/-- The first request takes the first clicks. -/
theorem alloc_init (t : HoleTable) (hlt : total < 65536) {n : Nat} (hn : 0 < n) (hle : n ≤ total) :
    ∃ t', allocMem (memInit t total) n = some (0, t') ∧ Holes t' total fun c => c < n := by
  obtain ⟨hl, he⟩ := memInit_lists t total
  have hfirst : firstFit n [⟨0, total⟩] =
      some (0, if total = n then [] else [⟨0 + n, total - n⟩]) := by
    rw [firstFit, if_pos hle]
  have hbelow : Below (memInit t total) [0] total := by
    intro i hi
    rw [List.mem_singleton.mp hi]
    exact (Nat.zero_add total).le
  have hspec := allocMem_spec n hl hbelow hlt
  rw [he, hfirst] at hspec
  obtain ⟨t', L, F, ha, hl', hext⟩ := hspec
  have hap : Apart [(⟨0, total⟩ : Extent)] :=
    apart_cons.mpr ⟨hn.trans_le hle, fun _ h => absurd h List.not_mem_nil, Apart.nil⟩
  refine ⟨t', ha, L, F, hl', ?_, fun c => ?_⟩
  · rw [hext]
    exact hap.firstFit hfirst
  · rw [hext, (hap.firstFit_covers hfirst c).1]
    simp [Extent.Has, Extent.stop]

/-- Clicks that are used can be returned. -/
theorem free (h : Holes t total used) (hlt : total < 65536) {e : Extent} (hpos : 0 < e.len)
    (hw : e.stop ≤ total) (hu : ∀ c, e.Has c → used c) {t' : HoleTable}
    (he : freeMem t e.base e.len = some t') :
    Holes t' total fun c => used c ∧ ¬e.Has c := by
  obtain ⟨L, F, hl, ha, hc⟩ := h
  have hfree : ∀ c, e.Has c → ¬Covers (L.map t.extent) c :=
    fun c hec hcov => ((hc c).mp hcov).2 (hu c hec)
  rcases freeMem_spec hl ha (below_of_covers ha hc) hlt hw with
    ⟨_, hnone⟩ | ⟨t₁, L', F', ht, hl', hext⟩
  · rw [hnone] at he
    cases he
  · rw [ht] at he
    obtain rfl := Option.some.inj he
    refine ⟨L', F', hl', ?_, fun c => ?_⟩
    · rw [hext]
      exact ha.give hpos fun c h₁ h₂ => hfree c ⟨h₁, h₂⟩
    · rw [hext, covers_give, hc, not_and_not_right]
      show e.Has c ∨ _ ↔ _
      by_cases hec : e.Has c
      · exact ⟨fun _ => ⟨Nat.lt_of_lt_of_le hec.2 hw, fun _ => hec⟩, fun _ => Or.inl hec⟩
      · exact ⟨fun h => ⟨(h.resolve_left hec).1, fun hu => absurd hu (h.resolve_left hec).2⟩,
          fun h => Or.inr ⟨h.1, fun hu => hec (h.2 hu)⟩⟩

/-- There are no more holes than places where something that is used ends. -/
theorem few (h : Holes t total used) (h₀ : used 0) {ends : List Nat}
    (he : ∀ c, used c → ¬used (c + 1) → c + 1 ∈ ends) :
    ∃ L F, Lists t L F ∧ Apart (L.map t.extent) ∧ Below t L total ∧ L.length ≤ ends.length := by
  obtain ⟨L, F, hl, ha, hc⟩ := h
  refine ⟨L, F, hl, ha, below_of_covers ha hc, ?_⟩
  rw [← List.length_map t.extent]
  refine ha.length_le fun e hmem => ?_
  have hpos := ha.pos e hmem
  obtain ⟨hlt, hfree⟩ := (hc e.base).mp ⟨e, hmem, Nat.le_refl _, by unfold Extent.stop; omega⟩
  have hb : 0 < e.base := by
    refine Nat.pos_of_ne_zero fun hz => hfree ?_
    rwa [hz]
  have hbefore : used (e.base - 1) := by
    by_contra hnot
    exact ha.not_covers_pred hmem hb ((hc _).mpr ⟨by omega, hnot⟩)
  have hsucc : e.base - 1 + 1 = e.base := Nat.succ_pred_eq_of_pos hb
  have hend := he (e.base - 1) hbefore (by rwa [hsucc])
  rwa [hsucc] at hend

/-- With so few holes there is a slot for a block that is returned. -/
theorem free_isSome (h : Holes t total used) (hlt : total < 65536) (h₀ : used 0)
    {ends : List Nat} (he : ∀ c, used c → ¬used (c + 1) → c + 1 ∈ ends)
    (hroom : ends.length < NR_HOLES) {b n : Nat} (hbn : b + n ≤ total) :
    (freeMem t b n).isSome = true := by
  obtain ⟨L, F, hl, ha, hb, hlen⟩ := h.few h₀ he
  rcases freeMem_spec hl ha hb hlt hbn with ⟨rfl, -⟩ | ⟨t', L', F', hf, -⟩
  · obtain ⟨i, F', hF⟩ := hl.free_cons (hlen.trans_lt hroom)
    cases hF
  · rw [hf]
    rfl

/-- The largest hole does not become smaller when less is used. -/
theorem maxHole_mono {t' : HoleTable} (h : Holes t total used) (h' : Holes t' total used')
    (hu : ∀ c, used' c → used c) {m m' : Nat} (hm : maxHole t = some m)
    (hm' : maxHole t' = some m') : m ≤ m' := by
  obtain ⟨L, F, hl, ha, hc⟩ := h
  obtain ⟨L', F', hl', ha', hc'⟩ := h'
  obtain ⟨k, hk, hspec⟩ := maxHole_spec hl
  obtain ⟨k', hk', hspec'⟩ := maxHole_spec hl'
  obtain rfl := Option.some.inj (hk.symm.trans hm)
  obtain rfl := Option.some.inj (hk'.symm.trans hm')
  by_contra hlt
  have hpos : 0 < k := by omega
  have hsmall := (hspec' k hpos).mp (by omega)
  have hbig : ¬∀ e ∈ L.map t.extent, e.len < k := fun hall =>
    Nat.lt_irrefl k ((hspec k hpos).mpr hall)
  push Not at hbig
  obtain ⟨e, he, hle⟩ := hbig
  obtain ⟨f, hf, hlen⟩ := ha'.exists_long (e := e) (by omega) fun c hec =>
    (hc' c).mpr ⟨((hc c).mp ⟨e, he, hec⟩).1, fun hused => ((hc c).mp ⟨e, he, hec⟩).2 (hu c hused)⟩
  have := hsmall f hf
  omega

end Holes

/-- The allocator, and the blocks that are handed out. -/
structure Memory where
  table : HoleTable
  blocks : List Extent

/-- A request for `clicks`, or the return of a block. -/
inductive Call where
  | alloc (clicks : Nat)
  | free (block : Extent)

namespace Memory

/-- The allocator after `mem_init`, with nothing handed out. -/
def init (t : HoleTable) (total : Nat) : Memory := ⟨memInit t total, []⟩

/-- Serve a call, and record what it hands out or takes back. -/
def step (s : Memory) : Call → Option Memory
  | .alloc clicks => do
    let max ← maxHole s.table
    let (base, t) ← allocMem s.table clicks
    return ⟨t, if max < clicks then s.blocks else ⟨base, clicks⟩ :: s.blocks⟩
  | .free b => (freeMem s.table b.base b.len).map fun t => ⟨t, s.blocks.erase b⟩

/-- Requests are for a positive number of clicks; what is returned is handed out. -/
def guard (s : Memory) : Call → Prop
  | .alloc clicks => 0 < clicks
  | .free b => b ∈ s.blocks

instance (s : Memory) (i : Call) : Decidable (guard s i) := by
  cases i <;> unfold guard <;> infer_instance

/-- Memory is split between the holes of the list `L` and the blocks handed out. -/
structure Split (s : Memory) (total : Nat) (L F : List HolePtr) : Prop where
  lists : Lists s.table L F
  apart : Apart (L.map s.table.extent)
  pos : ∀ b ∈ s.blocks, 0 < b.len
  within : ∀ b ∈ s.blocks, b.stop ≤ total
  disjoint : s.blocks.Pairwise Extent.Disjoint
  free : ∀ c, Covers (L.map s.table.extent) c ↔ c < total ∧ ¬Covers s.blocks c

namespace Split

variable {s : Memory} {total : Nat} {L F : List HolePtr}

theorem below (h : s.Split total L F) : Below s.table L total := below_of_covers h.apart h.free

theorem holes (h : s.Split total L F) : Holes s.table total (Covers s.blocks) :=
  ⟨L, F, h.lists, h.apart, h.free⟩

end Split

theorem split_init (t : HoleTable) {total : Nat} (hpos : 0 < total) :
    ∃ L F, (init t total).Split total L F := by
  obtain ⟨L, F, hl, ha, hc⟩ := Holes.init t hpos
  refine ⟨L, F, hl, ha, by simp [init], by simp [init], List.Pairwise.nil, fun c => ?_⟩
  refine (hc c).trans (and_congr_right fun _ => not_congr ?_)
  exact ⟨False.elim, not_covers_nil c⟩

/-- A request keeps memory split: a block that is handed out was free before. -/
theorem Split.alloc {s s' : Memory} {total n : Nat} {L F : List HolePtr} (h : s.Split total L F)
    (hlt : total < 65536) (hn : 0 < n) (he : s.step (.alloc n) = some s') :
    ∃ L' F', s'.Split total L' F' := by
  rcases h.holes.alloc hlt hn with
    ⟨ha, m, hm, hmn⟩ | ⟨b, t', ha, ⟨m, hm, hmn⟩, hw, hfree, L', F', hl, hap, hc⟩
  · simp only [step, hm, ha, Option.bind_eq_bind, Option.bind_some, if_pos hmn] at he
    obtain rfl := Option.some.inj he
    exact ⟨L, F, h.lists, h.apart, h.pos, h.within, h.disjoint, h.free⟩
  · simp only [step, hm, ha, Option.bind_eq_bind, Option.bind_some,
      if_neg (Nat.not_lt.mpr hmn)] at he
    obtain rfl := Option.some.inj he
    refine ⟨L', F', hl, hap, List.forall_mem_cons.mpr ⟨hn, h.pos⟩,
      List.forall_mem_cons.mpr ⟨hw, h.within⟩,
      List.pairwise_cons.mpr ⟨fun f hf c hc hfc => hfree c hc ⟨f, hf, hfc⟩, h.disjoint⟩,
      fun c => ?_⟩
    rw [hc, covers_cons, or_comm]

/-- Returning a block that is handed out keeps memory split. -/
theorem Split.free_step {s s' : Memory} {total : Nat} {L F : List HolePtr} {b : Extent}
    (h : s.Split total L F) (hlt : total < 65536) (hb : b ∈ s.blocks)
    (he : s.step (.free b) = some s') : ∃ L' F', s'.Split total L' F' := by
  obtain ⟨t', hf, rfl⟩ := Option.map_eq_some_iff.mp he
  have hperm := List.perm_cons_erase hb
  have hdis := (hperm.pairwise_iff (fun h => h.symm)).mp h.disjoint
  obtain ⟨hbd, hrest⟩ := List.pairwise_cons.mp hdis
  obtain ⟨L', F', hl, hap, hc⟩ :=
    h.holes.free hlt (h.pos b hb) (h.within b hb) (fun c hc => ⟨b, hb, hc⟩) hf
  refine ⟨L', F', hl, hap, fun f hf => h.pos f (List.mem_of_mem_erase hf),
    fun f hf => h.within f (List.mem_of_mem_erase hf), hrest, fun c => ?_⟩
  have hno : b.Has c → ¬Covers (s.blocks.erase b) c := by
    rintro hbc ⟨f, hf, hfc⟩
    exact hbd f hf c hbc hfc
  refine (hc c).trans (and_congr_right fun _ => not_congr ?_)
  show Covers s.blocks c ∧ ¬b.Has c ↔ _
  rw [covers_perm hperm, covers_cons]
  exact ⟨fun h => h.1.resolve_left h.2, fun h => ⟨Or.inr h, fun hbc => hno hbc h⟩⟩

/-- In every run from `mem_init`, memory is split between the holes and the blocks. -/
theorem split_of_reach {t : HoleTable} {total : Nat} (hpos : 0 < total) (hlt : total < 65536)
    {s : Memory} (hr : Reach step guard (fun s => s = init t total) s) :
    ∃ L F, s.Split total L F := by
  refine hr.invariant (fun s => ∃ L F, s.Split total L F) ?_ ?_
  · rintro s rfl
    exact split_init t hpos
  · rintro s (n | b) s' ⟨L, F, h⟩ hg he
    · exact h.alloc hlt hg he
    · exact h.free_step hlt hg he

/-- A request that some hole can serve is served from the start of the first such hole. -/
theorem Split.allocMem_lowest {s : Memory} {total n : Nat} {L F : List HolePtr}
    (h : s.Split total L F) (hlt : total < 65536) (hfit : ¬∀ e ∈ L.map s.table.extent, e.len < n) :
    ∃ L₁ hp L₂ t' L' F', L = L₁ ++ hp :: L₂ ∧ (∀ i ∈ L₁, (s.table.hole i).hLen < n) ∧
      n ≤ (s.table.hole hp).hLen ∧ allocMem s.table n = some ((s.table.hole hp).hBase, t') ∧
      Lists t' L' F' ∧ ∀ c, Covers (L'.map t'.extent) c ↔ Covers (L.map s.table.extent) c ∧
        ¬((s.table.hole hp).hBase ≤ c ∧ c < (s.table.hole hp).hBase + n) := by
  rcases exists_first_split (fun i => decide (n ≤ (s.table.hole i).hLen)) L with
    hno | ⟨L₁, hp, L₂, rfl, hno, hhp⟩
  · refine absurd ?_ hfit
    rw [List.forall_mem_map]
    intro i hi
    simpa using hno i hi
  · have hlow : ∀ i ∈ L₁, (s.table.hole i).hLen < n := fun i hi => by simpa using hno i hi
    have hhp : n ≤ (s.table.extent hp).len := by simpa using hhp
    have hff : ∀ l₂, firstFit n (L₁.map s.table.extent ++ s.table.extent hp :: l₂) = _ :=
      fun l₂ => firstFit_append (List.forall_mem_map.mpr hlow) hhp
    have hspec := allocMem_spec n h.lists h.below hlt
    rw [List.map_append, List.map_cons, hff] at hspec
    obtain ⟨t', L', F', ha, hl, hext⟩ := hspec
    refine ⟨L₁, hp, L₂, t', L', F', rfl, hlow, hhp, ha, hl, fun c => ?_⟩
    rw [hext]
    refine (h.apart.firstFit_covers ?_ c).1
    rw [List.map_append, List.map_cons, hff]
    rfl

/-- After any sequence of requests and returns the hole list is sorted, merged and free of empty
holes, the two lists split the table, and exactly the clicks that are not handed out are free. A
request takes the start of the lowest hole that fits, and takes nothing and returns `NO_MEM`
exactly when it is bigger than the largest hole. -/
theorem hole_list_invariant {t : HoleTable} {total : Nat} (hpos : 0 < total)
    (hlt : total < 65536) {s : Memory}
    (hr : Reach step guard (fun s => s = init t total) s) :
    ∃ L F, s.Split total L F ∧ ∀ n, 0 < n → ∃ max base t',
      maxHole s.table = some max ∧ allocMem s.table n = some (base, t') ∧
      (max < n → base = NO_MEM ∧ t' = s.table) ∧
      (n ≤ max → ∃ L₁ hp L₂ L' F', L = L₁ ++ hp :: L₂ ∧
        (∀ i ∈ L₁, (s.table.hole i).hLen < n) ∧ n ≤ (s.table.hole hp).hLen ∧
        base = (s.table.hole hp).hBase ∧ Lists t' L' F' ∧
        ∀ c, Covers (L'.map t'.extent) c ↔
          Covers (L.map s.table.extent) c ∧ ¬(base ≤ c ∧ c < base + n)) := by
  obtain ⟨L, F, h⟩ := split_of_reach hpos hlt hr
  refine ⟨L, F, h, fun n hn => ?_⟩
  obtain ⟨max, hmax, hk⟩ := maxHole_spec h.lists
  by_cases hmn : max < n
  · have hspec := allocMem_spec n h.lists h.below hlt
    rw [firstFit_eq_none.mpr ((hk n hn).mp hmn)] at hspec
    exact ⟨max, NO_MEM, s.table, hmax, hspec, fun _ => ⟨rfl, rfl⟩, fun h => by omega⟩
  · obtain ⟨L₁, hp, L₂, t', L', F', hL, hlow, hhp, ha, hl, hcov⟩ :=
      h.allocMem_lowest hlt (fun hf => hmn ((hk n hn).mpr hf))
    exact ⟨max, _, t', hmax, ha, fun h => absurd h hmn,
      fun _ => ⟨L₁, hp, L₂, L', F', hL, hlow, hhp, rfl, hl, hcov⟩⟩

/-- The table before `mem_init`: as the compiler leaves it. -/
private def blankTable : HoleTable := ⟨fun _ => ⟨0, 0, none⟩, none, none⟩

/-- A run of three requests and a return in the middle. -/
theorem hole_list_invariant_example :
    ∃ s, run step guard (init blankTable 100)
        [.alloc 10, .alloc 20, .alloc 30, .free ⟨10, 20⟩] = some s ∧
      s.blocks = [⟨30, 30⟩, ⟨0, 10⟩] ∧ ∃ L F, s.Split 100 L F := by
  refine ⟨_, rfl, rfl, ?_⟩
  have hr : Reach step guard (fun s => s = init blankTable 100) _ :=
    Reach.of_run (.init rfl) (l := [.alloc 10, .alloc 20, .alloc 30, .free ⟨10, 20⟩]) rfl
  obtain ⟨L, F, h, _⟩ := hole_list_invariant (by decide) (by decide) hr
  exact ⟨L, F, h⟩

end Memory

end Minix.MM
