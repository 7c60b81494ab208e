import Minix.Lib.Parcels
import Minix.MM.Calls
import Minix.MM.Memory
import Minix.MM.Shape

/-!
# The partition of memory

Memory is split between the processes, what was set aside at the start, and the
holes. The size of a block is worked out again when it is returned, and comes out
as it was when the block was asked for. The image of INIT is the exception: with
separate I & D space its text is counted twice.
-/

namespace Minix.MM

open Extents Function Transition

/-- The memory that is worked out for INIT before it has gone through EXEC. -/
def bootRegion (b : Boot) : Extent := (initSlot b blankSlot).region

/-- INIT lies behind the system and before the RAM disk, and neither of its segments is larger than
a segment can be. -/
structure Boot.WellFormed (b : Boot) : Prop where
  org : 0 < b.initOrg
  size : 0 < b.initText + b.initData
  text : b.initText ≤ 4096
  data : b.initData ≤ 4096
  behind : b.initOrg + b.initText + b.initData ≤ b.tot
  room : b.initOrg + b.initText + b.initData + 32 < 65536

/-- What `do_brk2` took out of the memory map. INIT gives its own part back when it goes through
EXEC. -/
def Kept (b : Boot) (held : Proc → Option Extent) (c : Nat) : Prop :=
  c < b.tot ∧ ¬(held INIT_PROC_NR ≠ none ∧ (bootRegion b).Has c)

/-- The clicks below `total` are split between the processes from INIT on, what was set aside, and
the holes. -/
structure Partition (total : Nat) (b : Boot) (s : State) : Prop where
  holes : Holes s.table total (Taken s.hist.held (Kept b s.hist.held))
  parcels : Parcels s.hist.held (Kept b s.hist.held)
  aside : b.tot ≤ total
  held : ∀ p e, s.hist.held p = some e →
    INIT_PROC_NR ≤ p ∧ (s.mproc p).inUse = true ∧ e = (s.mproc p).region ∧ e.stop ≤ total
  above : ∀ p, INIT_PROC_NR < p → (s.mproc p).inUse = true → s.hist.held p ≠ none
  image : s.hist.held INIT_PROC_NR = none → (s.mproc INIT_PROC_NR).region = bootRegion b
  shaped : ∀ p, INIT_PROC_NR ≤ p → (s.mproc p).inUse = true → Shaped (s.mproc p)
  freed : ∀ f ∈ s.hist.freed, f.held = some f.block ∨ f.proc = INIT_PROC_NR ∧ f.held = none

/-- What the memory of a slot depends on. -/
def Mproc.room (m : Mproc) : MemMap × MemMap × MemMap × Bool × Bool :=
  (m.segT, m.segD, m.segS, m.separate, m.inUse)

theorem Mproc.room_eq {m m' : Mproc} (he : m'.room = m.room) :
    m'.segT = m.segT ∧ m'.segD = m.segD ∧ m'.segS = m.segS ∧ m'.separate = m.separate ∧
      m'.inUse = m.inUse := by
  simpa only [Mproc.room, Prod.mk.injEq] using he

theorem Mproc.region_congr {m m' : Mproc} (he : m'.room = m.room) : m'.region = m.region := by
  obtain ⟨ht, -, hs, hsep, -⟩ := Mproc.room_eq he
  unfold Mproc.region Mproc.coreClicks
  rw [ht, hs, hsep]

theorem Shaped.congr {m m' : Mproc} (h : Shaped m) (he : m'.room = m.room) : Shaped m' := by
  obtain ⟨ht, hd, hs, hsep, -⟩ := Mproc.room_eq he
  constructor <;> simp only [ht, hd, hs, hsep]
  exacts [h.sep, h.fits, h.pos, h.dVir, h.dPhys, h.dLen, h.sLow, h.sHigh, h.sPhys, h.dEnd]

theorem kept_update {b : Boot} {held : Proc → Option Extent} {p : Proc} (hp : p ≠ INIT_PROC_NR)
    (e : Option Extent) : Kept b (update held p e) = Kept b held := by
  unfold Kept
  rw [update_of_ne hp.symm]

theorem bootRegion_base (b : Boot) : (bootRegion b).base = b.initOrg := rfl

/-- The first click is never handed out. -/
theorem kept_zero {b : Boot} (hb : b.WellFormed) (held : Proc → Option Extent) : Kept b held 0 := by
  have horg := hb.org
  have hbehind := hb.behind
  refine ⟨by omega, fun h => ?_⟩
  have := h.2.1
  rw [bootRegion_base] at this
  omega

/-- What a process must find that goes through EXEC. -/
def Fits (b : Boot) (s : State) (who : Proc) : Prop :=
  who = INIT_PROC_NR → s.hist.held INIT_PROC_NR = none → (bootRegion b).stop ≤ b.tot

theorem Quiet.room {f : Mproc → Mproc} (hf : Quiet f) (m : Mproc) : (f m).room = m.room := by
  show (f m).bare.room = m.bare.room
  rw [hf m]

theorem Marks.room {f : Mproc → Mproc} (hf : Marks f) (m : Mproc) : (f m).room = m.room := by
  rw [hf m]
  rfl

namespace Partition

variable {total : Nat} {b : Boot} {s s' : State}

/-- A change that leaves the region of every process as it is. -/
theorem congr_region (h : Partition total b s) (hu : ∀ q, (s'.mproc q).inUse = (s.mproc q).inUse)
    (hr : ∀ q, INIT_PROC_NR ≤ q → (s.mproc q).inUse = true →
      Shaped (s'.mproc q) ∧ (s'.mproc q).region = (s.mproc q).region)
    (hi : (s'.mproc INIT_PROC_NR).region = (s.mproc INIT_PROC_NR).region)
    (ht : s'.table = s.table) (hh : s'.hist.held = s.hist.held)
    (hf : s'.hist.freed = s.hist.freed) : Partition total b s' := by
  refine ⟨?_, ?_, h.aside, fun p e he => ?_, fun p hp hpu => ?_, fun hn => ?_, fun p hp hpu => ?_, ?_⟩
  · rw [ht, hh]
    exact h.holes
  · rw [hh]
    exact h.parcels
  · rw [hh] at he
    obtain ⟨hp, hpu, he, hstop⟩ := h.held p e he
    exact ⟨hp, by rw [hu, hpu], by rw [(hr p hp hpu).2, he], hstop⟩
  · rw [hu] at hpu
    rw [hh]
    exact h.above p hp hpu
  · rw [hh] at hn
    rw [hi, h.image hn]
  · rw [hu] at hpu
    exact (hr p hp hpu).1
  · rw [hf]
    exact h.freed

/-- A change that has nothing to do with memory. -/
theorem congr (h : Partition total b s) (hm : ∀ q, (s'.mproc q).room = (s.mproc q).room)
    (ht : s'.table = s.table) (hh : s'.hist.held = s.hist.held)
    (hf : s'.hist.freed = s.hist.freed) : Partition total b s' :=
  h.congr_region (fun q => (Mproc.room_eq (hm q)).2.2.2.2)
    (fun q hq hu => ⟨(h.shaped q hq hu).congr (hm q), Mproc.region_congr (hm q)⟩)
    (Mproc.region_congr (hm _)) ht hh hf

/-- A write to one slot that has nothing to do with memory. -/
theorem modify (h : Partition total b s) {p : Proc} {f : Mproc → Mproc}
    (hf : (f (s.mproc p)).room = (s.mproc p).room) : Partition total b (s.modify p f) := by
  refine h.congr (fun q => ?_) rfl rfl rfl
  rw [State.modify_mproc]
  split
  · rename_i hq
    rw [hf, hq]
  · rfl

/-- Nothing is held for a slot above INIT that is not in use. -/
theorem held_none (h : Partition total b s) {p : Proc} (hu : (s.mproc p).inUse = false) :
    s.hist.held p = none := by
  refine Option.eq_none_iff_forall_ne_some.mpr fun e he => ?_
  rw [(h.held p e he).2.1] at hu
  cases hu

/-- What is held for a slot above INIT is its region. -/
theorem held_some (h : Partition total b s) {p : Proc} (hp : INIT_PROC_NR < p)
    (hu : (s.mproc p).inUse = true) : s.hist.held p = some (s.mproc p).region := by
  obtain ⟨e, he⟩ := Option.ne_none_iff_exists'.mp (h.above p hp hu)
  rw [he, (h.held p e he).2.2.1]

theorem region_pos (h : Partition total b s) {p : Proc} (hp : INIT_PROC_NR ≤ p)
    (hu : (s.mproc p).inUse = true) : 0 < (s.mproc p).region.len := by
  have hs := h.shaped p hp hu
  have hpos := hs.pos
  show 0 < (s.mproc p).coreClicks
  rw [hs.coreClicks]
  exact hpos

/-- The system itself lies below the memory of all processes. -/
theorem region_above (h : Partition total b s) (hb : b.WellFormed) {p : Proc}
    (hp : INIT_PROC_NR ≤ p) (hu : (s.mproc p).inUse = true) :
    b.initOrg ≤ (s.mproc p).region.base := by
  have hbehind := hb.behind
  have hpos := h.region_pos hp hu
  cases hheld : s.hist.held p with
  | some e =>
    obtain ⟨-, -, rfl, -⟩ := h.held p e hheld
    by_contra hlt
    refine h.parcels.kept p _ hheld (s.mproc p).region.base ⟨le_rfl, ?_⟩ ⟨by omega, fun hin => ?_⟩
    · exact Nat.lt_add_of_pos_right hpos
    · have hbase := hin.2.1
      rw [bootRegion_base] at hbase
      omega
  | none =>
    have hinit : p = INIT_PROC_NR := by
      by_contra hne
      exact h.above p (lt_of_le_of_ne hp (Ne.symm hne)) hu hheld
    subst hinit
    rw [h.image hheld, bootRegion_base]

/-- A slot is released, and its memory is returned. -/
theorem released (h : Partition total b s) (hlt : total < 65536) {p : Proc}
    (hp : INIT_PROC_NR < p) (hu : (s.mproc p).inUse = true) {t : HoleTable}
    (ht : freeMem s.table (s.mproc p).region.base (s.mproc p).region.len = some t) :
    Partition total b (released s p t) := by
  have hheld := h.held_some hp hu
  have hholes := h.holes.free hlt (h.region_pos hp.le hu) (h.held p _ hheld).2.2.2
    (fun c hc => Or.inl ⟨p, _, hheld, hc⟩) ht
  obtain ⟨hpar, htaken⟩ := h.parcels.remove hheld
  have hother : ∀ q e, update s.hist.held p none q = some e → q ≠ p ∧ s.hist.held q = some e := by
    intro q e he
    by_cases hq : q = p
    · rw [hq, update_self] at he
      cases he
    · exact ⟨hq, by rwa [update_of_ne hq] at he⟩
  refine ⟨?_, ?_, h.aside, fun q e he => ?_, fun q hq hqu => ?_, fun hn => ?_, fun q hq hqu => ?_,
    fun f hf => ?_⟩
  · show Holes t total (Taken (update s.hist.held p none) (Kept b (update s.hist.held p none)))
    rw [kept_update hp.ne']
    exact hholes.congr htaken
  · show Parcels (update s.hist.held p none) (Kept b (update s.hist.held p none))
    rw [kept_update hp.ne']
    exact hpar
  · obtain ⟨hne, he⟩ := hother q e he
    obtain ⟨hq, hqu, hreg, hstop⟩ := h.held q e he
    exact ⟨hq, released_use.mpr ⟨hne, hqu⟩, hreg, hstop⟩
  · obtain ⟨hne, hqu⟩ := released_use.mp hqu
    show update s.hist.held p none q ≠ none
    rw [update_of_ne hne]
    exact h.above q hq hqu
  · replace hn : update s.hist.held p none INIT_PROC_NR = none := hn
    rw [update_of_ne hp.ne] at hn
    exact h.image hn
  · have hs := h.shaped q hq (released_use.mp hqu).2
    exact ⟨hs.sep, hs.fits, hs.pos, hs.dVir, hs.dPhys, hs.dLen, hs.sLow, hs.sHigh, hs.sPhys, hs.dEnd⟩
  · rcases List.mem_cons.mp hf with rfl | hf
    · exact Or.inl hheld
    · exact h.freed f hf

/-- A process is given a block, and an image that lies in it. -/
theorem place (h : Partition total b s) {p : Proc} (hp : INIT_PROC_NR ≤ p) {e : Extent}
    (hheld : s'.hist.held = update s.hist.held p (some e)) (hstop : e.stop ≤ total)
    (hholes : Holes s'.table total (Taken s'.hist.held (Kept b s'.hist.held)))
    (hpar : Parcels s'.hist.held (Kept b s'.hist.held))
    (hself : Shaped (s'.mproc p) ∧ (s'.mproc p).region = e ∧ (s'.mproc p).inUse = true)
    (hother : ∀ q, q ≠ p → s'.mproc q = s.mproc q)
    (hfreed : ∀ f ∈ s'.hist.freed, f ∈ s.hist.freed ∨
      f.held = some f.block ∨ f.proc = INIT_PROC_NR ∧ f.held = none) : Partition total b s' := by
  obtain ⟨hs, hreg, hu⟩ := hself
  refine ⟨hholes, hpar, h.aside, fun q f hf => ?_, fun q hq hqu => ?_, fun hn => ?_,
    fun q hq hqu => ?_, fun f hf => (hfreed f hf).elim (h.freed f) id⟩
  · rw [hheld] at hf
    by_cases hq : q = p
    · subst hq
      rw [update_self] at hf
      obtain rfl := Option.some.inj hf
      exact ⟨hp, hu, hreg.symm, hstop⟩
    · rw [update_of_ne hq] at hf
      rw [hother q hq]
      exact h.held q f hf
  · rw [hheld]
    by_cases hq' : q = p
    · rw [hq', update_self]
      exact Option.some_ne_none e
    · rw [hother q hq'] at hqu
      rw [update_of_ne hq']
      exact h.above q hq hqu
  · rw [hheld] at hn
    by_cases hq : INIT_PROC_NR = p
    · rw [hq, update_self] at hn
      cases hn
    · rw [update_of_ne hq] at hn
      rw [hother _ hq]
      exact h.image hn
  · by_cases hq' : q = p
    · rw [hq']
      exact hs
    · rw [hother q hq'] at hqu ⊢
      exact h.shaped q hq hqu

/-- FORK: the child is given a block, and the image of its parent. -/
theorem fork (h : Partition total b s) (hlt : total < 65536) (hs : Sound [] s)
    {who child : Proc} {base n : Nat} {t : HoleTable} (hp : INIT_PROC_NR ≤ who)
    (hl : (s.mproc who).inUse = true)
    (ha : allocMem s.table (progClicks (s.mproc who)) = some (base, t)) (hb : base ≠ NO_MEM)
    (hc : freeSlot s = some child) (hpid : assignPid child n (placeChild s who child t base) = some s') :
    Partition total b s' := by
  obtain ⟨hchild, hfree⟩ := hs.freeSlot hc
  obtain ⟨pid, hm, -, ht, -, -, hhist⟩ := forkedState_mproc hpid
  have hshape := h.shaped who hp hl
  have hsize : progClicks (s.mproc who) = (s.mproc who).region.len := hshape.progClicks
  have hheld : s'.hist.held =
      update s.hist.held child (some ⟨base, (s.mproc who).region.len⟩) := by
    rw [hhist, ← hsize]
    rfl
  rw [hsize] at ha
  rcases h.holes.alloc hlt (h.region_pos hp hl) with ⟨hno, -⟩ | ⟨base', t', he, -, hw, hnew, hholes⟩
  · rw [ha] at hno
    exact absurd (Prod.mk.inj (Option.some.inj hno)).1 hb
  · rw [ha] at he
    obtain ⟨rfl, rfl⟩ := Prod.mk.inj (Option.some.inj he)
    replace hw : base + (s.mproc who).coreClicks ≤ total := hw
    obtain ⟨hpar, htaken⟩ := h.parcels.insert (h.held_none hfree) hnew
    have hend : base + (s.mproc who).coreClicks < 65536 := hw.trans_lt hlt
    obtain ⟨hself, hreg⟩ := @Shaped.forked _ hshape who base pid hend
    refine h.place hchild.le hheld hw ?_ ?_ ?_ (fun q hq => by rw [hm, if_neg hq]) fun f hf => ?_
    · rw [hheld, kept_update hchild.ne', ht]
      exact hholes.congr htaken
    · rw [hheld, kept_update hchild.ne']
      exact hpar
    · rw [hm, if_pos rfl]
      exact ⟨hself, hreg, hl⟩
    · rw [hhist] at hf
      exact Or.inl hf

/-- What EXEC returns was set aside or held for the process; then nothing is held for it. -/
theorem vacate (h : Partition total b s) (hlt : total < 65536) {who : Proc}
    (hp : INIT_PROC_NR ≤ who) (hu : (s.mproc who).inUse = true)
    (hfits : who = INIT_PROC_NR → s.hist.held INIT_PROC_NR = none → (bootRegion b).stop ≤ b.tot)
    {t : HoleTable} (e : Extent)
    (ht : freeMem s.table (s.mproc who).region.base (s.mproc who).region.len = some t) :
    Parcels (update s.hist.held who none) (Kept b (update s.hist.held who (some e))) ∧
      Holes t total
        (Taken (update s.hist.held who none) (Kept b (update s.hist.held who (some e)))) ∧
      (s.hist.held who = some (s.mproc who).region ∨
        who = INIT_PROC_NR ∧ s.hist.held who = none) := by
  have hpos := h.region_pos hp hu
  cases hheld : s.hist.held who with
  | some f =>
    obtain ⟨-, -, rfl, hstop⟩ := h.held who f hheld
    have hholes := h.holes.free hlt hpos hstop (fun c hc => Or.inl ⟨who, _, hheld, hc⟩) ht
    obtain ⟨hpar, htaken⟩ := h.parcels.remove hheld
    have hkept : Kept b (update s.hist.held who (some e)) = Kept b s.hist.held := by
      by_cases hi : who = INIT_PROC_NR
      · subst hi
        funext c
        simp [Kept, hheld]
      · exact kept_update hi _
    rw [hkept]
    exact ⟨hpar, hholes.congr htaken, Or.inl rfl⟩
  | none =>
    have hi : who = INIT_PROC_NR := by
      by_contra hne
      exact h.above who (lt_of_le_of_ne hp (Ne.symm hne)) hu hheld
    subst hi
    rw [h.image hheld] at ht hpos
    have hstop := hfits rfl hheld
    have hin : ∀ c, (bootRegion b).Has c → Kept b s.hist.held c :=
      fun c hc => ⟨hc.2.trans_le hstop, fun hk => hk.1 hheld⟩
    have hholes := h.holes.free hlt hpos (hstop.trans h.aside) (fun c hc => Or.inr (hin c hc)) ht
    obtain ⟨hpar, htaken⟩ := h.parcels.shrink hin
    have hkept : Kept b (update s.hist.held INIT_PROC_NR (some e)) =
        fun c => Kept b s.hist.held c ∧ ¬(bootRegion b).Has c := by
      funext c
      simp [Kept, hheld]
    rw [hkept, update_eq_self_iff.mpr hheld.symm]
    exact ⟨hpar, hholes.congr htaken, Or.inr ⟨rfl, rfl⟩⟩

/-- EXEC: the old block is returned, and the program is given one of its own size. -/
theorem exec (h : Partition total b s) (hlt : total < 65536) {who : Proc} {a : ExecCall}
    {im : Image} (hp : INIT_PROC_NR ≤ who) (hu : (s.mproc who).inUse = true)
    (hi : execImage a = .ok im)
    (hfits : who = INIT_PROC_NR → s.hist.held INIT_PROC_NR = none → (bootRegion b).stop ≤ b.tot)
    (hm : newMem s who im = some (OK, s')) :
    Partition total b (s'.modify who (execDone a im.ft)) := by
  obtain ⟨t₁, base, t₂, hroom, hf, ha, hne, rfl⟩ := newMem_ok hm
  obtain ⟨hgap, -⟩ := roomFor_ok hroom
  obtain ⟨hpar, hholes, hheld⟩ := h.vacate hlt hp hu hfits ⟨base, im.clicks⟩ hf
  have hpos : 0 < im.clicks := by
    rw [Image.clicks_eq hgap]
    exact Nat.add_pos_right _ (execImage_ok hi).2
  rcases hholes.alloc hlt hpos with ⟨hno, -⟩ | ⟨base', t', he, -, hw, hnew, hholes'⟩
  · rw [ha] at hno
    exact absurd (Prod.mk.inj (Option.some.inj hno)).1 hne
  · rw [ha] at he
    obtain ⟨rfl, rfl⟩ := Prod.mk.inj (Option.some.inj he)
    obtain ⟨hpar', htaken⟩ := hpar.insert (update_self ..) hnew
    rw [update_idem] at hpar' htaken
    have hend : base + im.clicks < 65536 := hw.trans_lt hlt
    obtain ⟨hself, hreg⟩ := Shaped.loaded hi hgap hend (s.mproc who)
    refine h.place hp rfl hw ?_ ?_ ?_ (fun q hq => ?_) fun f hf => ?_
    · exact hholes'.congr htaken
    · exact hpar'
    · rw [State.modify_mproc, if_pos rfl]
      dsimp only
      rw [update_self]
      exact ⟨hself, hreg, hu⟩
    · rw [State.modify_mproc, if_neg hq]
      exact update_of_ne hq _ _
    · rcases List.mem_cons.mp hf with rfl | hf
      · exact Or.inr hheld
      · exact Or.inl hf

/-- A request that fails leaves the hole list as it is, since the first click is never free. -/
theorem noMem (h : Partition total b s) (hlt : total < 65536) (hb : b.WellFormed) {who : Proc}
    {t : HoleTable} (hp : INIT_PROC_NR ≤ who) (hu : (s.mproc who).inUse = true)
    (ha : allocMem s.table (progClicks (s.mproc who)) = some (NO_MEM, t)) : t = s.table := by
  have hsize : progClicks (s.mproc who) = (s.mproc who).region.len := (h.shaped who hp hu).progClicks
  have hpos := h.region_pos hp hu
  rw [hsize] at ha
  rcases h.holes.alloc hlt hpos with ⟨hno, -⟩ | ⟨base, t', he, -, -, hnew, -⟩
  · rw [ha] at hno
    exact (Prod.mk.inj (Option.some.inj hno)).2
  · rw [ha] at he
    obtain ⟨rfl, -⟩ := Prod.mk.inj (Option.some.inj he)
    refine absurd (Or.inr (kept_zero hb _)) (hnew 0 ⟨le_rfl, ?_⟩)
    simpa [Extent.stop] using hpos

/-- Every effect keeps the partition. -/
theorem effect {A B : Prop} {W : Proc → Prop} {x y : List Proc × State} (h : Partition total b x.2)
    (hlt : total < 65536) (hb : b.WellFormed) (hs : Sound x.1 x.2)
    (he : Effect A B (Fits b) W x y) : Partition total b y.2 := by
  cases he with
  | quiet p hf => exact h.modify (hf.room _)
  | vars mp d r hW => exact h.congr (fun _ => rfl) rfl rfl rfl
  | @adjusted g s p d sp hp hu hd =>
    obtain ⟨hself, hreg⟩ := (h.shaped p hp hu).adjust sp hd
    have hm : ∀ q, (s.modify p fun _ => (adjust (s.mproc p) d sp).2).mproc q =
        if q = p then (adjust (s.mproc p) d sp).2 else s.mproc q := fun q => State.modify_mproc ..
    refine h.congr_region (fun q => ?_) (fun q hq hqu => ?_) ?_ rfl rfl rfl
    · rw [hm]
      split
      · rename_i hq
        rw [adjust_eq, hq]
      · rfl
    · rw [hm]
      split
      · rename_i hq
        rw [hq]
        exact ⟨hself, hreg⟩
      · exact ⟨h.shaped q hq hqu, rfl⟩
    · rw [hm]
      split
      · rename_i hq
        rw [hq]
        exact hreg
      · rfl
  | act d hA => exact h.congr (fun _ => rfl) rfl rfl rfl
  | mark hf hA => exact h.modify (hf.room _)
  | @hang g s p hp hu hw hA hB =>
    have h' : Partition total b (s.noteExit p) := h.congr (fun _ => rfl) rfl rfl rfl
    exact h'.modify (f := fun m => { m with hanging := true }) rfl
  | @exitReap s s' p hp hu hw hA hr =>
    have h' : Partition total b (s.noteExit p) := h.congr (fun _ => rfl) rfl rfl rfl
    obtain ⟨t, ht, rfl⟩ := release_eq hr
    exact h'.released hlt hp hu ht
  | @reap g s s' p hW hp hh hl hs' ho hr =>
    obtain ⟨t, ht, rfl⟩ := release_eq hr
    exact h.released hlt hp (hs.hanging p hh) ht
  | adopt hc hpar hh => exact h.modify (f := fun m => { m with mpParent := INIT_PROC_NR }) rfl
  | @adoptReap g s s' c p hc hpar hh hw hr =>
    have hp : INIT_PROC_NR < p := hs.above_of_gone hc hpar
    have h' : Partition total b (MM.adopt s p) :=
      h.modify (f := fun m => { m with mpParent := INIT_PROC_NR }) rfl
    have hu : ((MM.adopt s p).mproc p).inUse = true := by
      rw [MM.adopt, State.modify_mproc, if_pos rfl]
      exact hs.hanging p hh
    obtain ⟨t, ht, rfl⟩ := release_eq hr
    exact h'.released hlt hp hu ht
  | settle hc => exact h
  | @unpause g s p =>
    obtain ⟨ht, -, -, r, o, hh⟩ := unpause_rest s p
    have hheld : (unpause s p).hist.held = s.hist.held := by rw [hh]
    have hfreed : (unpause s p).hist.freed = s.hist.freed := by rw [hh]
    refine h.congr (fun q => ?_) ht hheld hfreed
    obtain ⟨w, u, he, -⟩ := unpause_mproc s p q
    rw [he]
    rfl
  | wait hW hp hl hs' ho hc => exact h.modify (f := fun m => { m with waiting := true }) rfl
  | pause hW hp hl hs' ho => exact h.modify (f := fun m => { m with paused := true }) rfl
  | @noMem s who t hp hu ha =>
    obtain rfl := h.noMem hlt hb hp hu ha
    exact h
  | @fork s s' who child base t hW hp hl hn hfull ha hne hc hpid =>
    have h' := h.fork hlt hs hp (Mproc.live_eq_true.mp hl).1 ha hne hc hpid
    refine h'.congr (fun q => ?_) (State.reply_table ..) ?_ ?_
    · dsimp only
      rw [State.reply_mproc]
    · rw [State.reply_hist]
    · rw [State.reply_hist]
  | exec hp hl hi hE hm => exact h.exec hlt hp (Mproc.live_eq_true.mp hl).1 hi hE hm

theorem effects {A B : Prop} {W : Proc → Prop} {x y : List Proc × State} (h : Partition total b x.2)
    (hlt : total < 65536) (hb : b.WellFormed) (hs : Sound x.1 x.2)
    (he : Effects A B (Fits b) W x y) : Partition total b y.2 := by
  induction he with
  | refl => exact h
  | tail he₁ he ih => exact ih.effect hlt hb (hs.effects he₁) he

theorem same (h : Partition total b s) (he : SameTable s s') : Partition total b s' := by
  have hh : s'.hist.held = s.hist.held := (congrArg (·.held) he.hist :)
  have hf : s'.hist.freed = s.hist.freed := (congrArg (·.freed) he.hist :)
  exact h.congr (fun q => by rw [he.mproc]) he.table hh hf

/-- Memory is in order once FS has reported. -/
theorem boot {t : HoleTable} {b : Boot} (hb : b.WellFormed) (htot : b.tot < 65536)
    (hlt : total < 65536) (h : boot t total b = some s) : Partition total b s := by
  obtain ⟨base, t', ha, hroom, rfl⟩ := boot_eq h
  obtain ⟨horg, hsize, htext, hdata, hbehind, hcarry⟩ := hb
  have haside : b.tot ≤ total := by
    unfold addClicks subClicks at hroom
    omega
  have hinit : addClicks b.initText b.initData = b.initText + b.initData := addClicks_eq (by omega)
  obtain ⟨t₀, ha₀, hholes⟩ := Holes.alloc_init t hlt (n := b.tot) (by omega) haside
  rw [ha₀] at ha
  obtain ⟨rfl, rfl⟩ := Prod.mk.inj (Option.some.inj ha)
  have hm : ∀ q, (({ mmInit t total with table := t₀ } : State).modify INIT_PROC_NR
      (initSlot b)).mproc q = if q = INIT_PROC_NR then
        initSlot b { blankSlot with inUse := true } else { blankSlot with inUse := q ≤ INIT_PROC_NR } :=
    fun q => State.modify_mproc ..
  have hkept : ∀ c, c < b.tot ↔ Taken (fun _ : Proc => none) (Kept b fun _ => none) c := by
    simp [Taken, Kept]
  refine ⟨hholes.congr hkept, .none _, haside, fun _ _ he => (nomatch he), fun p hp hu => ?_,
    fun _ => ?_, fun p hp hu => ?_, fun _ hf => (nomatch hf)⟩
  · rw [hm, if_neg hp.ne'] at hu
    exact absurd (of_decide_eq_true hu) (not_le.mpr hp)
  · rw [hm, if_pos rfl]
    rfl
  · rw [hm] at hu ⊢
    have he : p = INIT_PROC_NR := by
      by_contra hne
      rw [if_neg hne] at hu
      exact hne (le_antisymm (of_decide_eq_true hu) hp)
    rw [if_pos he]
    have hd : addClicks b.initOrg b.initText = b.initOrg + b.initText := addClicks_eq (by omega)
    have hs : addClicks b.initOrg (b.initText + b.initData) =
        b.initOrg + (b.initText + b.initData) := addClicks_eq (by omega)
    unfold initSlot
    dsimp only
    rw [hinit, hd, hs]
    refine ⟨fun hsep => ?_, ?_, ?_, rfl, rfl, ?_, ?_, ?_, ?_, ?_⟩ <;> dsimp only [blankSlot] <;>
      try omega
    simpa using hsep

end Partition

/-- The regions of the processes above INIT lie apart from each other and from the holes, which
lie apart too; every segment lies inside its region; and what was returned is what had been given
out. The block that INIT returns when it first goes through EXEC had not been given out. -/
structure Partitioned (s : State) : Prop where
  regions : ∀ p q, INIT_PROC_NR < p → INIT_PROC_NR < q → p ≠ q → (s.mproc p).inUse = true →
    (s.mproc q).inUse = true → (s.mproc p).region.Disjoint (s.mproc q).region
  holes : ∃ L F, Lists s.table L F ∧ Apart (L.map s.table.extent) ∧
    ∀ p, INIT_PROC_NR < p → (s.mproc p).inUse = true →
      ∀ e ∈ L.map s.table.extent, (s.mproc p).region.Disjoint e
  inside : ∀ p, INIT_PROC_NR < p → (s.mproc p).inUse = true →
    ∀ seg ∈ [(s.mproc p).segT, (s.mproc p).segD, (s.mproc p).segS],
      (s.mproc p).region.base ≤ seg.memPhys ∧ seg.memPhys + seg.memLen ≤ (s.mproc p).region.stop
  freed : ∀ f ∈ s.hist.freed, f.held = some f.block ∨ f.proc = INIT_PROC_NR ∧ f.held = none

theorem Partition.partitioned {total : Nat} {b : Boot} {s : State} (h : Partition total b s) :
    Partitioned s := by
  obtain ⟨L, F, hl, ha, hc⟩ := h.holes
  refine ⟨fun p q hp hq hne hpu hqu => ?_, ⟨L, F, hl, ha, fun p hp hpu e he c hpc hec => ?_⟩,
    fun p hp hpu => (h.shaped p hp.le hpu).inside, h.freed⟩
  · exact h.parcels.apart p q _ _ (h.held_some hp hpu) (h.held_some hq hqu) hne
  · exact ((hc c).mp ⟨e, he, hec⟩).2 (Or.inl ⟨p, _, h.held_some hp hpu, hpc⟩)

/-- INIT goes through EXEC for the first time only if all the memory that is worked out for it was
set aside. -/
def InitFits (b : Boot) (s : State) (r : Request) : Prop :=
  Loads s r INIT_PROC_NR → s.hist.held INIT_PROC_NR = none → (bootRegion b).stop ≤ b.tot

/-- In every run in which INIT gives back no more than was set aside, memory stays partitioned. -/
theorem memory_partition {t : HoleTable} {totMem : Nat} {b : Boot} (hb : b.WellFormed)
    (htot : b.tot < 65536) (hlt : totMem < 65536) {s : State}
    (hr : Reach serve (fun s r => AsIssued s r ∧ InitFits b s r)
      (fun s => boot t totMem b = some s) s) : Partitioned s := by
  have hinv : Sound [] s ∧ Partition totMem b s := by
    refine hr.invariant (fun s => Sound [] s ∧ Partition totMem b s) (fun s hs => ?_) ?_
    · exact ⟨.boot hs, .boot hb htot hlt hs⟩
    · rintro s r s' ⟨hs, h⟩ ⟨hi, hfit⟩ he
      have hE : ∀ who s₁, SameTable s s₁ → Loads s r who → Fits b s₁ who := by
        rintro who s₁ hsame hload rfl hheld
        rw [(congrArg (·.held) hsame.hist :)] at hheld
        exact hfit hload hheld
      obtain ⟨s₁, s₂, hsame₁, heff, hsame₂⟩ := serve_effects (W := fun _ => True) hs hi (aims_false s r) hE
        (fun _ => trivial) he
      have hs₁ := hs.same hsame₁
      exact ⟨(hs₁.effects heff).same hsame₂, ((h.same hsame₁).effects hlt hb hs₁ heff).same hsame₂⟩
  exact hinv.2.partitioned

/-- A program of ten clicks without separate I & D space. -/
private def tenClicks : ExecCall where
  stackBytes := 16
  execLen := 5
  nameCopy := OK
  fd := 3
  header := some fun i => [0x04100301, 32, 32, 32, 0, 0, 160, 0].getD i 0
  stackCopy := OK
  stMode := 0
  stUid := 0
  stGid := 0

/-- A run in which memory is given out and returned in every way. -/
theorem memory_partition_example :
    ∃ s, ((boot blankHoles 4096 ⟨0, 5, 105, 100⟩).bind fun s => run serve AsIssued s
        [.call 2 .fork, .call 3 (.exec tenClicks), .call 3 (.brk 112 150), .call 2 .wait,
          .call 3 (.exit 7), .call 2 (.exec tenClicks)]) = some s ∧
      s.hist.freed.map Freed.block = [⟨100, 5⟩, ⟨105, 10⟩, ⟨105, 5⟩] ∧ Partitioned s := by
  refine ⟨_, rfl, rfl, ?_⟩
  have hr : Reach serve AsIssued (fun s => boot blankHoles 4096 ⟨0, 5, 105, 100⟩ = some s) _ :=
    Reach.of_run (.init rfl) (l := [.call 2 .fork, .call 3 (.exec tenClicks),
      .call 3 (.brk 112 150), .call 2 .wait, .call 3 (.exit 7), .call 2 (.exec tenClicks)]) rfl
  exact memory_partition ⟨by decide, by decide, by decide, by decide, by decide, by decide⟩
    (by decide) (by decide)
    (hr.mono (fun _ _ hi => ⟨hi, fun _ _ => by decide⟩) fun _ => id)

/-- INIT with separate I & D space and no RAM disk behind it: its first EXEC returns two clicks of
its child. -/
theorem memory_partition_counterexample :
    ∃ (b : Boot) (s : State), b.WellFormed ∧ b.tot < 65536 ∧
      Reach serve AsIssued (fun s => boot blankHoles 4096 b = some s) s ∧ ¬Partitioned s := by
  have hr : Reach serve AsIssued (fun s => boot blankHoles 4096 ⟨2, 3, 105, 100⟩ = some s) _ :=
    Reach.of_run (.init rfl) (l := [.call 2 .fork, .call 2 (.exec tenClicks)]) rfl
  refine ⟨⟨2, 3, 105, 100⟩, _,
    ⟨by decide, by decide, by decide, by decide, by decide, by decide⟩, by decide, hr, fun h => ?_⟩
  obtain ⟨L, F, hl, -, hd⟩ := h.holes
  -- the first hole is at 100, and the child is at 105
  have hhead : Intrusive.Chain _ (some 1) L := hl.used
  cases L with
  | nil => exact (nomatch hhead)
  | cons i L =>
    obtain ⟨he, -⟩ := hhead
    obtain rfl := Option.some.inj he
    exact hd 3 (by decide) rfl ⟨100, 7⟩ (List.mem_cons_self ..) 105 (by decide) (by decide)

end Minix.MM
