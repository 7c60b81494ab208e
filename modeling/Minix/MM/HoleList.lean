import Minix.Lib.Extent
import Minix.Lib.Run
import Minix.MM.Alloc

/-!
# The hole table refines a list of extents

The two lists of the table split its slots. Reading the extents off the hole list
turns `alloc_mem` into first fit and `free_mem` into insertion with merging, so that
what is free is exactly what was never handed out or has been given back, after any
sequence of calls.
-/

namespace Minix.MM

open Intrusive Extents Transition

namespace HoleTable

/-- The extent that an entry describes. -/
def extent (t : HoleTable) (i : HolePtr) : Extent := ⟨(t.hole i).hBase, (t.hole i).hLen⟩

@[simp] theorem extent_base (t : HoleTable) (i : HolePtr) :
    (t.extent i).base = (t.hole i).hBase := rfl

@[simp] theorem extent_len (t : HoleTable) (i : HolePtr) :
    (t.extent i).len = (t.hole i).hLen := rfl

@[simp] theorem setExtent_next (t : HoleTable) (i : HolePtr) (b n : Nat) :
    (t.setExtent i b n).next = t.next := by
  funext j
  by_cases hj : j = i <;> simp [setExtent, set, next, hj]

@[simp] theorem setExtent_extent (t : HoleTable) (i : HolePtr) (b n : Nat) :
    (t.setExtent i b n).extent = Function.update t.extent i ⟨b, n⟩ := by
  funext j
  by_cases hj : j = i <;> simp [setExtent, set, extent, hj]

@[simp] theorem setNext_next (t : HoleTable) (i : HolePtr) (v : Option HolePtr) :
    (t.setNext i v).next = Function.update t.next i v := by
  funext j
  by_cases hj : j = i <;> simp [setNext, set, next, hj]

@[simp] theorem setNext_extent (t : HoleTable) (i : HolePtr) (v : Option HolePtr) :
    (t.setNext i v).extent = t.extent := by
  funext j
  by_cases hj : j = i <;> simp [setNext, set, extent, hj]

@[simp] theorem setExtent_holeHead (t : HoleTable) (i : HolePtr) (b n : Nat) :
    (t.setExtent i b n).holeHead = t.holeHead := rfl

@[simp] theorem setExtent_freeSlots (t : HoleTable) (i : HolePtr) (b n : Nat) :
    (t.setExtent i b n).freeSlots = t.freeSlots := rfl

@[simp] theorem setNext_holeHead (t : HoleTable) (i : HolePtr) (v : Option HolePtr) :
    (t.setNext i v).holeHead = t.holeHead := rfl

@[simp] theorem setNext_freeSlots (t : HoleTable) (i : HolePtr) (v : Option HolePtr) :
    (t.setNext i v).freeSlots = t.freeSlots := rfl

end HoleTable

/-- The hole list is `L`, the list of unused slots is `F`, and each slot of the table is on
exactly one of them. -/
structure Lists (t : HoleTable) (L F : List HolePtr) : Prop where
  used : Chain t.next t.holeHead L
  free : Chain t.next t.freeSlots F
  slots : ∀ i, i ∈ L ↔ i ∉ F

/-- Resizing a hole moves no slot. -/
theorem Lists.setExtent {t : HoleTable} {L F : List HolePtr} (h : Lists t L F) (i : HolePtr)
    (b n : Nat) : Lists (t.setExtent i b n) L F := by
  refine ⟨?_, ?_, h.slots⟩
  · simpa using h.used
  · simpa using h.free

/-- Putting a slot that is on neither list in front of the list of unused slots. -/
theorem Lists.release {t : HoleTable} {L F : List HolePtr} {hp : HolePtr}
    (hu : Chain t.next t.holeHead L) (hf : Chain t.next t.freeSlots F)
    (hslots : ∀ i, i ∈ L ↔ i ∉ hp :: F) (hpF : hp ∉ F) :
    Lists { t.setNext hp t.freeSlots with freeSlots := some hp } L (hp :: F) := by
  have hpL : hp ∉ L := fun hm => (hslots hp).mp hm (List.mem_cons_self ..)
  refine ⟨?_, ?_, hslots⟩
  · show Chain (t.setNext hp t.freeSlots).next t.holeHead L
    rw [HoleTable.setNext_next]
    exact hu.update hpL
  · show Chain (t.setNext hp t.freeSlots).next (some hp) (hp :: F)
    rw [HoleTable.setNext_next]
    exact hf.push hpF

/-- The last record of a list, followed by the rest of it. -/
private theorem eq_nil_or_snoc {α : Type*} (l : List α) : l = [] ∨ ∃ l' a, l = l' ++ [a] := by
  rcases List.eq_nil_or_concat l with rfl | ⟨l', a, rfl⟩
  · exact Or.inl rfl
  · exact Or.inr ⟨l', a, List.concat_eq_append⟩

/-- `del_slot` moves the hole behind `prev_ptr` to the list of unused slots. -/
theorem delSlot_spec {t : HoleTable} {L₁ L₂ F : List HolePtr} {hp : HolePtr}
    (h : Lists t (L₁ ++ hp :: L₂) F) :
    ∃ t', delSlot t L₁.getLast? hp = some t' ∧ Lists t' (L₁ ++ L₂) (hp :: F) ∧
      t'.extent = t.extent := by
  have hnd := h.used.nodup
  simp only [List.nodup_append, List.nodup_cons, List.mem_cons] at hnd
  have hpF : hp ∉ F := (h.slots hp).mp (by simp)
  have hslots : ∀ i, i ∈ L₁ ++ L₂ ↔ i ∉ hp :: F := by
    intro i
    rw [List.mem_cons, not_or, ← h.slots i]
    simp only [List.mem_append, List.mem_cons]
    constructor
    · rintro (hi | hi)
      · exact ⟨fun e => hnd.2.2 i hi hp (Or.inl rfl) e, Or.inl hi⟩
      · exact ⟨fun e => hnd.2.1.1 (e ▸ hi), Or.inr (Or.inr hi)⟩
    · tauto
  rcases eq_nil_or_snoc L₁ with rfl | ⟨L, p, rfl⟩
  · -- the first hole: only the list head changes, `prev_ptr` is not read
    have hhead : t.holeHead = some hp := h.used.head_eq
    refine ⟨_, by rw [delSlot, if_pos hhead, Option.map_some],
      Lists.release (t := { t with holeHead := (t.hole hp).hNext }) h.used.2 h.free hslots hpF, ?_⟩
    exact HoleTable.setNext_extent ..
  · have hpL : hp ∉ L ++ [p] := fun hm => hnd.2.2 hp hm hp (Or.inl rfl) rfl
    have hhead : t.holeHead ≠ some hp := by
      rw [h.used.head_eq]
      intro he
      refine hpL (List.mem_of_mem_head? ?_)
      cases L <;> simpa using he
    have hpp : p ∉ F := (h.slots p).mp (by simp)
    refine ⟨_, by rw [delSlot, if_neg hhead, List.getLast?_concat, Option.map_some, Option.map_some],
      Lists.release (t := t.setNext p (t.hole hp).hNext) ?_ ?_ hslots hpF, ?_⟩
    · rw [HoleTable.setNext_next, List.append_assoc]
      refine Seg.unlink ?_
      simpa using h.used
    · rw [HoleTable.setNext_next]
      exact h.free.update hpp
    · rw [← HoleTable.setNext_extent t p (t.hole hp).hNext]
      exact HoleTable.setNext_extent ..

/-- Every hole of the list ends at or below `total`. -/
def Below (t : HoleTable) (L : List HolePtr) (total : Nat) : Prop :=
  ∀ i ∈ L, (t.extent i).stop ≤ total

/-- Resizing a hole shows in the list of extents at its place. -/
private theorem map_update_extent {t : HoleTable} {L₁ L₂ : List HolePtr} {hp : HolePtr} {e : Extent}
    (hnd : (L₁ ++ hp :: L₂).Nodup) :
    (L₁ ++ hp :: L₂).map (Function.update t.extent hp e) =
      L₁.map t.extent ++ e :: L₂.map t.extent := by
  simp only [List.nodup_append, List.nodup_cons, List.mem_cons] at hnd
  rw [List.map_append, List.map_cons, Function.update_self]
  congr 1
  · refine List.map_congr_left fun i hi => Function.update_of_ne ?_ _ _
    exact hnd.2.2 i hi hp (Or.inl rfl)
  · congr 1
    refine List.map_congr_left fun i hi => Function.update_of_ne ?_ _ _
    exact ne_of_mem_of_not_mem hi hnd.2.1.1

/-- The last hole has nothing to absorb. -/
theorem absorb_last {t : HoleTable} {L₁ F : List HolePtr} {hp : HolePtr}
    (h : Lists t (L₁ ++ [hp]) F) : absorb t hp = some (hp, t) := by
  have hnext : (t.hole hp).hNext = none := h.used.next_eq
  rw [absorb, hnext]

/-- A successor that does not touch the hole is left alone and becomes the next pointer. -/
theorem absorb_apart {t : HoleTable} {L₁ L₂ F : List HolePtr} {hp g : HolePtr} {total : Nat}
    (h : Lists t (L₁ ++ hp :: g :: L₂) F) (hb : Below t (L₁ ++ hp :: g :: L₂) total)
    (hlt : total < 65536) (hne : (t.extent hp).stop ≠ (t.extent g).base) :
    absorb t hp = some (g, t) := by
  have hnext : (t.hole hp).hNext = some g := h.used.next_eq
  have hstop := hb hp (by simp)
  simp only [Extent.stop, HoleTable.extent_base, HoleTable.extent_len] at hstop hne
  rw [absorb, hnext, addClicks, Nat.mod_eq_of_lt (by omega)]
  exact if_neg hne

/-- A successor that touches the hole is absorbed. -/
theorem absorb_touch {t : HoleTable} {L₁ L₂ F : List HolePtr} {hp g : HolePtr} {total : Nat}
    (h : Lists t (L₁ ++ hp :: g :: L₂) F) (hb : Below t (L₁ ++ hp :: g :: L₂) total)
    (hlt : total < 65536) (heq : (t.extent hp).stop = (t.extent g).base) :
    ∃ t', absorb t hp = some (hp, t') ∧ Lists t' (L₁ ++ hp :: L₂) (g :: F) ∧
      t'.extent = Function.update t.extent hp
        ⟨(t.extent hp).base, (t.extent hp).len + (t.extent g).len⟩ := by
  have hnext : (t.hole hp).hNext = some g := h.used.next_eq
  have hstop := hb hp (by simp)
  have hstop' := hb g (by simp)
  simp only [Extent.stop, HoleTable.extent_base, HoleTable.extent_len] at hstop hstop' heq
  have hlen : addClicks (t.hole hp).hLen (t.hole g).hLen = (t.hole hp).hLen + (t.hole g).hLen :=
    Nat.mod_eq_of_lt (by omega)
  have hs := h.setExtent hp (t.hole hp).hBase ((t.hole hp).hLen + (t.hole g).hLen)
  have hsplit : L₁ ++ hp :: g :: L₂ = (L₁ ++ [hp]) ++ g :: L₂ := by simp
  rw [hsplit] at hs
  obtain ⟨t', hdel, hl, he⟩ := delSlot_spec hs
  refine ⟨t', ?_, by simpa using hl, ?_⟩
  · rw [absorb, hnext]
    simp only [hlen]
    rw [addClicks, Nat.mod_eq_of_lt (by omega), if_pos heq]
    rw [List.getLast?_concat] at hdel
    rw [hdel, Option.map_some]
  · rw [he, HoleTable.setExtent_extent]
    rfl

/-- What `merge` makes of a hole and its successors: it is joined with the first of them, and
that one with the rest. -/
def mergeExtents (e : Extent) : List Extent → List Extent
  | [] => [e]
  | g :: l => join e (join g l)

/-- `merge` refines joining. -/
theorem merge_spec {t : HoleTable} {L₁ L₂ F : List HolePtr} {hp : HolePtr} {total : Nat}
    (h : Lists t (L₁ ++ hp :: L₂) F) (hb : Below t (L₁ ++ hp :: L₂) total)
    (hlt : total < 65536) :
    ∃ t' L' F', merge t hp = some t' ∧ Lists t' L' F' ∧
      L'.map t'.extent = L₁.map t.extent ++ mergeExtents (t.extent hp) (L₂.map t.extent) := by
  have hjoin : ∀ {t : HoleTable} {L₁ L₂ F : List HolePtr} {hp : HolePtr},
      Lists t (L₁ ++ hp :: L₂) F → Below t (L₁ ++ hp :: L₂) total →
      ∃ r L' F', absorb t hp = some r ∧ Lists r.2 L' F' ∧
        L'.map r.2.extent = L₁.map t.extent ++ join (t.extent hp) (L₂.map t.extent) := by
    intro t L₁ L₂ F hp h hb
    cases L₂ with
    | nil => exact ⟨_, _, _, absorb_last h, h, by simp [join]⟩
    | cons g L₂ =>
      rw [List.map_cons, join]
      by_cases heq : (t.extent hp).stop = (t.extent g).base
      · obtain ⟨t', ha, hl, he⟩ := absorb_touch h hb hlt heq
        refine ⟨_, _, _, ha, hl, ?_⟩
        rw [if_pos heq, he]
        exact map_update_extent hl.used.nodup
      · refine ⟨_, _, _, absorb_apart h hb hlt heq, h, ?_⟩
        rw [if_neg heq, List.map_append, List.map_cons, List.map_cons]
  cases L₂ with
  | nil =>
    refine ⟨t, _, _, ?_, h, by simp [mergeExtents]⟩
    simp only [merge, absorb_last h, Option.bind_eq_bind, Option.bind_some, Option.pure_def]
  | cons g L₂ =>
    rw [List.map_cons, mergeExtents, join_join]
    by_cases heq : (t.extent hp).stop = (t.extent g).base
    · obtain ⟨t₁, ha, hl, he⟩ := absorb_touch h hb hlt heq
      have hmap := map_update_extent (t := t)
        (e := ⟨(t.extent hp).base, (t.extent hp).len + (t.extent g).len⟩) hl.used.nodup
      rw [← he, List.map_append, List.map_cons] at hmap
      have hb₁ : Below t₁ (L₁ ++ hp :: L₂) total := by
        intro i hi
        rw [he]
        by_cases hip : i = hp
        · have hg := hb g (by simp)
          rw [hip, Function.update_self]
          simp only [Extent.stop] at hg heq ⊢
          omega
        · rw [Function.update_of_ne hip]
          exact hb i (by simp only [List.mem_append, List.mem_cons] at hi ⊢; tauto)
      obtain ⟨r, L', F', ha', hl', he'⟩ := hjoin hl hb₁
      refine ⟨r.2, L', F', ?_, hl', ?_⟩
      · simp only [merge, ha, ha', Option.bind_eq_bind, Option.bind_some, Option.pure_def]
      · rw [he', if_pos heq]
        have hinj := List.append_inj hmap (by simp)
        rw [hinj.1, (List.cons.inj hinj.2).1, (List.cons.inj hinj.2).2]
    · have ha := absorb_apart h hb hlt heq
      have hsplit : L₁ ++ hp :: g :: L₂ = (L₁ ++ [hp]) ++ g :: L₂ := by simp
      rw [hsplit] at h hb
      obtain ⟨r, L', F', ha', hl', he'⟩ := hjoin h hb
      refine ⟨r.2, L', F', ?_, hl', ?_⟩
      · simp only [merge, ha, ha', Option.bind_eq_bind, Option.bind_some, Option.pure_def]
      · rw [he', if_neg heq]
        simp

/-- A list of slots fits the fuel of a walk. -/
theorem Lists.length_lt {t : HoleTable} {L F : List HolePtr} (h : Lists t L F) :
    L.length < NR_HOLES + 1 := by
  have := h.used.length_le
  rw [Fintype.card_fin] at this
  omega

/-- A slot is left as long as not all are on the hole list. -/
theorem Lists.free_cons {t : HoleTable} {L F : List HolePtr} (h : Lists t L F)
    (hlen : L.length < NR_HOLES) : ∃ i F', F = i :: F' := by
  cases F with
  | cons i F => exact ⟨i, F, rfl⟩
  | nil =>
    have hall : List.finRange NR_HOLES ⊆ L := fun i _ => (h.slots i).mpr List.not_mem_nil
    have hle := ((List.nodup_finRange NR_HOLES).subperm hall).length_le
    rw [List.length_finRange] at hle
    omega

theorem Lists.free_nil {t : HoleTable} {L F : List HolePtr} (h : Lists t L F)
    (hlen : NR_HOLES ≤ L.length) : F = [] := by
  cases F with
  | nil => rfl
  | cons i F =>
    have hi : i ∉ L := fun hm => (h.slots i).mp hm (List.mem_cons_self ..)
    have hle := (List.nodup_cons.mpr ⟨hi, h.used.nodup⟩).length_le_card
    rw [List.length_cons, Fintype.card_fin] at hle
    omega

/-- `alloc_mem` is first fit on the extents of the hole list. -/
theorem allocMem_spec {t : HoleTable} {L F : List HolePtr} {total : Nat} (n : Nat)
    (h : Lists t L F) (hb : Below t L total) (hlt : total < 65536) :
    match firstFit n (L.map t.extent) with
    | none => allocMem t n = some (NO_MEM, t)
    | some (b, l) => ∃ t' L' F', allocMem t n = some (b, t') ∧ Lists t' L' F' ∧
        L'.map t'.extent = l := by
  rcases exists_first_split (fun i => decide (n ≤ (t.hole i).hLen)) L with
    hno | ⟨L₁, hp, L₂, rfl, hno, hfit⟩
  · have hnone : firstFit n (L.map t.extent) = none := by
      rw [firstFit_eq_none, List.forall_mem_map]
      intro i hi
      simpa using hno i hi
    rw [hnone]
    simp only [allocMem, search_none none h.used h.length_lt hno]
  · have hfit : n ≤ (t.extent hp).len := by simpa using hfit
    have hno' : ∀ e ∈ L₁.map t.extent, e.len < n := by
      rw [List.forall_mem_map]
      intro i hi
      simpa using hno i hi
    have hfuel : L₁.length < NR_HOLES + 1 := by
      have := h.length_lt
      simp only [List.length_append, List.length_cons] at this
      omega
    have hsearch := search_some none h.used hfuel hno (by simpa using hfit)
    have hbase : addClicks (t.hole hp).hBase n = (t.hole hp).hBase + n := by
      have := hb hp (by simp)
      simp only [Extent.stop, HoleTable.extent_base, HoleTable.extent_len] at this hfit
      exact Nat.mod_eq_of_lt (by omega)
    have hs := h.setExtent hp ((t.hole hp).hBase + n) ((t.hole hp).hLen - n)
    have hsub : (((t.setExtent hp ((t.hole hp).hBase + n) ((t.hole hp).hLen - n)).hole hp).hLen ≠ 0) ↔
        (t.extent hp).len ≠ n := by
      have : ((t.setExtent hp ((t.hole hp).hBase + n) ((t.hole hp).hLen - n)).hole hp).hLen =
          (t.extent hp).len - n := by simp [HoleTable.setExtent, HoleTable.set]
      rw [this]
      omega
    rw [List.map_append, List.map_cons, firstFit_append hno' hfit]
    simp only [allocMem, hsearch, hbase, Option.or_none]
    by_cases hfull : (t.extent hp).len = n
    · obtain ⟨t', hdel, hl, he⟩ := delSlot_spec hs
      refine ⟨t', _, _, ?_, hl, ?_⟩
      · rw [if_neg (by rw [hsub]; exact not_not.mpr hfull), hdel, Option.map_some]
        rfl
      · have hnd := h.used.nodup
        rw [he, HoleTable.setExtent_extent, if_pos hfull]
        have hmap := map_update_extent (t := t)
          (e := ⟨(t.hole hp).hBase + n, (t.hole hp).hLen - n⟩) hnd
        rw [List.map_append, List.map_cons] at hmap
        have hinj := List.append_inj hmap (by simp)
        rw [List.map_append, hinj.1, (List.cons.inj hinj.2).2]
    · refine ⟨_, _, _, ?_, hs, ?_⟩
      · rw [if_pos (hsub.mpr hfull)]
        rfl
      · rw [HoleTable.setExtent_extent, if_neg hfull]
        exact map_update_extent h.used.nodup

/-- The unused slot that `free_mem` takes: it holds the block and is on neither list. -/
theorem Lists.take {t : HoleTable} {L F : List HolePtr} {s : HolePtr} (h : Lists t L (s :: F))
    (b n : Nat) :
    let t' := { t.setExtent s b n with freeSlots := (t.hole s).hNext }
    Chain t'.next t'.holeHead L ∧ Chain t'.next t'.freeSlots F ∧ s ∉ L ∧ s ∉ F ∧
      t'.extent = Function.update t.extent s ⟨b, n⟩ := by
  intro t'
  have hnext : t'.next = t.next := HoleTable.setExtent_next t s b n
  have hsL : s ∉ L := fun hm => (h.slots s).mp hm (List.mem_cons_self ..)
  have hsF : s ∉ F := (List.nodup_cons.mp h.free.nodup).1
  refine ⟨?_, ?_, hsL, hsF, HoleTable.setExtent_extent t s b n⟩
  · rw [hnext]
    exact h.used
  · rw [hnext]
    exact h.free.2

/-- After a slot has moved to the hole list, the lists again split the table. -/
private theorem slots_insert (L₁ L₂ : List HolePtr) {F : List HolePtr} {s : HolePtr}
    (h : ∀ i, i ∈ L₁ ++ L₂ ↔ i ∉ s :: F) (hsF : s ∉ F) (i : HolePtr) :
    i ∈ L₁ ++ s :: L₂ ↔ i ∉ F := by
  have hi := h i
  rw [List.mem_cons, not_or, List.mem_append] at hi
  rw [List.mem_append, List.mem_cons]
  by_cases his : i = s
  · rw [his]
    exact ⟨fun _ => hsF, fun _ => Or.inr (Or.inl rfl)⟩
  · tauto

/-- Linking the slot in front of the hole list. -/
theorem lists_insertFront {t : HoleTable} {L F : List HolePtr} {s : HolePtr}
    (hu : Chain t.next t.holeHead L) (hf : Chain t.next t.freeSlots F)
    (hslots : ∀ i, i ∈ L ↔ i ∉ s :: F) (hsF : s ∉ F) :
    Lists { t.setNext s t.holeHead with holeHead := some s } (s :: L) F := by
  have hsL : s ∉ L := fun hm => (hslots s).mp hm (List.mem_cons_self ..)
  refine ⟨?_, ?_, slots_insert [] L hslots hsF⟩
  · show Chain (t.setNext s t.holeHead).next (some s) (s :: L)
    rw [HoleTable.setNext_next]
    exact hu.push hsL
  · show Chain (t.setNext s t.holeHead).next t.freeSlots F
    rw [HoleTable.setNext_next]
    exact hf.update hsF

/-- Linking the slot behind a hole. -/
theorem lists_insertAfter {t : HoleTable} {L₁ L₂ F : List HolePtr} {p s : HolePtr}
    (hu : Chain t.next t.holeHead (L₁ ++ p :: L₂)) (hf : Chain t.next t.freeSlots F)
    (hslots : ∀ i, i ∈ L₁ ++ p :: L₂ ↔ i ∉ s :: F) (hsF : s ∉ F) :
    Lists ((t.setNext s (t.hole p).hNext).setNext p (some s)) (L₁ ++ p :: s :: L₂) F := by
  have hsL : s ∉ L₁ ++ p :: L₂ := fun hm => (hslots s).mp hm (List.mem_cons_self ..)
  have hpF : p ∉ F := fun hm => (hslots p).mp (by simp) (List.mem_cons_of_mem _ hm)
  refine ⟨?_, ?_, fun i => ?_⟩
  · rw [HoleTable.setNext_next, HoleTable.setNext_next]
    exact hu.insertAfter hsL
  · rw [HoleTable.setNext_next, HoleTable.setNext_next]
    exact (hf.update hsF).update hpF
  · have hi := slots_insert (L₁ ++ [p]) L₂ (by simpa using hslots) hsF i
    simpa using hi

/-- Linking the entry of a block that lies below all holes, and merging it with the first two. -/
theorem linkHole_front {t : HoleTable} {L F : List HolePtr} {s : HolePtr} {b n total : Nat}
    (hu : Chain t.next t.holeHead L) (hf : Chain t.next t.freeSlots F)
    (hslots : ∀ i, i ∈ L ↔ i ∉ s :: F) (hsF : s ∉ F) (hfront : goesOnFront t b = true)
    (hb : ∀ i, i = s ∨ i ∈ L → (t.extent i).stop ≤ total) (hlt : total < 65536)
    (hs : t.extent s = ⟨b, n⟩) :
    ∃ t' L' F', linkHole t s b = some t' ∧ Lists t' L' F' ∧
      L'.map t'.extent = mergeExtents ⟨b, n⟩ (L.map t.extent) := by
  have hl : Lists _ ([] ++ s :: L) F := lists_insertFront hu hf hslots hsF
  have hext : HoleTable.extent { t.setNext s t.holeHead with holeHead := some s } = t.extent :=
    HoleTable.setNext_extent t s t.holeHead
  have hbl : Below { t.setNext s t.holeHead with holeHead := some s } (s :: L) total := by
    intro i hi
    rw [hext]
    exact hb i (List.mem_cons.mp hi)
  obtain ⟨t', L', F', hm, hl', he⟩ := merge_spec hl hbl hlt
  refine ⟨t', L', F', ?_, hl', ?_⟩
  · rw [linkHole, hfront, if_pos rfl, hm]
  · rw [he, hext, hs, List.map_nil, List.nil_append]

/-- Linking a block's entry by address and merging is insertion into the list of extents. -/
theorem linkHole_spec {t : HoleTable} {L F : List HolePtr} {s : HolePtr} {b n total : Nat}
    (hu : Chain t.next t.holeHead L) (hf : Chain t.next t.freeSlots F)
    (hslots : ∀ i, i ∈ L ↔ i ∉ s :: F) (hsF : s ∉ F) (ha : Apart (L.map t.extent))
    (hb : ∀ i, i = s ∨ i ∈ L → (t.extent i).stop ≤ total) (hlt : total < 65536)
    (hs : t.extent s = ⟨b, n⟩) :
    ∃ t' L' F', linkHole t s b = some t' ∧ Lists t' L' F' ∧
      L'.map t'.extent = give b n (L.map t.extent) := by
  cases hfront : goesOnFront t b with
  | true =>
    obtain ⟨t', L', F', hm, hl', he⟩ := linkHole_front hu hf hslots hsF hfront hb hlt hs
    refine ⟨t', L', F', hm, hl', he.trans ?_⟩
    cases L with
    | nil => rfl
    | cons f L =>
      have hle : b ≤ (t.extent f).base := by
        rw [goesOnFront, hu.1] at hfront
        simpa using hfront
      rw [List.map_cons] at ha ⊢
      rw [give, if_pos hle, mergeExtents, ha.join_eq]
  | false =>
    obtain ⟨L₁, L₂, rfl, hlow, hhigh⟩ := exists_split (fun i => decide (b ≤ (t.hole i).hBase)) L
    -- the first hole lies below the block, so the walk passes at least one
    rcases eq_nil_or_snoc L₁ with rfl | ⟨L₁, p, rfl⟩
    · rw [goesOnFront, hu.head_eq, List.nil_append] at hfront
      cases L₂ with
      | nil => exact absurd hfront (by simp)
      | cons f L₂ =>
        have := hhigh f rfl
        exact absurd hfront (by simpa using this)
    · have hlen := hu.length_le
      rw [Fintype.card_fin] at hlen
      have hsearch := search_split none hu (Nat.lt_succ_of_le hlen) hlow hhigh
      rw [List.append_assoc, List.singleton_append] at hu ha hb hslots
      have hl := lists_insertAfter hu hf hslots hsF
      generalize ht : (t.setNext s (t.hole p).hNext).setNext p (some s) = t₁ at hl
      have hext : t₁.extent = t.extent := by
        rw [← ht, HoleTable.setNext_extent, HoleTable.setNext_extent]
      have hbl : Below t₁ (L₁ ++ p :: s :: L₂) total := by
        intro i hi
        rw [hext]
        refine hb i ?_
        simp only [List.mem_append, List.mem_cons] at hi ⊢
        tauto
      obtain ⟨t', L', F', hm, hl', he⟩ := merge_spec hl hbl hlt
      refine ⟨t', L', F', ?_, hl', ?_⟩
      · rw [linkHole, hfront, if_neg Bool.false_ne_true, hsearch, List.getLast?_concat]
        simp only [Option.or_none, ht, hm]
      · have hpb : (t.extent p).base < b := by
          simpa using hlow p (by simp)
        have hge : ∀ f ∈ L₂.map t.extent, b ≤ f.base := by
          cases L₂ with
          | nil => simp
          | cons f L₂ =>
            have hfb : b ≤ (t.extent f).base := by simpa using hhigh f rfl
            simp only [List.map_append, List.map_cons] at ha ⊢
            have hgap := (apart_cons.mp (apart_cons.mp ha.of_append).2.2).2.1
            refine List.forall_mem_cons.mpr ⟨hfb, fun g hg => ?_⟩
            have := hgap g hg
            simp only [Extent.stop] at this
            omega
        rw [List.map_append, List.map_cons] at ha
        rw [List.append_assoc, List.singleton_append, List.map_append, List.map_cons]
        rw [ha.give_append hpb hge, he, hext, List.map_cons, mergeExtents, hs]

/-- What `free_mem` does when a slot is left: the slot holds the block, and is linked. -/
theorem freeMem_take {t : HoleTable} {L F : List HolePtr} {s : HolePtr} {b n total : Nat}
    (h : Lists t L (s :: F)) (hb : Below t L total) (hbn : b + n ≤ total) :
    ∃ t₁ : HoleTable, freeMem t b n = linkHole t₁ s b ∧ Chain t₁.next t₁.holeHead L ∧
      Chain t₁.next t₁.freeSlots F ∧ s ∉ F ∧ t₁.extent s = ⟨b, n⟩ ∧
      t₁.holeHead = t.holeHead ∧ L.map t₁.extent = L.map t.extent ∧
      ∀ i, i = s ∨ i ∈ L → (t₁.extent i).stop ≤ total := by
  have hs : t.freeSlots = some s := h.free.1
  obtain ⟨hu, hf, hsL, hsF, hext⟩ := h.take b n
  have hnext : ((t.setExtent s b n).hole s).hNext = (t.hole s).hNext := by
    simp [HoleTable.setExtent, HoleTable.set]
  have hfree : freeMem t b n =
      linkHole { t.setExtent s b n with freeSlots := (t.hole s).hNext } s b := by
    simp only [freeMem, hs]
    rw [hnext]
  refine ⟨_, hfree, hu, hf, hsF, ?_, rfl, ?_, ?_⟩
  · rw [hext, Function.update_self]
  · -- the holes have kept their extents
    refine List.map_congr_left fun i hi => ?_
    rw [hext, Function.update_of_ne (ne_of_mem_of_not_mem hi hsL)]
  · rintro i (rfl | hi)
    · rwa [hext, Function.update_self]
    · rw [hext, Function.update_of_ne (ne_of_mem_of_not_mem hi hsL)]
      exact hb i hi

/-- `free_mem` is insertion with merging on the extents of the hole list; it panics when no
slot is left. -/
theorem freeMem_spec {t : HoleTable} {L F : List HolePtr} {b n total : Nat} (h : Lists t L F)
    (ha : Apart (L.map t.extent)) (hb : Below t L total) (hlt : total < 65536)
    (hbn : b + n ≤ total) :
    (F = [] ∧ freeMem t b n = none) ∨
      ∃ t' L' F', freeMem t b n = some t' ∧ Lists t' L' F' ∧
        L'.map t'.extent = give b n (L.map t.extent) := by
  cases F with
  | nil =>
    have hnil : t.freeSlots = none := h.free
    exact Or.inl ⟨rfl, by rw [freeMem, hnil]⟩
  | cons s F =>
    refine Or.inr ?_
    obtain ⟨t₁, hfree, hu, hf, hsF, hnew, -, hmap, hbl⟩ := freeMem_take h hb hbn
    rw [hfree, ← hmap]
    rw [← hmap] at ha
    exact linkHole_spec hu hf h.slots hsF ha hbl hlt hnew

/-- A block that lies below all holes goes in front of them, whether or not they lie apart. -/
theorem freeMem_front {t : HoleTable} {L F : List HolePtr} {s : HolePtr} {b n total : Nat}
    (h : Lists t L (s :: F)) (hb : Below t L total) (hlt : total < 65536) (hbn : b + n ≤ total)
    (hfront : goesOnFront t b = true) :
    ∃ t' L' F', freeMem t b n = some t' ∧ Lists t' L' F' ∧
      L'.map t'.extent = mergeExtents ⟨b, n⟩ (L.map t.extent) := by
  obtain ⟨t₁, hfree, hu, hf, hsF, hnew, hhead, hmap, hbl⟩ := freeMem_take h hb hbn
  rw [hfree, ← hmap]
  refine linkHole_front hu hf h.slots hsF ?_ hbl hlt hnew
  cases L with
  | nil =>
    have hnil : t₁.holeHead = none := hu
    unfold goesOnFront
    rw [hnil]
    rfl
  | cons i L =>
    have hi : (t₁.hole i).hBase = (t.hole i).hBase :=
      congrArg Extent.base (List.cons.inj hmap).1
    unfold goesOnFront at hfront ⊢
    rw [← hhead, hu.1, Option.all_some] at hfront
    rw [hu.1, Option.all_some, hi]
    exact hfront

end Minix.MM
