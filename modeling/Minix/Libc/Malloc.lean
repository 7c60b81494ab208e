import Mathlib.Algebra.Order.Group.Nat
import Mathlib.Data.List.Perm.Basic
import Mathlib.Logic.Function.Basic
import Minix.Lib.Literals

/-!
# The heap

The heap is cut into blocks. Each starts with a link to the next one, whose low bit says that the
block is in use, and the last link, at `top`, is 0. Free neighbours are put together when a block is
looked for, and `brk` is called when there is none.

Pointers and unsigned integers have 16 bits. Whether `brk` succeeds is an input.
-/

namespace Minix.Libc

open Function

/-- The memory of a process. -/
abbrev Mem := Nat → UInt8

/-- `NEXT(p)`. -/
def NEXT (mem : Mem) (p : Nat) : Nat := (mem p).toNat + (mem ((p + 1) % 65536)).toNat * 256

/-- `NEXT(p) = q`. -/
def setNext (p q : Nat) (mem : Mem) : Mem :=
  update (update mem p (UInt8.ofNat q)) ((p + 1) % 65536) (UInt8.ofNat (q / 256))

/-- `x & BUSY`. -/
def isBusy (x : Nat) : Bool := x % 2 = 1

/-- `x | BUSY`. -/
def setBusy (x : Nat) : Nat := x / 2 * 2 + 1

/-- `x & ~BUSY`. -/
def clearBusy (x : Nat) : Nat := x / 2 * 2

/-- `ALIGN(x, a)`. -/
def ALIGN (x a : Nat) : Nat := (x + (a - 1)) % 65536 / a * a

/-- The static variables, with the memory, and the break that `sbrk` knows of. -/
structure Heap where
  mem : Mem
  bottom : Nat
  top : Nat
  brksize : Nat

/-- The loop of `grow`: the end of the chain. The fuel runs out unless there is one. -/
def chainEnd (mem : Mem) : Nat → Nat → Option Nat
  | 0, _ => none
  | n + 1, p => if NEXT mem p = 0 then some p else chainEnd mem n (clearBusy (NEXT mem p))

/-- The links that a loop can follow before it comes back to one. -/
abbrev LINKS : Nat := 65536

/-- Where the heap is to end, when a block of this length is to fit. -/
def newTop (top len : Nat) : Nat := (ALIGN ((top + 2 + len) % 65536) 16 + 65534) % 65536

/-- More memory is asked for; `ok` is the answer of `brk`. -/
def grow (ok : Bool) (len : Nat) (h : Heap) : Option (Bool × Heap) :=
  let p := newTop h.top len
  if p < h.top ∨ ¬ok then some (false, h)
  else
    (chainEnd h.mem LINKS h.bottom).map fun last =>
      (true, { h with mem := setNext p 0 (setNext last p h.mem), top := p, brksize := p })

/-- The inner loop: free blocks after `next` are put together. -/
def merge (mem : Mem) : Nat → Nat → Option Nat
  | 0, _ => none
  | n + 1, next =>
    if NEXT mem next ≠ 0 ∧ ¬isBusy (NEXT mem next) then merge mem n (NEXT mem next) else some next

/-- The outer loop: a free block, with its end, that is large enough, if there is one. -/
def search (mem : Mem) (len : Nat) : Nat → Nat → Option (Option (Nat × Nat))
  | 0, _ => none
  | n + 1, p =>
    if NEXT mem p = 0 then some none
    else if isBusy (NEXT mem p) then search mem len n (clearBusy (NEXT mem p))
    else
      (merge mem LINKS (NEXT mem p)).bind fun next =>
        if (next + 65536 - p) % 65536 ≥ len then some (some (p, next)) else search mem len n next

/-- A block is cut off a free one, which may be too big. -/
def carve (p next len : Nat) (mem : Mem) : Mem :=
  let new := (p + len) % 65536
  setNext p (setBusy new) (if new < next then setNext new next mem else mem)

/-- The length of a block, with its link. -/
def blockLen (size : Nat) : Nat := (ALIGN size 2 + 2) % 65536

/-- The first call finds no heap; `ok` is the answer of `brk`, and `(char *) -1` is what `sbrk`
returns when it fails. -/
def openHeap (ok : Bool) (h : Heap) : Heap :=
  if h.bottom ≠ 0 then h
  else
    let p := if ok then h.brksize else 65535
    { mem := setNext p 0 h.mem
      bottom := p
      top := p
      brksize := if ok then (h.brksize + 2) % 65536 else h.brksize }

/-- `malloc`, when `brk` answers `ok k`, `ok (k + 1)` and so on. The fuel runs out unless there is
an end to its calls of itself, and to its loops. -/
def mallocFrom (ok : Nat → Bool) : Nat → Nat → Nat → Heap → Option (Nat × Heap)
  | 0, _, _, _ => none
  | fuel + 1, k, size, h =>
    let len := blockLen size
    let k' := if h.bottom ≠ 0 then k else k + 1
    let h := openHeap (ok k) h
    (search h.mem len LINKS h.bottom).bind fun
      | some (p, next) => some ((p + 2) % 65536, { h with mem := carve p next len h.mem })
      | none => (grow (ok k') len h).bind fun
        | (true, h) => mallocFrom ok fuel (k' + 1) size h
        | (false, h) => some (0, h)

/-- Find a free block that is large enough, or make the heap grow. -/
def malloc (ok : Nat → Bool) (fuel size : Nat) (h : Heap) : Option (Nat × Heap) :=
  mallocFrom ok fuel 0 size h

/-- Copy a block of data. -/
def bcopy : Nat → Nat → Nat → Mem → Mem
  | _, _, 0, mem => mem
  | old, new, n + 1, mem =>
    bcopy ((old + 1) % 65536) ((new + 1) % 65536) n (update mem new (mem old))

/-- Enlarge a block by the free space behind it, or move it. -/
def realloc (ok : Nat → Bool) (fuel old size : Nat) (h : Heap) : Option (Nat × Heap) :=
  let p := (old + 65534) % 65536
  let len := blockLen size
  let next := clearBusy (NEXT h.mem p)
  let n := (next + 65536 - old) % 65536
  (merge h.mem LINKS next).bind fun next =>
    if (next + 65536 - p) % 65536 ≥ len then
      let new := (p + len) % 65536
      some (old, { h with
        mem := if new < next then setNext p (setBusy new) (setNext new next h.mem)
          else setNext p (setBusy next) h.mem })
    else
      (malloc ok fuel size h).map fun
        | (new, h) =>
          if new = 0 then (0, h)
          else
            let mem := bcopy old new n h.mem
            (new, { h with mem := setNext p (clearBusy (NEXT mem p)) mem })

/-- Mark a block as free. -/
def free (p : Nat) (h : Heap) : Heap :=
  let q := (p + 65534) % 65536
  { h with mem := setNext q (clearBusy (NEXT h.mem q)) h.mem }

/-! ## Links -/

section Links

variable {mem mem' : Mem} {p q r x : Nat}

/-- A link is read from its two bytes. -/
theorem NEXT_congr (h : mem' p = mem p) (h' : mem' ((p + 1) % 65536) = mem ((p + 1) % 65536)) :
    NEXT mem' p = NEXT mem p := by
  unfold NEXT
  rw [h, h']

/-- A link that has been stored is read. -/
theorem NEXT_setNext (hq : q < 65536) : NEXT (setNext p q mem) p = q := by
  have hne : p ≠ (p + 1) % 65536 := by omega
  unfold NEXT setNext
  rw [update_self, update_of_ne hne, update_self, UInt8.toNat_ofNat', UInt8.toNat_ofNat']
  omega

/-- The other bytes are left alone. -/
theorem setNext_of_ne (h : x ≠ p) (h' : x ≠ (p + 1) % 65536) : setNext p q mem x = mem x := by
  unfold setNext
  rw [update_of_ne h', update_of_ne h]

/-- An even link leads on from a free block. -/
theorem isBusy_even (h : q % 2 = 0) : isBusy q = false := by
  unfold isBusy
  exact decide_eq_false (by omega)

/-- An odd one from a busy block. -/
theorem isBusy_succ (h : q % 2 = 0) : isBusy (q + 1) = true := by
  unfold isBusy
  exact decide_eq_true (by omega)

/-- The mark of a free block is clear. -/
theorem clearBusy_even (h : q % 2 = 0) : clearBusy q = q := by
  unfold clearBusy
  omega

/-- The mark of a busy block is cleared. -/
theorem clearBusy_succ (h : q % 2 = 0) : clearBusy (q + 1) = q := by
  unfold clearBusy
  omega

/-- The mark is set. -/
theorem setBusy_even (h : q % 2 = 0) : setBusy q = q + 1 := by
  unfold setBusy
  omega

/-- The length of a block is that of what is asked for, with a link, unless it wraps around. -/
theorem blockLen_spec {size : Nat} (h : size ≤ 65532) : blockLen size % 2 = 0 ∧
    size + 2 ≤ blockLen size ∧ blockLen size ≤ size + 3 ∧ blockLen size < 65536 := by
  unfold blockLen ALIGN
  omega

end Links

/-! ## Pieces of the chain -/

/-- A block that is in use: where it is, the size that was asked for, and what is in it. -/
structure Block where
  ptr : Nat
  size : Nat
  data : Nat → UInt8

/-- The contents of a block lie behind the link at `p` and before the next one at `r`. -/
structure Holds (mem : Mem) (p r : Nat) (b : Block) : Prop where
  ptr : b.ptr = p + 2
  fits : b.ptr + b.size ≤ r
  data : ∀ i < b.size, mem (b.ptr + i) = b.data i

/-- The links lead from `p` to `q` over some blocks, each with its contents when it is in use, and
with the place of the next link. -/
def Seg (mem : Mem) : Nat → List (Option Block × Nat) → Nat → Prop
  | p, [], q => p = q
  | p, (o, r) :: l, q =>
    NEXT mem p = (if o.isSome then r + 1 else r) ∧ r % 2 = 0 ∧ p + 2 ≤ r ∧ r < 65536 ∧
      (∀ b ∈ o, Holds mem p r b) ∧ Seg mem r l q

/-- The blocks that are in use. -/
def owned (l : List (Option Block × Nat)) : List Block := l.filterMap Prod.fst

section Segments

variable {mem mem' : Mem} {p q r : Nat} {l l₁ l₂ : List (Option Block × Nat)} {b : Block}

/-- The blocks of a stretch take up their links at least. -/
theorem Seg.le (h : Seg mem p l q) : p + 2 * l.length ≤ q := by
  induction l generalizing p with
  | nil => exact (Nat.add_zero p).trans_le (Nat.le_of_eq h)
  | cons x l ih =>
    obtain ⟨-, -, hle, -, -, hrest⟩ := h
    have := ih hrest
    rw [List.length_cons]
    omega

/-- A stretch ends within the address space. -/
theorem Seg.end_lt (h : Seg mem p l q) (hp : p < 65536) : q < 65536 := by
  induction l generalizing p with
  | nil => exact h ▸ hp
  | cons x l ih =>
    obtain ⟨-, -, -, hlt, -, hrest⟩ := h
    exact ih hrest hlt

/-- It ends at an even address. -/
theorem Seg.end_even (h : Seg mem p l q) (hp : p % 2 = 0) : q % 2 = 0 := by
  induction l generalizing p with
  | nil => exact h ▸ hp
  | cons x l ih =>
    obtain ⟨-, heven, -, -, -, hrest⟩ := h
    exact ih hrest heven

/-- Two stretches one after the other. -/
theorem seg_append : Seg mem p (l₁ ++ l₂) q ↔ ∃ r, Seg mem p l₁ r ∧ Seg mem r l₂ q := by
  induction l₁ generalizing p with
  | nil => exact ⟨fun h => ⟨p, rfl, h⟩, fun ⟨_, hr, h⟩ => hr ▸ h⟩
  | cons x l₁ ih =>
    constructor
    · rintro ⟨hn, he, hle, hlt, hb, hrest⟩
      obtain ⟨r, h₁, h₂⟩ := ih.mp hrest
      exact ⟨r, ⟨hn, he, hle, hlt, hb, h₁⟩, h₂⟩
    · rintro ⟨r, ⟨hn, he, hle, hlt, hb, h₁⟩, h₂⟩
      exact ⟨hn, he, hle, hlt, hb, ih.mpr ⟨r, h₁, h₂⟩⟩

/-- A piece of the chain is read from the bytes between its ends. -/
theorem Seg.congr (hmem : ∀ x, p ≤ x → x < q → mem' x = mem x) (h : Seg mem p l q) :
    Seg mem' p l q := by
  induction l generalizing p with
  | nil => exact h
  | cons x l ih =>
    obtain ⟨hn, he, hle, hlt, hb, hrest⟩ := h
    have hq := hrest.le
    have hsucc : (p + 1) % 65536 = p + 1 := by omega
    refine ⟨?_, he, hle, hlt, fun b hx => ?_, ih (fun x hx hx' => hmem x (by omega) hx') hrest⟩
    · exact (NEXT_congr (hmem p le_rfl (by omega))
        (by rw [hsucc]; exact hmem _ (by omega) (by omega))).trans hn
    · obtain ⟨hptr, hfits, hdata⟩ := hb b hx
      exact ⟨hptr, hfits, fun i hi => (hmem _ (by omega) (by omega)).trans (hdata i hi)⟩

/-- The blocks of both are owned. -/
theorem owned_append (l₁ l₂ : List (Option Block × Nat)) :
    owned (l₁ ++ l₂) = owned l₁ ++ owned l₂ := List.filterMap_append

/-- Nothing is owned in a free stretch. -/
theorem owned_free (h : ∀ x ∈ l, x.1 = none) : owned l = [] :=
  List.filterMap_eq_nil_iff.mpr h

/-- The blocks in use lie between the ends, one after the other. -/
theorem Seg.owned_bounds (h : Seg mem p l q) : ∀ b ∈ owned l, p + 2 ≤ b.ptr ∧ b.ptr + b.size ≤ q ∧
    ∀ i < b.size, mem (b.ptr + i) = b.data i := by
  induction l generalizing p with
  | nil => exact fun b hb => absurd hb List.not_mem_nil
  | cons x l ih =>
    obtain ⟨o, r⟩ := x
    obtain ⟨-, -, hle, -, hb, hrest⟩ := h
    have hq := hrest.le
    intro b hmem
    have hcases : b ∈ o ∨ b ∈ owned l := by
      cases o with
      | none => exact Or.inr hmem
      | some c =>
        have hmem : b ∈ c :: owned l := hmem
        exact (List.mem_cons.mp hmem).imp_left fun h => congrArg some h.symm
    rcases hcases with hbo | hbl
    · obtain ⟨hptr, hfits, hdata⟩ := hb b hbo
      exact ⟨by omega, by omega, hdata⟩
    · obtain ⟨hptr, hfits, hdata⟩ := ih hrest b hbl
      exact ⟨by omega, hfits, hdata⟩

/-- Two blocks in use do not overlap, not even with their links. -/
def Apart (x y : Block) : Prop := x.ptr + x.size + 2 ≤ y.ptr ∨ y.ptr + y.size + 2 ≤ x.ptr

/-- Being apart is symmetric. -/
theorem Apart.symm {x y : Block} (h : Apart x y) : Apart y x := Or.symm h

/-- The blocks of a stretch are apart. -/
theorem Seg.owned_apart (h : Seg mem p l q) : (owned l).Pairwise Apart := by
  induction l generalizing p with
  | nil => exact List.Pairwise.nil
  | cons x l ih =>
    obtain ⟨o, r⟩ := x
    obtain ⟨-, -, -, -, hb, hrest⟩ := h
    cases o with
    | none => exact ih hrest
    | some c =>
      refine List.Pairwise.cons (fun b hbl => ?_) (ih hrest)
      obtain ⟨-, hfits, -⟩ := hb c rfl
      have hbound := hrest.owned_bounds b hbl
      exact Or.inl (by omega)

/-- A block in use is a piece of the chain. -/
theorem owned_split (hb : b ∈ owned l) : ∃ l₁ l₂ r, l = l₁ ++ (some b, r) :: l₂ := by
  obtain ⟨⟨o, r⟩, hx, ho⟩ := List.mem_filterMap.mp hb
  obtain ⟨l₁, l₂, rfl⟩ := List.append_of_mem hx
  exact ⟨l₁, l₂, r, by rw [← ho]⟩

/-! ## The loops -/

/-- The link of a block. -/
theorem Seg.link {o : Option Block} (h : Seg mem p ((o, r) :: l) q) :
    NEXT mem p ≠ 0 ∧ isBusy (NEXT mem p) = o.isSome ∧ clearBusy (NEXT mem p) = r := by
  obtain ⟨hn, he, hle, -⟩ := h
  cases o with
  | none =>
    have hn : NEXT mem p = r := hn
    rw [hn]
    exact ⟨by omega, isBusy_even he, clearBusy_even he⟩
  | some c =>
    have hn : NEXT mem p = r + 1 := hn
    rw [hn]
    exact ⟨by omega, isBusy_succ he, clearBusy_succ he⟩

/-- The link of a free block leads to the next one. -/
theorem Seg.link_free (h : Seg mem p ((none, r) :: l) q) : NEXT mem p = r := h.1

/-- The end of the chain is found. -/
theorem chainEnd_spec {n : Nat} (h : Seg mem p l q) (hend : NEXT mem q = 0) (hn : l.length < n) :
    chainEnd mem n p = some q := by
  induction l generalizing p n with
  | nil =>
    obtain ⟨n, rfl⟩ := Nat.exists_eq_add_of_lt hn
    have hpq : p = q := h
    subst hpq
    exact if_pos hend
  | cons x l ih =>
    obtain ⟨o, r⟩ := x
    obtain ⟨n, rfl⟩ : ∃ k, n = k + 1 := ⟨n - 1, by omega⟩
    obtain ⟨hne, -, hclear⟩ := h.link
    rw [chainEnd, if_neg hne, hclear]
    exact ih h.2.2.2.2.2 (by rw [List.length_cons] at hn; omega)

/-- Free blocks are put together up to one in use, or the end. -/
theorem merge_spec {n : Nat} (h : Seg mem p l q) (hend : NEXT mem q = 0) (hn : l.length < n) :
    ∃ l₁ l₂ r, l = l₁ ++ l₂ ∧ (∀ x ∈ l₁, x.1 = none) ∧ Seg mem p l₁ r ∧ Seg mem r l₂ q ∧
      merge mem n p = some r := by
  induction l generalizing p n with
  | nil =>
    obtain ⟨n, rfl⟩ : ∃ k, n = k + 1 := ⟨n - 1, by rw [List.length_nil] at hn; omega⟩
    have hpq : p = q := h
    subst hpq
    exact ⟨[], [], p, rfl, fun x hx => absurd hx List.not_mem_nil, rfl, rfl,
      if_neg fun h => h.1 hend⟩
  | cons x l ih =>
    obtain ⟨o, r⟩ := x
    obtain ⟨n, rfl⟩ : ∃ k, n = k + 1 := ⟨n - 1, by omega⟩
    obtain ⟨hne, hbusy, -⟩ := h.link
    cases o with
    | some c =>
      refine ⟨[], (some c, r) :: l, p, rfl, fun x hx => absurd hx List.not_mem_nil, rfl, h, ?_⟩
      exact if_neg fun h => h.2 hbusy
    | none =>
      have hn : l.length < n := by
        rw [List.length_cons] at hn
        omega
      obtain ⟨l₁, l₂, s, rfl, hfree, h₁, h₂, hm⟩ := ih h.2.2.2.2.2 hn
      refine ⟨(none, r) :: l₁, l₂, s, rfl, ?_, ?_, h₂, ?_⟩
      · intro x hx
        rcases List.mem_cons.mp hx with rfl | hx
        · rfl
        · exact hfree x hx
      · obtain ⟨hnext, he, hle, hlt, hb, -⟩ := h
        exact ⟨hnext, he, hle, hlt, hb, h₁⟩
      · rw [merge, if_pos ⟨hne, by rw [hbusy]; decide⟩, h.link_free]
        exact hm

/-- A large enough piece of free blocks, in a chain. -/
structure Room (mem : Mem) (len p q : Nat) (l : List (Option Block × Nat)) (a r : Nat) : Prop where
  split : ∃ l₁ l₂ l₃, l = l₁ ++ (l₂ ++ l₃) ∧ Seg mem p l₁ a ∧ Seg mem a l₂ r ∧ Seg mem r l₃ q ∧
    ∀ x ∈ l₂, x.1 = none
  large : a + len ≤ r
  proper : a < r

/-- Room in a part of a chain is room in the chain. -/
theorem Room.prepend {len a s : Nat} (h₁ : Seg mem p l₁ r) (h : Room mem len r q l₂ a s) :
    Room mem len p q (l₁ ++ l₂) a s := by
  obtain ⟨⟨k₁, k₂, k₃, rfl, h1, h2, h3, hfree⟩, hlarge, hproper⟩ := h
  exact ⟨⟨l₁ ++ k₁, k₂, k₃, by rw [List.append_assoc], seg_append.mpr ⟨r, h₁, h1⟩, h2, h3, hfree⟩,
    hlarge, hproper⟩

/-- The blocks of a piece determine where it ends. -/
theorem Seg.unique {q' : Nat} (h : Seg mem p l q) (h' : Seg mem p l q') : q = q' := by
  induction l generalizing p with
  | nil => exact h.symm.trans h'
  | cons x l ih => exact ih h.2.2.2.2.2 h'.2.2.2.2.2

/-- The last block of a chain comes after the blocks before it. -/
theorem last_split {x : Option Block × Nat} {k : List (Option Block × Nat)} (hne : l₂ ≠ [])
    (h : l₁ ++ l₂ = k ++ [x]) : ∃ k₂, l₂ = k₂ ++ [x] ∧ k = l₁ ++ k₂ := by
  obtain ⟨k₂, y, rfl⟩ := List.eq_nil_or_concat' l₂ |>.resolve_left hne
  rw [← List.append_assoc] at h
  obtain ⟨hk, hy⟩ := List.append_inj' h rfl
  exact ⟨k₂, by rw [hy], hk.symm⟩

/-- What is known from the result of the loop of `malloc`: it is room, and when the last block is
free and large enough, there is some. -/
structure Searched (mem : Mem) (len p q : Nat) (l : List (Option Block × Nat))
    (res : Option (Nat × Nat)) : Prop where
  room : ∀ a r, res = some (a, r) → Room mem len p q l a r
  found : ∀ t k, l = k ++ [(none, q)] → Seg mem p k t → t + len ≤ q → res ≠ none

/-- The loop goes on after a piece without room. -/
theorem Searched.prepend {len : Nat} {res : Option (Nat × Nat)} (h₁ : Seg mem p l₁ r)
    (h : Searched mem len r q l₂ res) (hlast : l₂ = [] → ∀ t k, l₁ = k ++ [(none, q)] →
      Seg mem p k t → ¬t + len ≤ q) : Searched mem len p q (l₁ ++ l₂) res where
  room a r' he := (h.room a r' he).prepend h₁
  found t k he hk hle := by
    by_cases hnil : l₂ = []
    · rw [hnil, List.append_nil] at he
      exact absurd hle (hlast hnil t k he hk)
    · obtain ⟨k₂, rfl, rfl⟩ := last_split hnil he
      obtain ⟨r', h₁', h₂⟩ := seg_append.mp hk
      obtain rfl := h₁.unique h₁'
      exact h.found t k₂ rfl h₂ hle

/-- The loop of `malloc` ends. -/
theorem search_spec {n : Nat} (len : Nat) (h : Seg mem p l q) (hend : NEXT mem q = 0)
    (hn : l.length < n) (hlen : l.length < LINKS) (hq : q < 65536) :
    ∃ res, search mem len n p = some res ∧ Searched mem len p q l res := by
  induction n generalizing p l with
  | zero => exact absurd hn (Nat.not_lt_zero _)
  | succ n ih =>
    cases l with
    | nil =>
      have hpq : p = q := h
      subst hpq
      refine ⟨none, if_pos hend, fun a r he => (nomatch he), fun t k he => ?_⟩
      exact absurd he.symm (List.concat_ne_nil _ _)
    | cons x l =>
      obtain ⟨o, r⟩ := x
      obtain ⟨hne, hbusy, hclear⟩ := h.link
      have hfirst : Seg mem p [(o, r)] r := by
        obtain ⟨hnext, he, hle, hlt, hb, -⟩ := h
        exact ⟨hnext, he, hle, hlt, hb, rfl⟩
      rw [List.length_cons] at hn hlen
      have hrest := h.2.2.2.2.2
      rw [search, if_neg hne]
      cases o with
      | some c =>
        obtain ⟨res, he, hres⟩ := ih hrest (by omega) (by omega)
        have hbusy : isBusy (NEXT mem p) = true := hbusy
        rw [if_pos hbusy, hclear]
        refine ⟨res, he, hres.prepend hfirst fun _ t k hk => ?_⟩
        have hk : [] ++ [(some c, r)] = k ++ [(none, q)] := hk
        exact absurd (List.append_inj' hk rfl).2 (by simp)
      | none =>
        obtain ⟨l₁, l₂, s, rfl, hfree, h₁, h₂, hm⟩ := merge_spec (n := LINKS) hrest hend (by omega)
        have hpiece : Seg mem p ((none, r) :: l₁) s := by
          obtain ⟨hnext, he, hle, hlt, hb, -⟩ := h
          exact ⟨hnext, he, hle, hlt, hb, h₁⟩
        have hps := hpiece.le
        have hsq := h₂.le
        rw [List.length_cons] at hps
        have hsub : (s + 65536 - p) % 65536 = s - p := by omega
        rw [if_neg (by rw [hbusy]; decide), h.link_free, hm, Option.bind_some, hsub]
        by_cases hfit : s - p ≥ len
        · rw [if_pos hfit]
          refine ⟨_, rfl, fun a r' he => ?_, fun t k _ _ _ => by simp⟩
          obtain ⟨rfl, rfl⟩ := Prod.mk.inj (Option.some.inj he)
          refine ⟨⟨[], (none, r) :: l₁, l₂, rfl, rfl, hpiece, h₂, ?_⟩, by omega, by omega⟩
          intro x hx
          rcases List.mem_cons.mp hx with rfl | hx
          · rfl
          · exact hfree x hx
        · rw [List.length_append] at hn hlen
          obtain ⟨res, he, hres⟩ := ih h₂ (by omega) (by omega)
          rw [if_neg hfit]
          refine ⟨res, he, hres.prepend hpiece fun hnil t k _ hk => ?_⟩
          have hqs : s = q := by
            rw [hnil] at h₂
            exact h₂
          have hpt := hk.le
          omega

end Segments

/-! ## Blocks are cut off and given back -/

section Carving

variable {mem mem' : Mem} {p q r a : Nat} {l l₁ l₂ l₃ : List (Option Block × Nat)} {b : Block}

/-- A block in use, and what is left of the free ones that it is cut off. -/
def cut (b : Block) (a len r : Nat) : List (Option Block × Nat) :=
  (some b, a + len) :: if a + len < r then [(none, r)] else []

/-- What is cut off a free block is free. -/
theorem owned_cut (b : Block) (a len r : Nat) : owned (cut b a len r) = [b] := by
  unfold cut
  split <;> rfl

/-- The bytes that `carve` leaves alone. -/
theorem carve_outside {len x : Nat} (ha : a + len ≤ r) (hr : r < 65536) (hx : x < a ∨ r ≤ x)
    (hlen : 2 ≤ len) (heven : (a + len) % 2 = 0 ∧ r % 2 = 0) : carve a r len mem x = mem x := by
  unfold carve
  rw [Nat.mod_eq_of_lt (by omega : a + len < 65536), setNext_of_ne (by omega) (by omega)]
  split
  · rw [setNext_of_ne (by omega) (by omega)]
  · rfl

/-- The bytes of the new block are left alone, too. -/
theorem carve_inside {len x : Nat} (ha : a + len ≤ r) (hr : r < 65536)
    (hx : a + 2 ≤ x ∧ x < a + len) (heven : (a + len) % 2 = 0 ∧ r % 2 = 0) :
    carve a r len mem x = mem x := by
  unfold carve
  rw [Nat.mod_eq_of_lt (by omega : a + len < 65536), setNext_of_ne (by omega) (by omega)]
  split
  · rw [setNext_of_ne (by omega) (by omega)]
  · rfl

/-- A block is cut off some free ones. -/
theorem carve_seg {len : Nat} (ha : a + len ≤ r) (hr : r < 65536) (hlen : 2 ≤ len)
    (heven : (a + len) % 2 = 0 ∧ r % 2 = 0) (hptr : b.ptr = a + 2) (hfits : b.size + 2 ≤ len)
    (hdata : ∀ i < b.size, mem (b.ptr + i) = b.data i) :
    Seg (carve a r len mem) a (cut b a len r) r := by
  have hbusy : setBusy (a + len) = a + len + 1 := setBusy_even heven.1
  have hlt : a + len < 65536 := by omega
  have hnext : NEXT (carve a r len mem) a = a + len + 1 := by
    unfold carve
    dsimp only
    rw [Nat.mod_eq_of_lt hlt, hbusy, NEXT_setNext (by omega)]
  have hheld : ∀ c ∈ some b, Holds (carve a r len mem) a (a + len) c := by
    rintro c hc
    obtain rfl := Option.some.inj hc
    refine ⟨hptr, by omega, fun i hi => ?_⟩
    rw [carve_inside ha hr (by omega) heven]
    exact hdata i hi
  unfold cut
  split
  · rename_i hnew
    refine ⟨hnext, heven.1, by omega, hlt, hheld, ?_, heven.2, by omega, hr,
      fun c hc => (nomatch hc), rfl⟩
    change NEXT (carve a r len mem) (a + len) = r
    unfold carve
    dsimp only
    rw [Nat.mod_eq_of_lt hlt, if_pos hnew]
    have hsucc : (a + len + 1) % 65536 = a + len + 1 := by omega
    refine (NEXT_congr (setNext_of_ne (by omega) (by omega)) ?_).trans (NEXT_setNext hr)
    rw [hsucc]
    exact setNext_of_ne (by omega) (by omega)
  · have hend : a + len = r := by omega
    exact ⟨hnext, heven.1, by omega, hlt, hheld, hend⟩

/-! ## The heap as a chain -/

/-- The chain of a heap leads from `bottom` to `top`. -/
structure Chained (h : Heap) (l : List (Option Block × Nat)) : Prop where
  bottom : 0 < h.bottom ∧ h.bottom % 2 = 0 ∧ h.bottom < 65536
  seg : Seg h.mem h.bottom l h.top
  last : NEXT h.mem h.top = 0

variable {h h' : Heap}

/-- The heap ends at an even address. -/
theorem Chained.top (hc : Chained h l) : h.bottom ≤ h.top ∧ h.top % 2 = 0 ∧ h.top < 65536 :=
  ⟨by have := hc.seg.le; omega, hc.seg.end_even hc.bottom.2.1, hc.seg.end_lt hc.bottom.2.2⟩

/-- There are fewer blocks than links have room. -/
theorem Chained.length (hc : Chained h l) : l.length < LINKS := by
  have hle := hc.seg.le
  have htop := hc.top
  dsimp only [LINKS]
  omega

/-- Some bytes inside a piece of the chain are changed, and the piece with them. -/
theorem Chained.replace {k k' : List (Option Block × Nat)} (hc : Chained h (l₁ ++ (k ++ l₃)))
    (ha : Seg h.mem h.bottom l₁ a) (hk : Seg h.mem a k r) (hk' : Seg mem' a k' r)
    (hmem : ∀ x, x < a ∨ r ≤ x → mem' x = h.mem x) :
    Chained { h with mem := mem' } (l₁ ++ (k' ++ l₃)) := by
  obtain ⟨a', ha', hrest⟩ := seg_append.mp hc.seg
  obtain rfl := ha.unique ha'
  obtain ⟨r', hr', h₃⟩ := seg_append.mp hrest
  obtain rfl := hk.unique hr'
  have hle := h₃.le
  have htop := hc.top
  refine ⟨hc.bottom, seg_append.mpr ⟨a, ha.congr fun x _ hx => hmem x (Or.inl hx),
    seg_append.mpr ⟨r, hk', h₃.congr fun x hx _ => hmem x (Or.inr hx)⟩⟩, ?_⟩
  have hrt : r ≤ h.top := by omega
  have hsucc : (h.top + 1) % 65536 = h.top + 1 := by omega
  refine (NEXT_congr (hmem _ (Or.inr hrt)) ?_).trans hc.last
  rw [hsucc]
  exact hmem _ (Or.inr (by omega))

/-- Where room is. -/
theorem Chained.room_bounds {len : Nat} (hc : Chained h l)
    (hroom : Room h.mem len h.bottom h.top l a r) :
    h.bottom ≤ a ∧ r < 65536 ∧ a % 2 = 0 ∧ r % 2 = 0 := by
  obtain ⟨⟨l₁, l₂, l₃, rfl, h₁, h₂, h₃, -⟩, -, -⟩ := hroom
  have hae := h₁.end_even hc.bottom.2.1
  have hba := h₁.le
  have hrt := h₃.le
  have htop := hc.top
  exact ⟨by omega, by omega, hae, h₂.end_even hae⟩

/-- What has been asked for is cut off the room that has been found. -/
theorem Chained.carved {len : Nat} (hc : Chained h l) (hroom : Room h.mem len h.bottom h.top l a r)
    (hlen : 2 ≤ len ∧ len % 2 = 0) (hptr : b.ptr = a + 2) (hfits : b.size + 2 ≤ len)
    (hdata : ∀ i < b.size, h.mem (b.ptr + i) = b.data i) :
    ∃ l', Chained { h with mem := carve a r len h.mem } l' ∧ (owned l').Perm (b :: owned l) := by
  obtain ⟨-, hr, hae, hre⟩ := hc.room_bounds hroom
  obtain ⟨⟨l₁, l₂, l₃, rfl, h₁, h₂, h₃, hfree⟩, hlarge, -⟩ := hroom
  have heven : (a + len) % 2 = 0 ∧ r % 2 = 0 := by omega
  refine ⟨_, hc.replace h₁ h₂ (carve_seg hlarge hr hlen.1 heven hptr hfits hdata)
    fun x hx => carve_outside hlarge hr hx hlen.1 heven, ?_⟩
  rw [owned_append, owned_append, owned_append, owned_append, owned_cut, owned_free hfree]
  exact List.perm_middle

/-- A heap that grows ends at an even address. -/
theorem newTop_even (top len : Nat) : newTop top len % 2 = 0 ∧ newTop top len < 65536 := by
  unfold newTop ALIGN
  omega

/-- A heap that does not end before the old one has room for the block, unless its length nearly
wraps around. -/
theorem newTop_room {top : Nat} (len : Nat) (htop : top % 2 = 0 ∧ top < 65536)
    (hlen : 2 ≤ len ∧ len % 2 = 0) (hmax : len ≤ 65520) (hle : top ≤ newTop top len) :
    top + len ≤ newTop top len := by
  unfold newTop ALIGN at hle ⊢
  omega

/-- What `grow` has done when it returns 1. -/
structure Grown (h : Heap) (l : List (Option Block × Nat)) (len : Nat) (h' : Heap)
    (l' : List (Option Block × Nat)) : Prop where
  chained : Chained h' l'
  owned : owned l' = owned l
  bottom : h'.bottom = h.bottom
  room : 2 ≤ len → len % 2 = 0 → len ≤ 65520 →
    l' = l ++ [(none, h'.top)] ∧ Seg h'.mem h'.bottom l h.top ∧ h.top + len ≤ h'.top

/-- More memory is put at the end of the chain. -/
theorem grow_spec (ok : Bool) (len : Nat) (hc : Chained h l) :
    grow ok len h = some (false, h) ∨
      ok = true ∧ ∃ h' l', grow ok len h = some (true, h') ∧ Grown h l len h' l' := by
  obtain ⟨hpe, hpl⟩ := newTop_even h.top len
  obtain ⟨hbt, hte, htl⟩ := hc.top
  have hend := chainEnd_spec hc.seg hc.last hc.length
  unfold grow
  dsimp only
  split
  · exact Or.inl rfl
  · rename_i hno
    obtain ⟨hge, hok⟩ := not_or.mp hno
    have hge : h.top ≤ newTop h.top len := not_lt.mp hge
    have hok : ok = true := not_not.mp hok
    have hroom := newTop_room len ⟨hte, htl⟩
    refine Or.inr ⟨hok, ?_⟩
    rw [hend, Option.map_some]
    have hzero : NEXT (setNext (newTop h.top len) 0 (setNext h.top (newTop h.top len) h.mem))
        (newTop h.top len) = 0 := NEXT_setNext (by decide)
    have hbelow : ∀ x, x < h.top →
        setNext (newTop h.top len) 0 (setNext h.top (newTop h.top len) h.mem) x = h.mem x :=
      fun x hx => by
        rw [setNext_of_ne (by omega) (by omega), setNext_of_ne (by omega) (by omega)]
    have hseg := hc.seg.congr fun x _ hx => hbelow x hx
    generalize newTop h.top len = p at *
    by_cases heq : p = h.top
    · subst heq
      exact ⟨_, l, rfl, ⟨hc.bottom, hseg, hzero⟩, rfl, rfl, fun h2 he hm => by
        have := hroom ⟨h2, he⟩ hm hge
        omega⟩
    · have hlink : NEXT (setNext p 0 (setNext h.top p h.mem)) h.top = p :=
        (NEXT_congr (setNext_of_ne (by omega) (by omega))
          (setNext_of_ne (by omega) (by omega))).trans (NEXT_setNext hpl)
      refine ⟨_, l ++ [(none, p)], rfl, ⟨hc.bottom, seg_append.mpr ⟨h.top, hseg, hlink, hpe,
        by omega, hpl, fun b hb => (nomatch hb), rfl⟩, hzero⟩, ?_, rfl, fun h2 he hm =>
        ⟨rfl, hseg, hroom ⟨h2, he⟩ hm hge⟩⟩
      rw [owned_append, owned_free (l := [(none, p)]), List.append_nil]
      intro x hx
      rw [List.mem_singleton.mp hx]

/-- `malloc`, once there is a heap. -/
theorem mallocFrom_open (ok : Nat → Bool) (fuel k size : Nat) (hb : h.bottom ≠ 0) :
    mallocFrom ok (fuel + 1) k size h =
      (search h.mem (blockLen size) LINKS h.bottom).bind fun
        | some (p, next) =>
          some ((p + 2) % 65536, { h with mem := carve p next (blockLen size) h.mem })
        | none => (grow (ok k) (blockLen size) h).bind fun
          | (true, h) => mallocFrom ok fuel (k + 1) size h
          | (false, h) => some (0, h) := by
  rw [mallocFrom, if_pos hb]
  unfold openHeap
  rw [if_pos hb]

/-- What `malloc` has done: it has returned 0, or a new block. -/
structure Allocated (h : Heap) (l : List (Option Block × Nat)) (size r : Nat) (h' : Heap) :
    Prop where
  bottom : h'.bottom = h.bottom
  chained : ∃ l', Chained h' l' ∧ (r = 0 ∧ owned l' = owned l ∨ r ≠ 0 ∧
    (owned l').Perm (⟨r, size, fun i => h'.mem (r + i)⟩ :: owned l))

/-- The search from any block on. -/
theorem mallocFrom_spec {ok : Nat → Bool} {fuel k size r : Nat} (hc : Chained h l)
    (hsize : size ≤ 65532) (he : mallocFrom ok fuel k size h = some (r, h')) :
    Allocated h l size r h' := by
  obtain ⟨hleven, hfits, -, hlt⟩ := blockLen_spec hsize
  induction fuel generalizing k h l with
  | zero => cases he
  | succ fuel ih =>
    obtain ⟨res, hsearch, hres⟩ := search_spec (n := LINKS) (blockLen size) hc.seg hc.last
      hc.length hc.length hc.top.2.2
    rw [mallocFrom_open ok fuel k size hc.bottom.1.ne', hsearch, Option.bind_some] at he
    cases res with
    | some x =>
      obtain ⟨a, s⟩ := x
      have hroom := hres.room a s rfl
      have hlarge := hroom.large
      obtain ⟨hba, hs, hae, hse⟩ := hc.room_bounds hroom
      have hptr : (a + 2) % 65536 = a + 2 := by omega
      dsimp only at he
      rw [hptr] at he
      obtain ⟨rfl, rfl⟩ := Prod.mk.inj (Option.some.inj he)
      obtain ⟨l', hc', howned⟩ := hc.carved
        (b := ⟨a + 2, size, fun i => carve a s (blockLen size) h.mem (a + 2 + i)⟩) hroom
        (by omega) rfl hfits fun i hi =>
          (carve_inside hlarge hs (by dsimp only at hi ⊢; omega) (by omega)).symm
      exact ⟨rfl, l', hc', Or.inr ⟨by omega, howned⟩⟩
    | none =>
      dsimp only at he
      rcases grow_spec (ok k) (blockLen size) hc with hg | ⟨-, g, l', hg, hgrown⟩
      · rw [hg] at he
        obtain ⟨rfl, rfl⟩ := Prod.mk.inj (Option.some.inj he)
        exact ⟨rfl, l, hc, Or.inl ⟨rfl, rfl⟩⟩
      · rw [hg] at he
        obtain ⟨hbottom, l'', hc'', hr⟩ := ih hgrown.chained he
        rw [hgrown.owned] at hr
        exact ⟨hbottom.trans hgrown.bottom, l'', hc'', hr⟩

/-- A block that is not nearly as large as the memory is looked for at most twice. -/
theorem mallocFrom_total (ok : Nat → Bool) (fuel k : Nat) {size : Nat} (hc : Chained h l)
    (hsize : size ≤ 65518) : ∃ res, mallocFrom ok (fuel + 2) k size h = some res := by
  obtain ⟨hleven, hfits, hmax, hlt⟩ := blockLen_spec (hsize.trans (by decide))
  have hfirst := search_spec (n := LINKS) (blockLen size) hc.seg hc.last hc.length
    hc.length hc.top.2.2
  obtain ⟨res, hsearch, -⟩ := hfirst
  rw [mallocFrom_open ok _ k size hc.bottom.1.ne', hsearch, Option.bind_some]
  cases res with
  | some x => exact ⟨_, rfl⟩
  | none =>
    dsimp only
    rcases grow_spec (ok k) (blockLen size) hc with hg | ⟨-, g, l', hg, hgrown⟩
    · exact ⟨_, by rw [hg]; rfl⟩
    · obtain ⟨rfl, hseg, hroom⟩ := hgrown.room (by omega) hleven (by omega)
      have hc' := hgrown.chained
      obtain ⟨res, hsearch, hres⟩ := search_spec (n := LINKS) (blockLen size) hc'.seg
        hc'.last hc'.length hc'.length hc'.top.2.2
      rw [hg, Option.bind_some]
      dsimp only
      rw [mallocFrom_open ok _ _ size hc'.bottom.1.ne', hsearch, Option.bind_some]
      cases res with
      | some x => exact ⟨_, rfl⟩
      | none => exact absurd rfl (hres.found h.top l rfl hseg hroom)

/-- The blocks that are in use are these, in some order. -/
def Owns (h : Heap) (live : List Block) : Prop := ∃ l, Chained h l ∧ (owned l).Perm live

variable {live live' : List Block}

/-- The order of the live blocks does not matter. -/
theorem Owns.perm (ho : Owns h live) (hp : live.Perm live') : Owns h live' := by
  obtain ⟨l, hc, hl⟩ := ho
  exact ⟨l, hc, hl.trans hp⟩

/-- A block that is in use, with what is before and after it. -/
structure At (h : Heap) (b : Block) (live : List Block) (a r : Nat)
    (l₁ l₂ : List (Option Block × Nat)) : Prop where
  chained : Chained h (l₁ ++ (some b, r) :: l₂)
  before : Seg h.mem h.bottom l₁ a
  link : NEXT h.mem a = r + 1
  block : Seg h.mem a [(some b, r)] r
  after : Seg h.mem r l₂ h.top
  holds : Holds h.mem a r b
  others : (owned l₁ ++ owned l₂).Perm live
  bounds : h.bottom ≤ a ∧ a % 2 = 0 ∧ a + 2 ≤ r ∧ r % 2 = 0 ∧ r < 65536

/-- Where a live block is. -/
theorem Owns.at (ho : Owns h (b :: live)) : ∃ a r l₁ l₂, At h b live a r l₁ l₂ := by
  obtain ⟨l, hc, hl⟩ := ho
  obtain ⟨l₁, l₂, r, rfl⟩ := owned_split (hl.mem_iff.mpr List.mem_cons_self)
  obtain ⟨a, h₁, hlink, hre, hle, hlt, hb, h₂⟩ := seg_append.mp hc.seg
  have hba := h₁.le
  refine ⟨a, r, l₁, l₂, hc, h₁, hlink, ⟨hlink, hre, hle, hlt, hb, rfl⟩, h₂, hb b rfl, ?_,
    by omega, h₁.end_even hc.bottom.2.1, hle, hre, hlt⟩
  rw [owned_append] at hl
  have hl : (owned l₁ ++ b :: owned l₂).Perm (b :: live) := hl
  exact (List.perm_middle.symm.trans hl).cons_inv

/-- The link of a block, as it is found from the pointer to the block. -/
theorem At.link_of_ptr {a r : Nat} (ha : At h b live a r l₁ l₂) : (b.ptr + 65534) % 65536 = a := by
  have hptr := ha.holds.ptr
  have hlt := ha.bounds
  omega

/-- The piece of the chain with a block, and free ones after it, becomes another one. -/
theorem At.replace {a r s : Nat} {k k' : List (Option Block × Nat)}
    (ha : At h b live a r l₁ (k ++ l₃))
    (hk : Seg h.mem r k s) (hfree : ∀ x ∈ k, x.1 = none) (hk' : Seg mem' a k' s)
    (hmem : ∀ x, x < a ∨ s ≤ x → mem' x = h.mem x) {live' : List Block}
    (howned : owned k' = live') : Owns { h with mem := mem' } (live' ++ live) := by
  have hseg : Seg h.mem a ((some b, r) :: k) s := by
    obtain ⟨hlink, he, hle, hlt, hb, -⟩ := ha.block
    exact ⟨hlink, he, hle, hlt, hb, hk⟩
  refine ⟨_, Chained.replace (k := (some b, r) :: k) ha.chained ha.before hseg hk' hmem, ?_⟩
  have hothers := ha.others
  rw [owned_append, owned_free hfree, List.nil_append] at hothers
  rw [owned_append, owned_append, howned, ← List.append_assoc]
  exact ((List.perm_append_comm.append_right _).trans
    (List.append_assoc _ _ _ ▸ hothers.append_left live'))

/-- A block is given back. -/
theorem Owns.free (ho : Owns h (b :: live)) : Owns (free b.ptr h) live := by
  obtain ⟨a, r, l₁, l₂, ha⟩ := ho.at
  obtain ⟨hba, hae, hle, hre, hr⟩ := ha.bounds
  unfold Libc.free
  rw [ha.link_of_ptr]
  dsimp only
  rw [ha.link, clearBusy_succ hre]
  have hseg : Seg (setNext a r h.mem) a [(none, r)] r :=
    ⟨NEXT_setNext hr, hre, hle, hr, fun c hc => (nomatch hc), rfl⟩
  exact ha.replace (k := []) rfl (fun x hx => absurd hx List.not_mem_nil) hseg
    (fun x hx => setNext_of_ne (by omega) (by omega)) (rfl : owned [(none, r)] = [])

/-- Some bytes of a block are stored. -/
theorem Owns.write (mem' : Mem) (data : Nat → UInt8) (ho : Owns h (b :: live))
    (hmem : ∀ x, x < b.ptr ∨ b.ptr + b.size ≤ x → mem' x = h.mem x)
    (hdata : ∀ i < b.size, mem' (b.ptr + i) = data i) :
    Owns { h with mem := mem' } ({ b with data := data } :: live) := by
  obtain ⟨a, r, l₁, l₂, ha⟩ := ho.at
  obtain ⟨hba, hae, hle, hre, hr⟩ := ha.bounds
  obtain ⟨hptr, hfits, -⟩ := ha.holds
  have hsucc : (a + 1) % 65536 = a + 1 := by omega
  have hlink : NEXT mem' a = r + 1 :=
    (NEXT_congr (hmem a (by omega)) (by rw [hsucc]; exact hmem _ (by omega))).trans ha.link
  have hseg : Seg mem' a [(some { b with data := data }, r)] r := by
    refine ⟨hlink, hre, hle, hr, fun c hc => ?_, rfl⟩
    obtain rfl := Option.some.inj hc
    exact ⟨hptr, hfits, hdata⟩
  exact ha.replace (k := []) rfl (fun x hx => absurd hx List.not_mem_nil) hseg
    (fun x hx => hmem x (by omega)) rfl

/-- Live blocks are apart. -/
theorem Owns.apart (ho : Owns h live) : live.Pairwise Apart := by
  obtain ⟨l, hc, hl⟩ := ho
  exact (hl.pairwise_iff Apart.symm).mp hc.seg.owned_apart

/-- Where the blocks are. -/
theorem Owns.bounds (ho : Owns h live) : ∀ b ∈ live, h.bottom + 2 ≤ b.ptr ∧
    b.ptr + b.size ≤ h.top ∧ h.top < 65536 ∧ b.ptr % 2 = 0 ∧
    ∀ i < b.size, h.mem (b.ptr + i) = b.data i := by
  intro b hb
  obtain ⟨l, hc, hl⟩ := id ho
  obtain ⟨hlo, hhi, hdata⟩ := hc.seg.owned_bounds b (hl.mem_iff.mpr hb)
  obtain ⟨l₁, l₂, hsplit⟩ := List.append_of_mem hb
  obtain ⟨a, r, k₁, k₂, ha⟩ := (ho.perm (hsplit ▸ List.perm_middle)).at
  have hptr := ha.holds.ptr
  have hae := ha.bounds.2.1
  exact ⟨hlo, hhi, hc.top.2.2, by omega, hdata⟩

/-- `malloc` returns 0, or a new block. -/
theorem Owns.malloc {ok : Nat → Bool} {fuel k size r : Nat} (ho : Owns h live)
    (hsize : size ≤ 65532) (he : mallocFrom ok fuel k size h = some (r, h')) :
    r = 0 ∧ Owns h' live ∨
      r ≠ 0 ∧ Owns h' (⟨r, size, fun i => h'.mem (r + i)⟩ :: live) := by
  obtain ⟨l, hc, hl⟩ := ho
  obtain ⟨-, l', hc', hr⟩ := mallocFrom_spec hc hsize he
  rcases hr with ⟨hr, howned⟩ | ⟨hr, howned⟩
  · exact Or.inl ⟨hr, l', hc', howned ▸ hl⟩
  · exact Or.inr ⟨hr, l', hc', howned.trans (hl.cons _)⟩

/-- The bytes that `bcopy` leaves alone. -/
theorem bcopy_outside {old new n x : Nat} (hnew : new + n < 65536)
    (hx : x < new ∨ new + n ≤ x) : bcopy old new n mem x = mem x := by
  induction n generalizing old new mem with
  | zero => rfl
  | succ n ih =>
    have hsucc : (new + 1) % 65536 = new + 1 := by omega
    rw [bcopy, hsucc, ih (by omega) (by omega), update_of_ne (by omega)]

/-- Bytes that are not overwritten are copied. -/
theorem bcopy_inside {old new n m i : Nat} (hnew : new + n < 65536) (hold : old + m < 65536)
    (hd : old + m ≤ new ∨ new + n ≤ old) (hi : i < n) (him : i < m) :
    bcopy old new n mem (new + i) = mem (old + i) := by
  induction n generalizing old new mem m i with
  | zero => exact absurd hi (Nat.not_lt_zero i)
  | succ n ih =>
    have hsucc : (new + 1) % 65536 = new + 1 := by omega
    have hosucc : (old + 1) % 65536 = old + 1 := by omega
    rw [bcopy, hsucc, hosucc]
    cases i with
    | zero =>
      rw [bcopy_outside (by omega) (by omega), Nat.add_zero, update_self, Nat.add_zero]
    | succ i =>
      have hidx : new + (i + 1) = new + 1 + i := by omega
      rw [hidx, ih (m := m - 1) (by omega) (by omega) (by omega) (by omega) (by omega),
        update_of_ne (by omega), Nat.add_right_comm, Nat.add_assoc]

/-- What is in a block of another size: as much of the old contents as there is room for. -/
def kept (b : Block) (size r : Nat) (mem : Mem) : Block :=
  ⟨r, size, fun i => if i < min b.size size then b.data i else mem (r + i)⟩

/-- A block stays where it is, with the free ones after it, when they are large enough. -/
theorem At.resized {a r s size : Nat} (ha : At h b live a r l₁ (l₂ ++ l₃))
    (hfree : ∀ x ∈ l₂, x.1 = none) (hs : Seg h.mem r l₂ s) (hsize : size ≤ 65532)
    (hlt : s < 65536) (hfit : a + blockLen size ≤ s) :
    Owns { h with mem := carve a s (blockLen size) h.mem }
      (kept b size b.ptr (carve a s (blockLen size) h.mem) :: live) := by
  obtain ⟨hba, hae, hle, hre, hr⟩ := ha.bounds
  obtain ⟨hleven, hfits, hmax, -⟩ := blockLen_spec hsize
  obtain ⟨hptr, hbfits, hdata⟩ := ha.holds
  have hse := hs.end_even hre
  have heven : (a + blockLen size) % 2 = 0 ∧ s % 2 = 0 := by omega
  have hrs := hs.le
  refine ha.replace hs hfree (carve_seg (b := kept b size b.ptr _) hfit hlt (by omega) heven hptr
    hfits fun i hi => ?_) (fun x hx => carve_outside hfit hlt hx (by omega) heven)
    (owned_cut _ _ _ _)
  change h.mem (b.ptr + i) = if i < min b.size size then b.data i else _
  split
  · exact hdata i (by omega)
  · have hi : i < size := hi
    exact (carve_inside hfit hlt (by omega) heven).symm

/-- A block is copied to a larger one, and given back. -/
theorem Owns.moved {size r n : Nat} {data : Nat → UInt8}
    (ho : Owns h (⟨r, size, data⟩ :: b :: live)) (hn : n ≤ size) (hbn : b.size ≤ n) :
    Owns (Libc.free b.ptr { h with mem := bcopy b.ptr r n h.mem })
      (kept b size r (Libc.free b.ptr { h with mem := bcopy b.ptr r n h.mem }).mem :: live) := by
  obtain ⟨hapart, hrest⟩ := List.pairwise_cons.mp ho.apart
  have hapart : Apart ⟨r, size, data⟩ b := hapart b List.mem_cons_self
  have hbr := ho.bounds ⟨r, size, data⟩ List.mem_cons_self
  have hbb := ho.bounds b (List.mem_cons_of_mem _ List.mem_cons_self)
  dsimp only [Apart] at hapart hbr
  have hcopied := ho.write (bcopy b.ptr r n h.mem) (fun i => bcopy b.ptr r n h.mem (r + i))
    (fun x hx => bcopy_outside (by omega) (by dsimp only at hx; omega)) (fun i _ => rfl)
  have hfreed : Owns (Libc.free b.ptr { h with mem := bcopy b.ptr r n h.mem })
      (⟨r, size, fun i => bcopy b.ptr r n h.mem (r + i)⟩ :: live) :=
    (hcopied.perm (List.Perm.swap _ _ _)).free
  generalize Libc.free b.ptr { h with mem := bcopy b.ptr r n h.mem } = g at hfreed ⊢
  have hread : ∀ i < size, g.mem (r + i) = bcopy b.ptr r n h.mem (r + i) :=
    (hfreed.bounds _ List.mem_cons_self).2.2.2.2
  refine hfreed.write g.mem _ (fun _ _ => rfl) fun i hi => ?_
  change g.mem (r + i) = if i < min b.size size then b.data i else g.mem (r + i)
  split
  · have hi : i < size := hi
    rw [hread i hi]
    exact (bcopy_inside (m := b.size) (by omega) (by omega) (by omega) (by omega)
      (by omega)).trans (hbb.2.2.2.2 i (by omega))
  · rfl

/-- `realloc` fails, or moves or enlarges its block. -/
theorem Owns.realloc {ok : Nat → Bool} {fuel size r : Nat} (ho : Owns h (b :: live))
    (hsize : size ≤ 65532) (he : realloc ok fuel b.ptr size h = some (r, h')) :
    r = 0 ∧ Owns h' (b :: live) ∨ r ≠ 0 ∧ Owns h' (kept b size r h'.mem :: live) := by
  obtain ⟨a, s, l₁, l₂, ha⟩ := ho.at
  obtain ⟨hba, hae, hle, hre, hr⟩ := ha.bounds
  obtain ⟨hleven, hfits, hmax, hlt⟩ := blockLen_spec hsize
  have hchained := ha.chained
  have hlength := hchained.length
  rw [List.length_append, List.length_cons] at hlength
  obtain ⟨k, l₃, q, rfl, hfree, hk, hrest, hm⟩ := merge_spec (n := LINKS) ha.after hchained.last
    (by omega)
  have hqt := hrest.le
  have htop := hchained.top
  have hsq := hk.le
  have hptr := ha.holds.ptr
  have hbfits := ha.holds.fits
  have hsub : (q + 65536 - a) % 65536 = q - a := by omega
  have hn : (s + 65536 - b.ptr) % 65536 = s - b.ptr := by omega
  unfold Libc.realloc at he
  dsimp only at he
  rw [ha.link_of_ptr, ha.link, clearBusy_succ hre, hm, Option.bind_some, hsub, hn] at he
  split at he
  · rename_i hfit
    have hnew : (a + blockLen size) % 65536 = a + blockLen size := by omega
    have hcarve : (if (a + blockLen size) % 65536 < q then
        setNext a (setBusy ((a + blockLen size) % 65536))
          (setNext ((a + blockLen size) % 65536) q h.mem)
        else setNext a (setBusy q) h.mem) = carve a q (blockLen size) h.mem := by
      unfold carve
      dsimp only
      rw [hnew]
      by_cases hq : a + blockLen size < q
      · rw [if_pos hq, if_pos hq]
      · have hend : a + blockLen size = q := by omega
        rw [if_neg hq, if_neg hq, hend]
    rw [hcarve] at he
    obtain ⟨rfl, rfl⟩ := Prod.mk.inj (Option.some.inj he)
    exact Or.inr ⟨by omega, ha.resized hfree hk hsize (by omega) (by omega)⟩
  · rename_i hfit
    obtain ⟨⟨new, g⟩, hmalloc, he⟩ := Option.map_eq_some_iff.mp he
    dsimp only at he
    rcases ho.malloc hsize hmalloc with ⟨rfl, hg⟩ | ⟨hne, hg⟩
    · obtain ⟨rfl, rfl⟩ := Prod.mk.inj he
      exact Or.inl ⟨rfl, hg⟩
    · rw [if_neg hne] at he
      obtain ⟨rfl, rfl⟩ := Prod.mk.inj he
      refine Or.inr ⟨hne, ?_⟩
      have hmoved := hg.moved (n := s - b.ptr) (by omega) (by omega)
      unfold Libc.free at hmoved
      rw [ha.link_of_ptr] at hmoved
      exact hmoved

/-- `realloc` ends, too. -/
theorem Owns.realloc_total (ok : Nat → Bool) (fuel : Nat) {size : Nat} (ho : Owns h (b :: live))
    (hsize : size ≤ 65518) : ∃ res, Libc.realloc ok (fuel + 2) b.ptr size h = some res := by
  obtain ⟨a, s, l₁, l₂, ha⟩ := ho.at
  have hchained := ha.chained
  have hlength := hchained.length
  rw [List.length_append, List.length_cons] at hlength
  obtain ⟨k, l₃, q, -, -, -, -, hm⟩ := merge_spec (n := LINKS) ha.after hchained.last (by omega)
  obtain ⟨res, hres⟩ := mallocFrom_total ok fuel 0 hchained hsize
  unfold Libc.realloc
  dsimp only
  rw [ha.link_of_ptr, ha.link, clearBusy_succ ha.bounds.2.2.2.1, hm, Option.bind_some]
  split
  · exact ⟨_, rfl⟩
  · unfold Libc.malloc
    rw [hres]
    exact ⟨_, rfl⟩

end Carving

/-! ## Runs -/

/-- What a program can get to that calls `malloc`, `realloc` and `free`, with sizes for which `P`
holds, and stores bytes in the blocks it has: a block is freed or reallocated only while it is live.
The break is at `brk₀` to begin with. -/
inductive Reached (P : Nat → Prop) (brk₀ : Nat) : Heap → List Block → Prop
  | start (mem : Mem) : Reached P brk₀ ⟨mem, 0, 0, brk₀⟩ []
  | refused {h h' : Heap} {live : List Block} {ok : Nat → Bool} {fuel size : Nat} :
      Reached P brk₀ h live → P size → malloc ok fuel size h = some (0, h') →
      Reached P brk₀ h' live
  | malloc {h h' : Heap} {live : List Block} {ok : Nat → Bool} {fuel size r : Nat} :
      Reached P brk₀ h live → P size → malloc ok fuel size h = some (r, h') → r ≠ 0 →
      Reached P brk₀ h' (⟨r, size, fun i => h'.mem (r + i)⟩ :: live)
  | unmoved {h h' : Heap} {l₁ l₂ : List Block} {b : Block} {ok : Nat → Bool} {fuel size : Nat} :
      Reached P brk₀ h (l₁ ++ b :: l₂) → P size → realloc ok fuel b.ptr size h = some (0, h') →
      Reached P brk₀ h' (l₁ ++ b :: l₂)
  | realloc {h h' : Heap} {l₁ l₂ : List Block} {b : Block} {ok : Nat → Bool} {fuel size r : Nat} :
      Reached P brk₀ h (l₁ ++ b :: l₂) → P size → realloc ok fuel b.ptr size h = some (r, h') →
      r ≠ 0 → Reached P brk₀ h' (l₁ ++ kept b size r h'.mem :: l₂)
  | free {h : Heap} {l₁ l₂ : List Block} {b : Block} :
      Reached P brk₀ h (l₁ ++ b :: l₂) → Reached P brk₀ (free b.ptr h) (l₁ ++ l₂)
  | store {h : Heap} {l₁ l₂ : List Block} {b : Block} {i : Nat} (byte : UInt8) :
      Reached P brk₀ h (l₁ ++ b :: l₂) → i < b.size →
      Reached P brk₀ { h with mem := update h.mem (b.ptr + i) byte }
        (l₁ ++ { b with data := update b.data i byte } :: l₂)

/-- The chain from a link on, with the BUSY bits, up to the top. -/
inductive ChainTo (mem : Mem) (top : Nat) : Nat → List (Nat × Bool) → Prop
  | last : NEXT mem top = 0 → ChainTo mem top top []
  | link {p q : Nat} {busy : Bool} {l : List (Nat × Bool)} :
      NEXT mem p = (if busy then setBusy q else q) → q % 2 = 0 → p < q → ChainTo mem top q l →
      ChainTo mem top p ((p, busy) :: l)

/-- The blocks that are handed out do not overlap, lie in the heap, and keep their contents; and the
chain has the BUSY bit on them. -/
structure Sound (h : Heap) (live : List Block) : Prop where
  apart : live.Pairwise Apart
  within : ∀ b ∈ live, h.bottom < b.ptr ∧ b.ptr + b.size ≤ h.top
  data : ∀ b ∈ live, ∀ i < b.size, h.mem (b.ptr + i) = b.data i
  chain : h.bottom ≠ 0 → ∃ links, ChainTo h.mem h.top h.bottom links ∧
    ∀ p, (p, true) ∈ links ↔ ∃ b ∈ live, b.ptr = p + 2

/-- The calls for a size return. -/
structure Returns (h : Heap) (live : List Block) (size : Nat) : Prop where
  malloc : ∀ ok fuel, ∃ res, malloc ok (fuel + 2) size h = some res
  realloc : ∀ b ∈ live, ∀ ok fuel, ∃ res, realloc ok (fuel + 2) b.ptr size h = some res

section Runs

variable {mem : Mem} {p q brk₀ : Nat} {h h' : Heap} {l : List (Option Block × Nat)}
  {live : List Block}

/-- Before the first call there is no heap; and there never will be one when that call cannot get
the first two bytes, since `sbrk` has returned `(char *) -1`. -/
inductive Kept (brk₀ : Nat) (h : Heap) (live : List Block) : Prop
  | fresh : h.bottom = 0 → h.brksize = brk₀ → live = [] → Kept brk₀ h live
  | dead : h.bottom = 65535 → h.top = 65535 → NEXT h.mem 65535 = 0 → live = [] → Kept brk₀ h live
  | owns : Owns h live → Kept brk₀ h live

/-- The first call makes an empty heap. -/
theorem openHeap_true (hbrk : 0 < h.brksize ∧ h.brksize % 2 = 0 ∧ h.brksize < 65536)
    (hb : h.bottom = 0) : Owns (openHeap true h) [] := by
  unfold openHeap
  rw [if_neg (not_not.mpr hb)]
  exact ⟨[], ⟨hbrk, rfl, NEXT_setNext (by decide)⟩, List.Perm.refl _⟩

/-- The first call finds that there is no room for a heap. -/
theorem openHeap_false (hb : h.bottom = 0) :
    (openHeap false h).bottom = 65535 ∧ (openHeap false h).top = 65535 ∧
      NEXT (openHeap false h).mem 65535 = 0 := by
  unfold openHeap
  rw [if_neg (not_not.mpr hb)]
  exact ⟨rfl, rfl, NEXT_setNext (by decide)⟩

/-- The first call goes on like another one. -/
theorem mallocFrom_fresh (ok : Nat → Bool) (fuel k size : Nat) (hb : h.bottom = 0)
    (hopen : (openHeap (ok k) h).bottom ≠ 0) :
    mallocFrom ok (fuel + 1) k size h =
      mallocFrom ok (fuel + 1) (k + 1) size (openHeap (ok k) h) := by
  rw [mallocFrom_open ok fuel (k + 1) size hopen, mallocFrom, if_neg (not_not.mpr hb)]

/-- There is nothing in a heap without room. -/
theorem mallocFrom_dead (ok : Nat → Bool) (fuel k size : Nat) (hb : h.bottom = 65535)
    (ht : h.top = 65535) (hlast : NEXT h.mem 65535 = 0) :
    mallocFrom ok (fuel + 1) k size h = some (0, h) := by
  have hsearch : search h.mem (blockLen size) LINKS 65535 = some none := if_pos hlast
  have hnew := newTop_even 65535 (blockLen size)
  have hgrow : grow (ok k) (blockLen size) h = some (false, h) := by
    unfold grow
    rw [ht]
    exact if_pos (Or.inl (by omega))
  rw [mallocFrom_open ok fuel k size (by omega), hb, hsearch, Option.bind_some]
  dsimp only
  rw [hgrow, Option.bind_some]

/-- What `malloc` does, whether or not there is a heap already. -/
theorem Kept.malloc {ok : Nat → Bool} {fuel size r : Nat}
    (hbrk : 0 < brk₀ ∧ brk₀ % 2 = 0 ∧ brk₀ < 65536) (hk : Kept brk₀ h live)
    (hsize : size ≤ 65532) (he : malloc ok fuel size h = some (r, h')) :
    r = 0 ∧ Kept brk₀ h' live ∨ r ≠ 0 ∧ Owns h' (⟨r, size, fun i => h'.mem (r + i)⟩ :: live) := by
  unfold Libc.malloc at he
  cases fuel with
  | zero => cases he
  | succ fuel =>
    cases hk with
    | fresh hb hbk hlive =>
      subst hlive
      cases hok : ok 0 with
      | false =>
        obtain ⟨hb', ht', hlast⟩ := openHeap_false hb
        rw [mallocFrom_fresh ok fuel 0 size hb (by rw [hok]; omega), hok,
          mallocFrom_dead ok fuel _ size hb' ht' hlast] at he
        obtain ⟨rfl, rfl⟩ := Prod.mk.inj (Option.some.inj he)
        exact Or.inl ⟨rfl, .dead hb' ht' hlast rfl⟩
      | true =>
        have ho := openHeap_true (hbk.symm ▸ hbrk) hb
        obtain ⟨l, hc, -⟩ := id ho
        rw [mallocFrom_fresh ok fuel 0 size hb (by rw [hok]; exact hc.bottom.1.ne'), hok] at he
        exact (ho.malloc hsize he).imp_left fun ⟨hr, ho'⟩ => ⟨hr, .owns ho'⟩
    | dead hb ht hlast hlive =>
      rw [mallocFrom_dead ok fuel 0 size hb ht hlast] at he
      obtain ⟨rfl, rfl⟩ := Prod.mk.inj (Option.some.inj he)
      exact Or.inl ⟨rfl, .dead hb ht hlast hlive⟩
    | owns ho => exact (ho.malloc hsize he).imp_left fun ⟨hr, ho'⟩ => ⟨hr, .owns ho'⟩

/-- There is a heap when a block has been handed out. -/
theorem Kept.some {l₁ l₂ : List Block} {b : Block} (hk : Kept brk₀ h (l₁ ++ b :: l₂)) :
    Owns h (b :: (l₁ ++ l₂)) := by
  cases hk with
  | fresh _ _ hlive => exact absurd hlive (by simp)
  | dead _ _ _ hlive => exact absurd hlive (by simp)
  | owns ho => exact ho.perm List.perm_middle

/-- A byte that is stored in a block is one of its bytes, and the others are as before. -/
theorem Owns.store {b : Block} {i : Nat} (byte : UInt8) (ho : Owns h (b :: live))
    (hi : i < b.size) :
    Owns { h with mem := update h.mem (b.ptr + i) byte }
      ({ b with data := update b.data i byte } :: live) := by
  have hdata := (ho.bounds b List.mem_cons_self).2.2.2.2
  refine ho.write _ _ (fun x hx => update_of_ne (by omega) _ _) fun j hj => ?_
  by_cases hij : j = i
  · subst hij
    rw [update_self, update_self]
  · rw [update_of_ne (by omega), update_of_ne hij, hdata j hj]

/-- The heap stays a chain with the blocks that are live, along a run. -/
theorem Reached.kept (hbrk : 0 < brk₀ ∧ brk₀ % 2 = 0 ∧ brk₀ < 65536)
    (hreach : Reached (· ≤ 65532) brk₀ h live) : Kept brk₀ h live := by
  induction hreach with
  | start mem => exact .fresh rfl rfl rfl
  | refused _ hsize he ih =>
    rcases ih.malloc hbrk hsize he with ⟨-, hk⟩ | ⟨hr, -⟩
    · exact hk
    · exact absurd rfl hr
  | malloc _ hsize he hr ih =>
    rcases ih.malloc hbrk hsize he with ⟨hzero, -⟩ | ⟨-, ho⟩
    · exact absurd hzero hr
    · exact .owns ho
  | unmoved _ hsize he ih =>
    rcases ih.some.realloc hsize he with ⟨-, ho⟩ | ⟨hr, -⟩
    · exact .owns (ho.perm List.perm_middle.symm)
    · exact absurd rfl hr
  | realloc _ hsize he hr ih =>
    rcases ih.some.realloc hsize he with ⟨hzero, -⟩ | ⟨-, ho⟩
    · exact absurd hzero hr
    · exact .owns (ho.perm List.perm_middle.symm)
  | free _ ih => exact .owns ih.some.free
  | store byte _ hi ih => exact .owns ((ih.some.store byte hi).perm List.perm_middle.symm)

/-- The links of a piece of the chain. -/
def linksOf : Nat → List (Option Block × Nat) → List (Nat × Bool)
  | _, [] => []
  | p, (o, r) :: l => (p, o.isSome) :: linksOf r l

/-- The links of a stretch, followed one by one. -/
theorem Seg.chainTo (hs : Seg mem p l q) (hlast : NEXT mem q = 0) :
    ChainTo mem q p (linksOf p l) := by
  induction l generalizing p with
  | nil =>
    have hpq : p = q := hs
    subst hpq
    exact .last hlast
  | cons x l ih =>
    obtain ⟨o, r⟩ := x
    obtain ⟨hn, he, hle, -, -, hrest⟩ := hs
    exact .link (by rw [hn, setBusy_even he]) he (by omega) (ih hrest)

/-- The BUSY bit is on the links of the blocks in use. -/
theorem Seg.busy_iff (hs : Seg mem p l q) (x : Nat) :
    (x, true) ∈ linksOf p l ↔ ∃ b ∈ owned l, b.ptr = x + 2 := by
  induction l generalizing p with
  | nil =>
    exact ⟨fun hx => absurd hx List.not_mem_nil, fun ⟨b, hb, _⟩ => absurd hb List.not_mem_nil⟩
  | cons y l ih =>
    obtain ⟨o, r⟩ := y
    obtain ⟨-, -, -, -, hb, hrest⟩ := hs
    have hrest := ih hrest
    rw [linksOf, List.mem_cons, hrest]
    cases o with
    | none =>
      exact or_iff_right fun he => Bool.noConfusion (Prod.mk.inj he).2
    | some c =>
      have howned : owned ((some c, r) :: l) = c :: owned l := rfl
      have hptr := (hb c rfl).ptr
      rw [howned, List.exists_mem_cons_iff]
      refine or_congr_left ⟨fun he => ?_, fun he => ?_⟩
      · obtain ⟨rfl, -⟩ := Prod.mk.inj he
        exact hptr
      · obtain rfl : x = p := by omega
        rfl

/-- What is owned is as it should be. -/
theorem Owns.sound (ho : Owns h live) : Sound h live where
  apart := ho.apart
  within b hb := by
    have hbounds := ho.bounds b hb
    exact ⟨by omega, hbounds.2.1⟩
  data b hb := (ho.bounds b hb).2.2.2.2
  chain _ := by
    obtain ⟨l, hc, hl⟩ := ho
    refine ⟨_, hc.seg.chainTo hc.last, fun p => (hc.seg.busy_iff p).trans ?_⟩
    exact exists_congr fun b => and_congr_left' hl.mem_iff

/-- So it is in every run. -/
theorem Kept.sound (hk : Kept brk₀ h live) : Sound h live := by
  cases hk with
  | fresh hb _ hlive =>
    subst hlive
    exact ⟨List.Pairwise.nil, fun b hb => absurd hb List.not_mem_nil,
      fun b hb => absurd hb List.not_mem_nil, fun hne => absurd hb hne⟩
  | dead hb ht hlast hlive =>
    subst hlive
    refine ⟨List.Pairwise.nil, fun b hb => absurd hb List.not_mem_nil,
      fun b hb => absurd hb List.not_mem_nil, fun _ => ⟨[], ?_, fun p => ?_⟩⟩
    · rw [hb, ht]
      exact .last hlast
    · exact ⟨fun hp => absurd hp List.not_mem_nil, fun ⟨b, hb, _⟩ => absurd hb List.not_mem_nil⟩
  | owns ho => exact ho.sound

/-- Calls with sizes that leave room for growing return. -/
theorem Kept.returns {size : Nat} (hbrk : 0 < brk₀ ∧ brk₀ % 2 = 0 ∧ brk₀ < 65536)
    (hk : Kept brk₀ h live) (hsize : size ≤ 65518) : Returns h live size where
  malloc ok fuel := by
    unfold Libc.malloc
    cases hk with
    | fresh hb hbk _ =>
      cases hok : ok 0 with
      | false =>
        obtain ⟨hb', ht', hlast⟩ := openHeap_false hb
        exact ⟨_, by rw [mallocFrom_fresh ok _ 0 size hb (by rw [hok]; omega), hok,
          mallocFrom_dead ok _ _ size hb' ht' hlast]⟩
      | true =>
        obtain ⟨l, hc, -⟩ := openHeap_true (hbk.symm ▸ hbrk) hb
        rw [mallocFrom_fresh ok _ 0 size hb (by rw [hok]; exact hc.bottom.1.ne'), hok]
        exact mallocFrom_total ok fuel _ hc hsize
    | dead hb ht hlast _ => exact ⟨_, mallocFrom_dead ok _ _ size hb ht hlast⟩
    | owns ho =>
      obtain ⟨l, hc, -⟩ := ho
      exact mallocFrom_total ok fuel 0 hc hsize
  realloc b hb ok fuel := by
    obtain ⟨l₁, l₂, rfl⟩ := List.append_of_mem hb
    exact hk.some.realloc_total ok fuel hsize

/-- Along every run with an even break and sizes that do not wrap around, the blocks are apart, in
the heap, and keep their contents; and a size that is not nearly that of the memory is answered. -/
theorem heap_sound (hbrk : 0 < brk₀ ∧ brk₀ % 2 = 0 ∧ brk₀ < 65536)
    (hreach : Reached (· ≤ 65532) brk₀ h live) :
    Sound h live ∧ ∀ size ≤ 65518, Returns h live size :=
  ⟨(hreach.kept hbrk).sound, fun _ hsize => (hreach.kept hbrk).returns hbrk hsize⟩

/-- A heap that starts at address 1000, with one block of ten bytes in it. -/
theorem heap_sound_ten : ∃ h b, b.size = 10 ∧ Reached (· ≤ 65532) 1000 h [b] ∧ Sound h [b] ∧
    ∀ size ≤ 65518, Returns h [b] size := by
  have hrun : (malloc (fun _ => true) 2 10 ⟨fun _ => 0, 0, 0, 1000⟩).map Prod.fst = some 1002 := by
    decide +kernel
  obtain ⟨⟨r, h⟩, he, hr⟩ := Option.map_eq_some_iff.mp hrun
  have hr : r = 1002 := hr
  have hreach := (Reached.start fun _ => 0).malloc (P := (· ≤ 65532)) (by decide) he (by omega)
  exact ⟨h, _, rfl, hreach, heap_sound (by decide) hreach⟩

/-- The length of a block of 65535 bytes wraps around to that of an empty one, which is handed
out. -/
theorem heap_unsound_full : ¬∀ h live, Reached (· ≤ 65535) 1000 h live → Sound h live := by
  intro hsound
  have hrun : (malloc (fun _ => true) 2 65535 ⟨fun _ => 0, 0, 0, 1000⟩).map
      (fun x => (x.1, x.2.top)) = some (1002, 1006) := by
    decide +kernel
  obtain ⟨⟨r, h⟩, he, hr⟩ := Option.map_eq_some_iff.mp hrun
  obtain ⟨hr, htop⟩ := Prod.mk.inj hr
  have hr : r = 1002 := hr
  have htop : h.top = 1006 := htop
  have hreach := (Reached.start fun _ => 0).malloc (P := (· ≤ 65535)) le_rfl he (by omega)
  have hwithin := ((hsound h _ hreach).within _ List.mem_cons_self).2
  dsimp only at hwithin
  omega

end Runs

end Minix.Libc
