import Minix.FS.Paths
import Minix.Lib.Fields

/-!
# Components of a path

The names in `user_path` are what lies between slashes before the first NUL. `get_name` finds them
one after the other, and what a path leads to depends on them and on whether it starts at the root,
not on how many slashes there are.

The scans are followed here through memory, which goes on behind the array.
-/

namespace Minix.FS.Inodes

open Fields

/-- A component is cut off or padded out to NAME_SIZE chars, using 0 as filler. -/
def pad (c : List UInt8) : Name := (c ++ List.replicate NAME_SIZE 0).take NAME_SIZE

/-- The string in an array of characters. -/
def text (path : Path) : List UInt8 := path.takeWhile (· ≠ 0)

/-- The names of a path. -/
def components (path : Path) : List Name := (fields SLASH (text path)).map pad

/-- The names as `last_dir` meets them: a path without any has one that is empty. -/
def names (path : Path) : List Name := (components path).headD (pad []) :: (components path).tail

section Text

variable {p : Path} {f g : UInt8 → Bool}

/-- Skipping what a scan would not stop at does not hide where it stops. -/
theorem takeWhile_dropWhile (h : ∀ x, g x = false → f x = false) (l : List UInt8) :
    (l.dropWhile f).takeWhile g = (l.takeWhile g).dropWhile f := by
  induction l with
  | nil => rfl
  | cons x l ih =>
    cases hg : g x with
    | false =>
      rw [List.dropWhile_cons_of_neg (by rw [h x hg]; decide),
        List.takeWhile_cons_of_neg (by rw [hg]; decide)]
      rfl
    | true =>
      rw [List.takeWhile_cons_of_pos hg]
      cases hf : f x with
      | false =>
        rw [List.dropWhile_cons_of_neg (by rw [hf]; decide), List.takeWhile_cons_of_pos hg,
          List.dropWhile_cons_of_neg (by rw [hf]; decide)]
      | true => rw [List.dropWhile_cons_of_pos hf, ih, List.dropWhile_cons_of_pos hf]

/-- Only what is skipped can be missing afterwards. -/
theorem mem_dropWhile {x : UInt8} {l : List UInt8} (hx : x ∈ l) (hf : f x = false) :
    x ∈ l.dropWhile f := by
  induction l with
  | nil => exact hx
  | cons y l ih =>
    cases hy : f y with
    | false => rwa [List.dropWhile_cons_of_neg (by rw [hy]; decide)]
    | true =>
      rw [List.dropWhile_cons_of_pos hy]
      rcases List.mem_cons.mp hx with rfl | hx
      · exact absurd (hf.symm.trans hy) (by decide)
      · exact ih hx

/-- What a component is made of. -/
def InName (c : UInt8) : Bool := c ≠ SLASH ∧ c ≠ 0

/-- The next name, and where the path goes on. -/
theorem getName_eq (p : Path) : getName p =
    let rnp := p.dropWhile (· = SLASH)
    let rest := (rnp.dropWhile InName).dropWhile (· = SLASH)
    if rest = [] then .error E_LONG_STRING else .ok (pad (rnp.takeWhile InName), rest) := rfl

/-- The first character that a scan does not skip. -/
theorem dropWhile_head {l : List UInt8} (h0 : 0 ∈ l) (hf : f 0 = false) :
    ∃ x r, l.dropWhile f = x :: r ∧ f x = false := by
  cases hd : l.dropWhile f with
  | nil => exact absurd (hd ▸ mem_dropWhile h0 hf) List.not_mem_nil
  | cons x r =>
    have := List.head?_dropWhile_not f l
    rw [hd] at this
    exact ⟨x, r, rfl, by simpa using this⟩

theorem text_dropWhile (p : Path) : text (p.dropWhile (· = SLASH)) =
    (text p).dropWhile (· = SLASH) :=
  takeWhile_dropWhile (fun x hx => by simp at hx; rw [hx]; decide) p

theorem components_dropWhile (p : Path) : components (p.dropWhile (· = SLASH)) = components p := by
  unfold components
  rw [text_dropWhile, fields_dropWhile]

/-- A name ends at a slash of the string, or with it. -/
theorem takeWhile_inName (p : Path) : p.takeWhile InName = (text p).takeWhile (· ≠ SLASH) := by
  unfold text
  rw [List.takeWhile_takeWhile]
  congr 1
  funext c
  simp [InName]

theorem text_dropWhile_inName (p : Path) : text (p.dropWhile InName) =
    (text p).dropWhile (· ≠ SLASH) := by
  unfold text
  rw [takeWhile_dropWhile fun x hx => by simp at hx; rw [hx]; decide]
  induction p with
  | nil => rfl
  | cons c p ih =>
    by_cases hc : c = 0
    · rw [List.takeWhile_cons_of_neg (by simpa using hc)]
      rfl
    · rw [List.takeWhile_cons_of_pos (by simpa using hc)]
      by_cases hs : c = SLASH
      · rw [List.dropWhile_cons_of_neg (by simp [InName, hs]),
          List.dropWhile_cons_of_neg (by simpa using hs)]
      · rw [List.dropWhile_cons_of_pos (by simp [InName, hs, hc]),
          List.dropWhile_cons_of_pos (by simpa using hs), ih]

/-- A path that starts with neither a slash nor a NUL has a name. -/
theorem components_ne_nil {c : UInt8} {r : Path} (h0 : c ≠ 0) (hs : c ≠ SLASH) :
    components (c :: r) ≠ [] := by
  have ht : (text (c :: r)).takeWhile (· ≠ SLASH) ≠ [] := by
    unfold text
    rw [List.takeWhile_cons_of_pos (by simpa using h0),
      List.takeWhile_cons_of_pos (by simpa using hs)]
    simp
  unfold components
  rw [fields_takeWhile ht]
  simp

/-- The first name of a path that does not start with a slash. -/
theorem components_takeWhile (h : p.takeWhile InName ≠ []) :
    components p = pad (p.takeWhile InName) :: components (p.dropWhile InName) := by
  rw [takeWhile_inName] at h
  unfold components
  rw [fields_takeWhile h, List.map_cons, takeWhile_inName, text_dropWhile_inName]

/-- Between names a path ends exactly at its NUL. -/
theorem head_eq_zero_iff {x : UInt8} {l : Path} (hx : x ≠ SLASH) :
    (x :: l).head? = some 0 ↔ components (x :: l) = [] := by
  by_cases hx0 : x = 0
  · rw [hx0]
    exact iff_of_true rfl rfl
  · exact iff_of_false (by simpa using hx0) (components_ne_nil hx0 hx)

/-- After a name the path goes on with the names that follow. -/
theorem getName_spec (h0 : 0 ∈ p) : ∃ rest, getName p = .ok ((components p).headD (pad []), rest) ∧
    0 ∈ rest ∧ components rest = (components p).tail ∧
      (rest.head? = some 0 ↔ components rest = []) := by
  rw [getName_eq, ← components_dropWhile p]
  have hr : (0 : UInt8) ∈ p.dropWhile (· = SLASH) := mem_dropWhile h0 (by decide)
  obtain ⟨y, q, hq, hy⟩ := dropWhile_head (f := fun c => decide (c = SLASH)) h0 (by decide)
  have hys : y ≠ SLASH := by simpa using hy
  rw [hq] at hr ⊢
  dsimp only
  by_cases hy0 : y = 0
  · -- no name is left
    subst hy0
    exact ⟨0 :: q, rfl, hr, rfl, head_eq_zero_iff (by decide)⟩
  · have hc : (y :: q).takeWhile InName ≠ [] := by
      rw [List.takeWhile_cons_of_pos (by simp [InName, hys, hy0])]
      simp
    have hr' : (0 : UInt8) ∈ (y :: q).dropWhile InName := mem_dropWhile hr (by decide)
    obtain ⟨x, l, hl, hx⟩ := dropWhile_head (f := fun c => decide (c = SLASH)) hr' (by decide)
    have hxs : x ≠ SLASH := by simpa using hx
    have h0' : (0 : UInt8) ∈ ((y :: q).dropWhile InName).dropWhile (· = SLASH) :=
      mem_dropWhile hr' (by decide)
    have hskip : components (x :: l) = components ((y :: q).dropWhile InName) := by
      rw [← hl, components_dropWhile]
    rw [hl] at h0'
    rw [hl, if_neg (List.cons_ne_nil x l), components_takeWhile hc]
    exact ⟨x :: l, rfl, h0', hskip, head_eq_zero_iff hxs⟩

end Text

section Resolution

variable {σ : Type} {d : Disk σ} {sup : SuperPtr → Super} {fp : Fproc} {p p' : Path}

/-- The directories that a list of names leads through, from one that is in hand. -/
def walk (d : Disk σ) (sup : SuperPtr → Super) (fp : Fproc) :
    InodePtr → Name → List Name → M σ (Except Int (InodePtr × Name))
  | rip, last, [] => return .ok (rip, last)
  | rip, string, name :: names => do
    let r ← advance d sup fp d.depth rip string
    putInode d sup rip
    match r with
    | .error e => return .error e
    | .ok newIp => walk d sup fp newIp name names

/-- The path matters to `last_dir` by its names alone. -/
theorem dirLoop_walk {n : Nat} (h0 : 0 ∈ p) (hn : (components p).length ≤ n) (rip : InodePtr) :
    dirLoop d sup fp (n + 1) rip p =
      walk d sup fp rip ((components p).headD (pad [])) (components p).tail := by
  induction n generalizing p rip with
  | zero =>
    obtain ⟨rest, hg, -, htail, hend⟩ := getName_spec h0
    have hnil : components p = [] := List.length_eq_zero_iff.mp (Nat.le_zero.mp hn)
    rw [hnil] at htail ⊢
    unfold dirLoop
    rw [hg, hnil]
    dsimp only
    rw [if_pos (hend.mpr htail)]
    rfl
  | succ n ih =>
    obtain ⟨rest, hg, h0', htail, hend⟩ := getName_spec h0
    unfold dirLoop
    rw [hg]
    dsimp only
    cases ht : (components p).tail with
    | nil =>
      rw [if_pos (hend.mpr (htail.trans ht))]
      rfl
    | cons c cs =>
      have hcs : components rest = c :: cs := htail.trans ht
      have hlen : (components rest).length ≤ n := by
        rw [htail, List.length_tail]
        omega
      have hne : ¬rest.head? = some 0 := fun h => by
        rw [hend.mp h] at hcs
        exact absurd hcs (by simp)
      rw [if_neg hne]
      unfold walk
      refine bind_congr fun r => bind_congr fun _ => ?_
      cases r with
      | error e => rfl
      | ok newIp =>
        have := ih h0' hlen newIp
        rw [hcs] at this
        exact this

theorem length_components (p : Path) : (components p).length ≤ p.length := by
  unfold components
  rw [List.length_map]
  refine (length_fields_le SLASH (text p)).trans ?_
  unfold text
  exact (List.takeWhile_sublist _).length_le

/-- Where a path leads depends on its names, and on whether it starts at the root. -/
theorem lastDir_congr (h0 : 0 ∈ p) (h0' : 0 ∈ p') (hlen : p.length ≤ MAX_PATH)
    (hlen' : p'.length ≤ MAX_PATH) (hroot : p.head? = some SLASH ↔ p'.head? = some SLASH)
    (hnames : components p = components p') : lastDir d sup fp p = lastDir d sup fp p' := by
  have hfuel : ∀ {q : Path}, q.length ≤ MAX_PATH → (components q).length ≤ MAX_PATH + 1 :=
    fun h => ((length_components _).trans h).trans (Nat.le_succ _)
  unfold lastDir
  simp only [dirLoop_walk h0 (hfuel hlen), dirLoop_walk h0' (hfuel hlen'), hnames, hroot]

theorem eatPath_congr (h0 : 0 ∈ p) (h0' : 0 ∈ p') (hlen : p.length ≤ MAX_PATH)
    (hlen' : p'.length ≤ MAX_PATH) (hroot : p.head? = some SLASH ↔ p'.head? = some SLASH)
    (hnames : components p = components p') : eatPath d sup fp p = eatPath d sup fp p' := by
  unfold eatPath
  rw [lastDir_congr h0 h0' hlen hlen' hroot hnames]

/-- One slash more: next to another one, or at the end of a string that is not empty. -/
inductive Slashed : List UInt8 → List UInt8 → Prop
  | repeated (xs ys : List UInt8) : Slashed (xs ++ SLASH :: ys) (xs ++ SLASH :: SLASH :: ys)
  | trailing (x : UInt8) (xs : List UInt8) : Slashed (x :: xs) (x :: xs ++ [SLASH])

theorem Slashed.same {xs ys : List UInt8} (h : Slashed xs ys) :
    fields SLASH xs = fields SLASH ys ∧ xs.head? = ys.head? := by
  cases h with
  | repeated xs ys =>
    refine ⟨?_, ?_⟩
    · rw [fields_append_cons, fields_append_cons, fields_cons_self]
    · cases xs <;> rfl
  | trailing x xs => exact ⟨(fields_append_self SLASH (x :: xs)).symm, rfl⟩

/-- Strings that differ in superfluous slashes only. -/
abbrev SameSlashes : List UInt8 → List UInt8 → Prop := Relation.EqvGen Slashed

theorem SameSlashes.same {xs ys : List UInt8} (h : SameSlashes xs ys) :
    fields SLASH xs = fields SLASH ys ∧ xs.head? = ys.head? := by
  induction h with
  | rel xs ys h => exact h.same
  | refl xs => exact ⟨rfl, rfl⟩
  | symm xs ys _ ih => exact ⟨ih.1.symm, ih.2.symm⟩
  | trans xs ys zs _ _ ih₁ ih₂ => exact ⟨ih₁.1.trans ih₂.1, ih₁.2.trans ih₂.2⟩

theorem head_text (p : Path) : p.head? = some SLASH ↔ (text p).head? = some SLASH := by
  unfold text
  cases p with
  | nil => exact Iff.rfl
  | cons c p =>
    by_cases hc : c = 0
    · rw [List.takeWhile_cons_of_neg (by simpa using hc), hc]
      exact iff_of_false (fun h => absurd (Option.some.inj h) (by decide)) (by decide)
    · rw [List.takeWhile_cons_of_pos (by simpa using hc)]
      exact Iff.rfl

/-- Superfluous slashes make no difference to where a path leads. -/
theorem resolve_sameSlashes (h0 : 0 ∈ p) (h0' : 0 ∈ p') (hlen : p.length ≤ MAX_PATH)
    (hlen' : p'.length ≤ MAX_PATH) (h : SameSlashes (text p) (text p')) :
    lastDir d sup fp p = lastDir d sup fp p' ∧ eatPath d sup fp p = eatPath d sup fp p' := by
  obtain ⟨hfields, hhead⟩ := h.same
  have hnames : components p = components p' := congrArg (List.map pad) hfields
  have hroot : p.head? = some SLASH ↔ p'.head? = some SLASH := by
    rw [head_text, hhead, ← head_text]
  exact ⟨lastDir_congr h0 h0' hlen hlen' hroot hnames,
    eatPath_congr h0 h0' hlen hlen' hroot hnames⟩

end Resolution

section Memory

/-- The size of a data segment. -/
abbrev SEGMENT : Nat := 65536

/-- `while ( (c = *rnp) == '/') rnp++;`, with `user_path` at 0. -/
def skipLeading (mem : Nat → UInt8) : Nat → Nat → Option Nat
  | 0, _ => none
  | n + 1, rnp => if mem rnp = SLASH then skipLeading mem n (rnp + 1) else some rnp

/-- Copy the unparsed path to the array `string`, for as long as there is room in `user_path`. -/
def copyComponent (mem : Nat → UInt8) : Nat → Nat → Name → Name × Nat
  | 0, rnp, np => (np, rnp)
  | room + 1, rnp, np =>
    if mem rnp ≠ SLASH ∧ mem rnp ≠ 0 then
      copyComponent mem room (rnp + 1) (if np.length < NAME_SIZE then np ++ [mem rnp] else np)
    else (np, rnp)

/-- `while (c == '/' && rnp < &user_path[MAX_PATH]) c = *++rnp;`. -/
def skipTrailing (mem : Nat → UInt8) : Nat → Nat → Nat
  | 0, rnp => rnp
  | room + 1, rnp => if mem rnp = SLASH then skipTrailing mem room (rnp + 1) else rnp

/-- `get_name` on memory: what it returns, and where `rnp` points last. `c` always holds the
character there, so that is also the last place that has been read. -/
def getNameAt (mem : Nat → UInt8) (oldName : Nat) : Option (Except Int (Name × Nat) × Nat) :=
  (skipLeading mem SEGMENT oldName).map fun rnp =>
    let r := copyComponent mem (MAX_PATH - rnp) rnp []
    let rnp := skipTrailing mem (MAX_PATH - r.2) r.2
    let string := r.1 ++ List.replicate (NAME_SIZE - r.1.length) 0
    (if rnp ≥ MAX_PATH then .error E_LONG_STRING else .ok (string, rnp), rnp)

/-- The calls of `get_name` by `last_dir`, as long as every directory is found: the names, or the
error, and the last place that has been read. -/
def scanNames (mem : Nat → UInt8) : Nat → Nat → Option (Except Int (List Name) × Nat)
  | 0, _ => none
  | n + 1, path =>
    match getNameAt mem path with
    | none => none
    | some (.error e, last) => some (.error e, last)
    | some (.ok (string, newName), last) =>
      if mem newName = 0 then some (.ok [string], last)
      else (scanNames mem n newName).map fun r => (r.1.map (string :: ·), max last r.2)

/-- What is in memory in a number of places. -/
def bytes (mem : Nat → UInt8) : Nat → Nat → List UInt8
  | 0, _ => []
  | n + 1, i => mem i :: bytes mem n (i + 1)

/-- What is left of `user_path` from a place on. -/
def restAt (mem : Nat → UInt8) (i : Nat) : Path := bytes mem (MAX_PATH - i) i

variable {mem : Nat → UInt8} {n i j last room : Nat} {np np' : Name}

theorem bytes_succ (mem : Nat → UInt8) (n i : Nat) :
    bytes mem (n + 1) i = mem i :: bytes mem n (i + 1) := rfl

theorem skipLeading_spec (h : skipLeading mem n i = some j) (room : Nat) :
    i ≤ j ∧ mem j ≠ SLASH ∧
      (bytes mem room i).dropWhile (· = SLASH) = bytes mem (i + room - j) j := by
  induction n generalizing i room with
  | zero => exact nomatch h
  | succ n ih =>
    unfold skipLeading at h
    by_cases hs : mem i = SLASH
    · rw [if_pos hs] at h
      obtain ⟨hle, hj, hrest⟩ := ih h (room - 1)
      refine ⟨by omega, hj, ?_⟩
      cases room with
      | zero =>
        rw [show i + 0 - j = 0 by omega]
        rfl
      | succ room =>
        rw [bytes_succ, List.dropWhile_cons_of_pos (by simpa using hs)]
        rw [show i + (room + 1) - j = i + 1 + (room + 1 - 1) - j by omega]
        exact hrest
    · rw [if_neg hs, Option.some.injEq] at h
      subst h
      refine ⟨le_refl _, hs, ?_⟩
      rw [Nat.add_sub_cancel_left]
      cases room with
      | zero => rfl
      | succ room =>
        rw [bytes_succ]
        exact List.dropWhile_cons_of_neg (by simpa using hs)

theorem skipTrailing_spec (mem : Nat → UInt8) (room i : Nat) :
    i ≤ skipTrailing mem room i ∧
      (skipTrailing mem room i < i + room → mem (skipTrailing mem room i) ≠ SLASH) ∧
      (bytes mem room i).dropWhile (· = SLASH) =
        bytes mem (i + room - skipTrailing mem room i) (skipTrailing mem room i) := by
  induction room generalizing i with
  | zero => exact ⟨le_refl _, fun h => absurd h (lt_irrefl _), by simp [skipTrailing, bytes]⟩
  | succ room ih =>
    unfold skipTrailing
    rw [bytes_succ]
    by_cases hs : mem i = SLASH
    · obtain ⟨hle, hj, hrest⟩ := ih (i + 1)
      rw [if_pos hs, List.dropWhile_cons_of_pos (by simpa using hs)]
      refine ⟨by omega, fun h => hj (by omega), ?_⟩
      rw [hrest, show i + 1 + room = i + (room + 1) by omega]
    · rw [if_neg hs, List.dropWhile_cons_of_neg (by simpa using hs), Nat.add_sub_cancel_left]
      exact ⟨le_refl _, fun _ => hs, rfl⟩

theorem copyComponent_spec (mem : Nat → UInt8) (room i : Nat) (np : Name)
    (hnp : np.length ≤ NAME_SIZE) :
    i ≤ (copyComponent mem room i np).2 ∧
      ((copyComponent mem room i np).2 = i → 0 < room → InName (mem i) = false) ∧
      (copyComponent mem room i np).1 =
        (np ++ (bytes mem room i).takeWhile InName).take NAME_SIZE ∧
      (bytes mem room i).dropWhile InName =
        bytes mem (i + room - (copyComponent mem room i np).2)
          (copyComponent mem room i np).2 := by
  induction room generalizing i np with
  | zero =>
    refine ⟨le_refl _, fun _ h => absurd h (lt_irrefl _), ?_, by simp [copyComponent, bytes]⟩
    simp [copyComponent, bytes, List.take_of_length_le hnp]
  | succ room ih =>
    unfold copyComponent
    rw [bytes_succ]
    by_cases hc : mem i ≠ SLASH ∧ mem i ≠ 0
    · have hin : InName (mem i) = true := by simpa [InName] using hc
      have hlen : (if np.length < NAME_SIZE then np ++ [mem i] else np).length ≤ NAME_SIZE := by
        split
        · rw [List.length_append, List.length_singleton]
          omega
        · exact hnp
      obtain ⟨hle, -, hname, hrest⟩ := ih (i + 1) _ hlen
      rw [if_pos hc, List.takeWhile_cons_of_pos hin, List.dropWhile_cons_of_pos hin]
      refine ⟨by omega, fun h _ => by omega, ?_, ?_⟩
      · rw [hname]
        split
        · rw [List.append_assoc, List.singleton_append]
        · have hfull : np.length = NAME_SIZE := by omega
          rw [List.take_append_of_le_length (by omega), List.take_append_of_le_length (by omega)]
      · rw [hrest, show i + 1 + room = i + (room + 1) by omega]
    · have hin : InName (mem i) = false := by
        rw [Bool.eq_false_iff]
        simpa [InName] using hc
      rw [if_neg hc, List.takeWhile_cons_of_neg (by rw [hin]; decide),
        List.dropWhile_cons_of_neg (by rw [hin]; decide), List.append_nil,
        List.take_of_length_le hnp, Nat.add_sub_cancel_left]
      exact ⟨le_refl _, fun _ _ => hin, rfl, rfl⟩

theorem pad_take (c : List UInt8) : c.take NAME_SIZE ++
    List.replicate (NAME_SIZE - (c.take NAME_SIZE).length) 0 = pad c := by
  unfold pad
  rw [List.take_append, List.take_replicate, List.length_take]
  congr 2
  omega

/-- On memory `get_name` does what it does on the array alone, and reads up to where it stops. -/
theorem getNameAt_spec {r : Except Int (Name × Nat)} (h : getNameAt mem i = some (r, last)) :
    getName (restAt mem i) = r.map (fun x => (x.1, restAt mem x.2)) ∧
      (r = .error E_LONG_STRING ∧ MAX_PATH ≤ last ∨
        ∃ string, r = .ok (string, last) ∧ last < MAX_PATH ∧ i ≤ last ∧
          (mem last ≠ 0 → i < last)) := by
  obtain ⟨j, hj, he⟩ := Option.map_eq_some_iff.mp h
  obtain ⟨hij, hjs, hdrop⟩ := skipLeading_spec hj (MAX_PATH - i)
  obtain ⟨hjk, hstay, hname, hdrop'⟩ := copyComponent_spec mem (MAX_PATH - j) j []
    (Nat.zero_le _)
  rw [show i + (MAX_PATH - i) - j = MAX_PATH - j by omega] at hdrop
  generalize copyComponent mem (MAX_PATH - j) j [] = c at he hjk hstay hname hdrop'
  obtain ⟨hkl, hls, hdrop''⟩ := skipTrailing_spec mem (MAX_PATH - c.2) c.2
  rw [show j + (MAX_PATH - j) - c.2 = MAX_PATH - c.2 by omega] at hdrop'
  generalize hl : skipTrailing mem (MAX_PATH - c.2) c.2 = l at he hkl hls hdrop''
  rw [show c.2 + (MAX_PATH - c.2) - l = MAX_PATH - l by omega] at hdrop''
  dsimp only at he
  rw [hl] at he
  obtain ⟨rfl, rfl⟩ := Prod.mk.inj he
  have hget : getName (restAt mem i) = if restAt mem l = [] then .error E_LONG_STRING
      else .ok (pad ((restAt mem j).takeWhile InName), restAt mem l) := by
    rw [getName_eq]
    unfold restAt
    dsimp only
    rw [hdrop, hdrop', hdrop'']
  have hnil : restAt mem l = [] ↔ l ≥ MAX_PATH := by
    unfold restAt
    cases hn : MAX_PATH - l with
    | zero => exact iff_of_true rfl (by omega)
    | succ n => exact iff_of_false (by simp [bytes]) (by omega)
  rw [List.nil_append] at hname
  have hpad : c.1 ++ List.replicate (NAME_SIZE - c.1.length) 0 =
      pad ((restAt mem j).takeWhile InName) := by
    rw [hname]
    exact pad_take _
  by_cases hlong : l ≥ MAX_PATH
  · rw [if_pos hlong, hget, if_pos (hnil.mpr hlong)]
    exact ⟨rfl, Or.inl ⟨rfl, hlong⟩⟩
  · rw [if_neg hlong, hget, if_neg (mt hnil.mp hlong), ← hpad]
    refine ⟨rfl, Or.inr ⟨_, rfl, by omega, ?_, fun hne => ?_⟩⟩
    · omega
    · by_contra hle
      obtain ⟨rfl, rfl, hc⟩ : j = i ∧ l = i ∧ c.2 = i := by omega
      have hin := hstay hc (by omega)
      unfold InName at hin
      simp [hjs, hne] at hin

theorem mem_bytes {c : UInt8} : c ∈ bytes mem n i ↔ ∃ k, i ≤ k ∧ k < i + n ∧ mem k = c := by
  induction n generalizing i with
  | zero => exact iff_of_false List.not_mem_nil fun ⟨k, h, h', _⟩ => by omega
  | succ n ih =>
    rw [bytes_succ, List.mem_cons, ih]
    constructor
    · rintro (rfl | ⟨k, hk, hk', rfl⟩)
      · exact ⟨i, le_refl i, by omega, rfl⟩
      · exact ⟨k, by omega, by omega, rfl⟩
    · rintro ⟨k, hk, hk', rfl⟩
      by_cases he : k = i
      · exact Or.inl (by rw [he])
      · exact Or.inr ⟨k, by omega, by omega, rfl⟩

/-- Leading slashes come to an end in the segment. -/
theorem skipLeading_isSome {k : Nat} (hik : i ≤ k) (hkn : k < i + n) (hk : mem k ≠ SLASH) :
    (skipLeading mem n i).isSome := by
  induction n generalizing i with
  | zero => omega
  | succ n ih =>
    unfold skipLeading
    split
    · rename_i hs
      have hne : i ≠ k := fun he => hk (he ▸ hs)
      exact ih (by omega) (by omega)
    · rfl

theorem getNameAt_isSome {k : Nat} (hik : i ≤ k) (hk' : k < i + SEGMENT) (hk : mem k ≠ SLASH) :
    ∃ r last, getNameAt mem i = some (r, last) := by
  obtain ⟨j, hj⟩ := Option.isSome_iff_exists.mp (skipLeading_isSome hik hk' hk)
  exact ⟨_, _, congrArg (Option.map _) hj⟩

/-- The string in `user_path` is ended by a NUL. -/
def Terminated (mem : Nat → UInt8) : Prop := ∃ k < MAX_PATH, mem k = 0

theorem restAt_head (h : i < MAX_PATH) : (restAt mem i).head? = some (mem i) := by
  unfold restAt
  obtain ⟨n, hn⟩ := Nat.exists_eq_add_of_lt h
  rw [show MAX_PATH - i = n + 1 by omega]
  rfl

/-- Before a NUL `get_name` gives the next name. -/
theorem getNameAt_terminated (h0 : 0 ∈ restAt mem i) : ∃ last,
    getNameAt mem i = some (.ok ((components (restAt mem i)).headD (pad []), last), last) ∧
      last < MAX_PATH ∧ 0 ∈ restAt mem last ∧
      components (restAt mem last) = (components (restAt mem i)).tail ∧
      (mem last = 0 ↔ components (restAt mem last) = []) := by
  obtain ⟨k, hik, hk, hmem⟩ := mem_bytes.mp h0
  have hmax : MAX_PATH = 128 := rfl
  have hseg : SEGMENT = 65536 := rfl
  obtain ⟨r, last, hg⟩ := getNameAt_isSome hik (by omega) (hmem ▸ by decide : mem k ≠ SLASH)
  obtain ⟨hlist, hcase⟩ := getNameAt_spec hg
  obtain ⟨rest, hspec, h0', htail, hend⟩ := getName_spec h0
  rw [hspec] at hlist
  rcases hcase with ⟨rfl, -⟩ | ⟨string, rfl, hlt, -⟩
  · exact nomatch hlist
  · obtain ⟨hs, hr⟩ := Prod.mk.inj (Except.ok.inj hlist)
    dsimp only at hs hr
    subst hr
    rw [restAt_head hlt, Option.some.injEq] at hend
    exact ⟨last, hs ▸ hg, hlt, h0', htail, hend⟩

/-- Before a NUL the scan finds the names, and reads no further than the NUL. -/
theorem scanNames_terminated (h0 : 0 ∈ restAt mem i)
    (hn : (components (restAt mem i)).length ≤ n) :
    ∃ last < MAX_PATH, scanNames mem (n + 1) i = some (.ok (names (restAt mem i)), last) := by
  induction n generalizing i with
  | zero =>
    obtain ⟨last, hg, hlt, -, htail, hend⟩ := getNameAt_terminated h0
    have hnil : components (restAt mem i) = [] := List.length_eq_zero_iff.mp (Nat.le_zero.mp hn)
    unfold scanNames names
    rw [hnil] at htail
    rw [hg, hnil]
    exact ⟨last, hlt, if_pos (hend.mpr htail)⟩
  | succ n ih =>
    obtain ⟨last, hg, hlt, h0', htail, hend⟩ := getNameAt_terminated h0
    unfold scanNames names
    rw [hg, ← htail]
    dsimp only
    by_cases hz : mem last = 0
    · rw [if_pos hz, hend.mp hz]
      exact ⟨last, hlt, rfl⟩
    · have hlen : (components (restAt mem last)).length ≤ n := by
        rw [htail, List.length_tail]
        omega
      obtain ⟨last', hlt', hscan⟩ := ih h0' hlen
      obtain ⟨c, cs, hcs⟩ := List.exists_cons_of_ne_nil (mt hend.mpr hz)
      rw [if_neg hz, hscan]
      refine ⟨max last last', max_lt hlt hlt', ?_⟩
      unfold names
      rw [hcs]
      rfl

/-- What is left of an array without a NUL has none. -/
theorem not_mem_restAt (h : i ≤ j) (h0 : 0 ∉ restAt mem i) : 0 ∉ restAt mem j := by
  intro hm
  obtain ⟨k, hjk, hk, hmem⟩ := mem_bytes.mp hm
  exact h0 (mem_bytes.mpr ⟨k, by omega, by omega, hmem⟩)

/-- Where there is no NUL the scan stops behind the array, with an error. -/
theorem scanNames_unterminated (h0 : 0 ∉ restAt mem i) {r : Except Int (List Name)}
    (h : scanNames mem n i = some (r, last)) : r = .error E_LONG_STRING ∧ MAX_PATH ≤ last := by
  induction n generalizing i r last with
  | zero => exact nomatch h
  | succ n ih =>
    unfold scanNames at h
    cases hg : getNameAt mem i with
    | none =>
      rw [hg] at h
      exact nomatch h
    | some x =>
      obtain ⟨r', last'⟩ := x
      rw [hg] at h
      rcases (getNameAt_spec hg).2 with ⟨rfl, hlong⟩ | ⟨string, rfl, hlt, hle, -⟩
      · obtain ⟨rfl, rfl⟩ := Prod.mk.inj (Option.some.inj h)
        exact ⟨rfl, hlong⟩
      · have hz : mem last' ≠ 0 := fun hz =>
          h0 (mem_bytes.mpr ⟨last', hle, by omega, hz⟩)
        dsimp only at h
        rw [if_neg hz] at h
        obtain ⟨⟨r', last''⟩, hscan, he⟩ := Option.map_eq_some_iff.mp h
        obtain ⟨rfl, rfl⟩ := Prod.mk.inj he
        obtain ⟨rfl, hlong⟩ := ih (not_mem_restAt hle h0) hscan
        exact ⟨rfl, le_max_of_le_right hlong⟩

/-- The scan ends unless everything that follows the array is slashes. -/
theorem scanNames_isSome {k : Nat} (hik : i ≤ MAX_PATH) (hk : MAX_PATH ≤ k) (hks : k < SEGMENT)
    (hmem : mem k ≠ SLASH) (hn : MAX_PATH - i < n) : (scanNames mem n i).isSome := by
  induction n generalizing i with
  | zero => omega
  | succ n ih =>
    obtain ⟨r, last, hg⟩ := getNameAt_isSome (by omega : i ≤ k) (by omega) hmem
    unfold scanNames
    rw [hg]
    rcases (getNameAt_spec hg).2 with ⟨rfl, -⟩ | ⟨string, rfl, hlt, -, hadv⟩
    · rfl
    · dsimp only
      split
      · rfl
      · rename_i hz
        rw [Option.isSome_map]
        have := hadv hz
        exact ih (by omega) (by omega)

theorem terminated_iff : Terminated mem ↔ 0 ∈ restAt mem 0 := by
  unfold restAt
  rw [mem_bytes]
  constructor
  · rintro ⟨k, hk, hmem⟩
    exact ⟨k, Nat.zero_le k, by omega, hmem⟩
  · rintro ⟨k, -, hk, hmem⟩
    exact ⟨k, by omega, hmem⟩

theorem length_restAt (mem : Nat → UInt8) : (restAt mem 0).length = MAX_PATH := by
  have hlen : ∀ n i, (bytes mem n i).length = n := by
    intro n
    induction n with
    | zero => exact fun _ => rfl
    | succ n ih => exact fun i => congrArg Nat.succ (ih (i + 1))
  exact hlen MAX_PATH 0

/-- The scan ends, reads the array only, and gives the names, or an error when there is no NUL. -/
def Parsed (mem : Nat → UInt8) : Prop :=
  ∃ r last, scanNames mem (MAX_PATH + 2) 0 = some (r, last) ∧ last < MAX_PATH ∧
    (Terminated mem → r = .ok (names (restAt mem 0))) ∧
    (¬Terminated mem → r = .error E_LONG_STRING)

theorem parsed_iff (mem : Nat → UInt8) : Parsed mem ↔ Terminated mem := by
  constructor
  · rintro ⟨r, last, hscan, hlt, -, -⟩
    by_contra hn
    have hlong := (scanNames_unterminated (mt terminated_iff.mpr hn) hscan).2
    omega
  · intro ht
    have hlen : (components (restAt mem 0)).length ≤ MAX_PATH + 1 := by
      have h₁ := length_components (restAt mem 0)
      have h₂ := length_restAt mem
      omega
    obtain ⟨last, hlt, hscan⟩ := scanNames_terminated (terminated_iff.mp ht) hlen
    exact ⟨_, last, hscan, hlt, fun _ => rfl, fun hn => absurd ht hn⟩

/-- For every content of `user_path` and of what lies behind it: the names are found without a look
behind the array exactly when there is a NUL in it. When there is none the path is refused, but
only after a look behind the array. Strings that differ in superfluous slashes lead to the same
places. -/
theorem path_parsing (mem : Nat → UInt8) : (Parsed mem ↔ Terminated mem) ∧
    (¬Terminated mem → (∃ k, MAX_PATH ≤ k ∧ k < SEGMENT ∧ mem k ≠ SLASH) →
      ∃ last, scanNames mem (MAX_PATH + 2) 0 = some (.error E_LONG_STRING, last) ∧
        MAX_PATH ≤ last) ∧
    ∀ mem' : Nat → UInt8, Terminated mem → Terminated mem' →
      SameSlashes (text (restAt mem 0)) (text (restAt mem' 0)) →
      ∀ (σ : Type) (d : Disk σ) (sup : SuperPtr → Super) (fp : Fproc),
        lastDir d sup fp (restAt mem 0) = lastDir d sup fp (restAt mem' 0) ∧
          eatPath d sup fp (restAt mem 0) = eatPath d sup fp (restAt mem' 0) := by
  refine ⟨parsed_iff mem, ?_, ?_⟩
  · rintro hn ⟨k, hk, hks, hmem⟩
    obtain ⟨⟨r, last⟩, hscan⟩ := Option.isSome_iff_exists.mp
      (scanNames_isSome (n := MAX_PATH + 2) (Nat.zero_le _) hk hks hmem (by omega))
    obtain ⟨rfl, hlong⟩ := scanNames_unterminated (mt terminated_iff.mpr hn) hscan
    exact ⟨last, hscan, hlong⟩
  · intro mem' ht ht' hsame σ d sup fp
    exact resolve_sameSlashes (terminated_iff.mp ht) (terminated_iff.mp ht') (length_restAt mem).le
      (length_restAt mem').le hsame

/-- A name of which no end has been sent is looked for behind the array. -/
theorem unterminated_not_parsed :
    scanNames (fun _ => 97) (MAX_PATH + 2) 0 = some (.error E_LONG_STRING, 128) ∧
      ¬Parsed fun _ => 97 := by
  have hne : (97 : UInt8) ≠ 0 := by decide
  exact ⟨rfl, fun h => Exists.elim ((parsed_iff _).mp h) fun _ h => hne h.2⟩

end Memory

end Minix.FS.Inodes
