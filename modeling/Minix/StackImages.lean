import Minix.Lib.Layout
import Mathlib.Algebra.Order.Group.Nat

/-!
# The initial stack of a program

`execve` builds the stack of the new program in a buffer of its own, with pointers that are
relative to its start. `patch_ptr` relocates them in the copy that the memory manager has. A store
outside of a buffer ends the model.
-/

namespace Minix.StackImages

open Layout

/-- maximum initial stack size for EXEC -/
abbrev MAX_ISTACK_BYTES : Nat := 1024

/-- The buffer `stack`. -/
abbrev Stack : Type := Fin MAX_ISTACK_BYTES → UInt8

/-- The bytes of a string before its NUL. -/
abbrev CString : Type := { l : List UInt8 // (0 : UInt8) ∉ l }

/-- How `execve` ends without a call: with an error, or with a store outside of the buffer. -/
inductive Stop where
  | e2big
  | overrun
  deriving DecidableEq

/-- A store that may miss the buffer. -/
def inside {α : Type} : Option α → Except Stop α
  | some a => .ok a
  | none => .error .overrun

/-- `p >= &stack[MAX_ISTACK_BYTES]`, where `p` has an offset and `stack` is at address `stk`. An
address has 16 bits. -/
def PastEnd (stk o : Nat) : Prop := (stk + MAX_ISTACK_BYTES) % 65536 ≤ (stk + o) % 65536

instance (stk o : Nat) : Decidable (PastEnd stk o) := inferInstanceAs (Decidable (_ ≤ _))

/-- Copy a string to `hp`. There is a check behind every character, and none behind the NUL. -/
def copyString (stk : Nat) : List UInt8 → Stack → (hp : Nat) → Except Stop (Stack × Nat)
  | [], b, hp => do
    let b ← inside (put b hp 0)
    return (b, hp + 1)
  | c :: p, b, hp => do
    let b ← inside (put b hp c)
    if PastEnd stk (hp + 1) then .error .e2big else copyString stk p b (hp + 1)

/-- Prepare pointers from `ap` and strings from `hp`. -/
def copyStrings (stk : Nat) : List CString → Stack → (ap hp : Nat) →
    Except Stop (Stack × Nat × Nat)
  | [], b, ap, hp => return (b, ap, hp)
  | s :: ss, b, ap, hp => do
    let b ← inside (putWord b ap hp)
    let (b, hp) ← copyString stk s.val b hp
    copyStrings stk ss b (ap + 2) hp

/-- The offset of the strings as `execve` computes it. -/
def firstByte (argv envp : List CString) : Nat := (argv.length + envp.length + 3) * 2 % 65536

/-- `execve`, up to the call of the memory manager: the number of bytes that it is told of, and the
buffer, which held `b` before. -/
def execve (stk : Nat) (argv envp : List CString) (b : Stack) : Except Stop (Nat × Stack) := do
  if PastEnd stk (firstByte argv envp + (argv.length + envp.length)) then .error .e2big
  else
    let b ← inside (putWord b 0 argv.length)
    let (b, ap, hp) ← copyStrings stk argv b 2 (firstByte argv envp)
    let b ← inside (putWord b ap 0)
    let (b, ap, hp) ← copyStrings stk envp b (ap + 2) hp
    let b ← inside (putWord b ap 0)
    return ((hp + 2 - 1) / 2 * 2, b)

/-- The loop of `patch_ptr`, which ends after two null words; none is a load or a store outside of
the buffer, or a loop that goes on. -/
def patchFrom (base : Nat) : (fuel : Nat) → (ap flag : Nat) → Stack → Option Stack
  | 0, _, _, _ => none
  | fuel + 1, ap, flag, stack =>
    if ¬flag < 2 then some stack
    else if MAX_ISTACK_BYTES ≤ ap then some stack -- too bad
    else do
      let v ← wordAt stack ap
      if v ≠ 0 then
        let stack ← putWord stack ap ((v + base) % 65536)
        patchFrom base fuel (ap + 2) flag stack
      else patchFrom base fuel (ap + 2) (flag + 1) stack

/-- `patch_ptr`, from `argv[0]` on. -/
def patchPtr (stack : Stack) (base : Nat) : Option Stack := patchFrom base 513 2 0 stack

/-- The buffer of the memory manager after the first bytes of an image have been copied to it. -/
def received (bytes : Nat) (image mbuf : Stack) : Stack := fun i =>
  if i.val < bytes then image i else mbuf i

/-! ## What an image should be -/

/-- The strings one after the other, each with a NUL. -/
def strings (ss : List CString) : List UInt8 := ss.flatMap fun s => s.val ++ [0]

/-- The offsets of strings that begin at `o`. -/
def offsets : (o : Nat) → List CString → List Nat
  | _, [] => []
  | o, s :: ss => o :: offsets (o + s.val.length + 1) ss

/-- The offset of the strings in an image. -/
def start (argv envp : List CString) : Nat := 2 * (argv.length + envp.length + 3)

/-- The words at the start of an image: the number of arguments, their places, a null, the places of
the environment, and a null. -/
def words (argv envp : List CString) (base : Nat) : List Nat :=
  let place := fun o => (base + o) % 65536
  argv.length :: ((offsets (start argv envp) argv).map place ++ 0 ::
    ((offsets (start argv envp + (strings argv).length) envp).map place ++ [0]))

/-- An image for a stack at `base`: the words, and then the strings. -/
def image (argv envp : List CString) (base : Nat) : List UInt8 :=
  (words argv envp base).flatMap wordBytes ++ (strings argv ++ strings envp)

/-! ## The strings -/

/-- The bytes of two ranges are the only ones that change. -/
def SameBut (i k i' k' : Nat) (b b' : Stack) : Prop :=
  ∀ j, (j < i ∨ k ≤ j) → (j < i' ∨ k' ≤ j) → byteAt b' j = byteAt b j

variable {stk : Nat} {b b' : Stack} {ap hp : Nat} {p : List UInt8} {ss : List CString}

/-- A step that has gone well is followed by the next. -/
theorem ok_bind {α β : Type} (a : α) (f : α → Except Stop β) : (Except.ok a >>= f) = f a := rfl

/-- Where a step stops, the rest is not run. -/
theorem error_bind {α β : Type} (e : Stop) (f : α → Except Stop β) :
    (Except.error e >>= f) = .error e := rfl

/-- A byte below the end of the buffer is stored. -/
theorem inside_put {i : Nat} (h : i < MAX_ISTACK_BYTES) (b : Stack) (x : UInt8) :
    ∃ b', inside (put b i x) = .ok b' ∧ put b i x = some b' := by
  obtain ⟨b', hb⟩ := Option.isSome_iff_exists.mp ((put_isSome (b := b) (x := x)).mpr h)
  exact ⟨b', by rw [hb]; rfl, hb⟩

/-- So is a word. -/
theorem inside_putWord {i : Nat} (h : i + 1 < MAX_ISTACK_BYTES) (b : Stack) (w : Nat) :
    ∃ b', inside (putWord b i w) = .ok b' ∧ putWord b i w = some b' := by
  obtain ⟨b', hb⟩ := Option.isSome_iff_exists.mp ((putWord_isSome (b := b) (w := w)).mpr h)
  exact ⟨b', by rw [hb]; rfl, hb⟩

/-- A byte behind the end of the buffer is an overrun. -/
theorem outside_put {i : Nat} (h : MAX_ISTACK_BYTES ≤ i) (b : Stack) (x : UInt8) :
    inside (put b i x) = .error .overrun := by
  unfold put
  rw [dif_neg (Nat.not_lt.mpr h)]
  rfl

/-- So is a word of which a byte lies there. -/
theorem outside_putWord {i : Nat} (h : MAX_ISTACK_BYTES ≤ i + 1) (b : Stack) (w : Nat) :
    inside (putWord b i w) = .error .overrun := by
  have hnone : putWord b i w = none :=
    Option.not_isSome_iff_eq_none.mp fun hs => absurd (putWord_isSome.mp hs) (Nat.not_lt.mpr h)
  rw [hnone]
  rfl

/-- The end of the buffer, as it is seen from inside. -/
theorem pastEnd_iff (hstk : stk + MAX_ISTACK_BYTES < 65536) {o : Nat} (ho : o ≤ MAX_ISTACK_BYTES) :
    PastEnd stk o ↔ o = MAX_ISTACK_BYTES := by
  unfold PastEnd
  simp only [MAX_ISTACK_BYTES] at *
  omega

/-- A string that ends in the buffer, or whose last character is found to be beyond it. -/
theorem copyString_spec (hstk : stk + MAX_ISTACK_BYTES < 65536) (hhp : hp < MAX_ISTACK_BYTES) :
    if hp + p.length < MAX_ISTACK_BYTES then
      ∃ b', copyString stk p b hp = .ok (b', hp + p.length + 1) ∧ Holds b' hp (p ++ [0]) ∧
        SameOutside hp (hp + p.length + 1) b b'
    else copyString stk p b hp = .error .e2big := by
  induction p generalizing b hp with
  | nil =>
    obtain ⟨b', he, hb⟩ := inside_put hhp b 0
    change if hp < MAX_ISTACK_BYTES then _ else _
    rw [if_pos hhp]
    refine ⟨b', ?_, ?_, put_same hb⟩
    · rw [copyString, he, ok_bind]
      rfl
    · refine Holds.cons.mpr ⟨?_, Holds.nil⟩
      rw [byteAt_put hb, if_pos rfl]
  | cons c p ih =>
    obtain ⟨b₁, he, hb⟩ := inside_put hhp b c
    have hstep : copyString stk (c :: p) b hp =
        if PastEnd stk (hp + 1) then .error .e2big else copyString stk p b₁ (hp + 1) := by
      rw [copyString, he, ok_bind]
    rw [hstep]
    simp only [pastEnd_iff hstk hhp, List.length_cons]
    by_cases hend : hp + 1 = MAX_ISTACK_BYTES
    · rw [if_pos hend, if_neg (by omega)]
    · rw [if_neg hend]
      have hrest := @ih b₁ (hp + 1) (by omega)
      rw [show hp + 1 + p.length = hp + (p.length + 1) by omega] at hrest
      split
      · rename_i hfit
        rw [if_pos hfit] at hrest
        obtain ⟨b', hrun, hheld, hsame⟩ := hrest
        refine ⟨b', hrun, Holds.cons.mpr ⟨?_, hheld⟩,
          ((put_same hb).mono le_rfl (by omega)).trans (hsame.mono (by omega) le_rfl)⟩
        rw [hsame hp (by omega), byteAt_put hb, if_pos rfl]
      · rename_i hover
        rwa [if_neg hover] at hrest

/-- And so is a string that begins there. -/
theorem copyString_outside (hhp : MAX_ISTACK_BYTES ≤ hp) :
    copyString stk p b hp = .error .overrun := by
  cases p with
  | nil => rw [copyString, outside_put hhp, error_bind]
  | cons c p => rw [copyString, outside_put hhp, error_bind]

/-- The strings and their pointers end in the buffer. -/
def Fit (ss : List CString) (ap hp : Nat) : Prop :=
  ss = [] ∨ ap + 2 * ss.length ≤ MAX_ISTACK_BYTES ∧ hp + (strings ss).length ≤ MAX_ISTACK_BYTES

/-- A string begins in the buffer, as its pointer does, and its last character would be at the end
or beyond. -/
def Caught (ss : List CString) (ap hp : Nat) : Prop :=
  ∃ pre s post, ss = pre ++ s :: post ∧ ap + 2 * pre.length + 2 ≤ MAX_ISTACK_BYTES ∧
    hp + (strings pre).length < MAX_ISTACK_BYTES ∧
    MAX_ISTACK_BYTES ≤ hp + (strings pre).length + s.val.length

/-- What the pointers and the strings are when they end in the buffer. -/
structure Copied (ss : List CString) (ap hp : Nat) (b b' : Stack) : Prop where
  pointers : Holds b' ap ((offsets hp ss).flatMap wordBytes)
  bytes : Holds b' hp (strings ss)
  rest : SameBut ap (ap + 2 * ss.length) hp (hp + (strings ss).length) b b'

/-- What comes of the loop over the strings. -/
def Outcome (ss : List CString) (ap hp : Nat) (b : Stack) : Except Stop (Stack × Nat × Nat) → Prop
  | .ok (b', ap', hp') => Fit ss ap hp ∧ ap' = ap + 2 * ss.length ∧
      hp' = hp + (strings ss).length ∧ (ap + 2 * ss.length ≤ hp → Copied ss ap hp b b')
  | .error .e2big => Caught ss ap hp
  | .error .overrun => ¬Fit ss ap hp ∧ ¬Caught ss ap hp

/-- The strings of a list, each with its final zero. -/
@[simp] theorem strings_cons (s : CString) (ss : List CString) :
    strings (s :: ss) = s.val ++ 0 :: strings ss := by
  unfold strings
  rw [List.flatMap_cons, List.append_assoc, List.singleton_append]

/-- How many bytes they take. -/
theorem length_strings_cons (s : CString) (ss : List CString) :
    (strings (s :: ss)).length = s.val.length + 1 + (strings ss).length := by
  rw [strings_cons, List.length_append, List.length_cons]
  omega

/-- The strings of two lists stand one after the other. -/
theorem strings_append (ss ts : List CString) : strings (ss ++ ts) = strings ss ++ strings ts :=
  List.flatMap_append

/-- Every string takes a byte. -/
theorem length_le_strings (ss : List CString) : ss.length ≤ (strings ss).length := by
  induction ss with
  | nil => exact Nat.zero_le _
  | cons s ss ih =>
    rw [length_strings_cons, List.length_cons]
    omega

/-- A list fits when its first string does and the rest fits behind it. -/
theorem Fit.cons {s : CString} (hs : hp + s.val.length < MAX_ISTACK_BYTES)
    (hap : ap + 2 ≤ MAX_ISTACK_BYTES) :
    Fit (s :: ss) ap hp ↔ Fit ss (ap + 2) (hp + s.val.length + 1) := by
  unfold Fit
  rw [length_strings_cons, List.length_cons]
  constructor
  · rintro (h | h)
    · cases h
    · exact Or.inr (by omega)
  · rintro (rfl | h)
    · refine Or.inr ?_
      simp only [List.length_nil, show strings [] = [] from rfl]
      omega
    · exact Or.inr (by omega)

/-- And it is refused when the rest is. -/
theorem Caught.cons {s : CString} (hs : hp + s.val.length < MAX_ISTACK_BYTES) :
    Caught (s :: ss) ap hp ↔ Caught ss (ap + 2) (hp + s.val.length + 1) := by
  constructor
  · rintro ⟨pre, t, post, he, hap, hlt, hend⟩
    cases pre with
    | nil =>
      obtain ⟨rfl, rfl⟩ := List.cons.inj he
      exact absurd hend (Nat.not_le.mpr hs)
    | cons u pre =>
      obtain ⟨rfl, rfl⟩ := List.cons.inj he
      rw [length_strings_cons] at hlt hend
      rw [List.length_cons] at hap
      exact ⟨pre, t, post, rfl, by omega, by omega, by omega⟩
  · rintro ⟨pre, t, post, rfl, hap, hlt, hend⟩
    refine ⟨s :: pre, t, post, rfl, ?_⟩
    rw [length_strings_cons, List.length_cons]
    omega

/-- A word takes two bytes. -/
theorem length_flatMap_wordBytes (l : List Nat) : (l.flatMap wordBytes).length = 2 * l.length := by
  induction l with
  | nil => rfl
  | cons w l ih =>
    rw [List.flatMap_cons, List.length_append, ih, List.length_cons]
    change 2 + _ = _
    omega

/-- There is an offset for each string. -/
theorem length_offsets (o : Nat) (ss : List CString) : (offsets o ss).length = ss.length := by
  induction ss generalizing o with
  | nil => rfl
  | cons s ss ih => rw [offsets, List.length_cons, ih, List.length_cons]

/-- One more string, before the others. -/
theorem Copied.cons {s : CString} {b₁ b₂ : Stack} (hd : ap + 2 * (ss.length + 1) ≤ hp)
    (hw : putWord b ap hp = some b₁) (hs : Holds b₂ hp (s.val ++ [0]))
    (hsame : SameOutside hp (hp + s.val.length + 1) b₁ b₂)
    (h : Copied ss (ap + 2) (hp + s.val.length + 1) b₂ b') : Copied (s :: ss) ap hp b b' := by
  obtain ⟨hword, hwsame⟩ := putWord_holds hw
  have hlen : (s.val ++ [0]).length = s.val.length + 1 := List.length_append
  have hwlen : (wordBytes hp).length = 2 := rfl
  refine ⟨?_, ?_, fun j hj hj' => ?_⟩
  · rw [offsets, List.flatMap_cons]
    refine Holds.append.mpr ⟨?_, h.pointers⟩
    refine (hword.outside hsame (Or.inl (by omega))).congr fun j hlo hhi => ?_
    exact h.rest j (by omega) (by omega)
  · rw [strings_cons, ← List.singleton_append, ← List.append_assoc]
    refine Holds.append.mpr ⟨hs.congr fun j hlo hhi => ?_, ?_⟩
    · exact h.rest j (by omega) (by omega)
    · rw [hlen, ← Nat.add_assoc]
      exact h.bytes
  · rw [List.length_cons] at hj
    rw [length_strings_cons] at hj'
    rw [h.rest j (by omega) (by omega), hsame j (by omega), hwsame j (by omega)]

/-- The loop over a list of strings: it copies all of them, or overruns. -/
theorem copyStrings_spec (hstk : stk + MAX_ISTACK_BYTES < 65536) (ss : List CString) :
    ∀ b ap hp, Outcome ss ap hp b (copyStrings stk ss b ap hp) := by
  induction ss with
  | nil =>
    intro b ap hp
    exact ⟨Or.inl rfl, rfl, rfl, fun _ => ⟨Holds.nil, Holds.nil, fun _ _ _ => rfl⟩⟩
  | cons s ss ih =>
    intro b ap hp
    by_cases hap : ap + 1 < MAX_ISTACK_BYTES
    · obtain ⟨b₁, he, hw⟩ := inside_putWord hap b hp
      by_cases hhp : hp < MAX_ISTACK_BYTES
      · have hspec := copyString_spec (b := b₁) (p := s.val) hstk hhp
        split at hspec
        · rename_i hfit
          obtain ⟨b₂, hrun, hs, hsame⟩ := hspec
          have hnext : copyStrings stk (s :: ss) b ap hp =
              copyStrings stk ss b₂ (ap + 2) (hp + s.val.length + 1) := by
            rw [copyStrings, he, ok_bind, hrun, ok_bind]
          rw [hnext]
          have hrest := ih b₂ (ap + 2) (hp + s.val.length + 1)
          revert hrest
          generalize copyStrings stk ss b₂ (ap + 2) (hp + s.val.length + 1) = res
          intro hrest
          match res, hrest with
          | .ok (b', ap', hp'), ⟨hf, ha, hh, hc⟩ =>
            refine ⟨(Fit.cons hfit hap).mpr hf, ?_, ?_, fun hd => ?_⟩
            · rw [ha, List.length_cons]
              omega
            · rw [hh, length_strings_cons]
              omega
            · rw [List.length_cons] at hd
              exact .cons hd hw hs hsame (hc (by omega))
          | .error .e2big, hc => exact (Caught.cons hfit).mpr hc
          | .error .overrun, ⟨hf, hc⟩ =>
            exact ⟨fun h => hf ((Fit.cons hfit hap).mp h), fun h => hc ((Caught.cons hfit).mp h)⟩
        · rename_i hover
          have hstop : copyStrings stk (s :: ss) b ap hp = .error .e2big := by
            rw [copyStrings, he, ok_bind, hspec, error_bind]
          rw [hstop]
          exact ⟨[], s, ss, rfl, hap, hhp, Nat.not_lt.mp hover⟩
      · have hstop : copyStrings stk (s :: ss) b ap hp = .error .overrun := by
          rw [copyStrings, he, ok_bind, copyString_outside (Nat.not_lt.mp hhp), error_bind]
        rw [hstop]
        refine ⟨?_, ?_⟩
        · rintro (h | ⟨-, h⟩)
          · cases h
          · rw [length_strings_cons] at h
            omega
        · rintro ⟨pre, t, post, -, -, hlt, -⟩
          omega
    · have hstop : copyStrings stk (s :: ss) b ap hp = .error .overrun := by
        rw [copyStrings, outside_putWord (Nat.not_lt.mp hap), error_bind]
      rw [hstop]
      refine ⟨?_, ?_⟩
      · rintro (h | ⟨h, -⟩)
        · cases h
        · rw [List.length_cons] at h
          omega
      · rintro ⟨pre, t, post, -, h, -, -⟩
        omega

/-- A string that is caught is not among strings that fit. -/
theorem Fit.not_caught (h : Fit ss ap hp) : ¬Caught ss ap hp := by
  rintro ⟨pre, t, post, rfl, -, -, hend⟩
  rcases h with h | ⟨-, h⟩
  · exact absurd h (by simp)
  · rw [strings_append, List.length_append, length_strings_cons] at h
    omega

/-! ## Relocation -/

section Patch

variable {base : Nat} {flag fuel : Nat}

/-- A null word is counted. -/
theorem patchFrom_null (hflag : flag < 2) (hap : ap < MAX_ISTACK_BYTES)
    (hv : wordAt b ap = some 0) :
    patchFrom base (fuel + 1) ap flag b = patchFrom base fuel (ap + 2) (flag + 1) b := by
  rw [patchFrom, if_neg (not_not.mpr hflag), if_neg (Nat.not_le.mpr hap), hv]
  rfl

/-- Another word is relocated. -/
theorem patchFrom_pointer {v : Nat} (hflag : flag < 2) (hap : ap < MAX_ISTACK_BYTES)
    (hv : wordAt b ap = some v) (hne : v ≠ 0) (hb : putWord b ap ((v + base) % 65536) = some b') :
    patchFrom base (fuel + 1) ap flag b = patchFrom base fuel (ap + 2) flag b' := by
  rw [patchFrom, if_neg (not_not.mpr hflag), if_neg (Nat.not_le.mpr hap), hv]
  change (if v ≠ 0 then _ else _) = _
  rw [if_pos hne, hb]
  rfl

/-- A row of pointers is relocated. -/
theorem patchFrom_pointers (base fuel : Nat) {flag : Nat} (hflag : flag < 2) (l : List Nat) :
    ∀ {b : Stack} {ap : Nat}, (∀ v ∈ l, v ≠ 0 ∧ v < 65536) → Holds b ap (l.flatMap wordBytes) →
      ∃ b', patchFrom base (fuel + l.length) ap flag b =
          patchFrom base fuel (ap + 2 * l.length) flag b' ∧
        Holds b' ap ((l.map fun v => (v + base) % 65536).flatMap wordBytes) ∧
        SameOutside ap (ap + 2 * l.length) b b' := by
  induction l with
  | nil => exact fun {b ap} _ _ => ⟨b, rfl, Holds.nil, .refl b⟩
  | cons v l ih =>
    intro b ap hl hb
    rw [List.flatMap_cons] at hb
    obtain ⟨hv, hrest⟩ := Holds.append.mp hb
    obtain ⟨hne, hlt⟩ := hl v List.mem_cons_self
    have hfits := hv.fits (List.cons_ne_nil _ _)
    have hwlen : (wordBytes v).length = 2 := rfl
    obtain ⟨b₁, hw⟩ := Option.isSome_iff_exists.mp
      ((putWord_isSome (b := b) (w := (v + base) % 65536)).mpr (by omega : ap + 1 < _))
    obtain ⟨hword, hsame⟩ := putWord_holds hw
    have hrest₁ : Holds b₁ (ap + 2) (l.flatMap wordBytes) :=
      hrest.outside hsame (Or.inr le_rfl)
    obtain ⟨b', hrun, hheld, hsame'⟩ := ih (fun u hu => hl u (List.mem_cons_of_mem v hu)) hrest₁
    refine ⟨b', ?_, ?_, ?_⟩
    · rw [List.length_cons, ← Nat.add_assoc,
        patchFrom_pointer hflag (by omega) (wordAt_holds hv hlt) hne hw, hrun]
      congr 1
      omega
    · rw [List.map_cons, List.flatMap_cons]
      refine Holds.append.mpr ⟨hword.outside hsame' (Or.inl ?_), hheld⟩
      exact le_rfl
    · rw [List.length_cons]
      exact (hsame.mono le_rfl (by omega)).trans (hsame'.mono (by omega) (by omega))

/-- Whatever is in the buffer, `patch_ptr` stays inside and comes to its end. -/
theorem patchFrom_isSome (fuel : Nat) : ∀ (b : Stack) (ap flag : Nat), ap % 2 = 0 →
    ap ≤ MAX_ISTACK_BYTES → MAX_ISTACK_BYTES + 2 ≤ ap + 2 * fuel →
      (patchFrom base fuel ap flag b).isSome := by
  induction fuel with
  | zero => exact fun _ _ _ _ hle hfuel => by omega
  | succ fuel ih =>
    intro b ap flag heven hle hfuel
    rw [patchFrom]
    split
    · rfl
    · split
      · rfl
      · rename_i hap
        have hin : ap + 1 < MAX_ISTACK_BYTES := by
          simp only [MAX_ISTACK_BYTES] at *
          omega
        have hnext : (ap + 2) % 2 = 0 ∧ ap + 2 ≤ MAX_ISTACK_BYTES := by omega
        obtain ⟨v, hv⟩ := exists_wordAt (b := b) hin
        rw [hv]
        change (if v ≠ 0 then _ else _ : Option Stack).isSome
        split
        · obtain ⟨b', hb⟩ := Option.isSome_iff_exists.mp
            ((putWord_isSome (b := b) (w := (v + base) % 65536)).mpr hin)
          rw [hb]
          exact ih b' _ _ hnext.1 hnext.2 (by omega)
        · exact ih b _ _ hnext.1 hnext.2 (by omega)

/-- What lies before the pointers is left alone. -/
theorem patchFrom_below (fuel : Nat) : ∀ {b : Stack} {ap flag : Nat},
    patchFrom base fuel ap flag b = some b' → ∀ j < ap, byteAt b' j = byteAt b j := by
  induction fuel with
  | zero => exact fun h => by cases h
  | succ fuel ih =>
    intro b ap flag h j hj
    rw [patchFrom] at h
    split at h
    · rw [Option.some.inj h]
    · split at h
      · rw [Option.some.inj h]
      · obtain ⟨v, -, h⟩ := Option.bind_eq_some_iff.mp h
        split at h
        · obtain ⟨b₁, hw, h⟩ := Option.bind_eq_some_iff.mp h
          rw [ih h j (by omega), (putWord_holds hw).2 j (Or.inl hj)]
        · exact ih h j (by omega)

/-- Nothing is relocated in a stack of zeros. -/
theorem patchPtr_zero : patchPtr (fun _ => 0) base = some fun _ => 0 := by
  have hnull : ∀ i, i + 1 < MAX_ISTACK_BYTES →
      wordAt (N := MAX_ISTACK_BYTES) (fun _ => 0) i = some 0 := by
    intro i hi
    unfold wordAt byteAt
    rw [dif_pos (Nat.lt_of_succ_lt hi), dif_pos hi]
    rfl
  unfold patchPtr
  rw [patchFrom_null (by decide) (by decide) (hnull 2 (by decide)),
    patchFrom_null (by decide) (by decide) (hnull 4 (by decide)), patchFrom, if_pos (by decide)]

/-- `patch_ptr` always reaches the second null pointer or the end of the buffer. -/
theorem patchPtr_isSome (stack : Stack) (base : Nat) : (patchPtr stack base).isSome :=
  patchFrom_isSome 513 stack 2 0 rfl (by decide) (by decide)

variable {argv envp : List CString}

/-- The places of an image, one after the other. -/
theorem holds_image : Holds b 0 (image argv envp base) ↔ Holds b 0 (wordBytes argv.length) ∧
    Holds b 2 (((offsets (start argv envp) argv).map
      fun o => (base + o) % 65536).flatMap wordBytes) ∧
    Holds b (2 + 2 * argv.length) (wordBytes 0) ∧
    Holds b (4 + 2 * argv.length) (((offsets (start argv envp + (strings argv).length) envp).map
      fun o => (base + o) % 65536).flatMap wordBytes) ∧
    Holds b (4 + 2 * argv.length + 2 * envp.length) (wordBytes 0) ∧
    Holds b (start argv envp) (strings argv) ∧
    Holds b (start argv envp + (strings argv).length) (strings envp) := by
  have hw : ∀ w, (wordBytes w).length = 2 := fun _ => rfl
  unfold image words
  simp only [List.flatMap_cons, List.flatMap_append, List.flatMap_nil, List.append_nil,
    Holds.append, List.length_append, hw, length_flatMap_wordBytes, List.length_map,
    length_offsets, start, Nat.zero_add]
  rw [show 2 + 2 * argv.length + 2 = 4 + 2 * argv.length by omega,
    show 2 + (2 * argv.length + (2 + (2 * envp.length + 2))) =
      2 * (argv.length + envp.length + 3) by omega]
  simp only [and_assoc]

/-- Each offset lies where the strings do. -/
theorem offsets_bounds {o v : Nat} (h : v ∈ offsets o ss) :
    o ≤ v ∧ v < o + (strings ss).length := by
  induction ss generalizing o with
  | nil => cases h
  | cons s ss ih =>
    rw [length_strings_cons]
    rcases List.mem_cons.mp h with rfl | h
    · omega
    · have := ih h
      omega

/-- An offset is its own place in a stack at 0. -/
theorem map_place_zero {l : List Nat} (h : ∀ o ∈ l, o < 65536) :
    (l.map fun o => (0 + o) % 65536) = l := by
  refine (List.map_congr_left fun o ho => ?_).trans (List.map_id l)
  rw [Nat.zero_add, Nat.mod_eq_of_lt (h o ho)]
  rfl

/-- The image that `execve` builds is relocated to one for any base. -/
theorem patchPtr_image
    (hfits : start argv envp + (strings argv).length + (strings envp).length ≤ MAX_ISTACK_BYTES)
    (h : Holds b 0 (image argv envp 0)) :
    ∃ b', patchPtr b base = some b' ∧ Holds b' 0 (image argv envp base) ∧
      SameBut 2 (2 + 2 * argv.length) (4 + 2 * argv.length)
        (4 + 2 * argv.length + 2 * envp.length) b b' := by
  have hstart : start argv envp = 2 * (argv.length + envp.length + 3) := rfl
  have hargs : ∀ v ∈ offsets (start argv envp) argv, v ≠ 0 ∧ v < 65536 := fun v hv => by
    have := offsets_bounds hv
    simp only [MAX_ISTACK_BYTES] at hfits
    omega
  have henv : ∀ v ∈ offsets (start argv envp + (strings argv).length) envp, v ≠ 0 ∧ v < 65536 :=
    fun v hv => by
      have := offsets_bounds hv
      simp only [MAX_ISTACK_BYTES] at hfits
      omega
  obtain ⟨hcount, hap, hnull, hep, hnull', hstrings, hstrings'⟩ := holds_image.mp h
  rw [map_place_zero fun v hv => (hargs v hv).2] at hap
  rw [map_place_zero fun v hv => (henv v hv).2] at hep
  have hwlen : ∀ w, (wordBytes w).length = 2 := fun _ => rfl
  have hlen := length_flatMap_wordBytes (offsets (start argv envp + (strings argv).length) envp)
  rw [length_offsets] at hlen
  have hlen' := length_flatMap_wordBytes ((offsets (start argv envp) argv).map
    fun v => (v + base) % 65536)
  rw [List.length_map, length_offsets] at hlen'
  -- first the arguments, then the environment
  obtain ⟨b₁, hrun₁, hheld₁, hsame₁⟩ := patchFrom_pointers base
    (511 - argv.length - envp.length + 1 + envp.length + 1) (by omega : 0 < 2) _ hargs hap
  rw [length_offsets] at hrun₁ hsame₁
  have hnull₁ := hnull.outside hsame₁ (Or.inr le_rfl)
  obtain ⟨b₂, hrun₂, hheld₂, hsame₂⟩ := patchFrom_pointers base
    (511 - argv.length - envp.length + 1) (by omega : 1 < 2) _ henv
    (hep.outside hsame₁ (Or.inr (by omega)))
  rw [length_offsets] at hrun₂ hsame₂
  have hnull₂ := (hnull'.outside hsame₁ (Or.inr (by omega))).outside hsame₂ (Or.inr le_rfl)
  have hin : 4 + 2 * argv.length + 2 * envp.length < MAX_ISTACK_BYTES := by omega
  refine ⟨b₂, ?_, ?_, fun j hj hj' => ?_⟩
  · unfold patchPtr
    have hfuel : 513 = 511 - argv.length - envp.length + 1 + envp.length + 1 + argv.length := by
      simp only [MAX_ISTACK_BYTES] at hfits
      omega
    rw [hfuel, hrun₁, patchFrom_null (by omega) (by omega) (wordAt_holds hnull₁ (by omega)),
      show 2 + 2 * argv.length + 2 = 4 + 2 * argv.length by omega, hrun₂,
      patchFrom_null (by omega) hin (wordAt_holds hnull₂ (by omega))]
    have hpos : 511 - argv.length - envp.length = 510 - argv.length - envp.length + 1 := by
      simp only [MAX_ISTACK_BYTES] at hfits
      omega
    rw [hpos, patchFrom, if_pos (by omega)]
  · simp only [Nat.add_comm base, holds_image]
    refine ⟨?_, hheld₁.outside hsame₂ (Or.inl (by omega)), ?_, hheld₂, hnull₂, ?_, ?_⟩
    · exact (hcount.outside hsame₁ (Or.inl (by rw [hwlen]))).outside hsame₂
        (Or.inl (by rw [hwlen]; omega))
    · exact hnull₁.outside hsame₂ (Or.inl (by rw [hwlen]; omega))
    · exact (hstrings.outside hsame₁ (Or.inr (by omega))).outside hsame₂ (Or.inr (by omega))
    · exact (hstrings'.outside hsame₁ (Or.inr (by omega))).outside hsame₂ (Or.inr (by omega))
  · rw [hsame₂ j hj', hsame₁ j hj]

end Patch

/-! ## The two programs together -/

variable {argv envp : List CString}

/-- What is right of the end of `execve`: an error, or an image that `patch_ptr` makes one for any
base, whatever else is in its buffer, with stores to the pointers only. -/
def Passed (argv envp : List CString) : Except Stop (Nat × Stack) → Prop
  | .ok (bytes, img) => bytes ≤ MAX_ISTACK_BYTES ∧ ∀ base mbuf,
      ∃ b', patchPtr (received bytes img mbuf) base = some b' ∧
        Holds b' 0 (image argv envp base) ∧
        SameBut 2 (2 + 2 * argv.length) (4 + 2 * argv.length)
          (4 + 2 * argv.length + 2 * envp.length) (received bytes img mbuf) b'
  | .error .e2big => True
  | .error .overrun => False

/-- The first check fails, or one of those behind the characters does, or the image ends in the
buffer. -/
def Seen (stk : Nat) (argv envp : List CString) : Prop :=
  PastEnd stk (firstByte argv envp + (argv.length + envp.length)) ∨
  Caught argv 2 (firstByte argv envp) ∨
  Caught envp (2 + 2 * argv.length + 2) (firstByte argv envp + (strings argv).length) ∨
  firstByte argv envp + (strings argv).length + (strings envp).length ≤ MAX_ISTACK_BYTES

/-- What MM has received holds what was sent. -/
theorem received_holds {bytes : Nat} {img mbuf : Stack} {l : List UInt8} (h : Holds img 0 l)
    (hl : l.length ≤ bytes) : Holds (received bytes img mbuf) 0 l := by
  refine h.congr fun j _ hj => ?_
  unfold byteAt
  split
  · rw [received, if_pos (by change j < bytes; omega)]
  · rfl

/-- Strings that end in the buffer leave room for their pointers. -/
theorem firstByte_eq (h : firstByte argv envp + (strings argv).length + (strings envp).length ≤
    MAX_ISTACK_BYTES) : firstByte argv envp = start argv envp ∧
      start argv envp + argv.length + envp.length ≤ MAX_ISTACK_BYTES := by
  have ha := length_le_strings argv
  have he := length_le_strings envp
  unfold firstByte start at *
  simp only [MAX_ISTACK_BYTES] at *
  omega

/-- What comes of `execve` after its first check. -/
inductive Ended (stk : Nat) (argv envp : List CString) : Except Stop (Nat × Stack) → Prop where
  | sent {img : Stack}
      (fits : firstByte argv envp + (strings argv).length + (strings envp).length ≤
        MAX_ISTACK_BYTES)
      (holds : Holds img 0 (image argv envp 0)) :
      Ended stk argv envp (.ok
        ((firstByte argv envp + (strings argv).length + (strings envp).length + 1) / 2 * 2, img))
  | e2big (caught : Caught argv 2 (firstByte argv envp) ∨
        Caught envp (2 + 2 * argv.length + 2) (firstByte argv envp + (strings argv).length)) :
      Ended stk argv envp (.error .e2big)
  | overrun (unseen : ¬Seen stk argv envp) : Ended stk argv envp (.error .overrun)

/-- `execve` refuses what would not fit by its own count. -/
theorem execve_stops (h : PastEnd stk (firstByte argv envp + (argv.length + envp.length))) :
    execve stk argv envp b = .error .e2big := if_pos h

/-- Otherwise it copies the count, the arguments and the environment. -/
theorem execve_goes (h : ¬PastEnd stk (firstByte argv envp + (argv.length + envp.length))) :
    execve stk argv envp b = inside (putWord b 0 argv.length) >>= fun b =>
      copyStrings stk argv b 2 (firstByte argv envp) >>= fun (b, ap, hp) =>
        inside (putWord b ap 0) >>= fun b =>
          copyStrings stk envp b (ap + 2) hp >>= fun (b, ap, hp) =>
            inside (putWord b ap 0) >>= fun b => .ok ((hp + 1) / 2 * 2, b) := if_neg h

/-- What lies apart from pointers and strings is still there. -/
theorem Copied.keeps {i : Nat} {l : List UInt8} (hc : Copied ss ap hp b b') (h : Holds b i l)
    (hd : i + l.length ≤ ap ∨ ap + 2 * ss.length ≤ i)
    (hd' : i + l.length ≤ hp ∨ hp + (strings ss).length ≤ i) : Holds b' i l :=
  h.congr fun j _ _ => hc.rest j (by omega) (by omega)

/-- The words and the strings, in the order in which they are stored. -/
theorem stored {b₀ b₁ b₂ b₃ : Stack}
    (hfits : start argv envp + (strings argv).length + (strings envp).length ≤ MAX_ISTACK_BYTES)
    (hw₀ : putWord b 0 argv.length = some b₀)
    (hargs : Copied argv 2 (start argv envp) b₀ b₁)
    (hw₁ : putWord b₁ (2 + 2 * argv.length) 0 = some b₂)
    (henv : Copied envp (4 + 2 * argv.length) (start argv envp + (strings argv).length) b₂ b₃)
    (hw₂ : putWord b₃ (4 + 2 * argv.length + 2 * envp.length) 0 = some b') :
    Holds b' 0 (image argv envp 0) := by
  have hstart : start argv envp = 2 * (argv.length + envp.length + 3) := rfl
  have hmax : MAX_ISTACK_BYTES = 1024 := rfl
  have hwlen : ∀ w, (wordBytes w).length = 2 := fun _ => rfl
  have hlen := length_flatMap_wordBytes (offsets (start argv envp) argv)
  have hlen' := length_flatMap_wordBytes (offsets (start argv envp + (strings argv).length) envp)
  rw [length_offsets] at hlen hlen'
  obtain ⟨hcount, -⟩ := putWord_holds hw₀
  obtain ⟨hnull, hsame₁⟩ := putWord_holds hw₁
  obtain ⟨hnull', hsame₂⟩ := putWord_holds hw₂
  rw [holds_image, map_place_zero fun o ho => by have := offsets_bounds ho; omega,
    map_place_zero fun o ho => by have := offsets_bounds ho; omega]
  have hcount₁ := hargs.keeps hcount (Or.inl (by rw [hwlen])) (Or.inl (by rw [hwlen]; omega))
  refine ⟨?_, ?_, ?_, ?_, hnull', ?_, ?_⟩
  · have h₂ := hcount₁.outside hsame₁ (Or.inl (by rw [hwlen]; omega))
    exact (henv.keeps h₂ (Or.inl (by rw [hwlen]; omega)) (Or.inl (by rw [hwlen]; omega))).outside
      hsame₂ (Or.inl (by rw [hwlen]; omega))
  · have h₂ := hargs.pointers.outside hsame₁ (Or.inl (by omega))
    exact (henv.keeps h₂ (Or.inl (by omega)) (Or.inl (by omega))).outside hsame₂
      (Or.inl (by omega))
  · exact (henv.keeps hnull (Or.inl (by rw [hwlen]; omega))
      (Or.inl (by rw [hwlen]; omega))).outside hsame₂ (Or.inl (by rw [hwlen]; omega))
  · exact henv.pointers.outside hsame₂ (Or.inl (by omega))
  · have h₂ := hargs.bytes.outside hsame₁ (Or.inr (by omega))
    exact (henv.keeps h₂ (Or.inr (by omega)) (Or.inl le_rfl)).outside hsame₂ (Or.inr (by omega))
  · exact henv.bytes.outside hsame₂ (Or.inr (by omega))

/-- Lists that fit one after the other end in the buffer. -/
theorem fits_of_fit (hlast : 2 + 2 * argv.length + 2 + 2 * envp.length + 1 < MAX_ISTACK_BYTES)
    (hargs : Fit argv 2 (firstByte argv envp))
    (henv : Fit envp (2 + 2 * argv.length + 2) (firstByte argv envp + (strings argv).length)) :
    firstByte argv envp + (strings argv).length + (strings envp).length ≤ MAX_ISTACK_BYTES := by
  rcases henv with rfl | ⟨-, h⟩
  · rcases hargs with rfl | ⟨-, h⟩
    · decide
    · exact h
  · exact h

/-- The environment, behind arguments that fit. -/
theorem environment_ended {b₀ b₁ : Stack} (hstk : stk + MAX_ISTACK_BYTES < 65536)
    (hroom : ¬PastEnd stk (firstByte argv envp + (argv.length + envp.length)))
    (hw₀ : putWord b 0 argv.length = some b₀) (hfit : Fit argv 2 (firstByte argv envp))
    (hargs : 2 + 2 * argv.length ≤ firstByte argv envp →
      Copied argv 2 (firstByte argv envp) b₀ b₁) :
    Ended stk argv envp (inside (putWord b₁ (2 + 2 * argv.length) 0) >>= fun b =>
      copyStrings stk envp b (2 + 2 * argv.length + 2) (firstByte argv envp + (strings argv).length)
        >>= fun (b, ap, hp) => inside (putWord b ap 0) >>= fun b => .ok ((hp + 1) / 2 * 2, b)) := by
  have hmax : MAX_ISTACK_BYTES = 1024 := rfl
  have hnot : ¬Caught argv 2 (firstByte argv envp) := hfit.not_caught
  by_cases hnull : 2 + 2 * argv.length + 1 < MAX_ISTACK_BYTES
  · obtain ⟨b₂, he₁, hw₁⟩ := inside_putWord hnull b₁ 0
    rw [he₁, ok_bind]
    have henv := copyStrings_spec hstk envp b₂ (2 + 2 * argv.length + 2)
      (firstByte argv envp + (strings argv).length)
    revert henv
    generalize copyStrings stk envp b₂ (2 + 2 * argv.length + 2)
      (firstByte argv envp + (strings argv).length) = res
    intro henv
    match res, henv with
    | .error .e2big, hcaught => exact .e2big (Or.inr hcaught)
    | .error .overrun, ⟨hfit', hcaught'⟩ =>
      refine .overrun ?_
      rintro (h | h | h | h)
      · exact hroom h
      · exact hnot h
      · exact hcaught' h
      · exact hfit' (Or.inr ⟨by have := firstByte_eq h; unfold start at this; omega, by omega⟩)
    | .ok (b₃, ap₃, hp₃), ⟨hfit', hap₃, hhp₃, hcopied⟩ =>
      subst hap₃ hhp₃
      rw [ok_bind]
      change Ended stk argv envp
        (inside (putWord b₃ (2 + 2 * argv.length + 2 + 2 * envp.length) 0) >>= _)
      by_cases hlast : 2 + 2 * argv.length + 2 + 2 * envp.length + 1 < MAX_ISTACK_BYTES
      · obtain ⟨b₄, he₂, hw₂⟩ := inside_putWord hlast b₃ 0
        rw [he₂, ok_bind]
        have hfits := fits_of_fit hlast hfit hfit'
        have hstart := (firstByte_eq hfits).1
        rw [hstart] at hfits hargs hcopied
        rw [show 2 + 2 * argv.length + 2 = 4 + 2 * argv.length by omega] at hcopied hw₂
        refine .sent (by rwa [hstart]) (stored hfits hw₀ (hargs ?_) hw₁ (hcopied ?_) hw₂)
        · unfold start
          omega
        · unfold start
          omega
      · rw [outside_putWord (Nat.not_lt.mp hlast), error_bind]
        refine .overrun ?_
        rintro (h | h | h | h)
        · exact hroom h
        · exact hnot h
        · exact hfit'.not_caught h
        · have := firstByte_eq h
          unfold start at this
          omega
  · rw [outside_putWord (Nat.not_lt.mp hnull), error_bind]
    refine .overrun ?_
    rintro (h | h | ⟨pre, t, post, he, hap, -, -⟩ | h)
    · exact hroom h
    · exact hnot h
    · omega
    · have := firstByte_eq h
      unfold start at this
      omega

/-- How each call of `execve` ends. -/
theorem execve_ended (hstk : stk + MAX_ISTACK_BYTES < 65536)
    (hroom : ¬PastEnd stk (firstByte argv envp + (argv.length + envp.length))) :
    Ended stk argv envp (execve stk argv envp b) := by
  have hmax : MAX_ISTACK_BYTES = 1024 := rfl
  rw [execve_goes hroom]
  obtain ⟨b₀, he₀, hw₀⟩ := inside_putWord (i := 0) (by omega) b argv.length
  rw [he₀, ok_bind]
  have hargs := copyStrings_spec hstk argv b₀ 2 (firstByte argv envp)
  revert hargs
  generalize copyStrings stk argv b₀ 2 (firstByte argv envp) = res
  intro hargs
  match res, hargs with
  | .error .e2big, hcaught => exact .e2big (Or.inl hcaught)
  | .error .overrun, ⟨hfit, hcaught⟩ =>
    refine .overrun ?_
    rintro (h | h | ⟨pre, t, post, he, hap, hlt, -⟩ | h)
    · exact hroom h
    · exact hcaught h
    · exact hfit (Or.inr ⟨by omega, by omega⟩)
    · exact hfit (Or.inr ⟨by have := firstByte_eq h; unfold start at this; omega, by omega⟩)
  | .ok (b₁, ap₁, hp₁), ⟨hfit, hap₁, hhp₁, hcopied⟩ =>
    subst hap₁ hhp₁
    rw [ok_bind]
    exact environment_ended hstk hroom hw₀ hfit hcopied

/-- A buffer at the very end of memory has no byte before its end. -/
theorem pastEnd_last (h : stk + MAX_ISTACK_BYTES = 65536) (o : Nat) : PastEnd stk o := by
  unfold PastEnd
  rw [h]
  exact Nat.zero_le _

/-- And when the image has been passed to MM. -/
theorem Ended.passed_iff {res : Except Stop (Nat × Stack)} (h : Ended stk argv envp res) :
    Passed argv envp res ↔ Seen stk argv envp := by
  cases h with
  | e2big hcaught => exact iff_of_true trivial (Or.inr (hcaught.imp id Or.inl))
  | overrun hunseen => exact iff_of_false id hunseen
  | sent hfits himg =>
    refine iff_of_true (And.intro ?_ fun base mbuf => ?_) (Or.inr (Or.inr (Or.inr hfits)))
    · change _ ≤ 1024 at hfits
      change _ ≤ 1024
      omega
    · have hstart := (firstByte_eq hfits).1
      rw [hstart] at hfits ⊢
      refine patchPtr_image hfits (received_holds himg ?_)
      have hlen : (image argv envp 0).length =
          start argv envp + (strings argv).length + (strings envp).length := by
        unfold image words start
        simp only [List.length_append, length_flatMap_wordBytes, List.length_cons,
          List.length_map, length_offsets, List.length_nil]
        omega
      omega

/-- `execve` ends with an error and has stored inside only, or `patch_ptr` makes the right image of
what it sends, just when a check fails that is made in the buffer or the image ends there. -/
theorem execve_passes_iff (hstk : stk + MAX_ISTACK_BYTES ≤ 65536) (argv envp : List CString)
    (b : Stack) : Passed argv envp (execve stk argv envp b) ↔ Seen stk argv envp := by
  by_cases hroom : PastEnd stk (firstByte argv envp + (argv.length + envp.length))
  · rw [execve_stops hroom]
    exact iff_of_true trivial (Or.inl hroom)
  · have hlt : stk + MAX_ISTACK_BYTES < 65536 :=
      lt_of_le_of_ne hstk fun h => hroom (pastEnd_last h _)
    exact Ended.passed_iff (execve_ended hlt hroom)

/-- A string of one letter. -/
def letters (n : Nat) : CString :=
  ⟨List.replicate n 97, fun h => absurd (List.eq_of_mem_replicate h) (by decide)⟩

/-- A command with one argument and one variable of the environment. -/
theorem execve_passes_iff_echo :
    Passed [letters 4, letters 1] [letters 3]
        (execve 2048 [letters 4, letters 1] [letters 3] fun _ => 0) ↔
      Seen 2048 [letters 4, letters 1] [letters 3] :=
  execve_passes_iff (by decide) _ _ _

/-- No string is caught when they begin beyond the buffer. -/
theorem not_caught_beyond (h : MAX_ISTACK_BYTES ≤ hp) : ¬Caught ss ap hp := by
  rintro ⟨pre, t, post, -, -, hlt, -⟩
  omega

/-- An argument whose NUL is the last byte of the buffer, and one more. -/
theorem execve_not_passed : ¬Passed [letters 1013, letters 0] []
    (execve 2048 [letters 1013, letters 0] [] fun _ => 0) := by
  have hlen : (letters 1013).val.length = 1013 := List.length_replicate
  have hstrings : (strings [letters 1013, letters 0]).length = 1015 := by
    rw [length_strings_cons, hlen]
    rfl
  have hfirst : firstByte [letters 1013, letters 0] [] = 10 := by simp [firstByte]
  have hroom : ¬PastEnd 2048 (firstByte [letters 1013, letters 0] [] + (2 + 0)) := by
    rw [hfirst]
    decide
  rw [Ended.passed_iff (execve_ended (by decide) hroom)]
  rintro (h | h | h | h)
  · exact hroom h
  · rw [hfirst, Caught.cons (by rw [hlen]; decide), hlen] at h
    exact not_caught_beyond (by decide) h
  · rw [hfirst, hstrings] at h
    exact not_caught_beyond (by decide) h
  · rw [hfirst, hstrings] at h
    revert h
    decide

end Minix.StackImages
