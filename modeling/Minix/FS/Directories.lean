import Minix.FS.Access
import Minix.FS.FileBlocks
import Minix.Lib.SlotTable

/-!
# A directory is a finite map

The slots of a directory, in the blocks of its file one after the other, make up a table of names
and inode numbers. `search_dir` looks names up in it, clears their slots, and fills slots that are
free or come after the last one.

Slots are counted in 16 bits, which is enough for fewer than 65535 of them. In larger directories
the count can wrap before the search stops.
-/

namespace Minix.FS.ZoneMaps

open Function Inodes Transition IndexTree SlotTable

variable {σ : Type}

/-! ## The entries of a block -/

/-- What is in a slot. -/
def dirEntry (b : Block) (dp : Fin NR_DIR_ENTRIES) : Option (Name × Nat) :=
  if dirInum b dp = 0 then none else some (dirName b dp, dirInum b dp)

section Entries

variable {b : Block} {dp dp' : Fin NR_DIR_ENTRIES} {string : Name} {numb : Nat}

/-- An entry with inode number 0 is free. -/
theorem dirEntry_eq_none : dirEntry b dp = none ↔ dirInum b dp = 0 := by
  unfold dirEntry
  split <;> simp_all

/-- Another one has a name and a number. -/
theorem dirEntry_eq_some : dirEntry b dp = some (string, numb) ↔
    dirInum b dp ≠ 0 ∧ dirName b dp = string ∧ dirInum b dp = numb := by
  unfold dirEntry
  split <;> simp_all

/-- Entries have words of their own. -/
theorem inumWord_inj (h : inumWord dp' = inumWord dp) : dp' = dp := by
  have := congrArg Fin.val h
  simp only [inumWord] at this
  exact Fin.ext (by omega)

/-- A word that is stored leaves the other bytes alone. -/
theorem setWord_of_ne {w : Fin INTS_PER_BLOCK} {v : Word} {i : Fin BLOCK_SIZE}
    (h : i.val ≠ 2 * w.val) (h' : i.val ≠ 2 * w.val + 1) : setWord b w v i = b i := by
  unfold setWord
  rw [update_of_ne (fun he => h' (congrArg Fin.val he)),
    update_of_ne fun he => h (congrArg Fin.val he)]

/-- The name of an entry stays when its number is set. -/
theorem dirName_setInum (numb : Nat) : dirName (setInum dp numb b) dp' = dirName b dp' := by
  unfold dirName setInum
  congr 1
  funext j
  have := j.isLt
  have := dp.isLt
  have := dp'.isLt
  refine setWord_of_ne ?_ ?_ <;>
    simp only [inumWord, DIR_ENTRY_SIZE, NR_DIR_ENTRIES, NAME_SIZE] at * <;> omega

/-- A number that was set is read back. -/
theorem dirInum_setInum_self (h : numb < 65536) : dirInum (setInum dp numb b) dp = numb := by
  unfold dirInum setInum
  rw [wordAt_setWord_self, BitVec.toNat_ofNat, Nat.mod_eq_of_lt h]

/-- The other numbers stay. -/
theorem dirInum_setInum_of_ne (h : dp' ≠ dp) : dirInum (setInum dp numb b) dp' = dirInum b dp' := by
  unfold dirInum setInum
  rw [wordAt_setWord_of_ne _ fun he => h (inumWord_inj he)]

/-- A name that is copied leaves the inode numbers alone. -/
theorem dirInum_splice (bytes : Nat → UInt8) :
    dirInum (splice (DIR_ENTRY_SIZE * dp.val + 2) NAME_SIZE bytes b) dp' = dirInum b dp' := by
  have hlow : splice (DIR_ENTRY_SIZE * dp.val + 2) NAME_SIZE bytes b (lowByte (inumWord dp')) =
      b (lowByte (inumWord dp')) := by
    refine if_neg ?_
    simp only [lowByte, inumWord, DIR_ENTRY_SIZE, NAME_SIZE]
    omega
  have hhigh : splice (DIR_ENTRY_SIZE * dp.val + 2) NAME_SIZE bytes b (highByte (inumWord dp')) =
      b (highByte (inumWord dp')) := by
    refine if_neg ?_
    simp only [highByte, inumWord, DIR_ENTRY_SIZE, NAME_SIZE]
    omega
  unfold dirInum wordAt
  rw [hlow, hhigh]

/-- A name that was copied is read back. -/
theorem dirName_splice_self (hlen : string.length = NAME_SIZE) :
    dirName (splice (DIR_ENTRY_SIZE * dp.val + 2) NAME_SIZE (string.getD · 0) b) dp = string := by
  refine List.ext_getElem (by simp [dirName, hlen]) fun i hi hi' => ?_
  have hlt : i < NAME_SIZE := hlen ▸ hi'
  simp only [dirName, List.getElem_ofFn, splice]
  rw [if_pos ⟨Nat.le_add_right .., Nat.add_lt_add_left hlt _⟩, Nat.add_sub_cancel_left,
    List.getD_eq_getElem?_getD, List.getElem?_eq_getElem hi', Option.getD_some]

/-- The other names stay. -/
theorem dirName_splice_of_ne (bytes : Nat → UInt8) (h : dp' ≠ dp) :
    dirName (splice (DIR_ENTRY_SIZE * dp.val + 2) NAME_SIZE bytes b) dp' = dirName b dp' := by
  unfold dirName
  congr 1
  funext j
  refine if_neg ?_
  have := j.isLt
  have hne : dp'.val ≠ dp.val := fun he => h (Fin.ext he)
  simp only [DIR_ENTRY_SIZE, NAME_SIZE] at *
  omega

/-- Erasing an entry frees its slot. -/
theorem dirEntry_setInum :
    dirEntry (setInum dp 0 b) dp' = if dp' = dp then none else dirEntry b dp' := by
  split
  · rename_i h
    rw [h, dirEntry_eq_none]
    exact dirInum_setInum_self (by decide)
  · rename_i h
    unfold dirEntry
    rw [dirInum_setInum_of_ne h, dirName_setInum]

/-- An entry that is made fills its slot. -/
theorem dirEntry_setEntry (hlen : string.length = NAME_SIZE) (hpos : 0 < numb)
    (hlt : numb < 65536) : dirEntry (setEntry dp string numb b) dp' =
      if dp' = dp then some (string, numb) else dirEntry b dp' := by
  unfold setEntry
  split
  · rename_i h
    rw [h, dirEntry_eq_some, dirInum_setInum_self hlt, dirName_setInum, dirName_splice_self hlen]
    exact ⟨hpos.ne', rfl, rfl⟩
  · rename_i h
    unfold dirEntry
    rw [dirInum_setInum_of_ne h, dirName_setInum, dirInum_splice, dirName_splice_of_ne _ h]

/-- There is nothing in a block of zeros. -/
theorem dirEntry_zero : dirEntry (fun _ => 0) dp = none := by
  have hword : (0 : UInt8).toBitVec ++ (0 : UInt8).toBitVec = (0 : Word) := by decide
  exact dirEntry_eq_none.mpr (congrArg BitVec.toNat hword)

end Entries

/-! ## The search of a block -/

/-- The search stops at a slot: at a free one if a name is to be entered, else at the name. -/
def Stops (string : Name) (flag : DirFlag) (e : Option (Name × Nat)) : Prop :=
  if flag = .ENTER then e = none else ∃ numb, e = some (string, numb)

/-- What the search of a block comes to whose first slot is number `base`, from slot `j` on. -/
inductive SlotScan (b : Block) (string : Name) (flag : DirFlag) (oldSlots base j : Nat) :
    Search (Fin NR_DIR_ENTRIES) × Nat → Prop
  | found (dp : Fin NR_DIR_ENTRIES) (numb : Nat) : flag ≠ .ENTER → base + dp.val < oldSlots →
    dirEntry b dp = some (string, numb) →
    SlotScan b string flag oldSlots base j (.found dp, base + dp.val + 1)
  | room (dp : Fin NR_DIR_ENTRIES) : flag = .ENTER → base + dp.val ≤ oldSlots →
    (base + dp.val < oldSlots → dirEntry b dp = none) →
    (∀ i : Fin NR_DIR_ENTRIES, j ≤ i.val → i < dp → dirEntry b i ≠ none) →
    SlotScan b string flag oldSlots base j (.room dp, base + dp.val + 1)
  | ended : (∀ i : Fin NR_DIR_ENTRIES, j ≤ i.val → base + i.val < oldSlots →
      ¬Stops string flag (dirEntry b i)) →
    (flag = .ENTER → base + NR_DIR_ENTRIES ≤ oldSlots) →
    SlotScan b string flag oldSlots base j (.ended, min (base + NR_DIR_ENTRIES) (oldSlots + 1))

section Scan

variable {b : Block} {string : Name} {flag : DirFlag} {oldSlots base j : Nat}

/-- ENTER stops at a free entry. -/
theorem stops_enter {e : Option (Name × Nat)} (hf : flag = .ENTER) :
    Stops string flag e ↔ e = none := by
  unfold Stops
  rw [if_pos hf]

/-- The others stop at an entry with the name. -/
theorem stops_find {e : Option (Name × Nat)} (hf : flag ≠ .ENTER) :
    Stops string flag e ↔ ∃ numb, e = some (string, numb) := by
  unfold Stops
  rw [if_neg hf]

/-- A slot that the search passes. -/
theorem SlotScan.cons {dp : Fin NR_DIR_ENTRIES} {r : Search (Fin NR_DIR_ENTRIES) × Nat}
    (h : SlotScan b string flag oldSlots base (dp.val + 1) r)
    (hpass : ¬Stops string flag (dirEntry b dp)) :
    SlotScan b string flag oldSlots base dp.val r := by
  cases h with
  | found dp' numb hf hlt he => exact .found dp' numb hf hlt he
  | room dp' hf hle hfree hlive =>
    refine .room dp' hf hle hfree fun i hi hlt => ?_
    rcases Nat.eq_or_lt_of_le hi with he | hlt'
    · exact Fin.ext he ▸ fun h => hpass ((stops_enter hf).mpr h)
    · exact hlive i hlt' hlt
  | ended hmiss hfit =>
    refine .ended (fun i hi => ?_) hfit
    rcases Nat.eq_or_lt_of_le hi with he | hlt'
    · exact fun _ => Fin.ext he ▸ hpass
    · exact hmiss i hlt'

/-- The slot counter does not wrap in a block: there are fewer slots, or the search stops before. -/
def NoWrap (b : Block) (string : Name) (flag : DirFlag) (oldSlots base j : Nat) : Prop :=
  oldSlots < 65535 ∨ base + NR_DIR_ENTRIES < 65536 ∨ oldSlots = 65535 ∧
    ∃ i : Fin NR_DIR_ENTRIES, j ≤ i.val ∧ base + i.val < oldSlots ∧
      Stops string flag (dirEntry b i)

/-- The count goes on without wrapping around. -/
theorem NoWrap.next {dp : Fin NR_DIR_ENTRIES} (h : NoWrap b string flag oldSlots base dp.val)
    (hpass : ¬Stops string flag (dirEntry b dp)) :
    NoWrap b string flag oldSlots base (dp.val + 1) := by
  refine h.imp_right fun h => h.imp_right fun ⟨hold, i, hi, hlt, hs⟩ => ⟨hold, i, ?_, hlt, hs⟩
  rcases Nat.eq_or_lt_of_le hi with he | hlt'
  · exact absurd (Fin.ext he ▸ hs) hpass
  · exact hlt'

/-- It is one more. -/
theorem NoWrap.count {dp : Fin NR_DIR_ENTRIES} (h : NoWrap b string flag oldSlots base dp.val)
    (hle : base + dp.val ≤ oldSlots) :
    unshort (((base + dp.val : Nat) : Int) + 1) = base + dp.val + 1 := by
  have hdp := dp.isLt
  unfold unshort
  rcases h with h | h | ⟨hold, i, hi, hlt, -⟩ <;> omega

/-- The search of the slots from `j` on. As long as the counter does not wrap it ends after the last
slot that is in use. -/
theorem scanSlots_scan {dps : List (Fin NR_DIR_ENTRIES)}
    (hdps : dps.map Fin.val = List.range' j (NR_DIR_ENTRIES - j)) (hj : j ≤ NR_DIR_ENTRIES)
    (hwrap : NoWrap b string flag oldSlots base j) (hle : base + j ≤ oldSlots) :
    SlotScan b string flag oldSlots base j (scanSlots b string flag oldSlots dps (base + j)) := by
  induction dps generalizing j with
  | nil =>
    have hend : j = NR_DIR_ENTRIES := by
      have := congrArg List.length hdps
      rw [List.length_map, List.length_range'] at this
      simp only [List.length_nil] at this
      omega
    subst hend
    have hmin : base + NR_DIR_ENTRIES = min (base + NR_DIR_ENTRIES) (oldSlots + 1) := by omega
    unfold scanSlots
    rw [hmin]
    exact .ended (fun i hi => absurd i.isLt (not_lt.mpr hi)) fun _ => hle
  | cons dp dps ih =>
    have hlt : j < NR_DIR_ENTRIES := by
      by_contra h
      rw [Nat.sub_eq_zero_of_le (not_lt.mp h)] at hdps
      cases hdps
    obtain ⟨n, hn⟩ : ∃ n, NR_DIR_ENTRIES - j = n + 1 := ⟨NR_DIR_ENTRIES - j - 1, by omega⟩
    rw [hn, List.range'_succ, List.map_cons] at hdps
    obtain ⟨rfl, htail⟩ := List.cons.inj hdps
    have hbefore : ∀ i : Fin NR_DIR_ENTRIES, dp.val ≤ i.val → ¬i < dp := fun i hi =>
      not_lt.mpr (Fin.le_def.mpr hi)
    unfold scanSlots
    rw [hwrap.count hle]
    dsimp only
    split
    · rename_i hpast
      split
      · rename_i hf
        exact .room dp hf hle (fun h => absurd h (by omega)) fun i hi hlt' =>
          absurd hlt' (hbefore i hi)
      · rename_i hf
        have hmin : base + dp.val + 1 = min (base + NR_DIR_ENTRIES) (oldSlots + 1) := by omega
        rw [hmin]
        exact .ended (fun i hi hlt' => absurd hlt' (by omega)) fun h => absurd h hf
    · rename_i hin
      split
      · rename_i hhit
        exact .found dp _ hhit.1 (by omega) (dirEntry_eq_some.mpr ⟨hhit.2.1, hhit.2.2, rfl⟩)
      · rename_i hmiss
        split
        · rename_i hfree
          exact .room dp hfree.1 hle (fun _ => dirEntry_eq_none.mpr hfree.2) fun i hi hlt' =>
            absurd hlt' (hbefore i hi)
        · rename_i hused
          have hpass : ¬Stops string flag (dirEntry b dp) := by
            intro hs
            by_cases hf : flag = .ENTER
            · exact hused ⟨hf, dirEntry_eq_none.mp ((stops_enter hf).mp hs)⟩
            · obtain ⟨numb, he⟩ := (stops_find hf).mp hs
              obtain ⟨h0, hname, -⟩ := dirEntry_eq_some.mp he
              exact hmiss ⟨hf, h0, hname⟩
          refine SlotScan.cons (ih ?_ hlt (hwrap.next hpass) (by omega)) hpass
          rw [htail]
          congr 1
          omega

/-- The search of a whole block. -/
theorem scanSlots_block (hwrap : NoWrap b string flag oldSlots base 0) (hle : base ≤ oldSlots) :
    SlotScan b string flag oldSlots base 0
      (scanSlots b string flag oldSlots (List.finRange NR_DIR_ENTRIES) base) := by
  refine scanSlots_scan (j := 0) ?_ (Nat.zero_le _) hwrap hle
  exact List.ext_getElem (by simp) (by simp)

end Scan

/-! ## The table of a directory -/

/-- The number of slots of a directory. -/
def slots (ip : Inode) : Nat := (ip.iSize / DIR_ENTRY_SIZE).toNat

/-- The place of a slot in its block. -/
def slotIn (k : Nat) : Fin NR_DIR_ENTRIES := ⟨k % NR_DIR_ENTRIES, Nat.mod_lt k (by decide)⟩

/-- The entries of a directory. -/
def entries (sp : Super) (m : Flat) (ip : Inode) : Table Name Nat where
  size := slots ip
  slot k := dirEntry (m sp.sDev (fileBlock sp m ip (k / NR_DIR_ENTRIES))) (slotIn k)

/-- A directory without holes, in which no name is twice. -/
structure Directory (sp : Super) (m : Flat) (ip : Inode) : Prop where
  type : ip.type = I_DIRECTORY
  size : ip.iSize = (DIR_ENTRY_SIZE * slots ip : Nat)
  owned : Owned sp m ip
  whole : ∀ k < slots ip, fileBlock sp m ip (k / NR_DIR_ENTRIES) ≠ NO_BLOCK
  distinct : (entries sp m ip).Distinct

/-- Where a name can be entered in the blocks there are: in the first free slot, or after the last
slot. -/
structure Vacant (t : Table Name Nat) (k : Nat) : Prop where
  le : k ≤ t.size
  used : ∀ i < k, t.slot i ≠ none
  free : k < t.size → t.slot k = none
  inBlock : k = t.size → k % NR_DIR_ENTRIES ≠ 0

/-- What is known when `q` blocks have been searched. -/
structure Searched (t : Table Name Nat) (string : Name) (flag : DirFlag) (q newSlots : Nat) :
    Prop where
  within : NR_DIR_ENTRIES * q < t.size + NR_DIR_ENTRIES
  miss : ∀ k < NR_DIR_ENTRIES * q, k < t.size → ¬Stops string flag (t.slot k)
  fit : flag = .ENTER → NR_DIR_ENTRIES * q ≤ t.size
  count : newSlots = min (NR_DIR_ENTRIES * q) (t.size + 1)

/-- The slots of a table can be counted: there are fewer than 65535, or that many and the search
stops at one of them. -/
def Countable (t : Table Name Nat) (string : Name) (flag : DirFlag) : Prop :=
  t.size < 65535 ∨ t.size = 65535 ∧ ∃ k < t.size, Stops string flag (t.slot k)

/-- Where a name is found, the search for it stops. -/
theorem countable_of_find {t : Table Name Nat} {string : Name} {numb : Nat} (hle : t.size ≤ 65535)
    (hf : t.find string = some numb) : Countable t string .LOOK_UP := by
  obtain ⟨k, hk, he⟩ := Table.find_some hf
  rcases Nat.lt_or_eq_of_le hle with hlt | hsize
  · exact Or.inl hlt
  · exact Or.inr ⟨hsize, k, hk, (stops_find (by decide)).mpr ⟨numb, he⟩⟩

/-- The slots of a directory can be counted in 16 bits. -/
theorem Countable.le {t : Table Name Nat} {string : Name} {flag : DirFlag}
    (h : Countable t string flag) : t.size ≤ 65535 := by
  rcases h with h | ⟨h, -⟩ <;> omega

variable {io : DevIo σ} {disk : σ → Flat} {usable : BufPtr → Prop} {sup : SuperPtr → Super}
  {sp : Super} {c₀ : Cache σ} {U : Cache σ → Prop} {K : Int → Prop} {m m' : Flat}
  {ip ip' : Inode} {bp : BufPtr} {q k : Nat} {string : Name} {flag : DirFlag} {numb : Nat}

/-- The block of a slot. -/
theorem slot_div (q : Nat) (dp : Fin NR_DIR_ENTRIES) :
    (NR_DIR_ENTRIES * q + dp.val) / NR_DIR_ENTRIES = q := by
  have hlt := dp.isLt
  simp only [NR_DIR_ENTRIES] at *
  omega

/-- The place of a slot in its block. -/
theorem slotIn_add (q : Nat) (dp : Fin NR_DIR_ENTRIES) :
    slotIn (NR_DIR_ENTRIES * q + dp.val) = dp := by
  have hlt := dp.isLt
  refine Fin.ext ?_
  simp only [slotIn, NR_DIR_ENTRIES] at *
  omega

/-- What a slot of the table holds. -/
theorem slot_at (q : Nat) (dp : Fin NR_DIR_ENTRIES) :
    (entries sp m ip).slot (NR_DIR_ENTRIES * q + dp.val) =
      dirEntry (m sp.sDev (fileBlock sp m ip q)) dp := by
  simp only [entries, slot_div, slotIn_add]

/-- A slot is in its block. -/
theorem slot_split (k : Nat) :
    k = NR_DIR_ENTRIES * (k / NR_DIR_ENTRIES) + (slotIn k).val := by
  simp only [slotIn, NR_DIR_ENTRIES]
  omega

/-- The blocks of the slots are there. -/
theorem Directory.mapped (h : Directory sp m ip) (hq : NR_DIR_ENTRIES * q < slots ip) :
    fileBlock sp m ip q ≠ NO_BLOCK := by
  have := h.whole _ hq
  rwa [Nat.mul_div_cancel_left q (by decide)] at this

namespace Searched

variable {t : Table Name Nat} {b : Block} {newSlots newSlots' : Nat}

/-- The search starts with nothing passed. -/
theorem start : Searched t string flag 0 0 :=
  ⟨Nat.lt_add_left _ (by decide), fun k hk => by omega, fun _ => Nat.zero_le _, by omega⟩

/-- A slot of the blocks up to the next one is in an earlier block, or in this one. -/
theorem slot_cases (hk : k < NR_DIR_ENTRIES * (q + 1)) :
    k < NR_DIR_ENTRIES * q ∨ ∃ dp : Fin NR_DIR_ENTRIES, k = NR_DIR_ENTRIES * q + dp.val := by
  by_cases hlt : k < NR_DIR_ENTRIES * q
  · exact Or.inl hlt
  · rw [Nat.mul_add_one] at hk
    exact Or.inr ⟨⟨k - NR_DIR_ENTRIES * q, by omega⟩, (Nat.add_sub_of_le (by omega)).symm⟩

section Block

variable (h : Searched t string flag q newSlots)
  (hb : ∀ dp : Fin NR_DIR_ENTRIES, t.slot (NR_DIR_ENTRIES * q + dp.val) = dirEntry b dp)

include h hb

/-- The count does not wrap around in a block of the table. -/
theorem noWrap (hc : Countable t string flag) :
    NoWrap b string flag t.size (NR_DIR_ENTRIES * q) 0 := by
  rcases hc with hlt | ⟨hsize, k, hk, hs⟩
  · exact Or.inl hlt
  · by_cases hlt : k < NR_DIR_ENTRIES * (q + 1)
    · rcases slot_cases hlt with hk' | ⟨dp, rfl⟩
      · exact absurd hs (h.miss k hk' hk)
      · exact Or.inr (Or.inr ⟨hsize, dp, Nat.zero_le _, hk, hb dp ▸ hs⟩)
    · rw [Nat.mul_add_one] at hlt
      exact Or.inr (Or.inl (by omega))

/-- The search of one more block, to its end. -/
theorem next (hin : NR_DIR_ENTRIES * q < t.size)
    (hscan : SlotScan b string flag t.size (NR_DIR_ENTRIES * q) 0 (.ended, newSlots')) :
    Searched t string flag (q + 1) newSlots' := by
  have hsucc := Nat.mul_add_one NR_DIR_ENTRIES q
  cases hscan with
  | ended hmiss hfit =>
    refine ⟨by omega, fun k hk hlt => ?_, fun hf => ?_, by rw [hsucc]⟩
    · rcases slot_cases hk with hk | ⟨dp, rfl⟩
      · exact h.miss k hk hlt
      · rw [hb]
        exact hmiss dp (Nat.zero_le _) hlt
    · have := hfit hf
      omega

/-- The first slot with room. -/
theorem vacant (hf : flag = .ENTER) {dp : Fin NR_DIR_ENTRIES} (hin : NR_DIR_ENTRIES * q < t.size)
    (hle : NR_DIR_ENTRIES * q + dp.val ≤ t.size)
    (hfree : NR_DIR_ENTRIES * q + dp.val < t.size → dirEntry b dp = none)
    (hused : ∀ i : Fin NR_DIR_ENTRIES, i < dp → dirEntry b i ≠ none) :
    Vacant t (NR_DIR_ENTRIES * q + dp.val) := by
  have hdp := dp.isLt
  have hsucc := Nat.mul_add_one NR_DIR_ENTRIES q
  refine ⟨hle, fun k hk => ?_, fun hlt => (hb dp).trans (hfree hlt), fun he => ?_⟩
  · rcases slot_cases (q := q) (k := k) (by omega) with hk' | ⟨i, rfl⟩
    · exact fun hnone => h.miss k hk' (by omega) ((stops_enter hf).mpr hnone)
    · rw [hb]
      exact hused i (Fin.lt_def.mpr (by omega))
  · simp only [NR_DIR_ENTRIES] at *
    omega

end Block

/-- When all blocks have been searched, the name is nowhere, or no slot is free. -/
theorem ended (h : Searched t string flag q newSlots) (hend : t.size ≤ NR_DIR_ENTRIES * q) :
    (∀ k < t.size, ¬Stops string flag (t.slot k)) ∧
      (flag = .ENTER → t.size = NR_DIR_ENTRIES * q ∧ newSlots = t.size) := by
  refine ⟨fun k hk => h.miss k (by omega) hk, fun hf => ?_⟩
  have hle := h.fit hf
  have hcount := h.count
  exact ⟨by omega, by omega⟩

end Searched

section Search

variable (hsv : Serving io disk sup sp) (hroom : Room usable c₀) (h : Directory sp m ip)
  (hcount : Countable (entries sp m ip) string flag)

include hsv hroom h hcount

/-- The blocks of the directory are searched one after the other. -/
theorem scanBlocks_on {fuel newSlots : Nat} (hs : Searched (entries sp m ip) string flag q newSlots)
    (hfuel : slots ip + NR_DIR_ENTRIES ≤ NR_DIR_ENTRIES * (q + fuel)) :
    Returns (On disk usable sp (SameUse c₀) K m ip)
      (scanBlocks io sup string flag (slots ip) fuel (BLOCK_SIZE * q : Nat) newSlots) fun r t =>
        (∃ bp k numb, r = (.found (bp, slotIn k), k + 1) ∧ flag ≠ .ENTER ∧ k < slots ip ∧
          (entries sp m ip).slot k = some (string, numb) ∧ On disk usable sp
            (Holding usable sp c₀ bp (fileBlock sp m ip (k / NR_DIR_ENTRIES))) K m ip t) ∨
        (∃ bp k, r = (.room (bp, slotIn k), k + 1) ∧ flag = .ENTER ∧
          Vacant (entries sp m ip) k ∧ On disk usable sp
            (Holding usable sp c₀ bp (fileBlock sp m ip (k / NR_DIR_ENTRIES))) K m ip t) ∨
        (r.1 = .ended ∧ (∀ k < slots ip, ¬Stops string flag ((entries sp m ip).slot k)) ∧
          (flag = .ENTER → slots ip % NR_DIR_ENTRIES = 0 ∧ r.2 = slots ip) ∧
          On disk usable sp (SameUse c₀) K m ip t) := by
  have hsize : (entries sp m ip).size = slots ip := rfl
  have hmax : slots ip ≤ 65535 := hcount.le
  induction fuel generalizing q newSlots with
  | zero =>
    have hwithin := hs.within
    rw [hsize] at hwithin
    rw [Nat.add_zero] at hfuel
    omega
  | succ fuel ih =>
    have hlay := hsv.layout
    unfold scanBlocks
    refine rip_bind fun s₀ hs₀ => .ite (fun hin => ?_) fun hend => ?_
    · have hq : NR_DIR_ENTRIES * q < slots ip := by
        rw [hs₀, h.size] at hin
        simp only [BLOCK_SIZE, DIR_ENTRY_SIZE, NR_DIR_ENTRIES] at *
        omega
      have hmapped := h.mapped hq
      have hoff := h.owned.block_offMap hlay hmapped
      obtain ⟨s, hslot, -⟩ := h.owned.exists_zone hlay hmapped
      obtain rfl : newSlots = NR_DIR_ENTRIES * q := by
        rw [hs.count, hsize]
        omega
      have hnext : long (((BLOCK_SIZE * q : Nat) : Int) + BLOCK_SIZE) =
          (BLOCK_SIZE * (q + 1) : Nat) := by
        rw [long_of_lt] <;> simp only [BLOCK_SIZE, NR_DIR_ENTRIES, MAX_P_LONG] at hq ⊢ <;> omega
      refine Outcome.bind (readMap_block hsv hroom h.owned.tree hslot) fun b => .fact fun hb => ?_
      subst hb
      refine devOf_bind (Outcome.bind (getBlock_on hsv hroom _) fun bp => ?_)
      refine data_bind hlay fun s₁ hs₁ => ?_
      rw [hs₁]
      have hscan : SlotScan (m sp.sDev (fileBlock sp m ip q)) string flag (slots ip)
          (NR_DIR_ENTRIES * q) 0 _ := scanSlots_block (hs.noWrap (slot_at q) hcount) hq.le
      generalize scanSlots (m sp.sDev (fileBlock sp m ip q)) string flag (slots ip)
        (List.finRange NR_DIR_ENTRIES) (NR_DIR_ENTRIES * q) = r at hscan
      obtain ⟨r, newSlots⟩ := r
      cases r with
      | found dp =>
        cases hscan with
        | found _ numb hf hlt he =>
          refine Outcome.pure fun t ht => Or.inl ⟨bp, NR_DIR_ENTRIES * q + dp.val, numb, ?_, hf,
            hlt, (slot_at q dp).trans he, ?_⟩
          · rw [slotIn_add]
          · rwa [slot_div]
      | room dp =>
        cases hscan with
        | room _ hf hle hfree hused =>
          refine Outcome.pure fun t ht => Or.inr (Or.inl ⟨bp, NR_DIR_ENTRIES * q + dp.val, ?_, hf,
            hs.vacant (slot_at q) hf hq hle hfree fun i => hused i (Nat.zero_le _), ?_⟩)
          · rw [slotIn_add]
          · rwa [slot_div]
      | ended =>
        refine Outcome.bind (putBlock_on hsv hroom hoff _) fun _ => ?_
        rw [hnext]
        refine ih (hs.next (slot_at q) hq hscan) ?_
        rwa [Nat.add_assoc, Nat.add_comm 1 fuel]
    · have hend' : slots ip ≤ NR_DIR_ENTRIES * q := by
        rw [hs₀, h.size] at hend
        simp only [BLOCK_SIZE, DIR_ENTRY_SIZE, NR_DIR_ENTRIES] at *
        omega
      obtain ⟨hmiss, hfit⟩ := hs.ended hend'
      refine Outcome.pure fun t ht => Or.inr (Or.inr ⟨rfl, hmiss, fun hf => ?_, ht⟩)
      obtain ⟨hq, hnew⟩ := hfit hf
      rw [hsize] at hq hnew
      exact ⟨by rw [hq, Nat.mul_mod_right], hnew⟩

end Search

/-! ## Stores into slots -/

section Stores

variable (hlay : Layout sp)

include hlay

/-- A store into a block of a directory that changes one of its slots. -/
theorem slot_store (h : Owned sp m ip) (hk : fileBlock sp m ip (k / NR_DIR_ENTRIES) ≠ NO_BLOCK)
    {e : Option (Name × Nat)} {data : Block}
    (hdata : ∀ dp, dirEntry data dp = if dp = slotIn k then e
      else dirEntry (m sp.sDev (fileBlock sp m ip (k / NR_DIR_ENTRIES))) dp) {i : Nat}
    (hi : fileBlock sp m ip (i / NR_DIR_ENTRIES) ≠ NO_BLOCK) :
    (entries sp (m.set sp.sDev (fileBlock sp m ip (k / NR_DIR_ENTRIES)) data) ip).slot i =
      update (entries sp m ip).slot k e i := by
  have hcontents := h.contents_store hlay data hi (q := k / NR_DIR_ENTRIES)
  simp only [entries]
  rw [fileBlock_congr (h.zoneOf_store hlay hk data), hcontents]
  by_cases hik : i = k
  · rw [hik, update_self, if_pos rfl, hdata, if_pos rfl]
  · rw [update_of_ne hik]
    split
    · rename_i hblock
      have hslot : slotIn i ≠ slotIn k := fun he => hik (by
        rw [slot_split i, slot_split k, hblock, he])
      rw [hdata, if_neg hslot, hblock]
    · rfl

/-- An entry is erased. -/
theorem Directory.clear (h : Directory sp m ip) (hk : k < slots ip) {data : Block}
    (hdata : data = setInum (slotIn k) 0 (m sp.sDev (fileBlock sp m ip (k / NR_DIR_ENTRIES)))) :
    ((entries sp m ip).clear k).Agree
        (entries sp (m.set sp.sDev (fileBlock sp m ip (k / NR_DIR_ENTRIES)) data) ip) ∧
      Directory sp (m.set sp.sDev (fileBlock sp m ip (k / NR_DIR_ENTRIES)) data) ip := by
  have hmap := h.whole k hk
  have hagree : ((entries sp m ip).clear k).Agree
      (entries sp (m.set sp.sDev (fileBlock sp m ip (k / NR_DIR_ENTRIES)) data) ip) :=
    ⟨rfl, fun i hi => slot_store hlay h.owned hmap (fun dp => hdata ▸ dirEntry_setInum)
      (h.whole i hi)⟩
  refine ⟨hagree, h.type, h.size, h.owned.store hlay hmap data, fun i hi => ?_,
    hagree.distinct h.distinct.clear⟩
  rw [fileBlock_congr (h.owned.zoneOf_store hlay hmap data)]
  exact h.whole i hi

/-- An entry is made, in a slot or after the last one. -/
theorem Directory.fill (h : Directory sp m ip) (hlen : string.length = NAME_SIZE) (hpos : 0 < numb)
    (hlt : numb < 65536) (hk : k ≤ slots ip)
    (hmap : fileBlock sp m ip (k / NR_DIR_ENTRIES) ≠ NO_BLOCK)
    (hnew : (entries sp m ip).find string = none) {data : Block}
    (hdata : data =
      setEntry (slotIn k) string numb (m sp.sDev (fileBlock sp m ip (k / NR_DIR_ENTRIES))))
    (hip : ip' = { ip with
      iDirt := DIRTY
      iSize := if k + 1 > slots ip then ((k + 1) * DIR_ENTRY_SIZE : Nat) else ip.iSize }) :
    ((entries sp m ip).fill k string numb).Agree
        (entries sp (m.set sp.sDev (fileBlock sp m ip (k / NR_DIR_ENTRIES)) data) ip') ∧
      Directory sp (m.set sp.sDev (fileBlock sp m ip (k / NR_DIR_ENTRIES)) data) ip' := by
  have hroot : rootOf ip' = rootOf ip := hip ▸ rfl
  have hsize : ip'.iSize = (DIR_ENTRY_SIZE * max (slots ip) (k + 1) : Nat) := by
    rw [hip]
    dsimp only
    have := h.size
    simp only [DIR_ENTRY_SIZE] at *
    split <;> omega
  have hslots : slots ip' = max (slots ip) (k + 1) := by
    unfold slots at hsize ⊢
    rw [hsize]
    simp only [DIR_ENTRY_SIZE]
    omega
  -- the blocks are where they were
  have hblock (m : Flat) (q : Nat) : fileBlock sp m ip' q = fileBlock sp m ip q :=
    fileBlock_congr (fun s => by unfold zoneOf; rw [hroot]) q
  have hmapped : ∀ i < slots ip', fileBlock sp m ip (i / NR_DIR_ENTRIES) ≠ NO_BLOCK := by
    intro i hi
    rw [hslots] at hi
    rcases Nat.lt_or_ge i (slots ip) with hi' | hi'
    · exact h.whole i hi'
    · obtain rfl : i = k := by omega
      exact hmap
  have hagree : ((entries sp m ip).fill k string numb).Agree
      (entries sp (m.set sp.sDev (fileBlock sp m ip (k / NR_DIR_ENTRIES)) data) ip') := by
    refine ⟨hslots, fun i hi => ?_⟩
    have hi' : i < slots ip' := hslots ▸ hi
    have hstore := slot_store hlay h.owned hmap (fun dp => hdata ▸ dirEntry_setEntry hlen hpos hlt)
      (hmapped i hi')
    refine Eq.trans ?_ hstore
    simp only [entries]
    rw [hblock]
  refine ⟨hagree, ?_, ?_, (h.owned.store hlay hmap data).of_root hroot, fun i hi => ?_,
    hagree.distinct (h.distinct.fill hk hnew)⟩
  · rw [hip]
    exact h.type
  · rw [hslots]
    exact hsize
  · rw [hblock, fileBlock_congr (h.owned.zoneOf_store hlay hmap data)]
    exact hmapped i hi

omit hlay in
/-- The same directory, with other blocks after its end at most. -/
theorem Directory.kept (h : Directory sp m ip) {o : Option Nat} (hk : Kept sp o m ip m' ip')
    (ho : ∀ q, o = some q → slots ip ≤ NR_DIR_ENTRIES * q) :
    (entries sp m ip).Agree (entries sp m' ip') ∧ Directory sp m' ip' := by
  have hslots : slots ip' = slots ip := by
    unfold slots
    rw [hk.file.iSize]
  have hblocks : ∀ i < slots ip, fileBlock sp m' ip' (i / NR_DIR_ENTRIES) =
      fileBlock sp m ip (i / NR_DIR_ENTRIES) ∧
      m' sp.sDev (fileBlock sp m ip (i / NR_DIR_ENTRIES)) =
        m sp.sDev (fileBlock sp m ip (i / NR_DIR_ENTRIES)) := by
    refine fun i hi => hk.blocks _ (fun he => ?_) (h.whole i hi)
    have := ho _ he.symm
    simp only [NR_DIR_ENTRIES] at this
    omega
  have hagree : (entries sp m ip).Agree (entries sp m' ip') := by
    refine ⟨hslots, fun i hi => ?_⟩
    obtain ⟨hblock, hsame⟩ := hblocks i hi
    simp only [entries]
    rw [hblock, hsame]
  refine ⟨hagree, hk.file.type.trans h.type, ?_, hk.owned, fun i hi => ?_,
    hagree.distinct h.distinct⟩
  · rw [hslots, hk.file.iSize]
    exact h.size
  · rw [hslots] at hi
    rw [(hblocks i hi).1]
    exact h.whole i hi

end Stores

/-! ## The calls -/

/-- What a caller needs to be allowed to search a directory. -/
def Permitted (sup : SuperPtr → Super) (fp : Fproc) (ip : Inode) (flag : DirFlag) : Prop :=
  forbidden sup fp ip (if flag = .LOOK_UP then X_BIT else W_BIT ||| X_BIT) false = some OK

/-- An inode with another size and other zones, at most. -/
def Resized (ip ip' : Inode) : Prop :=
  ip' = { ip with iSize := ip'.iSize, iZone := ip'.iZone, iDirt := ip'.iDirt }

/-- An inode with another size. -/
theorem SameFile.resized (h : SameFile ip ip') (size : Int) (dirt : Bool) :
    Resized ip { ip' with iSize := size, iDirt := dirt } := by
  rw [h.eq]
  rfl

/-- What is allowed does not depend on these. -/
theorem Resized.permitted {fp : Fproc} (h : Resized ip ip') (hperm : Permitted sup fp ip flag) :
    Permitted sup fp ip' flag := by
  rw [h]
  exact hperm

/-- What a look for a name returns, and what it leaves in `numb`. -/
def answer (numb : Nat) : Option Nat → Int × Nat
  | some i => (OK, i)
  | none => (ENOENT, numb)

section Calls

variable (hsv : Serving io disk sup sp) (hroom : Room usable c₀)

include hsv hroom

/-- An entry is looked at, or erased. -/
theorem takeEntry_on {block : Nat} (hoff : OffMap sp block) (dp : Fin NR_DIR_ENTRIES) :
    Returns (On disk usable sp (Holding usable sp c₀ bp block) K m ip)
      (takeEntry io flag numb bp dp) fun r t =>
        r = (OK, if flag = .DELETE then numb else dirInum (m sp.sDev block) dp) ∧
        On disk usable sp (SameUse c₀) K (if flag = .DELETE then
          m.set sp.sDev block (setInum dp 0 (m sp.sDev block)) else m) ip t := by
  have hlay := hsv.layout
  unfold takeEntry
  refine data_bind hlay fun s hs => Outcome.bind (Q := fun _ =>
    On disk usable sp (Holding usable sp c₀ bp block) K (if flag = .DELETE then
      m.set sp.sDev block (setInum dp 0 (m sp.sDev block)) else m) ip) (.provided (fun hf => ?_)
        fun hf => ?_) fun _ => Outcome.bind (putBlock_on hsv hroom hoff _) fun _ =>
          Outcome.pure fun t ht => ⟨by rw [hs], ht⟩
  · rw [if_pos hf]
    exact storeBuf_on hlay hoff _
  · rw [if_neg hf]
    exact fun _ ht => ht

/-- A name is entered in a block. -/
theorem enterName_on {block oldSlots newSlots : Nat} (hoff : OffMap sp block)
    (dp : Fin NR_DIR_ENTRIES) :
    Returns (On disk usable sp (Holding usable sp c₀ bp block) K m ip)
      (enterName io string numb oldSlots newSlots bp dp) fun r t => r = (OK, numb) ∧
        On disk usable sp (SameUse c₀) K
          (m.set sp.sDev block (setEntry dp string numb (m sp.sDev block)))
          { ip with
            iDirt := DIRTY
            iSize := if newSlots > oldSlots then (newSlots * DIR_ENTRY_SIZE : Nat)
              else ip.iSize } t := by
  unfold enterName
  refine Outcome.bind (storeBuf_on hsv.layout hoff _) fun _ =>
    Outcome.bind (putBlock_on hsv hroom hoff _) fun _ => Outcome.bind (Q := fun _ =>
      On disk usable sp (SameUse c₀) K
        (m.set sp.sDev block (setEntry dp string numb (m sp.sDev block)))
        { ip with
          iDirt := DIRTY
          iSize := if newSlots > oldSlots then (newSlots * DIR_ENTRY_SIZE : Nat) else ip.iSize })
      (Outcome.modify fun s hs => ⟨hs.mounted, hs.use, hs.err, by rw [← hs.rip], hs.dev⟩) fun _ =>
        Outcome.pure fun t ht => ⟨rfl, ht⟩

omit hsv hroom in
/-- What `search_dir` does once it has searched the directory. -/
theorem searchDir_scanned (htype : ip.type = I_DIRECTORY) {fp : Fproc}
    (hperm : Permitted sup fp ip flag) {Q : Int × Nat → Work σ → Prop}
    {R : Search (BufPtr × Fin NR_DIR_ENTRIES) × Nat → Work σ → Prop} {oldSlots : Nat}
    (hold : unshort (ip.iSize.tdiv DIR_ENTRY_SIZE) = oldSlots)
    (hscan : Returns (On disk usable sp U K m ip) (scanBlocks io sup string flag oldSlots
      ((ip.iSize / BLOCK_SIZE).toNat + 2) 0 0) R)
    (hfound : ∀ bp dp newSlots, Returns (R (.found (bp, dp), newSlots))
      (takeEntry io flag numb bp dp) Q)
    (hvacant : ∀ bp dp newSlots, Returns (R (.room (bp, dp), newSlots))
      (enterName io string numb oldSlots newSlots bp dp) Q)
    (hover : ∀ newSlots, flag ≠ .ENTER → ∀ t, R (.ended, newSlots) t → Q (ENOENT, numb) t)
    (hextend : ∀ newSlots, flag = .ENTER → Returns (R (.ended, newSlots))
      (extendDir io sup string numb oldSlots newSlots) Q) :
    Returns (On disk usable sp U K m ip) (searchDir io sup fp string numb flag) Q := by
  have hallowed (s : Work σ) : orStuck (fun s : Work σ => (forbidden sup fp ip
      (if flag = .LOOK_UP then X_BIT else W_BIT ||| X_BIT) false).map fun r => (r, s)) s =
        .ok (OK, s) := by
    unfold orStuck
    rw [show forbidden sup fp ip _ false = some OK from hperm]
    rfl
  unfold searchDir
  refine rip_bind fun s₀ hs₀ => ?_
  rw [hs₀]
  dsimp only
  rw [if_neg (not_not.mpr htype), hold]
  refine .read (fun s _ => hallowed s) ?_
  rw [if_neg (not_not.mpr rfl)]
  refine Outcome.bind hscan fun r => ?_
  obtain ⟨r, newSlots⟩ := r
  cases r with
  | found d => exact hfound d.1 d.2 newSlots
  | room d => exact hvacant d.1 d.2 newSlots
  | ended => exact .ite (fun hf => Outcome.pure (hover newSlots hf)) fun hf =>
      hextend newSlots (not_not.mp hf)

/-- What it does with a directory. -/
theorem searchDir_on (h : Directory sp m ip) {fp : Fproc} (hperm : Permitted sup fp ip flag)
    (hcount : Countable (entries sp m ip) string flag) {Q : Int × Nat → Work σ → Prop}
    (hfound : ∀ bp k i, flag ≠ .ENTER → k < slots ip →
      (entries sp m ip).slot k = some (string, i) → Returns (On disk usable sp
        (Holding usable sp c₀ bp (fileBlock sp m ip (k / NR_DIR_ENTRIES))) K m ip)
        (takeEntry io flag numb bp (slotIn k)) Q)
    (hvacant : ∀ bp k, flag = .ENTER → Vacant (entries sp m ip) k → Returns (On disk usable sp
        (Holding usable sp c₀ bp (fileBlock sp m ip (k / NR_DIR_ENTRIES))) K m ip)
        (enterName io string numb (slots ip) (k + 1) bp (slotIn k)) Q)
    (hover : flag ≠ .ENTER → (entries sp m ip).find string = none → ∀ t,
      On disk usable sp (SameUse c₀) K m ip t → Q (ENOENT, numb) t)
    (hfull : flag = .ENTER → (entries sp m ip).Full → slots ip % NR_DIR_ENTRIES = 0 →
      Returns (On disk usable sp (SameUse c₀) K m ip)
        (extendDir io sup string numb (slots ip) (slots ip)) Q) :
    Returns (On disk usable sp (SameUse c₀) K m ip) (searchDir io sup fp string numb flag) Q := by
  have hmax : slots ip ≤ 65535 := hcount.le
  have hold : unshort (ip.iSize.tdiv DIR_ENTRY_SIZE) = slots ip := by
    rw [h.size, Int.tdiv_eq_ediv_of_nonneg (Int.natCast_nonneg _)]
    unfold unshort
    simp only [DIR_ENTRY_SIZE]
    omega
  have hfuel : (ip.iSize / BLOCK_SIZE).toNat + 2 = slots ip / NR_DIR_ENTRIES + 2 := by
    rw [h.size]
    simp only [BLOCK_SIZE, DIR_ENTRY_SIZE, NR_DIR_ENTRIES]
    omega
  have henough : slots ip + NR_DIR_ENTRIES ≤
      NR_DIR_ENTRIES * (0 + ((ip.iSize / BLOCK_SIZE).toNat + 2)) := by
    rw [hfuel]
    simp only [NR_DIR_ENTRIES]
    omega
  have hscan := scanBlocks_on (K := K) hsv hroom h hcount .start henough
  refine searchDir_scanned h.type hperm hold hscan (fun bp dp n => ?_) (fun bp dp n => ?_)
    (fun n hf t ht => ?_) fun n hf => ?_
  · intro t ht
    rcases ht with ⟨bp, k, i, hr, hf, hk, he, ht⟩ | ⟨_, _, hr, -⟩ | ⟨hr, -⟩
    · cases hr
      exact hfound bp k i hf hk he t ht
    · cases hr
    · cases hr
  · intro t ht
    rcases ht with ⟨_, _, _, hr, -⟩ | ⟨bp, k, hr, hf, hv, ht⟩ | ⟨hr, -⟩
    · cases hr
    · cases hr
      exact hvacant bp k hf hv t ht
    · cases hr
  · rcases ht with ⟨_, _, _, hr, -⟩ | ⟨_, _, hr, -⟩ | ⟨-, hmiss, -, ht⟩
    · cases hr
    · cases hr
    · exact hover hf (Table.find_none.mpr fun k hk i he =>
        hmiss k hk ((stops_find hf).mpr ⟨i, he⟩)) t ht
  · intro t ht
    rcases ht with ⟨_, _, _, hr, -⟩ | ⟨_, _, hr, -⟩ | ⟨-, hmiss, hfit, ht⟩
    · cases hr
    · cases hr
    · obtain ⟨hmod, rfl⟩ := hfit hf
      exact hfull hf (fun k hk hnone => hmiss k hk ((stops_enter hf).mpr hnone)) hmod t ht

/-- Looking a name up. -/
theorem lookUp_on (h : Directory sp m ip) {fp : Fproc} (hperm : Permitted sup fp ip .LOOK_UP)
    (hcount : Countable (entries sp m ip) string .LOOK_UP) :
    Returns (On disk usable sp (SameUse c₀) K m ip)
      (searchDir io sup fp string numb .LOOK_UP) fun r t =>
        r = answer numb ((entries sp m ip).find string) ∧
          On disk usable sp (SameUse c₀) K m ip t := by
  have hlay := hsv.layout
  refine searchDir_on hsv hroom h hperm hcount (fun bp k i hf hk he => ?_) nofun
    (fun _ hnone t ht => ⟨hnone ▸ rfl, ht⟩) nofun
  refine Outcome.post (takeEntry_on hsv hroom (h.owned.block_offMap hlay (h.whole k hk)) (slotIn k))
    fun r t ⟨hr, ht⟩ => ⟨?_, ht⟩
  have hinum := (dirEntry_eq_some.mp he).2.2
  rw [hr, h.distinct.find_slot hk he]
  exact congrArg (Prod.mk OK) hinum

/-- Deleting a name. -/
theorem delete_on (h : Directory sp m ip) {fp : Fproc} (hperm : Permitted sup fp ip .DELETE)
    (hcount : Countable (entries sp m ip) string .DELETE) :
    Returns (On disk usable sp (SameUse c₀) K m ip)
      (searchDir io sup fp string numb .DELETE) fun r t =>
        (∃ k i m', r = (OK, numb) ∧ k < slots ip ∧
          (entries sp m ip).slot k = some (string, i) ∧
          ((entries sp m ip).clear k).Agree (entries sp m' ip) ∧ Directory sp m' ip ∧
          On disk usable sp (SameUse c₀) K m' ip t) ∨
        (r = (ENOENT, numb) ∧ (entries sp m ip).find string = none ∧
          On disk usable sp (SameUse c₀) K m ip t) := by
  have hlay := hsv.layout
  refine searchDir_on hsv hroom h hperm hcount (fun bp k i hf hk he => ?_) nofun
    (fun _ hnone t ht => Or.inr ⟨rfl, hnone, ht⟩) nofun
  obtain ⟨hagree, hdir⟩ := h.clear hlay hk rfl
  exact Outcome.post (takeEntry_on hsv hroom (h.owned.block_offMap hlay (h.whole k hk)) (slotIn k))
    fun r t ⟨hr, ht⟩ => Or.inl ⟨k, i, _, hr, hk, he, hagree, hdir, ht⟩

omit hsv hroom in
/-- The block of a vacant slot is there. -/
theorem Directory.vacant_mapped (h : Directory sp m ip) (hv : Vacant (entries sp m ip) k) :
    fileBlock sp m ip (k / NR_DIR_ENTRIES) ≠ NO_BLOCK := by
  have hle : k ≤ slots ip := hv.le
  rcases Nat.lt_or_eq_of_le hle with hk | hk
  · exact h.whole k hk
  · have hmod := hv.inBlock hk
    refine h.mapped ?_
    simp only [NR_DIR_ENTRIES] at *
    omega

/-- Entering a name. -/
theorem enter_on (h : Directory sp m ip) (hdev : ip.iDev = sp.sDev) {fp : Fproc}
    (hperm : Permitted sup fp ip .ENTER) (hcount : Countable (entries sp m ip) string .ENTER)
    (hlen : string.length = NAME_SIZE) (hpos : 0 < numb) (hlt : numb < 65536)
    (hnew : (entries sp m ip).find string = none) :
    Returns (On disk usable sp (SameUse c₀) K m ip)
      (searchDir io sup fp string numb .ENTER) fun r t =>
        (∃ k m' ip', r = (OK, numb) ∧ k ≤ slots ip ∧
          (∀ i < k, (entries sp m ip).slot i ≠ none) ∧
          (k < slots ip → (entries sp m ip).slot k = none) ∧
          ((entries sp m ip).fill k string numb).Agree (entries sp m' ip') ∧ Resized ip ip' ∧
          Directory sp m' ip' ∧ On disk usable sp (SameUse c₀) (fun _ => True) m' ip' t) ∨
        (∃ m' ip', r = (ENOSPC, numb) ∧ (entries sp m ip).Full ∧
          (entries sp m ip).Agree (entries sp m' ip') ∧ SameFile ip ip' ∧
          Directory sp m' ip' ∧ On disk usable sp (SameUse c₀) (fun _ => True) m' ip' t) := by
  have hlay := hsv.layout
  have hmax : slots ip ≤ 65535 := hcount.le
  refine searchDir_on hsv hroom h hperm hcount (fun _ _ _ hf => absurd rfl hf)
    (fun bp k _ hv => ?_) (fun hf => absurd rfl hf) fun _ hfull hmod => ?_
  · have hmap := h.vacant_mapped hv
    obtain ⟨hagree, hdir⟩ := h.fill hlay hlen hpos hlt hv.le hmap hnew rfl rfl
    refine Outcome.post (enterName_on hsv hroom (h.owned.block_offMap hlay hmap) (slotIn k))
      fun r t ⟨hr, ht⟩ => Or.inl ⟨k, _, _, hr, hv.le, hv.used, hv.free, hagree, rfl, hdir, ?_⟩
    exact ⟨ht.mounted, ht.use, trivial, ht.rip, ht.dev⟩
  · obtain ⟨q, hq⟩ : ∃ q, slots ip = NR_DIR_ENTRIES * q :=
      ⟨slots ip / NR_DIR_ENTRIES, by simp only [NR_DIR_ENTRIES] at *; omega⟩
    have hsize : ip.iSize = (BLOCK_SIZE * q : Nat) := by
      rw [h.size, hq]
      simp only [DIR_ENTRY_SIZE, NR_DIR_ENTRIES, BLOCK_SIZE]
      omega
    have hcount : unshort ((slots ip : Int) + 1) = slots ip + 1 := by
      unfold unshort
      simp only [NR_DIR_ENTRIES] at hq
      omega
    have hshift : q >>> scaleOf sp ≤ q := by
      rw [Nat.shiftRight_eq_div_pow]
      exact Nat.div_le_self ..
    obtain ⟨s, hs⟩ := slotOf_isSome (k := NR_DZONE_NUM) (n := NR_INDIRECTS)
      (z := q >>> scaleOf sp) (by
        simp only [NR_DIR_ENTRIES, NR_DZONE_NUM, NR_ZONE_NUMS, NR_INDIRECTS] at *
        omega)
    unfold extendDir
    dsimp only
    rw [hcount, if_neg (Nat.succ_ne_zero _)]
    refine rip_bind fun s₀ hs₀ => ?_
    rw [hs₀, hsize]
    refine Outcome.bind (newBlock_on hsv hroom h.owned hdev hsize hs) fun o => .or
      (.given fun m₁ => .given fun ip₁ => .given fun bp => .fact fun ho => .fact fun hx => ?_)
      (.fact fun ho => .given fun m₁ => .given fun ip₁ => .fact fun hk => ?_)
    · subst ho
      obtain ⟨hagree, hdir⟩ := h.kept hx.toKept fun q' hq' => Option.some.inj hq' ▸ hq.le
      have hslots : slots ip₁ = slots ip := hagree.size
      have hblock : slots ip / NR_DIR_ENTRIES = q := by
        rw [hq, Nat.mul_div_cancel_left q (by decide)]
      have hzero : slotIn (slots ip) = 0 := Fin.ext hmod
      have hnew₁ : (entries sp m₁ ip₁).find string = none := by
        rw [hagree.find]
        exact hnew
      obtain ⟨hagree', hdir'⟩ := hdir.fill hlay hlen hpos hlt hslots.ge
        (hblock.symm ▸ hx.mapped) hnew₁ rfl rfl
      rw [hblock, hzero, hslots] at hagree' hdir'
      refine Outcome.post (enterName_on hsv hroom (hx.owned.block_offMap hlay hx.mapped) 0)
        fun r t ⟨hr, ht⟩ => Or.inl ⟨slots ip, _, _, hr, le_rfl, fun i hi => hfull i hi,
          fun hlt => absurd hlt (lt_irrefl _), (hagree.fill le_rfl _ _).trans hagree',
          hx.file.resized _ _, hdir', ht⟩
    · subst ho
      obtain ⟨hagree, hdir⟩ := h.kept hk nofun
      exact fun t ht => Or.inr ⟨m₁, ip₁, congrArg (·, numb) ht.err, hfull, hagree, hk.file, hdir,
        ht.mounted, ht.use, trivial, ht.rip, ht.dev⟩

end Calls

/-! ## The map -/

/-- A directory of a mounted device is at hand. -/
structure AtDir (io : DevIo σ) (disk : σ → Flat) (usable : BufPtr → Prop) (sup : SuperPtr → Super)
    (sp : Super) (m : Flat) (s : Work σ) : Prop where
  serving : Serving io disk sup sp
  mounted : Mounted disk usable sp m s.cache
  room : Room usable s.cache
  dev : s.rip.iDev = sp.sDev
  dir : Directory sp m s.rip

namespace AtDir

variable {s s' : Work σ} (h : AtDir io disk usable sup sp m s)

include h

/-- The search starts with nothing passed. -/
theorem start : On disk usable sp (SameUse s.cache) (fun _ => True) m s.rip s :=
  ⟨h.mounted, ⟨rfl, rfl⟩, trivial, rfl, h.dev⟩

/-- A later call meets the directory it finds then. -/
theorem after (ht : On disk usable sp (SameUse s.cache) K m' ip' s') (hdir : Directory sp m' ip') :
    AtDir io disk usable sup sp m' s' :=
  ⟨h.serving, ht.mounted, h.room.same ht.use, ht.rip ▸ ht.dev, ht.rip ▸ hdir⟩

/-- Looking a name up finds its inode number, and nothing changes. -/
theorem lookUp {fp : Fproc} (hperm : Permitted sup fp s.rip .LOOK_UP)
    (hcount : Countable (entries sp m s.rip) string .LOOK_UP) :
    ∃ s', searchDir io sup fp string numb .LOOK_UP s =
        .ok (answer numb ((entries sp m s.rip).find string), s') ∧
      AtDir io disk usable sup sp m s' ∧ s'.rip = s.rip := by
  obtain ⟨r, s', he, rfl, ht⟩ := (lookUp_on h.serving h.room h.dir hperm
    hcount).returns h.start
  exact ⟨s', he, h.after ht h.dir, ht.rip⟩

end AtDir

/-- On a directory in which the slots can be counted `search_dir` is an operation of the map. A name
is entered in a free slot, and only if there is none the directory grows; if there is no block for
that, it stays as it is. -/
theorem search_dir_map {s : Work σ} (h : AtDir io disk usable sup sp m s) {fp : Fproc}
    (hperm : Permitted sup fp s.rip flag) (hcount : Countable (entries sp m s.rip) string flag)
    (hnew : flag = .ENTER → string.length = NAME_SIZE ∧ 0 < numb ∧ numb < 65536 ∧
      (entries sp m s.rip).find string = none) :
    ∃ r s' m', searchDir io sup fp string numb flag s = .ok (r, s') ∧
      AtDir io disk usable sup sp m' s' ∧
      match flag with
      | .LOOK_UP => r = answer numb ((entries sp m s.rip).find string) ∧ m' = m ∧ s'.rip = s.rip
      | .DELETE =>
        (∃ k i, r = (OK, numb) ∧ (entries sp m s.rip).slot k = some (string, i) ∧
          ((entries sp m s.rip).clear k).Agree (entries sp m' s'.rip) ∧
          (entries sp m s.rip).find string = some i ∧
          (entries sp m' s'.rip).find = update (entries sp m s.rip).find string none ∧
          s'.rip = s.rip) ∨
        (r = (ENOENT, numb) ∧ (entries sp m s.rip).find string = none ∧ m' = m ∧ s'.rip = s.rip)
      | .ENTER =>
        (r = (OK, numb) ∧
          (∀ fp', Permitted sup fp' s.rip .LOOK_UP →
            ∃ s'', searchDir io sup fp' string 0 .LOOK_UP s' = .ok ((OK, numb), s'')) ∧
          (entries sp m' s'.rip).find = update (entries sp m s.rip).find string (some numb) ∧
          ((entries sp m s.rip).Full → s'.rip.iSize = s.rip.iSize + DIR_ENTRY_SIZE) ∧
          (¬(entries sp m s.rip).Full → s'.rip.iSize = s.rip.iSize)) ∨
        (r = (ENOSPC, numb) ∧ (entries sp m s.rip).Full ∧
          (entries sp m s.rip).Agree (entries sp m' s'.rip) ∧ s'.rip.iSize = s.rip.iSize) := by
  cases flag with
  | LOOK_UP =>
    obtain ⟨s', he, hat, hrip⟩ := h.lookUp hperm hcount
    exact ⟨_, s', m, he, hat, rfl, rfl, hrip⟩
  | DELETE =>
    obtain ⟨r, s', he, hcase⟩ := (delete_on h.serving h.room h.dir hperm
      hcount).returns h.start
    rcases hcase with ⟨k, i, m', hr, hk, hslot, hagree, hdir, ht⟩ | ⟨hr, hnone, ht⟩
    · refine ⟨r, s', m', he, h.after ht hdir, Or.inl ⟨k, i, hr, hslot, ?_, ?_, ?_, ht.rip⟩⟩
      · rwa [ht.rip]
      · exact h.dir.distinct.find_slot hk hslot
      · rw [ht.rip, hagree.find]
        exact h.dir.distinct.find_clear hk hslot
    · exact ⟨r, s', m, he, h.after ht h.dir, Or.inr ⟨hr, hnone, rfl, ht.rip⟩⟩
  | ENTER =>
    obtain ⟨hlen, hpos, hlt, hnone⟩ := hnew rfl
    obtain ⟨r, s', he, hcase⟩ := (enter_on h.serving h.room h.dir h.dev hperm hcount hlen hpos hlt
      hnone).returns h.start
    rcases hcase with ⟨k, m', ip', hr, hk, hused, hfree, hagree, hsame, hdir, ht⟩ |
      ⟨m', ip', hr, hfull, hagree, hfile, hdir, ht⟩
    · have hat := h.after ht hdir
      have hfind : (entries sp m' s'.rip).find =
          update (entries sp m s.rip).find string (some numb) := by
        rw [ht.rip, hagree.find]
        exact h.dir.distinct.find_fill hk hfree hnone
      have hself : (entries sp m' s'.rip).find string = some numb := by rw [hfind, update_self]
      have hslots : slots s'.rip = max (slots s.rip) (k + 1) := by
        rw [ht.rip]
        exact hagree.size
      have hlast : k = slots s.rip ↔ (entries sp m s.rip).Full :=
        ⟨fun hk' i hi => hused i (hk' ▸ hi), fun hfull => by
          by_contra hne
          have hlt' : k < slots s.rip := by omega
          exact hfull k hlt' (hfree hlt')⟩
      have hmax : (entries sp m' s'.rip).size ≤ 65535 := by
        change slots s'.rip ≤ 65535
        rcases hcount with hsmall | ⟨hsize, i, hi, hstop⟩
        · have : slots s.rip < 65535 := hsmall
          omega
        · -- a slot is free, so the directory does not grow
          have hsize' : slots s.rip = 65535 := hsize
          have hne : k ≠ slots s.rip := fun hk' =>
            hlast.mp hk' i hi ((stops_enter rfl).mp hstop)
          omega
      have hsize := h.dir.size
      have hsize' := hat.dir.size
      rw [hslots] at hsize'
      refine ⟨r, s', m', he, hat, Or.inl ⟨hr, fun fp' hperm' => ?_, hfind, fun hfull => ?_,
        fun hnfull => ?_⟩⟩
      · have hperm'' : Permitted sup fp' s'.rip .LOOK_UP := ht.rip ▸ hsame.permitted hperm'
        obtain ⟨s'', he', -, -⟩ := hat.lookUp hperm'' (countable_of_find hmax hself)
        rw [hself] at he'
        exact ⟨s'', he'⟩
      · have hk' := hlast.mpr hfull
        simp only [DIR_ENTRY_SIZE] at *
        omega
      · have hk' := mt hlast.mp hnfull
        simp only [DIR_ENTRY_SIZE] at *
        omega
    · refine ⟨r, s', m', he, h.after ht hdir, Or.inr ⟨hr, hfull, ?_, ?_⟩⟩
      · rwa [ht.rip]
      · rw [ht.rip, hfile.iSize]

/-! ## A directory whose number of slots wraps -/

section Wrap

variable (hsv : Serving io disk sup sp) (hroom : Room usable c₀) (h : Directory sp m ip)
  (hslots : slots ip = 65536)

/-- When no slot is thought to be in use, the search passes one slot in each block. -/
theorem scanSlots_wrapped {b : Block} {dps : List (Fin NR_DIR_ENTRIES)} (hdps : dps ≠ [])
    {newSlots : Nat} (hnew : newSlots + 1 < 65536) :
    scanSlots b string .LOOK_UP 0 dps newSlots = (.ended, newSlots + 1) := by
  have hnext : unshort ((newSlots : Int) + 1) = newSlots + 1 := by
    unfold unshort
    omega
  cases dps with
  | nil => exact absurd rfl hdps
  | cons dp dps =>
    unfold scanSlots
    rw [hnext]
    dsimp only
    rw [if_pos (Nat.succ_pos _), if_neg (by decide)]

include hsv hroom h hslots

/-- In a directory of 65536 slots the whole search passes, when the number of slots is cut to 0. -/
theorem scanBlocks_wrapped {fuel : Nat} (hfuel : 1025 ≤ q + fuel) (hq : q ≤ 1024) :
    Returns (On disk usable sp (SameUse c₀) K m ip)
      (scanBlocks io sup string .LOOK_UP 0 fuel (BLOCK_SIZE * q : Nat) q) fun r t =>
        r.1 = .ended ∧ On disk usable sp (SameUse c₀) K m ip t := by
  induction fuel generalizing q with
  | zero => omega
  | succ fuel ih =>
    have hlay := hsv.layout
    unfold scanBlocks
    refine rip_bind fun s₀ hs₀ => .ite (fun hin => ?_) fun hend =>
      Outcome.pure fun t ht => ⟨rfl, ht⟩
    have hlt : q < 1024 := by
      rw [hs₀, h.size, hslots] at hin
      simp only [BLOCK_SIZE, DIR_ENTRY_SIZE] at hin
      omega
    have hmapped := h.mapped (q := q) (by
      rw [hslots]
      simp only [NR_DIR_ENTRIES]
      omega)
    have hnext : long (((BLOCK_SIZE * q : Nat) : Int) + BLOCK_SIZE) =
        (BLOCK_SIZE * (q + 1) : Nat) := by
      rw [long_of_lt] <;> simp only [BLOCK_SIZE, MAX_P_LONG] <;> omega
    obtain ⟨s, hslot, -⟩ := h.owned.exists_zone hlay hmapped
    refine Outcome.bind (readMap_block hsv hroom h.owned.tree hslot) fun b => .fact fun hb => ?_
    subst hb
    refine devOf_bind (Outcome.bind (getBlock_on hsv hroom _) fun bp => ?_)
    refine data_bind hlay fun s₁ _ => ?_
    rw [scanSlots_wrapped (by decide) (by omega)]
    refine Outcome.bind (putBlock_on hsv hroom (h.owned.block_offMap hlay hmapped) _) fun _ => ?_
    rw [hnext]
    exact ih (by omega) hlt

/-- No name is found. -/
theorem lookUp_wrapped {fp : Fproc} (hperm : Permitted sup fp ip .LOOK_UP) :
    Returns (On disk usable sp (SameUse c₀) K m ip)
      (searchDir io sup fp string numb .LOOK_UP) fun r t =>
        r = (ENOENT, numb) ∧ On disk usable sp (SameUse c₀) K m ip t := by
  have hold : unshort (ip.iSize.tdiv DIR_ENTRY_SIZE) = 0 := by
    rw [h.size, hslots]
    rfl
  have hfuel : (ip.iSize / BLOCK_SIZE).toNat + 2 = 1026 := by
    rw [h.size, hslots]
    rfl
  have hscan : Returns (On disk usable sp (SameUse c₀) K m ip) (scanBlocks io sup string .LOOK_UP 0
      ((ip.iSize / BLOCK_SIZE).toNat + 2) 0 0) fun r t =>
        r.1 = .ended ∧ On disk usable sp (SameUse c₀) K m ip t := by
    rw [hfuel]
    exact scanBlocks_wrapped hsv hroom h hslots (q := 0) (by decide) (by decide)
  exact searchDir_scanned h.type hperm hold hscan (fun _ _ _ _ ht => nomatch ht.1)
    (fun _ _ _ _ ht => nomatch ht.1) (fun _ _ t ht => ⟨rfl, ht.2⟩) nofun

end Wrap

/-! ## A directory of four zones -/

/-- The super block of a device with zones of 256 blocks. -/
def zonedSuper : Super :=
  { exampleSuper with sNzones := 200, sFirstdatazone := 1, sLogZoneSize := 8 }

/-- The name `.`. -/
def dotName : Name := 46 :: List.replicate 13 0

/-- All zones of the device are busy, and the first slot of zone 1 has the name `.`. -/
def dotDisk : Flat := fun _ block =>
  if block < 256 then fun _ => 255
  else if block = 256 then setEntry 0 dotName 1 fun _ => 0
  else fun _ => 0

/-- A directory in zones 1 to 4. -/
def dotDir (size : Int) : Inode :=
  { emptyFile with
    iMode := 0o040777
    iSize := size
    iZone := fun i => if i.val < 4 then i.val + 1 else NO_ZONE }

section Example

/-- The device with its zone map in a buffer. -/
abbrev zonedAt (bp : BufPtr) : Super := { zonedSuper with sZmap := fun _ => .of bp }

/-- Its layout is right. -/
theorem zonedAt_layout (bp : BufPtr) : Layout (zonedAt bp) where
  mounted := (by decide : 256 ≠ NO_DEV)
  scale := (by decide : (0 : Int) ≤ 8)
  ptrs := by
    refine ⟨(by decide : 1 ≤ 8), fun b hb => ⟨bp, dif_pos ?_⟩, fun b hb b' hb' _ => ?_⟩
    · exact (show b < 1 from hb).trans (by decide)
    · exact (Nat.lt_one_iff.mp hb).trans (Nat.lt_one_iff.mp hb').symm
  first := (by decide : 1 ≤ 1)
  data := (by decide : 1 ≤ 200)
  nzones := (by decide : 200 < 65536)
  bits := (by decide : 200 - 1 + 1 ≤ 1 * BLOCK_BITS)
  fits := (by decide : 200 <<< 8 ≤ 65536)
  maps := (by decide : SUPER_BLOCK + 1 + 1 + 1 ≤ 1 <<< 8)

/-- All bits of the zone map are set. -/
theorem dotDisk_mapBit (bp : BufPtr) {n : Nat} (hn : n < BLOCK_BITS) :
    mapBit dotDisk (zonedAt bp) n = true := by
  have hword : (255 : UInt8).toBitVec ++ (255 : UInt8).toBitVec = ~~~(0 : Word) := by decide
  have hblock : n / BLOCK_BITS = 0 := Nat.div_eq_of_lt hn
  have hlast : n % INT_BITS < INT_BITS := Nat.mod_lt n (by decide)
  unfold mapBit
  rw [hblock]
  exact allOnes_getLsbD hword ⟨n % INT_BITS, hlast⟩

variable {bp : BufPtr} {m : Flat} {size : Int} {q k n : Nat}

/-- The zones of the directory. -/
theorem dotDir_zone {s : Slot NR_DZONE_NUM NR_INDIRECTS}
    (hs : zoneOf (zonedAt bp) m (dotDir size) s ≠ NO_ZONE) : ∃ i : Fin NR_DZONE_NUM,
      i.val < 4 ∧ s = .direct i ∧ zoneOf (zonedAt bp) m (dotDir size) s = i.val + 1 := by
  cases s with
  | direct i =>
    have hz : zoneOf (zonedAt bp) m (dotDir size) (.direct i) =
        if i.val < 4 then i.val + 1 else NO_ZONE := rfl
    rw [hz] at hs
    split at hs
    · rename_i hi
      exact ⟨i, hi, rfl, hz.trans (if_pos hi)⟩
    · exact absurd rfl hs
  | single j => exact absurd entry_zero hs
  | double i j =>
    refine absurd ?_ hs
    simp only [lookup]
    rw [entry_of_direct rfl]
    exact entry_zero

/-- They are its own. -/
theorem dotDir_owned : Owned (zonedAt bp) dotDisk (dotDir size) := by
  refine ⟨tree_of_direct rfl rfl, fun s hs => ?_, fun s s' hs he => ?_⟩
  · obtain ⟨i, hi, -, hz⟩ := dotDir_zone hs
    have hdz : DataZone (zonedAt bp) (i.val + 1) :=
      ⟨Nat.le_add_left 1 i.val, show i.val + 1 < 200 by omega⟩
    have hbit : zoneBit (zonedAt bp) (i.val + 1) < 1 * BLOCK_BITS :=
      ((zonedAt_layout bp).bit_lt hdz).1
    rw [Nat.one_mul] at hbit
    rw [hz]
    exact ⟨hdz, dotDisk_mapBit bp hbit, not_isIndex_of_direct rfl rfl _⟩
  · obtain ⟨i, hi, rfl, hz⟩ := dotDir_zone hs
    obtain ⟨i', hi', rfl, hz'⟩ := dotDir_zone (he ▸ hs)
    rw [hz, hz'] at he
    exact congrArg Slot.direct (Fin.ext (Nat.succ.inj he))

/-- The blocks of the directory are those of its zones, one after the other. -/
theorem dotDir_block (hq : q < 1024) : fileBlock (zonedAt bp) m (dotDir size) q = 256 + q := by
  have hlt : q >>> 8 < 4 := by
    rw [Nat.shiftRight_eq_div_pow]
    omega
  have hdirect : q >>> 8 < NR_DZONE_NUM := hlt.trans (by decide)
  have hslot : slotOf NR_DZONE_NUM NR_INDIRECTS (q >>> scaleOf (zonedAt bp)) =
      some (.direct ⟨q >>> 8, hdirect⟩) := dif_pos hdirect
  have hzone : zoneOf (zonedAt bp) m (dotDir size) (.direct ⟨q >>> 8, hdirect⟩) = q >>> 8 + 1 :=
    if_pos hlt
  have hdz : DataZone (zonedAt bp) (q >>> 8 + 1) :=
    ⟨Nat.le_add_left 1 _, show q >>> 8 + 1 < 200 by omega⟩
  rw [fileBlock_of_slot hslot, hzone, blockIn_eq (zonedAt_layout bp) hdz]
  change (q >>> 8 + 1) * 2 ^ 8 + q % 2 ^ 8 = 256 + q
  rw [Nat.shiftRight_eq_div_pow]
  omega

/-- Its only entry is the one in its first slot. -/
theorem dotDir_slot (hk : k < 65536) : (entries (zonedAt bp) dotDisk (dotDir size)).slot k =
    if k = 0 then some (dotName, 1) else none := by
  have hq : k / NR_DIR_ENTRIES < 1024 := by
    simp only [NR_DIR_ENTRIES]
    omega
  have hslot : (entries (zonedAt bp) dotDisk (dotDir size)).slot k =
      dirEntry (dotDisk 256 (256 + k / NR_DIR_ENTRIES)) (slotIn k) := by
    simp only [entries]
    rw [dotDir_block hq]
    rfl
  rw [hslot]
  unfold dotDisk
  rw [if_neg (not_lt.mpr (Nat.le_add_right 256 _))]
  split
  · rename_i hblock
    rw [dirEntry_setEntry rfl (by decide) (by decide), dirEntry_zero]
    refine if_congr ⟨fun he => ?_, fun he => he ▸ rfl⟩ rfl rfl
    have := congrArg Fin.val he
    simp only [slotIn, NR_DIR_ENTRIES, Fin.val_zero] at *
    omega
  · rename_i hblock
    rw [dirEntry_zero, if_neg]
    rintro rfl
    exact hblock rfl

/-- The directory with `n` slots. -/
theorem dotDir_directory (hn : n ≤ 65536) :
    Directory (zonedAt bp) dotDisk (dotDir (DIR_ENTRY_SIZE * n : Nat)) := by
  have hslots : slots (dotDir (DIR_ENTRY_SIZE * n : Nat)) = n := by
    change (((DIR_ENTRY_SIZE * n : Nat) : Int) / DIR_ENTRY_SIZE).toNat = n
    simp only [DIR_ENTRY_SIZE]
    omega
  have htype : 0o040777 &&& I_TYPE = I_DIRECTORY := by decide
  refine ⟨htype, ?_, dotDir_owned, fun k hk => ?_, fun i hi j hj a v w hv hw => ?_⟩
  · rw [hslots]
    rfl
  · rw [hslots] at hk
    rw [dotDir_block (by simp only [NR_DIR_ENTRIES]; omega)]
    exact (Nat.lt_of_lt_of_le (by decide) (Nat.le_add_right 256 _)).ne'
  · have hi' : i < n := hslots ▸ hi
    have hj' : j < n := hslots ▸ hj
    rw [dotDir_slot (by omega)] at hv hw
    split at hv
    · split at hw
      · rename_i hi₀ hj₀
        exact hi₀.trans hj₀.symm
      · exact nomatch hw
    · exact nomatch hv

/-- There is such a directory. -/
theorem exists_dotDir (hn : n ≤ 65536) : ∃ (bp : BufPtr) (s : Work Flat),
    AtDir Store.flatDevice id (Usable 0) (fun _ => zonedAt bp) (zonedAt bp) dotDisk s ∧
      s.rip = dotDir (DIR_ENTRY_SIZE * n : Nat) := by
  obtain ⟨bp, c, -, hsv, hm, hroom⟩ := exists_mounted_of zonedSuper dotDisk rfl zonedAt_layout
    (dotDisk_mapBit 0 (by decide))
  exact ⟨bp, ⟨c, dotDir (DIR_ENTRY_SIZE * n : Nat), 0⟩,
    ⟨hsv, hm, hroom, rfl, dotDir_directory hn⟩, rfl⟩

/-- The process of the example may change it. -/
theorem dotDir_permitted (flag : DirFlag) (size : Int) :
    Permitted (fun _ => zonedAt bp) setuidRoot (dotDir size) flag := by
  have hbits : permBits setuidRoot (dotDir size) false = 0o7 := rfl
  have hmode : (dotDir size).iMode = 0o040777 := rfl
  unfold Permitted forbidden
  dsimp only
  rw [hbits, hmode]
  cases flag <;> rfl

end Example

/-- A name that a directory of two slots does not have yet is entered, and then found. -/
theorem search_dir_map_enter : ∃ (bp : BufPtr) (s s' s'' : Work Flat),
    searchDir Store.flatDevice (fun _ => zonedAt bp) setuidRoot (97 :: List.replicate 13 0) 2
        .ENTER s = .ok ((OK, 2), s') ∧
      searchDir Store.flatDevice (fun _ => zonedAt bp) setuidRoot (97 :: List.replicate 13 0) 0
        .LOOK_UP s' = .ok ((OK, 2), s'') := by
  obtain ⟨bp, s, h, hrip⟩ := exists_dotDir (n := 2) (by decide)
  have hsize : (entries (zonedAt bp) dotDisk s.rip).size = 2 := hrip ▸ rfl
  have hslot : ∀ k < 2, (entries (zonedAt bp) dotDisk s.rip).slot k =
      if k = 0 then some (dotName, 1) else none := fun k hk => hrip ▸ dotDir_slot (by omega)
  have hnone : (entries (zonedAt bp) dotDisk s.rip).find (97 :: List.replicate 13 0) = none := by
    refine Table.find_none.mpr fun k hk v he => ?_
    rw [hsize] at hk
    rw [hslot k hk] at he
    split at he
    · have hname : dotName = 97 :: List.replicate 13 0 := congrArg Prod.fst (Option.some.inj he)
      exact absurd hname (by decide)
    · exact nomatch he
  have hfree : ¬(entries (zonedAt bp) dotDisk s.rip).Full := fun hfull =>
    hfull 1 (hsize ▸ by decide) (hslot 1 (by decide))
  have hperm : Permitted (fun _ => zonedAt bp) setuidRoot s.rip .ENTER :=
    hrip ▸ dotDir_permitted .ENTER _
  have htwo : 0 < 2 ∧ 2 < 65536 := by decide
  obtain ⟨r, s', m', he, hat, hcase⟩ := search_dir_map h hperm (Or.inl (hsize ▸ by decide))
    fun _ => ⟨rfl, htwo.1, htwo.2, hnone⟩
  rcases hcase with ⟨rfl, hlook, -⟩ | ⟨-, hfull, -⟩
  · obtain ⟨s'', he'⟩ := hlook setuidRoot (hrip ▸ dotDir_permitted .LOOK_UP _)
    exact ⟨bp, s, s', s'', he, he'⟩
  · exact absurd hfull hfree

/-- In a directory of 65536 slots the name that is in the first one is not found. -/
theorem search_dir_not_map : ∃ (bp : BufPtr) (s s' : Work Flat),
    AtDir Store.flatDevice id (Usable 0) (fun _ => zonedAt bp) (zonedAt bp) dotDisk s ∧
      slots s.rip = 65536 ∧ Permitted (fun _ => zonedAt bp) setuidRoot s.rip .LOOK_UP ∧
      (entries (zonedAt bp) dotDisk s.rip).find dotName = some 1 ∧
      searchDir Store.flatDevice (fun _ => zonedAt bp) setuidRoot dotName 0 .LOOK_UP s =
        .ok ((ENOENT, 0), s') := by
  obtain ⟨bp, s, h, hrip⟩ := exists_dotDir (n := 65536) le_rfl
  have hslots : slots s.rip = 65536 := hrip ▸ rfl
  have hperm : Permitted (fun _ => zonedAt bp) setuidRoot s.rip .LOOK_UP :=
    hrip ▸ dotDir_permitted .LOOK_UP _
  have hslot : (entries (zonedAt bp) dotDisk s.rip).slot 0 = some (dotName, 1) :=
    hrip ▸ dotDir_slot (by decide)
  have hlook : Returns
      (On id (Usable 0) (zonedAt bp) (SameUse s.cache) (fun _ => True) dotDisk s.rip)
      (searchDir Store.flatDevice (fun _ => zonedAt bp) setuidRoot dotName 0 .LOOK_UP) _ :=
    lookUp_wrapped h.serving h.room h.dir hslots hperm
  obtain ⟨r, s', he, rfl, -⟩ := hlook.returns h.start
  have hpos : 0 < slots s.rip := hslots ▸ (by decide : 0 < 65536)
  exact ⟨bp, s, s', h, hslots, hperm, h.dir.distinct.find_slot hpos hslot, he⟩

end Minix.FS.ZoneMaps
