import Mathlib.Data.List.Count
import Minix.Kernel.Tty

/-!
# The input queue of the terminal

The count is the distance between the two ends of the ring, and `tty_lfct` counts the line
feeds and MARKERs in it, as long as no MARKER is erased and no escaped character is typed when
there is one free place: `chuck` does not look for a MARKER, and the backslash takes the last
place.
-/

namespace Minix.Kernel.Tty

open Function Transition

/-- What is in the input queue, the oldest character first. -/
def queued (tp : TtyStruct) : List UInt8 :=
  Ring.contents TTY_IN_BYTES tp.inqueue tp.intail tp.incount.toNat

/-- The end of a line, or of the file. -/
def isBreak (ch : UInt8) : Bool := ch = LF ∨ ch = MARKER

/-- The counts of the queue are right. -/
structure Queued (tp : TtyStruct) : Prop where
  count : 0 ≤ tp.incount
  spans : Ring.Spans TTY_IN_BYTES tp.intail tp.inhead tp.incount.toNat
  lfct : tp.lfct = ((queued tp).countP isBreak : Nat)

/-- The queue is not touched. -/
structure SameQueue (tp tp' : TtyStruct) : Prop where
  inqueue : tp'.inqueue = tp.inqueue
  inhead : tp'.inhead = tp.inhead
  intail : tp'.intail = tp.intail
  incount : tp'.incount = tp.incount
  lfct : tp'.lfct = tp.lfct

section Queue

variable {tp tp' : TtyStruct} {ch : UInt8} {umap : UmapD}

/-- The invariant is a matter of the queue and its counts. -/
theorem Queued.congr (h : Queued tp) (hs : SameQueue tp tp') : Queued tp' := by
  have hq : queued tp' = queued tp := by
    unfold queued
    rw [hs.inqueue, hs.intail, hs.incount]
  refine ⟨hs.incount ▸ h.count, ?_, ?_⟩
  · rw [hs.intail, hs.inhead, hs.incount]
    exact h.spans
  · rw [hs.lfct, hq]
    exact h.lfct

/-- The queue holds no more than it has room for. -/
theorem Queued.count_le (h : Queued tp) : tp.incount ≤ TTY_IN_BYTES := by
  have := h.spans.count_le
  omega

/-- An emptied queue is in order. -/
theorem Queued.discard (tp : TtyStruct) : Queued (discard tp) :=
  ⟨Int.le_refl 0, .empty (by decide : 0 < TTY_IN_BYTES), rfl⟩

/-- Output leaves the queue alone. -/
theorem console_same (tp : TtyStruct) : SameQueue tp (console tp).1 := by
  unfold console
  generalize (if tp.inhibited then 0 else max tp.outleft 0) = count
  dsimp only
  split
  · exact ⟨rfl, rfl, rfl, rfl, rfl⟩
  · exact ⟨rfl, rfl, rfl, rfl, rfl⟩

/-- So does the translation of a scan code. -/
theorem translate_same (tp : TtyStruct) (ch : UInt8) : SameQueue tp (translate tp ch).2 := by
  unfold translate
  split
  · exact ⟨rfl, rfl, rfl, rfl, rfl⟩
  · exact ⟨rfl, rfl, rfl, rfl, rfl⟩

/-- A character comes into a queue with a free place. -/
theorem Queued.enqueue (h : Queued tp) (hroom : tp.incount < TTY_IN_BYTES) (ch : UInt8) :
    queued (enqueue tp ch) = queued tp ++ [ch] ∧ 0 ≤ (enqueue tp ch).incount ∧
    Ring.Spans TTY_IN_BYTES (enqueue tp ch).intail (enqueue tp ch).inhead
      (enqueue tp ch).incount.toNat := by
  have hcount := h.count
  have hnat : (tp.incount + 1).toNat = tp.incount.toNat + 1 := by omega
  have hlt : tp.incount.toNat < TTY_IN_BYTES := by omega
  unfold queued Tty.enqueue
  dsimp only
  rw [hnat]
  exact ⟨Ring.contents_push h.spans hlt ch, by omega, h.spans.push hlt⟩

/-- Storing a character keeps the queue in order. -/
theorem Queued.store (h : Queued tp) (hroom : tp.incount < TTY_IN_BYTES) (ch : UInt8) :
    Queued (store tp ch) := by
  obtain ⟨hq, hcount, hspans⟩ := h.enqueue hroom ch
  have hqueued : queued (Tty.store tp ch) = queued (Tty.enqueue tp ch) := by
    unfold Tty.store Tty.enqueue queued
    dsimp only
    split
    · rfl
    · rfl
  have hincount : (Tty.store tp ch).incount = (Tty.enqueue tp ch).incount := by
    unfold Tty.store
    dsimp only
    split
    · rfl
    · rfl
  refine ⟨hincount ▸ hcount, ?_, ?_⟩
  · rw [hincount]
    unfold Tty.store
    dsimp only
    split
    · exact hspans
    · exact hspans
  · rw [hqueued, hq, List.countP_append, List.countP_singleton]
    unfold Tty.store isBreak
    dsimp only
    by_cases hb : ch = LF ∨ ch = MARKER
    · rw [if_pos hb, if_pos (decide_eq_true hb)]
      change tp.lfct + 1 = _
      rw [h.lfct, Int.natCast_add]
      rfl
    · rw [if_neg hb, if_neg (by rw [decide_eq_true_iff]; exact hb)]
      exact h.lfct

/-- The backslash is no end of a line. -/
theorem Queued.escape (h : Queued tp) (hroom : tp.incount < TTY_IN_BYTES) :
    Queued (Tty.enqueue tp BACKSLASH) := by
  obtain ⟨hq, hcount, hspans⟩ := h.enqueue hroom BACKSLASH
  refine ⟨hcount, hspans, ?_⟩
  rw [hq, List.countP_append]
  exact h.lfct

/-- The newest character leaves the queue, unless the queue is empty or at the end of a line. -/
theorem Queued.chuck_cases (h : Queued tp) : chuck tp = (false, tp) ∨
    ∃ c, chuck tp = (true, { tp with
        inhead := Ring.prev TTY_IN_BYTES tp.inhead, incount := tp.incount - 1 }) ∧
      c ≠ LF ∧ c ≠ CR ∧ queued tp = queued (chuck tp).2 ++ [c] ∧
      0 ≤ (chuck tp).2.incount ∧
      Ring.Spans TTY_IN_BYTES (chuck tp).2.intail (chuck tp).2.inhead
        (chuck tp).2.incount.toNat := by
  unfold chuck
  by_cases hz : tp.incount = 0
  · rw [if_pos hz]
    exact .inl rfl
  · rw [if_neg hz]
    dsimp only
    split
    · exact .inl rfl
    · rename_i hb
      rw [not_or] at hb
      have hcount := h.count
      have hspans := h.spans
      have hnat : tp.incount.toNat = (tp.incount - 1).toNat + 1 := by omega
      rw [hnat] at hspans
      refine .inr ⟨_, rfl, hb.1, hb.2, ?_, by dsimp only; omega, hspans.unpush⟩
      unfold queued
      rw [hnat]
      exact Ring.contents_unpush hspans

/-- Erasing anything but a MARKER. -/
theorem Queued.chuck (h : Queued tp) (hm : (queued tp).getLast? ≠ some MARKER) :
    Queued (chuck tp).2 := by
  rcases h.chuck_cases with he | ⟨c, he, hlf, -, hq, hcount, hspans⟩
  · rw [he]
    exact h
  · refine ⟨hcount, hspans, ?_⟩
    have hlfct := h.lfct
    have hc : c ≠ MARKER := by
      rintro rfl
      rw [hq, List.getLast?_append, List.getLast?_singleton] at hm
      exact hm rfl
    have hnot : isBreak c = false := decide_eq_false (not_or.mpr ⟨hlf, hc⟩)
    rw [hq, List.countP_append, List.countP_singleton, hnot, if_neg Bool.false_ne_true,
      Nat.add_zero] at hlfct
    rw [← hlfct, he]

/-- What is on the line that is being typed, the newest character first. -/
def currentLine (tp : TtyStruct) : List UInt8 :=
  (queued tp).reverse.takeWhile fun c => decide (c ≠ LF ∧ c ≠ CR)

/-- Killing a line without a MARKER. -/
theorem Queued.chuckAll (h : Queued tp) (hm : MARKER ∉ currentLine tp) (fuel : Nat) :
    Queued (chuckAll fuel tp) := by
  induction fuel generalizing tp with
  | zero => exact h
  | succ fuel ih =>
    unfold Tty.chuckAll
    rcases h.chuck_cases with he | ⟨c, he, hlf, hcr, hq, -, -⟩
    · rw [he]
      exact h
    · have hline : currentLine tp = c :: currentLine (Tty.chuck tp).2 := by
        unfold currentLine
        rw [hq, List.reverse_append, List.reverse_singleton, List.singleton_append,
          List.takeWhile_cons, if_pos (decide_eq_true (And.intro hlf hcr))]
      rw [hline, List.mem_cons, not_or] at hm
      have hlast : (queued tp).getLast? ≠ some MARKER := by
        rw [hq, List.getLast?_append, List.getLast?_singleton]
        exact fun hc => hm.1 (Option.some.inj hc).symm
      have hnext := ih (h.chuck hlast) hm.2
      rw [he] at hnext ⊢
      exact hnext

/-- The character that `special` has in the end is put into the queue. -/
def Stores (tp : TtyStruct) (ch : UInt8) : Prop :=
  let ch := if ch = CR ∧ tp.mode &&& CRMOD ≠ 0 then LF else ch
  ¬(ch = tp.intr ∨ ch = tp.quit) ∧ ch ≠ tp.xoff ∧ ch ≠ tp.xon

/-- So does a special character, if there is room where it is stored. -/
theorem Queued.special (h : Queued tp) (hroom : Stores tp ch → tp.incount < TTY_IN_BYTES) :
    Queued (special tp ch).1 := by
  unfold Tty.special
  unfold Stores at hroom
  generalize (if ch = CR ∧ tp.mode &&& CRMOD ≠ 0 then LF else ch) = c at hroom ⊢
  dsimp only at hroom ⊢
  split
  · exact .discard _
  · rename_i hsig
    split
    · exact h.congr ⟨rfl, rfl, rfl, rfl, rfl⟩
    · rename_i hxoff
      split
      · have hrun : Queued { tp with inhibited := false } := h.congr ⟨rfl, rfl, rfl, rfl, rfl⟩
        exact hrun.congr (console_same _)
      · rename_i hxon
        exact h.store (hroom ⟨hsig, hxoff, hxon⟩) c

/-- In COOKED mode, no MARKER is erased or killed, and no escaped character is put into the queue
with its backslash when there is only one place. -/
def CookedIntact (tp : TtyStruct) (ch : UInt8) : Prop :=
  if tp.escaped = false then
    if ch = tp.erase then (queued tp).getLast? ≠ some MARKER
    else ch = tp.kill → MARKER ∉ currentLine tp
  else ch ≠ tp.erase → ch ≠ tp.kill → ch ≠ tp.eof → Stores tp ch → tp.incount < TTY_IN_BYTES - 1

/-- So does the processing of a character in cooked mode, under its condition. -/
theorem Queued.cooked (h : Queued tp) (hroom : tp.incount < TTY_IN_BYTES)
    (hi : CookedIntact tp ch) : Queued (cooked tp ch).1 := by
  unfold Tty.cooked
  unfold CookedIntact at hi
  cases hesc : tp.escaped with
  | false =>
    rw [hesc, if_pos rfl] at hi
    by_cases herase : ch = tp.erase
    · rw [if_pos herase] at hi
      rw [if_pos ⟨herase, rfl⟩]
      exact h.chuck hi
    · rw [if_neg herase] at hi
      rw [if_neg fun hc => herase hc.1]
      split
      · rename_i hkill
        exact h.chuckAll (hi hkill.1) _
      · rw [if_pos rfl]
        split
        · exact h.congr ⟨rfl, rfl, rfl, rfl, rfl⟩
        · exact h.special fun _ => hroom
  | true =>
    rw [hesc, if_neg Bool.noConfusion] at hi
    rw [if_neg fun hc => Bool.noConfusion hc.2, if_neg fun hc => Bool.noConfusion hc.2,
      if_neg Bool.noConfusion]
    have hout : Queued { tp with escaped := false } := h.congr ⟨rfl, rfl, rfl, rfl, rfl⟩
    dsimp only
    split
    · rename_i hother
      have hback := hout.escape hroom
      refine hback.special fun hs => ?_
      have hlast := hi hother.1 hother.2.1 hother.2.2 hs
      change tp.incount + 1 < _
      omega
    · exact hout.special fun _ => hroom

/-- The counts stay right when the character comes in. -/
def Intact (tp : TtyStruct) (ch : UInt8) : Prop :=
  ¬(F1 ≤ ch ∧ ch ≤ F10) → tp.incount < TTY_IN_BYTES → (translate tp ch).1 ≠ 0 →
    tp.mode &&& (RAW ||| CBREAK) = COOKED → CookedIntact (translate tp ch).2 (translate tp ch).1

/-- So does `in_char`. -/
theorem Queued.inChar (h : Queued tp) (hi : Intact tp ch) : Queued (inChar tp ch).1 := by
  unfold Tty.inChar
  unfold Intact at hi
  split
  · exact h
  · rename_i hkey
    split
    · exact h
    · rename_i hfull
      have hroom : tp.incount < TTY_IN_BYTES := by omega
      have hsame := translate_same tp ch
      have ht := h.congr hsame
      have hroom' : (translate tp ch).2.incount < TTY_IN_BYTES := hsame.incount ▸ hroom
      have hi := hi hkey hroom
      generalize translate tp ch = x at ht hi hroom'
      obtain ⟨c, tp'⟩ := x
      dsimp only at ht hi hroom' ⊢
      split
      · exact ht
      · rename_i hc
        split
        · rename_i hmode
          exact ht.cooked hroom' (hi hc hmode)
        · split
          · exact ht.special fun _ => hroom'
          · exact ht.store hroom' c

end Queue

section Read

variable {tp : TtyStruct} {umap : UmapD}

/-- A part of the queue has gone into the buffer, and the counts are right for the rest of it. -/
def Takes (x y : Fill) (n m : Nat) : Prop :=
  ∃ taken tail l, y.buf = x.buf ++ taken ∧ taken.length ≤ n ∧ (0 < n → 0 < taken.length) ∧
    y.tp = { x.tp with intail := tail, lfct := l } ∧
    Ring.Spans TTY_IN_BYTES tail x.tp.inhead (m - taken.length) ∧
    Ring.contents TTY_IN_BYTES x.tp.inqueue x.tp.intail m =
      taken ++ Ring.contents TTY_IN_BYTES x.tp.inqueue tail (m - taken.length) ∧
    l = ((Ring.contents TTY_IN_BYTES x.tp.inqueue tail
      (m - taken.length)).countP isBreak : Nat)

/-- Before the rest of the loop, one character is taken. -/
theorem Takes.cons {x y : Fill} {n m : Nat} {l₁ : Int} {enough eot : Bool}
    (hs : Ring.Spans TTY_IN_BYTES x.tp.intail x.tp.inhead (m + 1)) (k : Nat) (hk : k ≤ n)
    (h : Takes ⟨{ x.tp with intail := Ring.next TTY_IN_BYTES x.tp.intail, lfct := l₁ },
      x.buf ++ [x.tp.inqueue x.tp.intail], enough, eot⟩ y k m) : Takes x y (n + 1) (m + 1) := by
  obtain ⟨taken, tail, l, hbuf, hlen, -, htp, hspans, hq, hl⟩ := h
  have hm : m + 1 - (x.tp.inqueue x.tp.intail :: taken).length = m - taken.length := by
    rw [List.length_cons]
    omega
  refine ⟨x.tp.inqueue x.tp.intail :: taken, tail, l, ?_, ?_, fun _ => Nat.succ_pos _, htp, ?_, ?_,
    ?_⟩
  · rw [hbuf, List.append_assoc, List.singleton_append]
  · rw [List.length_cons]
    omega
  · rw [hm]
    exact hspans
  · rw [hm, Ring.contents_cons hs.tail_lt, List.cons_append]
    exact congrArg _ hq
  · rw [hm]
    exact hl

/-- What goes into a buffer is what was first in the queue. -/
theorem fill_takes (inCooked : Bool) (n : Nat) (x : Fill) {m : Nat}
    (hs : Ring.Spans TTY_IN_BYTES x.tp.intail x.tp.inhead m) (hn : n ≤ m)
    (hl : x.tp.lfct =
      ((Ring.contents TTY_IN_BYTES x.tp.inqueue x.tp.intail m).countP isBreak : Nat)) :
    Takes x (fill inCooked n x) n m := by
  induction n generalizing x m with
  | zero =>
    exact ⟨[], x.tp.intail, x.tp.lfct, (List.append_nil _).symm, Nat.le_refl 0, id, rfl, hs, rfl, hl⟩
  | succ n ih =>
    obtain ⟨m, rfl⟩ : ∃ m', m = m' + 1 := ⟨m - 1, by omega⟩
    have hpop := hs.pop
    rw [Ring.contents_cons hs.tail_lt, List.countP_cons] at hl
    unfold fill
    dsimp only
    by_cases hb : x.tp.inqueue x.tp.intail = LF ∨ x.tp.inqueue x.tp.intail = MARKER
    · rw [if_pos hb]
      rw [isBreak, if_pos (decide_eq_true hb)] at hl
      have hl₁ : x.tp.lfct - 1 = ((Ring.contents TTY_IN_BYTES x.tp.inqueue
          (Ring.next TTY_IN_BYTES x.tp.intail) m).countP isBreak : Nat) := by omega
      cases inCooked with
      | true =>
        rw [if_pos rfl]
        exact .cons hs 0 (Nat.zero_le n) ⟨[], _, _, (List.append_nil _).symm, Nat.le_refl 0, id,
          rfl, hpop, rfl, hl₁⟩
      | false =>
        rw [if_neg Bool.false_ne_true]
        exact .cons hs n (Nat.le_refl n) (ih _ hpop (by omega) hl₁)
    · rw [if_neg hb]
      rw [isBreak, if_neg (by rw [decide_eq_true_iff]; exact hb), Nat.add_zero] at hl
      exact .cons hs n (Nat.le_refl n) (ih _ hpop (by omega) hl)

/-- The queue after a read, with what else is different. -/
def Reads (tp tp' : TtyStruct) : Prop :=
  Queued tp' ∧ ∃ tail l c n, tp' = { tp with intail := tail, lfct := l, incount := c, inleft := n }

/-- The number of characters that a read returns is none of the error codes. -/
theorem rdLoop_reads (inCooked : Bool) (fuel : Nat) (enough eot : Bool) (userPhys cum : Int)
    (out : List Output) (h : Queued tp) (hsome : 0 < tp.incount) (hcum : 0 ≤ cum) :
    0 ≤ (rdLoop inCooked fuel tp enough eot userPhys cum out).1 ∧
    Reads tp (rdLoop inCooked fuel tp enough eot userPhys cum out).2.1 := by
  induction fuel generalizing tp enough eot userPhys cum out with
  | zero => exact ⟨hcum, h, _, _, _, _, rfl⟩
  | succ fuel ih =>
    unfold rdLoop
    split
    · exact ⟨hcum, h, _, _, _, _, rfl⟩
    · rename_i hleft
      have hn : (min (min tp.inleft tp.incount) (TTY_BUF_SIZE : Int)).toNat ≤
        tp.incount.toNat := by omega
      obtain ⟨taken, tail, l, hbuf, hlen, hpos, htp, hspans, hq, hl⟩ :=
        fill_takes inCooked _ ⟨tp, [], enough, eot⟩ h.spans hn h.lfct
      have hcount := h.count
      have hlen' : taken.length ≤ tp.incount.toNat := Nat.le_trans hlen hn
      have hbuf_size : (TTY_BUF_SIZE : Int) = 256 := rfl
      have hpos' : 0 < taken.length := hpos (by omega)
      dsimp only
      generalize fill inCooked _ ⟨tp, [], enough, eot⟩ = x at hbuf htp ⊢
      rw [List.nil_append] at hbuf
      rw [hbuf, htp]
      dsimp only
      have hnat : (tp.incount - (taken.length : Int)).toNat = tp.incount.toNat - taken.length := by
        omega
      have hqueued : Queued { tp with
          intail := tail, lfct := l, inleft := tp.inleft - taken.length
          incount := tp.incount - taken.length } := by
        refine ⟨?_, ?_, ?_⟩
        · dsimp only
          omega
        · dsimp only
          rw [hnat]
          exact hspans
        · unfold queued
          dsimp only
          rw [hnat]
          exact hl
      have huser : (0 : Int) ≤ if x.eotSeen = true then (taken.length : Int) - 1
          else taken.length := by
        split
        · omega
        · omega
      generalize (if x.eotSeen = true then (taken.length : Int) - 1 else taken.length) = userCt
        at huser ⊢
      split
      · exact ⟨by omega, hqueued, _, _, _, _, rfl⟩
      · rename_i hmore
        rw [not_or] at hmore
        obtain ⟨hge, hdone, tail', l', c', n', he⟩ := ih x.enough x.eotSeen (userPhys + userCt)
          (cum + userCt) (out ++ [.physCopy userPhys (taken.take userCt.toNat)]) hqueued
          (by dsimp only at hmore ⊢; omega) (by omega)
        exact ⟨hge, hdone, tail', l', c', n', he⟩

/-- A read without an error serves the reader: nobody waits afterwards. -/
theorem rdChars_reads (umap : UmapD) (h : Queued tp) :
    Reads tp (rdChars umap tp).2.1 ∧
    (lineReady tp → umap tp.inproc tp.inVir tp.inleft ≠ 0 →
      0 ≤ (rdChars umap tp).1 ∧ (rdChars umap tp).2.1.inleft = 0) ∧
    (¬lineReady tp → rdChars umap tp = (SUSPEND, tp, [])) := by
  unfold rdChars
  by_cases hready : lineReady tp
  · rw [if_neg (not_not.mpr hready)]
    have hsome : 0 < tp.incount := by
      unfold lineReady at hready
      have := h.count
      omega
    dsimp only
    by_cases hbad : umap tp.inproc tp.inVir tp.inleft = 0
    · rw [if_pos hbad]
      exact ⟨⟨h, _, _, _, _, rfl⟩, fun _ hne => absurd hbad hne, fun hn => absurd hready hn⟩
    · rw [if_neg hbad]
      obtain ⟨hge, hdone, tail, l, c, n, he⟩ := rdLoop_reads
        (decide (tp.mode &&& (RAW ||| CBREAK) = 0)) (tp.inleft.toNat + 1) false false
        (umap tp.inproc tp.inVir tp.inleft) 0 [] h hsome (Int.le_refl 0)
      refine ⟨⟨hdone.congr ⟨rfl, rfl, rfl, rfl, rfl⟩, tail, l, c, 0, ?_⟩, fun _ _ => ⟨hge, rfl⟩,
        fun hn => absurd hready hn⟩
      rw [he]
  · rw [if_pos hready]
    exact ⟨⟨h, _, _, _, _, rfl⟩, fun hr => absurd hr hready, fun _ => rfl⟩

/-- So does the answer to a reader. -/
theorem Queued.satisfy (h : Queued tp) : Queued (satisfy umap tp).1 := by
  unfold Tty.satisfy
  split
  · exact (rdChars_reads umap h).1.1
  · exact h

/-- So does a character with what follows it. -/
theorem Queued.typed {ch : UInt8} (h : Queued tp) (hi : Intact tp ch) :
    Queued (typed umap tp ch).1 := (h.inChar hi).satisfy

end Read

section Run

variable {t t' : Task} {tp : TtyStruct} {umap : UmapD}

/-- The counts stay right with every character that is processed. -/
def AllIntact (umap : UmapD) : TtyStruct → List UInt8 → Prop
  | _, [] => True
  | tp, ch :: l => Intact tp ch ∧ AllIntact umap (typed umap tp ch).1 l

/-- So do all characters of one interrupt. -/
theorem Queued.doCharint {l : List UInt8} (h : Queued tp) (hi : AllIntact umap tp l) :
    Queued (doCharint umap tp l).1 := by
  induction l generalizing tp with
  | nil => exact h
  | cons ch l ih => exact ih (h.typed hi.1) hi.2

/-- No typed character makes the counts wrong. -/
def KeepsCounts (t : Task) (e : Event) : Prop :=
  match e.msg with
  | .charInt chars => AllIntact e.umap t.tp chars
  | _ => True

/-- So does every message. -/
theorem Queued.handle {msg : Message} (h : Queued tp)
    (hi : ∀ chars, msg = .charInt chars → AllIntact umap tp chars) :
    Queued (handle umap tp msg).1 := by
  cases msg with
  | charInt chars => exact h.doCharint (hi chars rfl)
  | read source procNr address count =>
    unfold Tty.handle doRead
    dsimp only
    split
    · exact h
    · have hq : Queued { tp with
          incaller := source, inproc := procNr, inVir := address, inleft := count } :=
        h.congr ⟨rfl, rfl, rfl, rfl, rfl⟩
      exact (rdChars_reads umap hq).1.1
  | write source procNr address count =>
    unfold Tty.handle doWrite
    dsimp only
    refine Queued.congr ?_ (console_same _)
    split
    · exact h.congr ⟨rfl, rfl, rfl, rfl, rfl⟩
    · exact h.congr ⟨rfl, rfl, rfl, rfl, rfl⟩
  | ioctl source procNr request spek flags =>
    unfold Tty.handle doIoctl
    dsimp only
    split
    · exact h.congr ⟨rfl, rfl, rfl, rfl, rfl⟩
    · split
      · exact h.congr ⟨rfl, rfl, rfl, rfl, rfl⟩
      · split
        · exact h
        · split
          · exact h
          · exact h
  | cancel source procNr =>
    unfold Tty.handle doCancel
    dsimp only
    split
    · exact h
    · exact (Queued.discard tp).congr ⟨rfl, rfl, rfl, rfl, rfl⟩
  | other source procNr => exact h
  | stop => exact h.congr ⟨rfl, rfl, rfl, rfl, rfl⟩

/-- At the start the queue is in order. -/
theorem Queued.started (h : Started t) : Queued t.tp := by
  obtain ⟨hhead, htail, hcount, hlfct⟩ := h.empty
  refine ⟨by omega, ?_, ?_⟩
  · rw [hhead, htail, hcount]
    exact .empty (by decide : 0 < TTY_IN_BYTES)
  · unfold queued
    rw [hcount, hlfct]
    rfl

/-- And each event keeps it so. -/
theorem Queued.step {e : Event} (h : Queued t.tp) (hi : KeepsCounts t e)
    (he : step t e = some t') : Queued t'.tp := by
  obtain rfl := Option.some.inj he
  refine h.handle fun chars hc => ?_
  unfold KeepsCounts at hi
  rw [hc] at hi
  exact hi

/-- In every run in which no MARKER is erased or killed, and no escaped character comes into the
queue with its backslash when there is one free place, the count of the queue is between 0 and its
size and leads from the tail to the head, and the line count is the number of line feeds and MARKERs
between them. -/
theorem input_queue_invariant (hr : Reach step KeepsCounts Started t) :
    0 ≤ t.tp.incount ∧ t.tp.incount ≤ TTY_IN_BYTES ∧
    t.tp.intail < TTY_IN_BYTES ∧ (t.tp.inhead : Int) = (t.tp.intail + t.tp.incount) % TTY_IN_BYTES ∧
    t.tp.lfct = ((queued t.tp).countP isBreak : Nat) := by
  have hinv : Queued t.tp := hr.invariant (fun t => Queued t.tp) (fun t h => .started h)
    fun t e t' h hi he => h.step hi he
  have hspans := hinv.spans
  have hhead : t.tp.inhead = (t.tp.intail + t.tp.incount.toNat) % 200 := hspans.head_eq
  have hcount := hinv.count
  have hsize : (TTY_IN_BYTES : Int) = 200 := rfl
  exact ⟨hcount, hinv.count_le, hspans.tail_lt, by rw [hsize]; omega, hinv.lfct⟩

section Example

instance (tp : TtyStruct) (ch : UInt8) : Decidable (Stores tp ch) := by
  unfold Stores
  infer_instance

instance (tp : TtyStruct) (ch : UInt8) : Decidable (CookedIntact tp ch) := by
  unfold CookedIntact
  infer_instance

instance (tp : TtyStruct) (ch : UInt8) : Decidable (Intact tp ch) := by
  unfold Intact
  infer_instance

instance allIntactDecidable (umap : UmapD) :
    (tp : TtyStruct) → (l : List UInt8) → Decidable (AllIntact umap tp l)
  | _, [] => .isTrue trivial
  | tp, ch :: l =>
    have := allIntactDecidable umap (typed umap tp ch).1 l
    inferInstanceAs (Decidable (Intact tp ch ∧ AllIntact umap (typed umap tp ch).1 l))

instance (t : Task) : (e : Event) → Decidable (KeepsCounts t e)
  | ⟨.charInt chars, umap⟩ => inferInstanceAs (Decidable (AllIntact umap t.tp chars))
  | ⟨.read _ _ _ _, _⟩ => .isTrue trivial
  | ⟨.write _ _ _ _, _⟩ => .isTrue trivial
  | ⟨.ioctl _ _ _ _ _, _⟩ => .isTrue trivial
  | ⟨.cancel _ _, _⟩ => .isTrue trivial
  | ⟨.other _ _, _⟩ => .isTrue trivial
  | ⟨.stop, _⟩ => .isTrue trivial

/-- The console when the system starts. -/
def exampleTask : Task where
  tp := {
    inqueue := fun _ => 0, inhead := 0, intail := 0, incount := 0, lfct := 0
    mode := CRMOD + XTABS + ECHO, escaped := false, inhibited := false, makebreak := true
    waiting := false, erase := 8, kill := 64, intr := 127, quit := 28, xon := 17, xoff := 19
    eof := 4, incaller := 0, inproc := 0, inVir := 0, inleft := 0, otcaller := 0, outproc := 0
    outleft := 0, cum := 0, keys := ⟨false, false, false, false, false, false, false⟩ }
  log := []

/-- The example starts as the task does. -/
theorem exampleTask_started : Started exampleTask :=
  ⟨⟨rfl, rfl, rfl, rfl⟩, ⟨rfl, rfl, rfl⟩, rfl, ⟨rfl, rfl, rfl, rfl, rfl, rfl, rfl⟩,
    ⟨rfl, rfl, rfl⟩, rfl⟩

/-- Keys are struck, while every address of a user is good. -/
def strike (codes : List UInt8) : Event := ⟨.charInt codes, fun _ _ _ => 4096⟩

/-- The letters A and S, a line feed and another A are typed. -/
theorem input_queue_invariant_example : ∃ t,
    run step KeepsCounts exampleTask [strike [30, 31, 28], strike [30]] = some t ∧
    queued t.tp = [97, 115, 10, 97] ∧ t.tp.lfct = 1 ∧
    0 ≤ t.tp.incount ∧ t.tp.incount ≤ TTY_IN_BYTES ∧
    t.tp.intail < TTY_IN_BYTES ∧ (t.tp.inhead : Int) = (t.tp.intail + t.tp.incount) % TTY_IN_BYTES ∧
    t.tp.lfct = ((queued t.tp).countP isBreak : Nat) := by
  have hrun : (run step KeepsCounts exampleTask [strike [30, 31, 28], strike [30]]).any (fun t =>
      queued t.tp = [97, 115, 10, 97] ∧ t.tp.lfct = 1) = true := by
    decide +kernel
  obtain ⟨t, ht, hm⟩ := (Option.any_eq_true _ _).mp hrun
  obtain ⟨hq, hl⟩ := of_decide_eq_true hm
  exact ⟨t, ht, hq, hl, input_queue_invariant (.of_run (.init exampleTask_started) ht)⟩

/-- CTRL-D is typed and erased: the line count stays one with nothing in the queue. -/
theorem input_queue_marker_erased : ¬∀ t, Reach step (fun _ _ => True) Started t →
    0 ≤ t.tp.incount ∧ t.tp.incount ≤ TTY_IN_BYTES ∧
    t.tp.intail < TTY_IN_BYTES ∧ (t.tp.inhead : Int) = (t.tp.intail + t.tp.incount) % TTY_IN_BYTES ∧
    t.tp.lfct = ((queued t.tp).countP isBreak : Nat) := by
  intro hall
  have hrun : (run step (fun _ _ => True) exampleTask [strike [29, 32, 157, 14]]).any (fun t =>
      queued t.tp = [] ∧ t.tp.lfct = 1) = true := by
    decide +kernel
  obtain ⟨t, ht, hm⟩ := (Option.any_eq_true _ _).mp hrun
  obtain ⟨hq, hl⟩ := of_decide_eq_true hm
  obtain ⟨-, -, -, -, hlfct⟩ := hall t (.of_run (.init exampleTask_started) ht)
  rw [hq, hl] at hlfct
  cases hlfct

end Example

end Run

end Minix.Kernel.Tty
