import Minix.Kernel.TtyQueue

/-!
# Reading from the terminal

Who reads is answered at once or is told to wait, and then revived or cancelled, once; and nobody
waits while a line is there. The fields of the request say that somebody waits, so this goes wrong
when they stay there after an error, when a line is counted that is not in the queue, and when a
cancel is for somebody else. What is there for a reader depends on the mode, which the terminal
looks at only when a character is typed.
-/

namespace Minix.Kernel.Tty

open Transition

/-- To whom a kind of answer is sent, and which. -/
def answers (kind : Nat) (out : List Output) : List (Int × Int) :=
  out.filterMap fun
    | .reply code _ procNr status _ _ => if code = kind then some (procNr, status) else none
    | _ => none

/-- Nobody is revived, and who waits for input gets no reply. -/
def LeavesWaiting (w : Option Int) (out : List Output) : Prop :=
  answers REVIVE out = [] ∧ ∀ x ∈ answers TASK_REPLY out, w ≠ some x.1

instance (w : Option Int) (out : List Output) : Decidable (LeavesWaiting w out) := by
  unfold LeavesWaiting
  infer_instance

/-- The protocol of reading: who waits for input after a message and what is sent then, if that is
allowed. A read is answered once, with a result, an error or, if nobody waits yet, SUSPEND. Who
waits gets one REVIVE with a result, or a reply to a cancel. -/
def follow (w : Option Int) (x : Message × List Output) : Option (Option Int) :=
  match x.1 with
  | .read _ p _ _ =>
    if answers REVIVE x.2 ≠ [] then none
    else if answers TASK_REPLY x.2 = [(p, SUSPEND)] then (if w = none then some (some p) else none)
    else if (answers TASK_REPLY x.2).map Prod.fst = [p] then some w
    else none
  | .charInt _ =>
    if LeavesWaiting w x.2 then some w
    else match w, answers REVIVE x.2 with
      | some p, [(q, st)] =>
        if q = p ∧ st ≠ SUSPEND ∧ ∀ y ∈ answers TASK_REPLY x.2, y.1 ≠ p then some none else none
      | _, _ => none
  | .cancel _ p =>
    match w with
    | some q =>
      if q = p ∧ answers REVIVE x.2 = [] ∧ answers TASK_REPLY x.2 = [(p, EINTR)] then some none
      else none
    | none => if answers REVIVE x.2 = [] then some none else none
  | _ => if LeavesWaiting w x.2 then some w else none

/-- Who waits for input after all that has happened, if it was allowed. -/
def protocol (log : List (Message × List Output)) : Option (Option Int) :=
  log.foldlM follow none

/-- Who waits for input as the terminal has it. -/
def hanging (tp : TtyStruct) : Option Int := if 0 < tp.inleft then some tp.inproc else none

/-- The mode has not been set since a character was typed or somebody was told to wait. -/
def settle (b : Bool) (x : Message × List Output) : Bool :=
  match x.1 with
  | .charInt (_ :: _) => true
  | .read _ p _ _ => b || decide (answers TASK_REPLY x.2 = [(p, SUSPEND)])
  | .ioctl _ _ request _ _ => b && decide (request ≠ TIOCSETP)
  | _ => b

/-- Nobody waits for what was there before, after all of a log. -/
def settled (log : List (Message × List Output)) : Bool := log.foldl settle true

/-- Nobody waits for what is there. -/
def Idle (tp : TtyStruct) : Prop := 0 < tp.inleft → ¬lineReady tp

/-- Nothing has been done to who waits for input, and only who waits for output may have got a
reply. -/
structure Quiet (tp tp' : TtyStruct) (out : List Output) : Prop where
  inleft : tp'.inleft = tp.inleft
  inproc : tp'.inproc = tp.inproc
  outproc : tp'.outproc = tp.outproc
  waiting : tp'.waiting = true → tp.waiting = true
  revived : answers REVIVE out = []
  told : ∀ x ∈ answers TASK_REPLY out, tp.waiting = true ∧ x.1 = tp.outproc

section Quiet

variable {tp tp' tp₁ : TtyStruct} {out out' : List Output} {umap : UmapD}

/-- The answers of two pieces of work. -/
theorem answers_append (kind : Nat) (out out' : List Output) :
    answers kind (out ++ out') = answers kind out ++ answers kind out' := List.filterMap_append

/-- Nothing is done. -/
theorem Quiet.refl (tp : TtyStruct) : Quiet tp tp [] :=
  ⟨rfl, rfl, rfl, id, rfl, fun _ hx => by cases hx⟩

/-- Two quiet pieces of work one after the other. -/
theorem Quiet.trans (h : Quiet tp tp₁ out) (h' : Quiet tp₁ tp' out') :
    Quiet tp tp' (out ++ out') := by
  refine ⟨h'.inleft.trans h.inleft, h'.inproc.trans h.inproc, h'.outproc.trans h.outproc,
    fun hw => h.waiting (h'.waiting hw), ?_, fun x hx => ?_⟩
  · rw [answers_append, h.revived, h'.revived, List.append_nil]
  · rw [answers_append, List.mem_append] at hx
    rcases hx with hx | hx
    · exact h.told x hx
    · obtain ⟨hw, he⟩ := h'.told x hx
      exact ⟨h.waiting hw, he.trans h.outproc⟩

/-- Work that says nothing, and leaves what hangs. -/
theorem Quiet.silent (hleft : tp'.inleft = tp.inleft) (hproc : tp'.inproc = tp.inproc)
    (hout : tp'.outproc = tp.outproc) (hw : tp'.waiting = tp.waiting) : Quiet tp tp' [] :=
  ⟨hleft, hproc, hout, fun h => hw ▸ h, rfl, fun _ hx => by cases hx⟩

/-- The end of a write answers the writer only. -/
theorem Quiet.finish (tp : TtyStruct) (code : Int) :
    Quiet tp (finish tp code).1 (finish tp code).2 := by
  refine ⟨rfl, rfl, rfl, fun h => Bool.noConfusion h, ?_, fun x hx => ?_⟩
  · unfold Tty.finish
    dsimp only
    split
    · rfl
    · rfl
  · unfold Tty.finish at hx
    dsimp only at hx
    split at hx
    · rename_i hw
      obtain rfl := List.mem_singleton.mp hx
      exact ⟨hw, rfl⟩
    · cases hx

/-- So does output to the screen. -/
theorem Quiet.console (tp : TtyStruct) : Quiet tp (console tp).1 (console tp).2 := by
  unfold Tty.console
  generalize (if tp.inhibited then 0 else max tp.outleft 0) = count
  have hcount : Quiet tp { tp with outleft := tp.outleft - count, cum := tp.cum + count } [] :=
    .silent rfl rfl rfl rfl
  dsimp only
  split
  · have hfin := hcount.trans (.finish { tp with
      outleft := tp.outleft - count, cum := tp.cum + count } (tp.cum + count))
    rw [List.nil_append] at hfin
    exact hfin
  · exact hcount

/-- A character is stored. -/
theorem Quiet.store (tp : TtyStruct) (ch : UInt8) : Quiet tp (store tp ch) [] := by
  unfold Tty.store
  dsimp only
  split
  · exact .silent rfl rfl rfl rfl
  · exact .silent rfl rfl rfl rfl

/-- A special character may signal, and say that output goes on. -/
theorem Quiet.special (tp : TtyStruct) (ch : UInt8) :
    Quiet tp (special tp ch).1 (special tp ch).2 := by
  unfold Tty.special
  generalize (if ch = CR ∧ tp.mode &&& CRMOD ≠ 0 then LF else ch) = c
  dsimp only
  split
  · have hrun : Quiet tp { tp with inhibited := false } [] := .silent rfl rfl rfl rfl
    have hfin := hrun.trans (.finish { tp with inhibited := false } EINTR)
    rw [List.nil_append] at hfin
    have hdone : Quiet (Tty.finish { tp with inhibited := false } EINTR).1
        (discard (Tty.finish { tp with inhibited := false } EINTR).1)
        [.causeSig (LOW_USER + 1) (if c = tp.intr then SIGINT else SIGQUIT)] :=
      ⟨rfl, rfl, rfl, id, rfl, fun x hx => by cases hx⟩
    exact hfin.trans hdone
  · split
    · exact .silent rfl rfl rfl rfl
    · split
      · have hrun : Quiet tp { tp with inhibited := false } [] := .silent rfl rfl rfl rfl
        exact hrun.trans (.console _)
      · exact .store tp c

/-- A character is taken back. -/
theorem Quiet.chuck (tp : TtyStruct) : Quiet tp (chuck tp).2 [] := by
  unfold Tty.chuck
  dsimp only
  split
  · exact .refl tp
  · split
    · exact .refl tp
    · exact .silent rfl rfl rfl rfl

/-- A line is taken back. -/
theorem Quiet.chuckAll (fuel : Nat) (tp : TtyStruct) : Quiet tp (chuckAll fuel tp) [] := by
  induction fuel generalizing tp with
  | zero => exact .refl tp
  | succ fuel ih =>
    unfold Tty.chuckAll
    have hone := Quiet.chuck tp
    split
    · rename_i tp₁ he
      rw [he] at hone
      exact hone.trans (ih tp₁)
    · rename_i tp₁ he
      rw [he] at hone
      exact hone

/-- A character in cooked mode. -/
theorem Quiet.cooked (tp : TtyStruct) (ch : UInt8) :
    Quiet tp (cooked tp ch).1 (cooked tp ch).2 := by
  unfold Tty.cooked
  split
  · exact .chuck tp
  · split
    · exact .chuckAll _ tp
    · split
      · split
        · exact .silent rfl rfl rfl rfl
        · exact .special tp _
      · have hout : Quiet tp { tp with escaped := false } [] := .silent rfl rfl rfl rfl
        dsimp only
        split
        · have hback : Quiet { tp with escaped := false }
              (enqueue { tp with escaped := false } BACKSLASH) [] := .silent rfl rfl rfl rfl
          exact (hout.trans hback).trans (.special _ ch)
        · exact hout.trans (.special _ ch)

/-- A character in any mode. -/
theorem Quiet.inChar (tp : TtyStruct) (ch : UInt8) :
    Quiet tp (inChar tp ch).1 (inChar tp ch).2 := by
  unfold Tty.inChar
  split
  · exact .refl tp
  · split
    · exact .refl tp
    · have htrans : Quiet tp (translate tp ch).2 [] := by
        unfold translate
        split
        · exact .silent rfl rfl rfl rfl
        · exact .refl tp
      generalize translate tp ch = x at htrans
      obtain ⟨c, tp₁⟩ := x
      dsimp only at htrans ⊢
      split
      · exact htrans
      · split
        · exact htrans.trans (.cooked tp₁ c)
        · split
          · exact htrans.trans (.special tp₁ c)
          · exact htrans.trans (.store tp₁ c)

/-- Who waits is not somebody who may get a reply. -/
theorem Quiet.hanging (h : Quiet tp tp' out) : hanging tp' = hanging tp := by
  unfold Tty.hanging
  rw [h.inleft, h.inproc]

/-- The reader and the writer stay different processes. -/
theorem Quiet.apart (h : Quiet tp tp' out)
    (ha : tp.waiting = true → Tty.hanging tp ≠ some tp.outproc) (hw : tp'.waiting = true) :
    Tty.hanging tp' ≠ some tp'.outproc := by
  rw [h.hanging, h.outproc]
  exact ha (h.waiting hw)

/-- The process that hangs gets no answer. -/
theorem Quiet.leaves (h : Quiet tp tp' out)
    (hother : tp.waiting = true → Tty.hanging tp ≠ some tp.outproc) :
    LeavesWaiting (Tty.hanging tp) out := by
  refine ⟨h.revived, fun x hx => ?_⟩
  obtain ⟨hw, he⟩ := h.told x hx
  rw [he]
  exact hother hw

end Quiet

section Steps

variable {t t' : Task} {tp : TtyStruct} {umap : UmapD}

/-- The buffer of a reader is good when a line is there for it. -/
def Serves (umap : UmapD) (tp : TtyStruct) : Prop :=
  lineReady tp → umap tp.inproc tp.inVir tp.inleft ≠ 0

/-- The buffer of who waits is good whenever a line is there. -/
def AllServed (umap : UmapD) : TtyStruct → List UInt8 → Prop
  | _, [] => True
  | tp, ch :: l => (0 < tp.inleft → Serves umap (inChar tp ch).1) ∧
      AllServed umap (typed umap tp ch).1 l

/-- What goes wrong with nothing: the counts stay right, no reader has a bad buffer when its line is
there, and a cancel is for who waits. -/
def Answerable (t : Task) (e : Event) : Prop :=
  KeepsCounts t e ∧
    match e.msg with
    | .charInt chars => AllServed e.umap t.tp chars
    | .read source p address count => t.tp.inleft ≤ 0 →
        Serves e.umap { t.tp with
          incaller := source, inproc := p, inVir := address, inleft := count }
    | .cancel _ p => ∀ q, hanging t.tp = some q → q = p
    | _ => True

/-- Requests come from processes that are not waiting for another one, and a read is for a character
at least. -/
def AsSent (t : Task) (e : Event) : Prop :=
  match e.msg with
  | .read _ p _ count => 0 < count ∧ ¬(t.tp.waiting = true ∧ t.tp.outproc = p)
  | .write _ p _ _ => hanging t.tp ≠ some p
  | .ioctl _ p _ _ _ => hanging t.tp ≠ some p
  | .other _ p => hanging t.tp ≠ some p
  | _ => True

/-- Who waits for output does not wait for input too. -/
def Apart (tp : TtyStruct) : Prop := tp.waiting = true → hanging tp ≠ some tp.outproc

/-- Copies are no answers. -/
theorem answers_physCopy {out : List Output} (h : ∀ o ∈ out, ∃ a b, o = .physCopy a b) (kind : Nat) :
    answers kind out = [] := by
  refine List.filterMap_eq_nil_iff.mpr fun o ho => ?_
  obtain ⟨a, b, rfl⟩ := h o ho
  rfl

/-- The loop that hands out characters copies only. -/
theorem rdLoop_copies (inCooked : Bool) (fuel : Nat) (tp : TtyStruct) (enough eot : Bool)
    (userPhys cum : Int) {out : List Output} (h : ∀ o ∈ out, ∃ a b, o = .physCopy a b) :
    ∀ o ∈ (rdLoop inCooked fuel tp enough eot userPhys cum out).2.2, ∃ a b, o = .physCopy a b := by
  induction fuel generalizing tp enough eot userPhys cum out with
  | zero => exact h
  | succ fuel ih =>
    unfold rdLoop
    split
    · exact h
    · dsimp only
      have hmore : ∀ a b, ∀ o ∈ out ++ [Output.physCopy a b], ∃ a b, o = .physCopy a b := by
        intro a b o ho
        rcases List.mem_append.mp ho with ho | ho
        · exact h o ho
        · exact ⟨a, b, List.mem_singleton.mp ho⟩
      split
      · exact hmore _ _
      · exact ih _ _ _ _ _ (hmore _ _)

/-- Reading tells nobody. -/
theorem answers_rdChars (kind : Nat) (tp : TtyStruct) :
    answers kind (rdChars umap tp).2.2 = [] := by
  unfold rdChars
  split
  · rfl
  · dsimp only
    split
    · rfl
    · exact answers_physCopy (rdLoop_copies _ _ _ _ _ _ _ fun _ ho => by cases ho) kind

/-- What a character leads to: nothing for who waits, or its answer. -/
inductive Revives (tp tp' : TtyStruct) (out : List Output) : Prop where
  | quiet : Quiet tp tp' out → Revives tp tp' out
  | revived (st : Int) : 0 < tp.inleft → st ≠ SUSPEND → tp'.inleft = 0 →
      tp'.outproc = tp.outproc → (tp'.waiting = true → tp.waiting = true) →
      answers REVIVE out = [(tp.inproc, st)] →
      (∀ x ∈ answers TASK_REPLY out, tp.waiting = true ∧ x.1 = tp.outproc) → Revives tp tp' out

/-- Quiet work before a process is revived. -/
theorem Quiet.revives {tp₁ tp' : TtyStruct} {out out' : List Output} (h : Quiet tp tp₁ out)
    (h' : Revives tp₁ tp' out') : Revives tp tp' (out ++ out') := by
  cases h' with
  | quiet hq => exact .quiet (h.trans hq)
  | revived st hleft hst hdone hout hw hrev htold =>
    refine .revived st (h.inleft ▸ hleft) hst hdone (hout.trans h.outproc)
      (fun hc => h.waiting (hw hc)) ?_ fun x hx => ?_
    · rw [answers_append, h.revived, List.nil_append, hrev, h.inproc]
    · rw [answers_append, List.mem_append] at hx
      rcases hx with hx | hx
      · exact h.told x hx
      · obtain ⟨hc, he⟩ := htold x hx
        exact ⟨h.waiting hc, he.trans h.outproc⟩

/-- Nobody waits any longer, so nobody is revived again. -/
theorem Revives.once {tp₁ tp' : TtyStruct} {out out' : List Output} (h : Revives tp tp₁ out)
    (h' : Revives tp₁ tp' out') : Revives tp tp' (out ++ out') := by
  cases h with
  | quiet hq => exact hq.revives h'
  | revived st hleft hst hdone hout hw hrev htold =>
    cases h' with
    | revived _ hleft' => omega
    | quiet hq =>
      refine .revived st hleft hst (hq.inleft.trans hdone) (hq.outproc.trans hout)
        (fun hc => hw (hq.waiting hc)) ?_ fun x hx => ?_
      · rw [answers_append, hq.revived, List.append_nil, hrev]
      · rw [answers_append, List.mem_append] at hx
        rcases hx with hx | hx
        · exact htold x hx
        · obtain ⟨hc, he⟩ := hq.told x hx
          exact ⟨hw hc, he.trans hout⟩

/-- When something is counted, it is there. -/
theorem Queued.ready (h : Queued tp)
    (hc : tp.lfct > 0 ∨ tp.mode &&& (CBREAK ||| RAW) ≠ 0 ∧ tp.incount > 0) : lineReady tp := by
  have hempty : tp.incount = 0 → tp.lfct = 0 := by
    intro hz
    rw [h.lfct]
    unfold queued
    rw [hz]
    rfl
  unfold lineReady
  rw [not_or, not_and]
  rcases hc with hl | ⟨hm, hn⟩
  · exact ⟨fun hz => by have := hempty hz; omega, fun _ => by omega⟩
  · exact ⟨by omega, fun hm' => absurd hm' hm⟩

/-- `satisfy` revives the reader once its request is served. -/
theorem satisfy_revives (h : Queued tp) (hserves : 0 < tp.inleft → Serves umap tp) :
    Revives tp (satisfy umap tp).1 (satisfy umap tp).2 := by
  unfold satisfy
  split
  · rename_i hc
    have hready := h.ready hc.2
    obtain ⟨⟨-, tail, l, c, n, he⟩, hdone, -⟩ := rdChars_reads umap h
    obtain ⟨hge, hleft⟩ := hdone hready (hserves hc.1 hready)
    have hnone : ∀ kind, answers kind (rdChars umap tp).2.2 = [] := fun kind =>
      answers_rdChars kind tp
    refine .revived (rdChars umap tp).1 hc.1 ?_ hleft ?_ ?_ ?_ ?_
    · unfold SUSPEND
      omega
    · dsimp only
      rw [he]
    · dsimp only
      rw [he]
      exact id
    · dsimp only
      rw [answers_append, hnone, he]
      rfl
    · intro x hx
      dsimp only at hx
      rw [answers_append, hnone] at hx
      cases hx
  · exact .quiet (.refl tp)

/-- So do characters that come in. -/
theorem doCharint_revives {l : List UInt8} (h : Queued tp) (hi : AllIntact umap tp l)
    (hs : AllServed umap tp l) : Revives tp (doCharint umap tp l).1 (doCharint umap tp l).2 := by
  induction l generalizing tp with
  | nil => exact .quiet (.refl tp)
  | cons ch l ih =>
    have hquiet := Quiet.inChar tp ch
    have htyped : Revives tp (typed umap tp ch).1 (typed umap tp ch).2 := by
      refine hquiet.revives (satisfy_revives (h.inChar hi.1) fun hleft => hs.1 ?_)
      rw [← hquiet.inleft]
      exact hleft
    exact htyped.once (ih (h.typed hi.1) hi.2 hs.2)

/-- Nobody hangs when nothing is asked for. -/
theorem hanging_none (h : tp.inleft ≤ 0) : hanging tp = none := if_neg (by omega)

/-- The protocol allows what typed characters lead to. -/
theorem Revives.follows {tp' : TtyStruct} {out : List Output} (h : Revives tp tp' out)
    (ha : Apart tp) (chars : List UInt8) :
    follow (hanging tp) (.charInt chars, out) = some (hanging tp') ∧ Apart tp' := by
  cases h with
  | quiet hq =>
    refine ⟨?_, hq.apart ha⟩
    unfold follow
    dsimp only
    rw [if_pos (hq.leaves ha), hq.hanging]
  | revived st hleft hst hdone hout hw hrev htold =>
    have hhang : hanging tp = some tp.inproc := if_pos hleft
    refine ⟨?_, fun _ => ?_⟩
    · unfold follow
      dsimp only
      rw [if_neg, hhang, hrev]
      · dsimp only
        rw [if_pos, hanging_none (by omega)]
        refine ⟨rfl, hst, fun y hy he => ?_⟩
        obtain ⟨hwait, hy'⟩ := htold y hy
        have := ha hwait
        rw [hhang, ← hy', he] at this
        exact this rfl
      · intro hc
        have := hc.1
        rw [hrev] at this
        cases this
    · rw [hanging_none (by omega)]
      exact fun hc => by cases hc

/-- A read that is answered at once. -/
theorem follow_answered {w : Option Int} {source p : Int} {address : Nat} {count : Int}
    {out : List Output} {st : Int} (hr : answers REVIVE out = [])
    (ht : answers TASK_REPLY out = [(p, st)]) (hst : st ≠ SUSPEND) :
    follow w (.read source p address count, out) = some w := by
  unfold follow
  dsimp only
  rw [hr, ht, if_neg (not_not.mpr rfl), if_neg, List.map_singleton, if_pos rfl]
  intro hc
  injection hc with hc
  injection hc with _ hc
  exact hst hc

/-- A read that is suspended. -/
theorem follow_suspended {source p : Int} {address : Nat} {count : Int} {out : List Output}
    (hr : answers REVIVE out = []) (ht : answers TASK_REPLY out = [(p, SUSPEND)]) :
    follow none (.read source p address count, out) = some (some p) := by
  unfold follow
  dsimp only
  rw [hr, ht, if_neg (not_not.mpr rfl), if_pos rfl, if_pos rfl]

/-- The protocol allows the answer to a read. -/
theorem doRead_follows {source p : Int} {address : Nat} {count : Int} (h : Queued tp)
    (hcount : 0 < count) (ha : Apart tp)
    (hout : ¬(tp.waiting = true ∧ tp.outproc = p))
    (hserves : tp.inleft ≤ 0 → Serves umap { tp with
      incaller := source, inproc := p, inVir := address, inleft := count }) :
    follow (hanging tp) (.read source p address count, (doRead umap tp source p address count).2) =
      some (hanging (doRead umap tp source p address count).1) ∧
    Apart (doRead umap tp source p address count).1 := by
  unfold doRead
  by_cases hleft : tp.inleft > 0
  · rw [if_pos hleft]
    exact ⟨follow_answered rfl rfl (by decide), ha⟩
  · rw [if_neg hleft, hanging_none (Int.not_lt.mp hleft)]
    have hq : Queued { tp with incaller := source, inproc := p, inVir := address, inleft := count } :=
      h.congr ⟨rfl, rfl, rfl, rfl, rfl⟩
    have hserves := hserves (Int.not_lt.mp hleft)
    generalize htp : { tp with incaller := source, inproc := p, inVir := address, inleft := count } =
      tp₁ at hq hserves ⊢
    obtain ⟨⟨-, tail, l, c, n, he⟩, hdone, hsus⟩ := rdChars_reads umap hq
    have hproc : (rdChars umap tp₁).2.1.inproc = p := by
      rw [he, ← htp]
    have htold : ∀ kind, answers kind ((rdChars umap tp₁).2.2 ++
        [.reply TASK_REPLY source (rdChars umap tp₁).2.1.inproc (rdChars umap tp₁).1 0 0]) =
        if TASK_REPLY = kind then [(p, (rdChars umap tp₁).1)] else [] := by
      intro kind
      rw [answers_append, answers_rdChars, List.nil_append, hproc]
      unfold answers
      split
      · rename_i hk
        exact List.filterMap_cons_some (if_pos hk)
      · rename_i hk
        exact List.filterMap_cons_none (if_neg hk)
    dsimp only
    by_cases hready : lineReady tp₁
    · obtain ⟨hge, hz⟩ := hdone hready (hserves hready)
      have hnone : hanging (rdChars umap tp₁).2.1 = none := hanging_none (Int.le_of_eq hz)
      rw [hnone]
      refine ⟨follow_answered (htold REVIVE) (htold TASK_REPLY) ?_, fun _ => ?_⟩
      · unfold SUSPEND
        omega
      · rw [hnone]
        exact fun hc => by cases hc
    · have hhang : hanging tp₁ = some p := by
        rw [← htp]
        exact if_pos hcount
      have hrev := htold REVIVE
      have htask := htold TASK_REPLY
      rw [hsus hready] at hrev htask ⊢
      refine ⟨(follow_suspended hrev htask).trans (congrArg some hhang.symm), fun hw hc => hout ?_⟩
      rw [hhang] at hc
      rw [← htp] at hw hc
      exact ⟨hw, (Option.some.inj hc).symm⟩

/-- The protocol allows what is answered to a cancel. -/
theorem doCancel_follows {source p : Int} (hp : ∀ q, hanging tp = some q → q = p) :
    follow (hanging tp) (.cancel source p, (doCancel tp source p).2) =
      some (hanging (doCancel tp source p).1) := by
  unfold doCancel
  by_cases hz : tp.inleft = 0 ∧ tp.outleft = 0
  · rw [if_pos hz]
    have hnone : hanging tp = none := hanging_none (Int.le_of_eq hz.1)
    dsimp only
    rw [hnone]
    rfl
  · rw [if_neg hz]
    refine Eq.trans ?_ (congrArg some (hanging_none (Int.le_refl 0)).symm)
    cases hw : hanging tp with
    | none => rfl
    | some q => exact if_pos ⟨hp q hw, rfl, rfl⟩

/-- A reply to somebody who is not waiting. -/
theorem leavesWaiting_reply {w : Option Int} {p : Int} (hp : w ≠ some p) (source status : Int)
    (flags spek : Nat) : LeavesWaiting w [.reply TASK_REPLY source p status flags spek] := by
  refine ⟨rfl, fun x hx => ?_⟩
  obtain rfl := List.mem_singleton.mp hx
  exact hp

/-- An IOCTL is answered, and leaves what hangs. -/
theorem doIoctl_reply (tp : TtyStruct) (source p : Int) (request spek flags : Nat) :
    (∃ status f k, (doIoctl tp source p request spek flags).2 =
      [.reply TASK_REPLY source p status f k]) ∧
    hanging (doIoctl tp source p request spek flags).1 = hanging tp ∧
    (doIoctl tp source p request spek flags).1.outproc = tp.outproc ∧
    (doIoctl tp source p request spek flags).1.waiting = tp.waiting := by
  unfold doIoctl
  dsimp only
  split
  · exact ⟨⟨_, _, _, rfl⟩, rfl, rfl, rfl⟩
  · split
    · exact ⟨⟨_, _, _, rfl⟩, rfl, rfl, rfl⟩
    · split
      · exact ⟨⟨_, _, _, rfl⟩, rfl, rfl, rfl⟩
      · split
        · exact ⟨⟨_, _, _, rfl⟩, rfl, rfl, rfl⟩
        · exact ⟨⟨_, _, _, rfl⟩, rfl, rfl, rfl⟩

/-- The protocol allows what is done with a message. -/
theorem step_follows {e : Event} (h : Queued t.tp) (ha : Apart t.tp) (hg : Answerable t e)
    (hs : AsSent t e) (he : step t e = some t') :
    follow (hanging t.tp) (e.msg, (handle e.umap t.tp e.msg).2) = some (hanging t'.tp) ∧
    Apart t'.tp := by
  obtain rfl := Option.some.inj he
  obtain ⟨hcounts, hg⟩ := hg
  obtain ⟨msg, umap⟩ := e
  dsimp only at hg hs ⊢
  unfold AsSent at hs
  unfold KeepsCounts at hcounts
  cases msg with
  | charInt chars => exact (doCharint_revives h hcounts hg).follows ha chars
  | read source p address count => exact doRead_follows h hs.1 ha hs.2 hg
  | write source p address count =>
    change follow (hanging t.tp) (_, (doWrite umap t.tp source p address count).2) =
      some (hanging (doWrite umap t.tp source p address count).1) ∧
      Apart (doWrite umap t.tp source p address count).1
    unfold doWrite
    dsimp only
    generalize htp : (if umap p address count = 0 then _ else _) = tp₁
    have hsame : hanging tp₁ = hanging t.tp ∧ tp₁.outproc = p := by
      rw [← htp]
      split
      · exact ⟨rfl, rfl⟩
      · exact ⟨rfl, rfl⟩
    have hapart : Apart tp₁ := by
      intro _
      rw [hsame.1, hsame.2]
      exact hs
    have hquiet := Quiet.console tp₁
    refine ⟨?_, hquiet.apart hapart⟩
    rw [← hsame.1, hquiet.hanging]
    exact if_pos (hquiet.leaves hapart)
  | ioctl source p request spek flags =>
    obtain ⟨⟨status, f, k, hout⟩, hhang, hproc, hwait⟩ :=
      doIoctl_reply t.tp source p request spek flags
    change follow (hanging t.tp) (_, (doIoctl t.tp source p request spek flags).2) =
      some (hanging (doIoctl t.tp source p request spek flags).1) ∧
      Apart (doIoctl t.tp source p request spek flags).1
    refine ⟨?_, fun hw => ?_⟩
    · rw [hout, hhang]
      exact if_pos (leavesWaiting_reply hs source status f k)
    · rw [hhang, hproc]
      exact ha (hwait ▸ hw)
  | cancel source p =>
    refine ⟨doCancel_follows hg, fun hw => ?_⟩
    change (doCancel t.tp source p).1.waiting = true at hw
    change hanging (doCancel t.tp source p).1 ≠ some (doCancel t.tp source p).1.outproc
    unfold doCancel at hw ⊢
    split
    · rename_i hz
      rw [if_pos hz] at hw
      exact ha hw
    · rename_i hz
      rw [if_neg hz] at hw
      cases hw
  | other source p => exact ⟨if_pos (leavesWaiting_reply hs source EINVAL 0 0), ha⟩
  | stop =>
    have hnone : LeavesWaiting (hanging t.tp) [] := ⟨rfl, fun _ hx => by cases hx⟩
    refine ⟨?_, ha⟩
    change follow (hanging t.tp) (.stop, []) = some (hanging t.tp)
    unfold follow
    exact if_pos hnone

/-! ## Nobody waits for what is there -/

/-- Whether somebody waits for what is there depends on these fields only. -/
theorem Idle.of_same {tp' : TtyStruct} (h : Idle tp) (hleft : tp'.inleft = tp.inleft)
    (hcount : tp'.incount = tp.incount) (hmode : tp'.mode = tp.mode) (hlfct : tp'.lfct = tp.lfct) :
    Idle tp' := by
  unfold Idle lineReady at h ⊢
  rw [hleft, hcount, hmode, hlfct]
  exact h

/-- Nobody waits when nothing is asked for. -/
theorem idle_of_none (h : tp.inleft = 0) : Idle tp := by
  intro hpos
  omega

/-- What is counted when something is there. -/
theorem Queued.counted (h : Queued tp) (hr : lineReady tp) :
    tp.lfct > 0 ∨ tp.mode &&& (CBREAK ||| RAW) ≠ 0 ∧ tp.incount > 0 := by
  have hcount := h.count
  have hlfct : 0 ≤ tp.lfct := by
    rw [h.lfct]
    exact Int.natCast_nonneg _
  unfold lineReady at hr
  rw [not_or, not_and] at hr
  by_cases hm : tp.mode &&& (RAW ||| CBREAK) = 0
  · have hl := hr.2 hm
    exact Or.inl (by omega)
  · exact Or.inr ⟨hm, by omega⟩

/-- A reader that can be satisfied is. -/
theorem satisfy_idle (h : Queued tp) (hserves : 0 < tp.inleft → Serves umap tp) :
    Idle (satisfy umap tp).1 := by
  unfold satisfy
  split
  · rename_i hc
    have hready := h.ready hc.2
    obtain ⟨-, hdone, -⟩ := rdChars_reads umap h
    exact idle_of_none (hdone hready (hserves hc.1 hready)).2
  · rename_i hc
    exact fun hpos hready => hc ⟨hpos, h.counted hready⟩

/-- After characters have come in nobody waits for what is there. -/
theorem doCharint_idle {l : List UInt8} (h : Queued tp) (hi : AllIntact umap tp l)
    (hs : AllServed umap tp l) (hidle : l = [] → Idle tp) : Idle (doCharint umap tp l).1 := by
  induction l generalizing tp with
  | nil => exact hidle rfl
  | cons ch l ih =>
    have hquiet := Quiet.inChar tp ch
    have hone : Idle (typed umap tp ch).1 := by
      refine satisfy_idle (h.inChar hi.1) fun hleft => hs.1 ?_
      rw [← hquiet.inleft]
      exact hleft
    exact ih (h.typed hi.1) hi.2 hs.2 fun _ => hone

/-- Nobody is told to wait for what is there. -/
theorem doRead_idle (source p : Int) (address : Nat) (count : Int) (h : Queued tp)
    (hserves : tp.inleft ≤ 0 → Serves umap { tp with
      incaller := source, inproc := p, inVir := address, inleft := count }) :
    Idle (doRead umap tp source p address count).1 ∨
      doRead umap tp source p address count =
        (tp, [.reply TASK_REPLY source p E_TRY_AGAIN 0 0]) := by
  unfold doRead
  by_cases hleft : tp.inleft > 0
  · exact Or.inr (if_pos hleft)
  · rw [if_neg hleft]
    have hq : Queued { tp with incaller := source, inproc := p, inVir := address, inleft := count } :=
      h.congr ⟨rfl, rfl, rfl, rfl, rfl⟩
    have hserves := hserves (Int.not_lt.mp hleft)
    generalize { tp with incaller := source, inproc := p, inVir := address, inleft := count } =
      tp₁ at hq hserves ⊢
    obtain ⟨-, hdone, hsus⟩ := rdChars_reads umap hq
    refine Or.inl ?_
    dsimp only
    by_cases hready : lineReady tp₁
    · exact idle_of_none (hdone hready (hserves hready)).2
    · rw [hsus hready]
      exact fun _ => hready

/-- Output leaves the input queue. -/
theorem console_queue (tp : TtyStruct) : (console tp).1.inleft = tp.inleft ∧
    (console tp).1.incount = tp.incount ∧ (console tp).1.mode = tp.mode ∧
    (console tp).1.lfct = tp.lfct := by
  unfold console
  generalize (if tp.inhibited then 0 else max tp.outleft 0) = count
  dsimp only
  split
  · exact ⟨rfl, rfl, rfl, rfl⟩
  · exact ⟨rfl, rfl, rfl, rfl⟩

/-- A message keeps it so that nobody waits for what is there, or sets the mode. -/
theorem step_idle {e : Event} {b : Bool} (h : Queued t.tp) (hidle : b = true → Idle t.tp)
    (hg : Answerable t e) (he : step t e = some t')
    (hb : settle b (e.msg, (handle e.umap t.tp e.msg).2) = true) : Idle t'.tp := by
  obtain rfl := Option.some.inj he
  obtain ⟨hcounts, hg⟩ := hg
  obtain ⟨msg, umap⟩ := e
  dsimp only at hg hb ⊢
  unfold KeepsCounts at hcounts
  cases msg with
  | charInt chars =>
    refine doCharint_idle h hcounts hg fun hnil => hidle ?_
    rw [hnil] at hb
    exact hb
  | read source p address count =>
    rcases doRead_idle source p address count h hg with hi | hbusy
    · exact hi
    · have hout : answers TASK_REPLY (doRead umap t.tp source p address count).2 =
          [(p, E_TRY_AGAIN)] := by
        rw [hbusy]
        rfl
      change Idle (doRead umap t.tp source p address count).1
      rw [hbusy]
      refine hidle ?_
      change (b || decide (answers TASK_REPLY (doRead umap t.tp source p address count).2 =
        [(p, SUSPEND)])) = true at hb
      rw [hout, Bool.or_eq_true, decide_eq_true_eq] at hb
      refine hb.resolve_right fun hs => ?_
      injection hs with hs
      injection hs with _ hs
      exact absurd hs (by decide)
  | write source p address count =>
    change Idle (doWrite umap t.tp source p address count).1
    unfold doWrite
    dsimp only
    generalize htp : (if umap p address count = 0 then _ else _) = tp₁
    have hsame : Idle tp₁ := by
      rw [← htp]
      split
      · exact (hidle hb).of_same rfl rfl rfl rfl
      · exact (hidle hb).of_same rfl rfl rfl rfl
    obtain ⟨hleft, hcount, hmode, hlfct⟩ := console_queue tp₁
    exact hsame.of_same hleft hcount hmode hlfct
  | ioctl source p request spek flags =>
    obtain ⟨hb, hother⟩ := Bool.and_eq_true_iff.mp hb
    change Idle (doIoctl t.tp source p request spek flags).1
    unfold doIoctl
    dsimp only
    rw [if_neg (of_decide_eq_true hother)]
    split
    · exact (hidle hb).of_same rfl rfl rfl rfl
    · split
      · exact hidle hb
      · split
        · exact hidle hb
        · exact hidle hb
  | cancel source p =>
    change Idle (doCancel t.tp source p).1
    unfold doCancel
    split
    · exact hidle hb
    · exact idle_of_none rfl
  | other source p => exact hidle hb
  | stop => exact (hidle hb).of_same rfl rfl rfl rfl

/-- One message more. -/
theorem settled_append (log : List (Message × List Output)) (x : Message × List Output) :
    settled (log ++ [x]) = settle (settled log) x := List.foldl_concat ..

/-- One message more. -/
theorem protocol_append (log : List (Message × List Output)) (x : Message × List Output) :
    protocol (log ++ [x]) = (protocol log).bind fun w => follow w x := by
  unfold protocol
  rw [List.foldlM_append]
  refine congrArg (Option.bind _) (funext fun w => ?_)
  rw [List.foldlM_cons]
  exact bind_pure (follow w x)

/-- A step logs its message with what it said. -/
theorem step_log {e : Event} (he : step t e = some t') :
    t'.log = t.log ++ [(e.msg, (handle e.umap t.tp e.msg).2)] := by
  obtain rfl := Option.some.inj he
  rfl

/-- What is sent to the terminal, and goes wrong nowhere. -/
def Protocolled (t : Task) (e : Event) : Prop := Answerable t e ∧ AsSent t e

end Steps

section Example

instance (umap : UmapD) (tp : TtyStruct) : Decidable (Serves umap tp) := by
  unfold Serves
  infer_instance

instance allServedDecidable (umap : UmapD) :
    (tp : TtyStruct) → (l : List UInt8) → Decidable (AllServed umap tp l)
  | _, [] => .isTrue trivial
  | tp, ch :: l =>
    have := allServedDecidable umap (typed umap tp ch).1 l
    inferInstanceAs (Decidable ((0 < tp.inleft → Serves umap (inChar tp ch).1) ∧
      AllServed umap (typed umap tp ch).1 l))

instance (t : Task) : (e : Event) → Decidable (Answerable t e)
  | ⟨.charInt chars, umap⟩ => inferInstanceAs (Decidable
      (KeepsCounts t ⟨.charInt chars, umap⟩ ∧ AllServed umap t.tp chars))
  | ⟨.read source p address count, umap⟩ => inferInstanceAs (Decidable
      (KeepsCounts t ⟨.read source p address count, umap⟩ ∧ (t.tp.inleft ≤ 0 →
        Serves umap { t.tp with incaller := source, inproc := p, inVir := address, inleft := count })))
  | ⟨.write source p address count, umap⟩ =>
    inferInstanceAs (Decidable (KeepsCounts t ⟨.write source p address count, umap⟩ ∧ True))
  | ⟨.ioctl source p request spek flags, umap⟩ =>
    inferInstanceAs (Decidable (KeepsCounts t ⟨.ioctl source p request spek flags, umap⟩ ∧ True))
  | ⟨.cancel source p, umap⟩ => inferInstanceAs (Decidable
      (KeepsCounts t ⟨.cancel source p, umap⟩ ∧ ∀ q ∈ hanging t.tp, q = p))
  | ⟨.other source p, umap⟩ =>
    inferInstanceAs (Decidable (KeepsCounts t ⟨.other source p, umap⟩ ∧ True))
  | ⟨.stop, umap⟩ => inferInstanceAs (Decidable (KeepsCounts t ⟨.stop, umap⟩ ∧ True))

instance (t : Task) : (e : Event) → Decidable (AsSent t e)
  | ⟨.charInt _, _⟩ => .isTrue trivial
  | ⟨.read _ p _ count, _⟩ =>
    inferInstanceAs (Decidable (0 < count ∧ ¬(t.tp.waiting = true ∧ t.tp.outproc = p)))
  | ⟨.write _ p _ _, _⟩ => inferInstanceAs (Decidable (hanging t.tp ≠ some p))
  | ⟨.ioctl _ p _ _ _, _⟩ => inferInstanceAs (Decidable (hanging t.tp ≠ some p))
  | ⟨.cancel _ _, _⟩ => .isTrue trivial
  | ⟨.other _ p, _⟩ => inferInstanceAs (Decidable (hanging t.tp ≠ some p))
  | ⟨.stop, _⟩ => .isTrue trivial

instance (t : Task) (e : Event) : Decidable (Protocolled t e) := instDecidableAnd

/-- Process 7 asks for a line through the file system, process 1. -/
def request (address : Nat) : Message := .read 1 7 address 10

end Example

end Minix.Kernel.Tty
