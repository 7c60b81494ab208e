import Minix.Kernel.Interrupts
import Minix.Lib.I8088

/-!
# The printer

The printer task, its interrupt handler and the clock task's calls of the handler share the state of
the request that is being printed. Abstractly there is one request at a time, of which one byte
after the other is printed, and which is completed once.
-/

namespace Minix.Kernel.Printer

open I8088 (Word phys)

abbrev SUSPEND : Int := -998
abbrev EINTR : Int := -4
abbrev EIO : Int := -5
abbrev EAGAIN : Int := -11
abbrev EINVAL : Int := -22
abbrev E_BAD_ADDR : Int := -10
abbrev REVIVE : Int := 67
abbrev TASK_REPLY : Int := 68

/-- indicates that command has been killed -/
abbrev CANCELED : Int := -999

/-- controls max delay when busy -/
abbrev MAX_REP : Nat := 1000

/-- The variables of the driver, and the `REP_STATUS` of a TTY_O_DONE that the task has not yet
received. -/
structure Driver where
  /-- process to tell when printing done (FS) -/
  caller : Int
  /-- user requesting the printing -/
  procNr : Int
  /-- original byte count -/
  origCount : Nat
  /-- (es, offset) point to next character to print -/
  es : Word
  offset : Word
  /-- number of bytes left to print -/
  pcount : Nat
  /-- TRUE when printing, else FALSE -/
  prBusy : Bool
  /-- cumulative # characters printed -/
  cumCount : Word
  done : Option Int

/-- What goes out: the byte at an address goes to the printer, a message to a process, a text to the
console, and the interrupt controller is enabled. That a request is accepted is noted too. -/
inductive Output where
  | accept (caller procNr : Int) (addr count : Nat)
  | char (addr : Nat)
  | reply (code replyee process status : Int)
  | text (s : String)
  | enable

/-- Tell why the printer is not ready. -/
def prError (status : Int) : List Output :=
  (if status.toNat &&& 0x20 ≠ 0 then [.text "Printer is out of paper\n"] else []) ++
    (if status.toNat &&& 0x10 = 0 then [.text "Printer is not on line\n"] else []) ++
    if status.toNat &&& 0x08 = 0 then [.text "Printer error\n"] else []

/-- Characters are output as long as the printer takes them, with the status that the port gives for
each count that is left. -/
def printLoop (status : Nat → Int) : Nat → Driver → Driver × List Output
  | 0, d => (d, [])
  | pcount + 1, d =>
    if status (pcount + 1) = NORMAL_STATUS then
      let r := printLoop status pcount
        { d with offset := d.offset + 1, pcount := pcount, cumCount := d.cumCount + 1 }
      (r.1, .char (phys d.es d.offset) :: r.2)
    else (d, [])

/-- The interrupt handler. -/
def prChar (d : Driver) (status : Nat → Int) : Driver × List Output :=
  let out : List Output := if d.pcount ≠ d.origCount then [.enable] else []
  if !d.prBusy then (d, out) -- spurious 8259A interrupt
  else
    let r := printLoop status d.pcount d
    -- Count is 0 or an error occurred: the task gets a message
    ({ r.1 with done := (prLoop status d.pcount).or d.done }, out ++ r.2)

/-- A TTY_WRITE message, with the physical address of the buffer, if `umap` finds one. -/
structure Request where
  source : Int
  procNr : Int
  count : Int
  phys : Nat

/-- Why a request is rejected. -/
def check (d : Driver) (m : Request) : Int :=
  if m.phys = 0 then E_BAD_ADDR else if m.count ≤ 0 then EINVAL
  else if d.prBusy then EAGAIN else OK

/-- Information needed later. -/
def saved (d : Driver) (m : Request) : Driver :=
  { d with
    caller := m.source
    procNr := m.procNr
    pcount := m.count.toNat
    origCount := m.count.toNat
    es := BitVec.ofNat 16 (m.phys / 16)
    offset := BitVec.ofNat 16 (m.phys % 16) }

/-- The first status, in so many tries, that is not that of a busy printer. -/
def firstStatus (ready : Nat → Int) : Nat → Nat → Option Int
  | 0, _ => none
  | tries + 1, i =>
    if ready i = BUSY_STATUS then firstStatus ready tries (i + 1) else some (ready i)

/-- A write request. What `value` holds when the port has not been read is arbitrary. -/
def doWrite (d : Driver) (m : Request) (junk : Int) (ready status : Nat → Int) :
    Driver × List Output :=
  if check d m ≠ OK then
    let r := if junk = BUSY_STATUS then EAGAIN else check d m
    (d, [.reply TASK_REPLY m.source m.procNr r])
  else
    match firstStatus ready MAX_REP 0 with
    | none => (saved d m, [.reply TASK_REPLY m.source m.procNr EAGAIN])
    | some value =>
      if value = NORMAL_STATUS then
        let r := prChar { saved d m with prBusy := true } status
        (r.1, .accept m.source m.procNr m.phys m.count.toNat :: r.2 ++
          [.reply TASK_REPLY m.source m.procNr SUSPEND])
      else (saved d m, prError value ++ [.reply TASK_REPLY m.source m.procNr EIO])

/-- Printing is finished. -/
def doDone (d : Driver) (repStatus : Int) : Driver × List Output :=
  let status := if repStatus = OK then (d.origCount : Int) else EIO
  ({ d with prBusy := false, done := none },
    if d.procNr ≠ CANCELED then
      .reply REVIVE d.caller d.procNr status :: if status = EIO then prError repStatus else []
    else [])

/-- Cancel a print request that has already started. -/
def doCancel (d : Driver) (source procNr : Int) : Driver × List Output :=
  if !d.prBusy then (d, []) -- this statement avoids race conditions
  else
    ({ d with prBusy := false, pcount := 0, procNr := CANCELED },
      [.reply TASK_REPLY source procNr EINTR])

/-! ## Requests one after the other -/

/-- A request, with how many of its bytes have been printed, and whether its process has been told
to wait. -/
structure Job where
  caller : Int
  procNr : Int
  addr : Nat
  count : Nat
  printed : Nat
  suspended : Bool

/-- What may go out, and what it does to the request that is being printed. Every request is
completed in one of three ways. -/
inductive Serves : Option Job → Output → Option Job → Prop
  | accept (caller procNr : Int) (addr count : Nat) :
    Serves none (.accept caller procNr addr count) (some ⟨caller, procNr, addr, count, 0, false⟩)
  | char {j : Job} : j.printed < j.count →
    Serves (some j) (.char ((j.addr + j.printed) % 2 ^ 20))
      (some { j with printed := j.printed + 1 })
  | suspend {j : Job} : j.suspended = false →
    Serves (some j) (.reply TASK_REPLY j.caller j.procNr SUSPEND)
      (some { j with suspended := true })
  | complete {j : Job} : j.suspended = true → j.printed = j.count →
    Serves (some j) (.reply REVIVE j.caller j.procNr j.count) none
  | fail {j : Job} : j.suspended = true → j.printed < j.count →
    Serves (some j) (.reply REVIVE j.caller j.procNr EIO) none
  | cancel {j : Job} (source procNr : Int) : j.suspended = true →
    Serves (some j) (.reply TASK_REPLY source procNr EINTR) none
  | reject (job : Option Job) (source procNr : Int) {r : Int} :
    r ∈ [EAGAIN, EINVAL, E_BAD_ADDR, EIO] → Serves job (.reply TASK_REPLY source procNr r) job
  | text (job : Option Job) (s : String) : Serves job (.text s) job
  | enable (job : Option Job) : Serves job .enable job

/-- What goes out one after the other. -/
inductive ServesAll : Option Job → List Output → Option Job → Prop
  | nil (job : Option Job) : ServesAll job [] job
  | cons {job job₁ job' : Option Job} {o : Output} {out : List Output} :
    Serves job o job₁ → ServesAll job₁ out job' → ServesAll job (o :: out) job'

variable {job job₁ job' : Option Job} {o : Output} {out out' : List Output} {d d' : Driver}
  {j : Job} {status ready : Nat → Int} {m : Request}

theorem ServesAll.append (h : ServesAll job out job₁) (h' : ServesAll job₁ out' job') :
    ServesAll job (out ++ out') job' := by
  induction h with
  | nil => exact h'
  | cons ho _ ih => exact .cons ho (ih h')

theorem ServesAll.single (h : Serves job o job') : ServesAll job [o] job' := .cons h (.nil job')

theorem ServesAll.ite {p : Prop} [Decidable p] (h : Serves job o job) :
    ServesAll job (if p then [o] else []) job := by
  split
  · exact .single h
  · exact .nil job

theorem servesAll_prError (job : Option Job) (status : Int) :
    ServesAll job (prError status) job :=
  ((ServesAll.ite (.text job _)).append (.ite (.text job _))).append (.ite (.text job _))

/-! ## What may happen -/

/-- A message comes to the task, or there is an interrupt, or the clock task calls the handler. -/
inductive Event where
  | write (m : Request) (junk : Int) (ready status : Nat → Int)
  | cancel (source procNr : Int)
  | done
  | interrupt (status : Nat → Int)

def step (d : Driver) : Event → Option (Driver × List Output)
  | .write m junk ready status => some (doWrite d m junk ready status)
  | .cancel source procNr => some (doCancel d source procNr)
  | .done => d.done.map (doDone d)
  | .interrupt status => some (prChar d status)

/-- The status byte of the printer is never zero, a request is from a process and fits the memory,
and before the next request or interrupt the task has received its TTY_O_DONE. -/
def Prompt (d : Driver) : Event → Prop
  | .write m _ _ status => d.done = none ∧ m.procNr ≠ CANCELED ∧ m.phys < 2 ^ 20 ∧
    m.count < 2 ^ 15 ∧ ∀ n, status n ≠ OK
  | .interrupt status => d.done = none ∧ ∀ n, status n ≠ OK
  | .cancel _ _ | .done => True

/-- The variables hold the request that is being printed. -/
structure Holds (d : Driver) (j : Job) : Prop where
  busy : d.prBusy = true
  caller : d.caller = j.caller
  procNr : d.procNr = j.procNr
  live : j.procNr ≠ CANCELED
  count : d.origCount = j.count
  left : d.pcount + j.printed = j.count
  es : d.es = BitVec.ofNat 16 (j.addr / 16)
  offset : d.offset = BitVec.ofNat 16 (j.addr % 16 + j.printed)
  fits : j.addr < 2 ^ 20 ∧ j.count < 2 ^ 15

/-- Without a request the printer is idle, and at most one that has been cancelled is still to be
done. -/
def Refines (d : Driver) : Option Job → Prop
  | none => d.prBusy = false ∧ (d.done ≠ none → d.procNr = CANCELED)
  | some j => Holds d j ∧ j.suspended = true ∧ ∀ r, d.done = some r → (r = OK ↔ d.pcount = 0)

/-- Where the next byte is. -/
theorem Holds.addr (h : Holds d j) : phys d.es d.offset = (j.addr + j.printed) % 2 ^ 20 := by
  obtain ⟨h₁, h₂⟩ := h.fits
  have hleft := h.left
  unfold phys
  rw [h.es, h.offset, BitVec.toNat_ofNat, BitVec.toNat_ofNat]
  omega

/-- The loop prints some bytes, and ends when none is left, when the printer is busy, or when there
is an error. -/
theorem Holds.printLoop (h : Holds d j) (hs : ∀ n, status n ≠ OK) :
    ∃ k, ServesAll (some j) (printLoop status d.pcount d).2 (some { j with printed := k }) ∧
      Holds (printLoop status d.pcount d).1 { j with printed := k } ∧
      (printLoop status d.pcount d).1.done = d.done ∧
      ∀ r, prLoop status d.pcount = some r →
        (r = OK ↔ (printLoop status d.pcount d).1.pcount = 0) := by
  obtain ⟨n, hn⟩ : ∃ n, d.pcount = n := ⟨_, rfl⟩
  rw [hn]
  induction n generalizing d j with
  | zero =>
    refine ⟨j.printed, .nil _, h, rfl, fun r hr => ?_⟩
    obtain rfl := Option.some.inj hr
    exact iff_of_true rfl hn
  | succ n ih =>
    have hleft := h.left
    unfold Printer.printLoop prLoop
    by_cases hnormal : status (n + 1) = NORMAL_STATUS
    · rw [if_pos hnormal, if_pos hnormal]
      have hnext : Holds { d with offset := d.offset + 1, pcount := n, cumCount := d.cumCount + 1 }
          { j with printed := j.printed + 1 } := by
        refine { h with left := ?_, offset := ?_ }
        · dsimp only
          omega
        · dsimp only
          rw [h.offset, ← Nat.add_assoc]
          exact (BitVec.ofNat_add _ 1).symm
      obtain ⟨k, hk, hholds, hdone, hr⟩ := ih hnext rfl
      refine ⟨k, .cons ?_ hk, hholds, hdone, hr⟩
      rw [h.addr]
      exact .char (by omega)
    · rw [if_neg hnormal, if_neg hnormal]
      refine ⟨j.printed, .nil _, h, rfl, fun r hr => ?_⟩
      split at hr
      · cases hr
      · obtain rfl := Option.some.inj hr
        exact iff_of_false (hs _) (by dsimp only; omega)

/-- The interrupt handler goes on with a request. -/
theorem Holds.prChar (h : Holds d j) (hs : ∀ n, status n ≠ OK) (hd : d.done = none) :
    ∃ k, ServesAll (some j) (prChar d status).2 (some { j with printed := k }) ∧
      Holds (prChar d status).1 { j with printed := k } ∧
      ∀ r, (prChar d status).1.done = some r → (r = OK ↔ (prChar d status).1.pcount = 0) := by
  obtain ⟨k, hk, hholds, -, hr⟩ := h.printLoop hs
  have henable : ServesAll (some j) (if d.pcount ≠ d.origCount then [.enable] else [])
      (some j) := .ite (.enable _)
  have hbusy : ¬(!d.prBusy) = true := by rw [h.busy]; decide
  unfold Printer.prChar
  rw [if_neg hbusy]
  refine ⟨k, henable.append hk, { hholds with }, fun r hdone => hr r ?_⟩
  rwa [hd, Option.or_none] at hdone

/-- An interrupt when nothing is printed. -/
theorem prChar_idle (hb : d.prBusy = false) (status : Nat → Int) (job : Option Job) :
    (prChar d status).1 = d ∧ ServesAll job (prChar d status).2 job := by
  have hbusy : (!d.prBusy) = true := by rw [hb]; rfl
  unfold prChar
  rw [if_pos hbusy]
  exact ⟨rfl, .ite (.enable job)⟩

/-- A request is refused. -/
theorem servesAll_reject {r : Int} (hr : r ∈ [EAGAIN, EINVAL, E_BAD_ADDR, EIO]) (job : Option Job)
    (m : Request) : ServesAll job [.reply TASK_REPLY m.source m.procNr r] job :=
  .single (.reject job _ _ hr)

theorem check_cases (d : Driver) (m : Request) :
    check d m ∈ [EAGAIN, EINVAL, E_BAD_ADDR] ∨
      check d m = OK ∧ m.phys ≠ 0 ∧ 0 < m.count ∧ d.prBusy = false := by
  unfold check
  by_cases h₁ : m.phys = 0
  · exact Or.inl (by rw [if_pos h₁]; decide)
  · by_cases h₂ : m.count ≤ 0
    · exact Or.inl (by rw [if_neg h₁, if_pos h₂]; decide)
    · by_cases h₃ : d.prBusy = true
      · exact Or.inl (by rw [if_neg h₁, if_neg h₂, if_pos h₃]; decide)
      · refine Or.inr ⟨?_, h₁, Int.not_le.mp h₂, Bool.eq_false_iff.mpr h₃⟩
        rw [if_neg h₁, if_neg h₂, if_neg h₃]

/-- A write is accepted and begun, or refused. -/
theorem Refines.doWrite (h : Refines d job) (hd : d.done = none) (hp : m.procNr ≠ CANCELED)
    (ha : m.phys < 2 ^ 20) (hc : m.count < 2 ^ 15) (hs : ∀ n, status n ≠ OK) (junk : Int)
    (ready : Nat → Int) :
    ∃ job', ServesAll job (doWrite d m junk ready status).2 job' ∧
      Refines (doWrite d m junk ready status).1 job' := by
  unfold Printer.doWrite
  rcases check_cases d m with hno | ⟨hok, hphys, hpos, hidle⟩
  · have hne : check d m ≠ OK := fun e => by rw [e] at hno; revert hno; decide
    rw [if_pos hne]
    refine ⟨job, servesAll_reject ?_ job m, h⟩
    split
    · decide
    · exact List.mem_append_left _ hno
  · rw [if_neg (not_not.mpr hok)]
    obtain rfl : job = none := by
      cases job with
      | none => rfl
      | some j => exact absurd (h.1.busy.symm.trans hidle) (by decide)
    have hrest : Refines (saved d m) none := ⟨hidle, fun hne => absurd hd hne⟩
    split
    · exact ⟨none, servesAll_reject (by decide) none m, hrest⟩
    · split
      · have hholds : Holds { saved d m with prBusy := true }
            ⟨m.source, m.procNr, m.phys, m.count.toNat, 0, false⟩ :=
          ⟨rfl, rfl, rfl, hp, rfl, rfl, rfl, rfl, ha, by dsimp only; omega⟩
        obtain ⟨k, hk, hh, hr⟩ := hholds.prChar hs hd
        refine ⟨_, .append (.cons (.accept ..) hk) (.single (.suspend rfl)), ?_⟩
        exact ⟨{ hh with }, rfl, hr⟩
      · exact ⟨none, (servesAll_prError none _).append (servesAll_reject (by decide) none m), hrest⟩

/-- The task is told that printing is finished. -/
theorem Refines.doDone (h : Refines d job) {r : Int} (hr : d.done = some r) :
    ServesAll job (doDone d r).2 none ∧ Refines (doDone d r).1 none := by
  refine ⟨?_, rfl, fun hne => absurd rfl hne⟩
  unfold Printer.doDone
  dsimp only
  cases job with
  | none =>
    have hcanceled := h.2 (by rw [hr]; simp)
    rw [if_neg (not_not.mpr hcanceled)]
    exact .nil none
  | some j =>
    obtain ⟨hh, hsusp, hdone⟩ := h
    have hlive : d.procNr ≠ CANCELED := hh.procNr ▸ hh.live
    have hleft := hh.left
    have hiff := hdone r hr
    rw [if_pos hlive, hh.caller, hh.procNr, hh.count]
    by_cases hrok : r = OK
    · have hzero := hiff.mp hrok
      rw [if_pos hrok, if_neg (by unfold EIO; omega)]
      exact .single (.complete hsusp (by omega))
    · have hnz : d.pcount ≠ 0 := fun e => hrok (hiff.mpr e)
      rw [if_neg hrok, if_pos rfl]
      exact .cons (.fail hsusp (by omega)) (servesAll_prError none r)

/-- A request is cancelled. -/
theorem Refines.doCancel (h : Refines d job) (source procNr : Int) :
    ∃ job', ServesAll job (doCancel d source procNr).2 job' ∧
      Refines (doCancel d source procNr).1 job' := by
  unfold Printer.doCancel
  cases job with
  | none =>
    have hbusy : (!d.prBusy) = true := by rw [h.1]; rfl
    rw [if_pos hbusy]
    exact ⟨none, .nil none, h⟩
  | some j =>
    have hbusy : ¬(!d.prBusy) = true := by rw [h.1.busy]; decide
    rw [if_neg hbusy]
    exact ⟨none, .single (.cancel source procNr h.2.1), rfl, fun _ => rfl⟩

/-! ## Runs -/

theorem Refines.step {e : Event} {r : Driver × List Output} (h : Refines d job) (hg : Prompt d e)
    (hs : step d e = some r) : ∃ job', ServesAll job r.2 job' ∧ Refines r.1 job' := by
  cases e with
  | write m junk ready status =>
    obtain rfl := Option.some.inj hs
    obtain ⟨hd, hp, ha, hc, hst⟩ := hg
    exact h.doWrite hd hp ha hc hst junk ready
  | cancel source procNr =>
    obtain rfl := Option.some.inj hs
    exact h.doCancel source procNr
  | done =>
    obtain ⟨st, hst, rfl⟩ := Option.map_eq_some_iff.mp hs
    exact ⟨none, h.doDone hst⟩
  | interrupt status =>
    obtain rfl := Option.some.inj hs
    obtain ⟨hd, hst⟩ := hg
    cases job with
    | none =>
      obtain ⟨hsame, hout⟩ := prChar_idle h.1 status none
      exact ⟨none, hout, hsame.symm ▸ h⟩
    | some j =>
      obtain ⟨k, hk, hh, hr⟩ := h.1.prChar hst hd
      exact ⟨_, hk, { hh with }, h.2.1, hr⟩

/-- The driver with one event after the other, and what has gone out. -/
inductive Run : Driver → List Event → Driver → List Output → Prop
  | nil (d : Driver) : Run d [] d []
  | cons {d d₁ d' : Driver} {e : Event} {l : List Event} {out out' : List Output} :
    Prompt d e → step d e = some (d₁, out) → Run d₁ l d' out' → Run d (e :: l) d' (out ++ out')

/-- The driver after `k` interrupts, each with the status that the port gives then. -/
def interrupted (d : Driver) (status : Nat → Nat → Int) : Nat → Driver
  | 0 => d
  | k + 1 => (prChar (interrupted d status k) (status k)).1

/-- Nothing is added to what is left. -/
theorem printLoop_le (status : Nat → Int) (n : Nat) (d : Driver) (hd : d.pcount = n) :
    (printLoop status n d).1.pcount ≤ n := by
  induction n generalizing d with
  | zero => exact hd.le
  | succ n ih =>
    unfold Printer.printLoop
    split
    · exact (ih _ rfl).trans (Nat.le_succ n)
    · exact hd.le

/-- A printer that is not busy takes a byte, or the task is told that there is none left or why it
does not take one. -/
theorem Holds.advances (h : Holds d j) (hready : status d.pcount ≠ BUSY_STATUS) :
    (Printer.prChar d status).1.pcount < d.pcount ∨ (Printer.prChar d status).1.done ≠ none := by
  have hbusy : ¬(!d.prBusy) = true := by rw [h.busy]; decide
  unfold Printer.prChar
  rw [if_neg hbusy]
  dsimp only
  cases hn : d.pcount with
  | zero =>
    right
    unfold prLoop
    rw [Option.some_or]
    exact Option.some_ne_none _
  | succ n =>
    rw [hn] at hready
    unfold Printer.printLoop prLoop
    by_cases hnormal : status (n + 1) = NORMAL_STATUS
    · left
      rw [if_pos hnormal]
      exact Nat.lt_succ_of_le (printLoop_le status n _ rfl)
    · right
      rw [if_neg hnormal, if_neg hready, Option.some_or]
      exact Option.some_ne_none _

/-- As long as the task is not told, every interrupt makes less be left. -/
theorem Holds.interrupts (h : Holds d j) {status : Nat → Nat → Int} (hs : ∀ k n, status k n ≠ OK)
    (hready : ∀ k, status k (interrupted d status k).pcount ≠ BUSY_STATUS) {k : Nat}
    (hd : ∀ i ≤ k, (interrupted d status i).done = none) :
    (∃ j', Holds (interrupted d status k) j') ∧ (interrupted d status k).pcount + k ≤ d.pcount := by
  induction k with
  | zero => exact ⟨⟨j, h⟩, Nat.le_refl _⟩
  | succ k ih =>
    obtain ⟨⟨j', h'⟩, hle⟩ := ih fun i hi => hd i (Nat.le_succ_of_le hi)
    obtain ⟨n, -, hnext, -⟩ := h'.prChar (hs k) (hd k (Nat.le_succ k))
    refine ⟨⟨_, hnext⟩, ?_⟩
    rcases h'.advances (hready k) with hlt | hdone
    · change (Printer.prChar (interrupted d status k) (status k)).1.pcount + (k + 1) ≤ d.pcount
      omega
    · exact absurd (hd (k + 1) (Nat.le_refl _)) hdone

/-- So after at most as many interrupts as there are bytes left, and one, the task is told. -/
theorem Holds.told (h : Holds d j) {status : Nat → Nat → Int} (hs : ∀ k n, status k n ≠ OK)
    (hready : ∀ k, status k (interrupted d status k).pcount ≠ BUSY_STATUS) :
    ∃ k ≤ d.pcount + 1, (interrupted d status k).done ≠ none := by
  by_contra hnever
  have hnone : ∀ i ≤ d.pcount + 1, (interrupted d status i).done = none := by
    intro i hi
    by_contra hne
    exact hnever ⟨i, hi, hne⟩
  have hle := (h.interrupts hs hready hnone).2
  omega

/-- In whatever order requests, cancellations, interrupts and calls by the clock task come, requests
are printed one after the other, each byte once and in order, and a request whose process has been
told to wait is completed once: when all of it has been printed, after an error, or by a
cancellation. The printer goes on with a request: as long as interrupts find it not busy, the task is
told before there are more of them than bytes left and one, and what the task is told completes the
request. -/
theorem printed_once {l : List Event} (h : Refines d job) (hrun : Run d l d' out) :
    ∃ job', ServesAll job out job' ∧ Refines d' job' ∧ ∀ j, job' = some j →
      (∀ r, d'.done = some r → ServesAll (some j) (doDone d' r).2 none) ∧
      ∀ status : Nat → Nat → Int, (∀ k n, status k n ≠ OK) →
        (∀ k, status k (interrupted d' status k).pcount ≠ BUSY_STATUS) →
        ∃ k ≤ d'.pcount + 1, (interrupted d' status k).done ≠ none := by
  have hserved : ∃ job', ServesAll job out job' ∧ Refines d' job' := by
    induction hrun generalizing job with
    | nil d => exact ⟨job, .nil job, h⟩
    | cons hg hs _ ih =>
      obtain ⟨job₁, hout, h₁⟩ := h.step hg hs
      obtain ⟨job', hout', h'⟩ := ih h₁
      exact ⟨job', hout.append hout', h'⟩
  obtain ⟨job', hout, h'⟩ := hserved
  refine ⟨job', hout, h', ?_⟩
  rintro j rfl
  exact ⟨fun r hr => (h'.doDone hr).1, fun status hs hready => h'.1.told hs hready⟩

/-- Nothing has been printed yet. -/
def idle : Driver := ⟨0, 0, 0, 0, 0, 0, false, 0, none⟩

/-- Two bytes of process 4 are written, of which the printer takes the second after an interrupt. -/
def twoBytes : List Event :=
  [.write ⟨1, 4, 2, 0x12345⟩ 0 (fun _ => NORMAL_STATUS)
    (fun n => if n = 2 then NORMAL_STATUS else BUSY_STATUS),
    .interrupt (fun _ => NORMAL_STATUS), .done]

theorem printed_once_two : ∃ job', ServesAll none
    [.accept 1 4 0x12345 2, .char 0x12345, .reply TASK_REPLY 1 4 SUSPEND, .enable, .char 0x12346,
      .reply REVIVE 1 4 2] job' ∧
      Refines ⟨1, 4, 2, 0x1234, 7, 0, false, 2, none⟩ job' := by
  have hidle : Refines idle none := ⟨rfl, fun h => absurd rfl h⟩
  have hrun : Run idle twoBytes ⟨1, 4, 2, 0x1234, 7, 0, false, 2, none⟩
      [.accept 1 4 0x12345 2, .char 0x12345, .reply TASK_REPLY 1 4 SUSPEND, .enable, .char 0x12346,
        .reply REVIVE 1 4 2] := by
    refine @Run.cons _ _ _ _ _ [_, _, _] _ ⟨rfl, by decide, by decide, by decide, fun n => ?_⟩ rfl
      (@Run.cons _ _ _ _ _ [_, _] _ ⟨rfl, fun _ => (by decide : NORMAL_STATUS ≠ OK)⟩ rfl
        (@Run.cons _ _ _ _ _ [_] _ trivial rfl (Run.nil _)))
    dsimp only
    split <;> decide
  obtain ⟨job', hout, h', -⟩ := printed_once hidle hrun
  exact ⟨job', hout, h'⟩

end Minix.Kernel.Printer
