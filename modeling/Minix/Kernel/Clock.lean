import Minix.Kernel.System

/-!
# The clock task

Alarms for processes and for tasks, and the time of day. The parameters of a request lie in
a union: where the clock task finds them depends on the names of the fields, so a message is
taken as the bytes that it is.
-/

namespace Minix.Kernel

open Function

/-! ## The fields of a message -/

/-- The byte at offset `a`. -/
def byteAt (m : Message) (a : Nat) : Nat := if h : a < MESS_SIZE then (m ⟨a, h⟩).toNat else 0

/-- `len` bytes from `a` on as a number, the low-order byte first. -/
def field (m : Message) (a : Nat) : Nat → Nat
  | 0 => 0
  | len + 1 => byteAt m a + 256 * field m (a + 1) len

/-- Store a number in `len` bytes from `a` on. -/
def putField (m : Message) (a len n : Nat) : Message := fun i =>
  if a ≤ i.val ∧ i.val < a + len then UInt8.ofNat (n / 256 ^ (i.val - a) % 256) else m i

/-- The value of an `int` and of a `long`. -/
def getInt (m : Message) (a : Nat) : Int := Int.bmod (field m a 2) 65536
/-- The long at offset `a` of a message. -/
def getLong (m : Message) (a : Nat) : Int := Int.bmod (field m a 4) 4294967296

/-- The message with an int stored at offset `a`. -/
def putInt (m : Message) (a : Nat) (n : Int) : Message := putField m a 2 (n % 65536).toNat
/-- The message with a long stored at offset `a`. -/
def putLong (m : Message) (a : Nat) (n : Int) : Message := putField m a 4 (n % 4294967296).toNat

section Fields

variable {m : Message} {a b len len' n : Nat}

/-- A store changes no byte outside its field. -/
theorem byteAt_putField_ne (h : b < a ∨ a + len ≤ b) :
    byteAt (putField m a len n) b = byteAt m b := by
  unfold byteAt
  split
  · unfold putField
    dsimp only
    rw [if_neg (by omega)]
  · rfl

/-- And each byte of the field as it should. -/
theorem byteAt_putField_self {k : Nat} (hk : k < len) (hm : a + len ≤ MESS_SIZE) :
    byteAt (putField m a len n) (a + k) = n / 256 ^ k % 256 := by
  unfold byteAt
  rw [dif_pos (by omega)]
  unfold putField
  dsimp only
  rw [if_pos (by omega), Nat.add_sub_cancel_left, UInt8.toNat_ofNat']
  exact Nat.mod_mod _ _

/-- A field is not changed by a write beside it. -/
theorem field_putField_ne (h : b + len' ≤ a ∨ a + len ≤ b) :
    field (putField m a len n) b len' = field m b len' := by
  induction len' generalizing b with
  | zero => rfl
  | succ len' ih =>
    unfold field
    rw [byteAt_putField_ne (by omega), ih (by omega)]

/-- The bytes of a field that has been stored, from the `k`th on. -/
theorem field_putField_from {k : Nat} (hk : k + len' = len) (hm : a + len ≤ MESS_SIZE) :
    field (putField m a len n) (a + k) len' = n / 256 ^ k % 256 ^ len' := by
  induction len' generalizing k with
  | zero => exact (Nat.mod_one _).symm
  | succ len' ih =>
    have hrest := ih (k := k + 1) (by omega)
    have hpow : 256 ^ (len' + 1) = 256 * 256 ^ len' := Nat.pow_succ'
    unfold field
    rw [byteAt_putField_self (by omega) hm, Nat.add_assoc, hrest, hpow, Nat.mod_mul,
      Nat.div_div_eq_div_mul, Nat.pow_succ]

/-- The field then reads the number, cut to its length. -/
theorem field_putField_self (hm : a + len ≤ MESS_SIZE) :
    field (putField m a len n) a len = n % 256 ^ len := by
  have h := field_putField_from (m := m) (n := n) (Nat.zero_add len) hm
  rwa [Nat.pow_zero, Nat.div_one] at h

/-- An int apart from the one stored is as before. -/
theorem getInt_putInt_ne {n : Int} (h : b + 2 ≤ a ∨ a + 2 ≤ b) :
    getInt (putInt m a n) b = getInt m b := by
  unfold getInt putInt
  rw [field_putField_ne h]

/-- So is an int apart from a long that is stored. -/
theorem getInt_putLong_ne {n : Int} (h : b + 2 ≤ a ∨ a + 4 ≤ b) :
    getInt (putLong m a n) b = getInt m b := by
  unfold getInt putLong
  rw [field_putField_ne h]

/-- And a long apart from an int. -/
theorem getLong_putInt_ne {n : Int} (h : b + 4 ≤ a ∨ a + 2 ≤ b) :
    getLong (putInt m a n) b = getLong m b := by
  unfold getLong putInt
  rw [field_putField_ne h]

/-- An int that is stored is read back, cut to 16 bits. -/
theorem getInt_putInt_self {n : Int} (hm : a + 2 ≤ MESS_SIZE) :
    getInt (putInt m a n) a = Int.bmod n 65536 := by
  unfold getInt putInt
  rw [field_putField_self hm]
  have hmod : (((n % 65536).toNat % 256 ^ 2 : Nat) : Int) = n % 65536 := by omega
  rw [hmod]
  exact Int.emod_bmod n 65536

/-- A long that is stored is read back, cut to 32 bits. -/
theorem getLong_putLong_self {n : Int} (hm : a + 4 ≤ MESS_SIZE) :
    getLong (putLong m a n) a = Int.bmod n 4294967296 := by
  unfold getLong putLong
  rw [field_putField_self hm]
  have hmod : (((n % 4294967296).toNat % 256 ^ 4 : Nat) : Int) = n % 4294967296 := by omega
  rw [hmod]
  exact Int.emod_bmod n 4294967296

/-- The source is written before all fields. -/
theorem field_withSource (src : Int) (h : 2 ≤ a) : field (withSource src m) a len = field m a len := by
  induction len generalizing a with
  | zero => rfl
  | succ len ih =>
    unfold field
    have hbyte : byteAt (withSource src m) a = byteAt m a := by
      unfold byteAt
      split
      · unfold withSource
        have h₀ : (⟨a, ‹_›⟩ : Fin MESS_SIZE) ≠ 0 := by
          intro he
          have hv : a = 0 := congrArg Fin.val he
          omega
        have h₁ : (⟨a, ‹_›⟩ : Fin MESS_SIZE) ≠ 1 := by
          intro he
          have hv : a = 1 := congrArg Fin.val he
          omega
        rw [update_of_ne h₁, update_of_ne h₀]
      · rfl
    rw [hbyte, ih (by omega)]

end Fields

namespace Clock

/-! ## Names of message fields -/

/-- where `PROC_NR` lies, the second word of the union (`m2_i2`) -/
abbrev PROC_NR : Nat := 6
/-- where `CLOCK_PROC_NR` lies, the first word of the union (`m6_i1`) -/
abbrev CLOCK_PROC_NR : Nat := 4
/-- where `DELTA_TICKS`, `NEW_TIME` and `SECONDS_LEFT` lie (`m6_l1`) -/
abbrev DELTA_TICKS : Nat := 10
/-- Where the new time, or the alarm, stands in a message. -/
abbrev NEW_TIME : Nat := 10
/-- Where the answer to an alarm stands. -/
abbrev SECONDS_LEFT : Nat := 10
/-- where `FUNC_TO_CALL` lies (`m6_f1`) -/
abbrev FUNC_TO_CALL : Nat := 14

/-- fcn codes to CLOCK -/
abbrev SET_ALARM : Int := 1
/-- The message of a clock interrupt. -/
abbrev CLOCK_TICK : Int := 2
/-- The message that asks for the time. -/
abbrev GET_TIME : Int := 3
/-- The message that sets the time. -/
abbrev SET_TIME : Int := 4
/-- reply from CLOCK: here is real time -/
abbrev REAL_TIME : Int := 1

/-- clock freq -/
abbrev HZ : Int := 60
/-- maximum positive long -/
abbrev MAX_P_LONG : Int := 2147483647
/-- The signal that an alarm causes. -/
abbrev SIGALRM : Nat := 14

/-! ## The task -/

/-- What is kept of a number that is stored in an `int`, and in a `long`. -/
def asInt (n : Int) : Int := Int.bmod n 65536
/-- A number as it is kept in a 32-bit long. -/
def asLong (n : Int) : Int := Int.bmod n 4294967296

/-- A number in range is kept by an int. -/
theorem asInt_of_range {n : Int} (h : -32768 ≤ n) (h' : n < 32768) : asInt n = n := by
  unfold asInt
  rw [Int.bmod_def]
  split <;> omega

/-- And by a long. -/
theorem asLong_of_range {n : Int} (h : -2147483648 ≤ n) (h' : n < 2147483648) : asLong n = n := by
  unfold asLong
  rw [Int.bmod_def]
  split <;> omega

/-- The variables of the clock task, the alarms in the process table, and `lost_ticks`. Time is
counted in ticks, in a `long` that goes around after 414 days; `lost_ticks` is an `int`. -/
structure Task where
  realtime : Int
  lostTicks : Int
  bootTime : Int
  /-- probable time of next alarm -/
  nextAlarm : Int
  /-- message buffer for both input and output -/
  mc : Message
  pAlarm : Slot → Int
  /-- watch_dog functions to call -/
  watchDog : Int → Int

/-- What the clock task does outside of its tables: a signal is caused, a watch_dog function is
called, a reply is sent. -/
inductive Output where
  | causeSig (procNr : Int) (sigNr : Nat)
  | callDog (procNr function : Int)
  | reply (dest : Int) (m : Message)

/-- One turn of the scans for the next alarm. -/
def sooner (pAlarm : Slot → Int) (next : Int) (rp : Slot) : Int :=
  if pAlarm rp ≠ 0 ∧ pAlarm rp < next then pAlarm rp else next

/-- Which alarm is next? -/
def soonest (pAlarm : Slot → Int) : Int :=
  (List.finRange (NR_TASKS + NR_PROCS)).foldl (sooner pAlarm) MAX_P_LONG

/-- How many seconds are remaining on the alarm of a process. -/
def secondsLeft (c : Task) (rp : Slot) : Int :=
  if c.pAlarm rp = 0 then 0 else (asLong (c.pAlarm rp - c.realtime)).tdiv HZ

/-- When an alarm rings that is set now. -/
def alarmTime (c : Task) (deltaTicks : Int) : Int :=
  if deltaTicks = 0 then 0 else asLong (c.realtime + deltaTicks)

/-- A process wants an alarm signal or a task wants a given watch_dog function called after a
specified interval. -/
def doSetalarm (c : Task) : Option Task :=
  let procNr := getInt c.mc CLOCK_PROC_NR
  let deltaTicks := getLong c.mc DELTA_TICKS
  let function := getInt c.mc FUNC_TO_CALL
  (procAddr procNr).map fun rp =>
    let pAlarm := update c.pAlarm rp (alarmTime c deltaTicks)
    { c with
      mc := putLong c.mc SECONDS_LEFT (secondsLeft c rp)
      pAlarm := pAlarm
      watchDog := if procNr < 0 then update c.watchDog (-procNr) function else c.watchDog
      nextAlarm := soonest pAlarm }

/-- Get and return the current clock time in seconds. -/
def doGetTime (c : Task) : Task :=
  let m := putInt c.mc M_TYPE REAL_TIME
  { c with mc := putLong m NEW_TIME (c.bootTime + c.realtime.tdiv HZ) }

/-- Set the real time clock. -/
def doSetTime (c : Task) : Task :=
  { c with bootTime := asLong (getLong c.mc NEW_TIME - c.realtime.tdiv HZ) }

/-- A timer has gone off. If it is a user proc, send it a signal. If it is a task, call the
function previously specified by the task. -/
def ring (c : Task) (rp : Slot) : Output :=
  if procNr rp ≥ 0 then .causeSig (procNr rp) SIGALRM
  else .callDog (procNr rp) (c.watchDog (-procNr rp))

/-- One turn of the loop over the process table: see if this alarm time has been reached, and work
on determining which alarm is next. -/
def checkAlarm (r : Task × List Output) (rp : Slot) : Task × List Output :=
  let (c, out) := r
  if c.pAlarm rp = 0 then (c, out)
  else if c.pAlarm rp ≤ c.realtime then
    ({ c with pAlarm := update c.pAlarm rp 0 }, out ++ [ring c rp])
  else ({ c with nextAlarm := sooner c.pAlarm c.nextAlarm rp }, out)

/-- Called on every clock tick: update the time of day, and see if an alarm may have gone off. The
accounting and the scheduling of user processes are left out. -/
def doClocktick (c : Task) : Task × List Output :=
  let t := c.lostTicks
  let c := { c with
    realtime := asLong (c.realtime + asInt (t + 1)), lostTicks := asInt (c.lostTicks - t) }
  if c.nextAlarm ≤ c.realtime then
    (List.finRange (NR_TASKS + NR_PROCS)).foldl checkAlarm ({ c with nextAlarm := MAX_P_LONG }, [])
  else (c, [])

/-- Send the answer. -/
def reply (c : Task) : Task × List Output :=
  let m := putInt c.mc M_TYPE OK
  ({ c with mc := m }, [.reply (getInt m 0) (withSource (procNr (taskSlot CLOCK)) m)])

/-- A turn of the main loop of the clock task, with the message that is there. -/
def turn (c : Task) (m : Message) : Option (Task × List Output) :=
  let c := { c with mc := m }
  let opcode := getInt m M_TYPE
  if opcode = SET_ALARM then (doSetalarm c).map reply
  else if opcode = GET_TIME then some (reply (doGetTime c))
  else if opcode = SET_TIME then some (reply (doSetTime c))
  else if opcode = CLOCK_TICK then
    let r := doClocktick c
    some ({ r.1 with mc := putInt r.1.mc M_TYPE OK }, r.2)
  else none -- panic: "clock task got bad message"

/-! ## When alarms ring -/

/-- The alarm of a process is off, or lies ahead. -/
def Ahead (c : Task) (rp : Slot) : Prop := c.pAlarm rp = 0 ∨ c.realtime < c.pAlarm rp

/-- What the loop over the process table leaves as it is for one process. -/
structure Spared (rp : Slot) (r r' : Task × List Output) : Prop where
  pAlarm : r'.1.pAlarm rp = r.1.pAlarm rp
  realtime : r'.1.realtime = r.1.realtime
  silent : (∀ sig, .causeSig (procNr rp) sig ∉ r.2) → ∀ sig, .causeSig (procNr rp) sig ∉ r'.2

section Ring

variable {c : Task} {r : Task × List Output} {rp q : Slot}

/-- A process number is that of one slot. -/
theorem procNr_inj (h : procNr rp = procNr q) : rp = q := by
  unfold procNr at h
  exact Fin.ext (by omega)

/-- A process whose alarm is still ahead is not signalled. -/
theorem checkAlarm_spares (h : Ahead r.1 rp) : Spared rp r (checkAlarm r q) := by
  unfold checkAlarm
  split
  rename_i c out
  by_cases hq : c.pAlarm q = 0
  · rw [if_pos hq]
    exact ⟨rfl, rfl, id⟩
  · rw [if_neg hq]
    by_cases hdue : c.pAlarm q ≤ c.realtime
    · have hne : rp ≠ q := by
        rintro rfl
        rcases h with h | h
        · exact hq h
        · exact absurd hdue (Int.not_le.mpr h)
      rw [if_pos hdue]
      refine ⟨update_of_ne hne _ _, rfl, fun hs sig hm => ?_⟩
      rcases List.mem_append.mp hm with hm | hm
      · exact hs sig hm
      · have hring := List.mem_singleton.mp hm
        unfold ring at hring
        split at hring
        · injection hring with hnr
          exact hne (procNr_inj hnr)
        · cases hring
    · rw [if_neg hdue]
      exact ⟨rfl, rfl, id⟩

/-- A process whose alarm is off or lies ahead is passed over by the loop. -/
theorem checkAlarms_spare (l : List Slot) (h : Ahead r.1 rp) :
    Spared rp r (l.foldl checkAlarm r) := by
  induction l generalizing r with
  | nil => exact ⟨rfl, rfl, id⟩
  | cons q l ih =>
    have hone := checkAlarm_spares (q := q) h
    have hahead : Ahead (checkAlarm r q).1 rp := by
      unfold Ahead
      rw [hone.pAlarm, hone.realtime]
      exact h
    have hrest := ih hahead
    exact ⟨hrest.pAlarm.trans hone.pAlarm, hrest.realtime.trans hone.realtime,
      fun hs => hrest.silent (hone.silent hs)⟩

/-- The loop over the alarms does not touch the time. -/
theorem checkAlarms_time (l : List Slot) (r : Task × List Output) :
    (l.foldl checkAlarm r).1.realtime = r.1.realtime ∧
      (l.foldl checkAlarm r).1.lostTicks = r.1.lostTicks := by
  induction l generalizing r with
  | nil => exact ⟨rfl, rfl⟩
  | cons q l ih =>
    have hone : (checkAlarm r q).1.realtime = r.1.realtime ∧
        (checkAlarm r q).1.lostTicks = r.1.lostTicks := by
      unfold checkAlarm
      split
      split
      · exact ⟨rfl, rfl⟩
      · split
        · exact ⟨rfl, rfl⟩
        · exact ⟨rfl, rfl⟩
    rw [List.foldl_cons, (ih _).1, (ih _).2]
    exact hone

/-- A clock tick before the time of an alarm leaves it, and causes no signal for its process. -/
theorem doClocktick_spares
    (h : c.pAlarm rp = 0 ∨ asLong (c.realtime + asInt (c.lostTicks + 1)) < c.pAlarm rp) :
    (doClocktick c).1.pAlarm rp = c.pAlarm rp ∧
      ∀ sig, .causeSig (procNr rp) sig ∉ (doClocktick c).2 := by
  unfold doClocktick
  dsimp only
  split
  · generalize hc : ({ c with
      realtime := asLong (c.realtime + asInt (c.lostTicks + 1))
      lostTicks := asInt (c.lostTicks - c.lostTicks), nextAlarm := MAX_P_LONG } : Task) = c₁
    have hahead : Ahead c₁ rp := hc ▸ h
    have hs : Spared rp (c₁, []) ((List.finRange (NR_TASKS + NR_PROCS)).foldl checkAlarm (c₁, [])) :=
      checkAlarms_spare _ hahead
    refine ⟨hs.pAlarm.trans ?_, hs.silent fun sig hm => by cases hm⟩
    rw [← hc]
  · exact ⟨rfl, fun sig hm => by cases hm⟩

/-- Clock ticks one after the other, each after the interrupts that were lost. -/
def ticks (c : Task) : List Nat → Task × List Output
  | [] => (c, [])
  | t :: l =>
    let r := doClocktick { c with lostTicks := asInt t }
    ((ticks r.1 l).1, r.2 ++ (ticks r.1 l).2)

/-- The time that ticks take. -/
def elapsed : List Nat → Int
  | [] => 0
  | t :: l => t + 1 + elapsed l

/-- The time that has passed is not negative. -/
theorem elapsed_nonneg : ∀ l : List Nat, 0 ≤ elapsed l
  | [] => Int.le_refl 0
  | t :: l => by
    have hl := elapsed_nonneg l
    unfold elapsed
    omega

end Ring

end Clock

end Minix.Kernel
