import Minix.Lib.Ring
import Minix.Lib.Run

/-!
# The terminal task

The device-independent part of the terminal driver, for the console: typed characters and
their processing in the three modes, reads that are served at once or later, writes, mode
changes and cancels. There is one line. The screen is not modelled; echoing does not touch
anything that is.
-/

namespace Minix.Kernel.Tty

open Function

/-- input queue size -/
abbrev TTY_IN_BYTES : Nat := 200

/-- unit for copying to/from queues -/
abbrev TTY_BUF_SIZE : Nat := 256

/-- non-escaped CTRL-D stored as MARKER -/
abbrev MARKER : UInt8 := 0

/-- line feed, carriage return, backslash -/
abbrev LF : UInt8 := 10
/-- Carriage return. -/
abbrev CR : UInt8 := 13
/-- Backslash. -/
abbrev BACKSLASH : UInt8 := 92

/-- scan codes for the function keys -/
abbrev F1 : UInt8 := 59
/-- Scan code of the function key F10. -/
abbrev F10 : UInt8 := 68

/-- codes below this are shifted if CTRL -/
abbrev TOP_ROW : Nat := 14

/-- code to yield for CTRL-@ -/
abbrev AT_SIGN : Nat := 144

/-- Mode bit: no processing of the input at all. -/
abbrev RAW : Nat := 32
/-- Mode bit: carriage return is line feed on input, and line feed both on output. -/
abbrev CRMOD : Nat := 16
/-- Mode bit: input is echoed. -/
abbrev ECHO : Nat := 8
/-- Mode bit: each character is passed on as it comes. -/
abbrev CBREAK : Nat := 2
/-- The mode in which lines are assembled. -/
abbrev COOKED : Nat := 0
/-- Mode bits: tabs are expanded on output. -/
abbrev XTABS : Nat := 3072

/-- The signal that DEL causes. -/
abbrev SIGINT : Nat := 2
/-- The signal that CTRL-\ causes. -/
abbrev SIGQUIT : Nat := 3

/-- first user not part of operating system -/
abbrev LOW_USER : Int := 2

/-- The code of success. -/
abbrev OK : Int := 0
/-- The error code of a call that a signal has interrupted. -/
abbrev EINTR : Int := -4
/-- The error code of a bad argument. -/
abbrev EINVAL : Int := -22
/-- The answer to a read while another one hangs on the line. -/
abbrev E_TRY_AGAIN : Int := -3
/-- The answer when the address of the caller is bad. -/
abbrev E_BAD_ADDR : Int := -10

/-- used when tty has no data -/
abbrev SUSPEND : Int := -998

/-- The message to the file system that revives a process. -/
abbrev REVIVE : Nat := 67
/-- The message that answers a request. -/
abbrev TASK_REPLY : Nat := 68

/-- IOCTL that reads the mode and the erase and kill characters. -/
abbrev TIOCGETP : Nat := 29704
/-- IOCTL that sets them. -/
abbrev TIOCSETP : Nat := 29705
/-- IOCTL that reads the other special characters. -/
abbrev TIOCGETC : Nat := 29714
/-- IOCTL that sets them. -/
abbrev TIOCSETC : Nat := 29713

/-- Scan codes to ASCII for unshifted keys. -/
def unsh : List Nat :=
  [0, 27, 49, 50, 51, 52, 53, 54, 55, 56, 57, 48, 45, 61, 8, 9, 113, 119, 101, 114, 116, 121, 117,
    105, 111, 112, 91, 93, 13, 130, 97, 115, 100, 102, 103, 104, 106, 107, 108, 59, 39, 96, 128,
    92, 122, 120, 99, 118, 98, 110, 109, 44, 46, 47, 129, 42, 131, 32, 132, 161, 162, 163, 164,
    165, 166, 167, 168, 169, 170, 133, 136, 183, 184, 185, 137, 180, 181, 182, 140, 177, 178, 179,
    48, 127]

/-- Scan codes to ASCII for shifted keys. -/
def sh : List Nat :=
  [0, 27, 33, 64, 35, 36, 37, 94, 38, 42, 40, 41, 95, 43, 8, 9, 81, 87, 69, 82, 84, 89, 85, 73, 79,
    80, 123, 125, 13, 130, 65, 83, 68, 70, 71, 72, 74, 75, 76, 58, 34, 126, 128, 124, 90, 88, 67,
    86, 66, 78, 77, 60, 62, 63, 129, 42, 131, 32, 132, 145, 146, 147, 148, 149, 150, 151, 152, 153,
    154, 132, 139, 55, 56, 57, 137, 52, 53, 54, 140, 49, 50, 51, 48, 177]

/-- Scan codes to ASCII for Olivetti M24 for unshifted keys. -/
def unm24 : List Nat :=
  [0, 27, 49, 50, 51, 52, 53, 54, 55, 56, 57, 48, 45, 94, 8, 9, 113, 119, 101, 114, 116, 121, 117,
    105, 111, 112, 64, 91, 13, 130, 97, 115, 100, 102, 103, 104, 106, 107, 108, 59, 58, 93, 128,
    92, 122, 120, 99, 118, 98, 110, 109, 44, 46, 47, 129, 42, 131, 32, 132, 161, 162, 163, 164,
    165, 166, 167, 168, 169, 170, 19, 136, 183, 184, 185, 137, 180, 181, 182, 140, 177, 178, 179,
    48, 46, 32, 12, 138, 13, 180, 178, 182, 184, 26, 139, 32, 47, 171, 172, 173, 174, 175, 141,
    142, 143]

/-- Scan codes to ASCII for Olivetti M24 for shifted keys. -/
def m24 : List Nat :=
  [0, 27, 33, 34, 35, 36, 37, 38, 39, 40, 41, 95, 61, 126, 8, 9, 81, 87, 69, 82, 84, 89, 85, 73,
    79, 80, 96, 123, 13, 130, 65, 83, 68, 70, 71, 72, 74, 75, 76, 43, 42, 125, 128, 124, 90, 88,
    67, 86, 66, 78, 77, 60, 62, 63, 129, 42, 131, 32, 132, 145, 146, 147, 148, 149, 150, 151, 152,
    153, 154, 184, 19, 55, 56, 57, 137, 52, 53, 54, 140, 49, 50, 51, 135, 127, 185, 12, 186, 13, 8,
    10, 12, 30, 26, 187, 188, 47, 155, 156, 157, 158, 159, 189, 190, 191]

/-- Which keys are held down or locked, and which keyboard is attached. -/
structure Keys where
  shift1 : Bool
  shift2 : Bool
  capslock : Bool
  numlock : Bool
  control : Bool
  alt : Bool
  olivetti : Bool

/-- The terminal, with the state of the keyboard. -/
structure TtyStruct where
  /-- array used to store the characters -/
  inqueue : Nat → UInt8
  /-- place where next char goes -/
  inhead : Nat
  /-- next char to be given to prog -/
  intail : Nat
  /-- # chars in tty_inqueue -/
  incount : Int
  /-- # line feeds in tty_inqueue -/
  lfct : Int
  /-- terminal mode set by IOCTL -/
  mode : Nat
  /-- a backslash just seen -/
  escaped : Bool
  /-- CTRL-S just seen (stops output) -/
  inhibited : Bool
  /-- for terminals that interrupt twice/key -/
  makebreak : Bool
  /-- output process waiting for reply -/
  waiting : Bool
  erase : UInt8
  kill : UInt8
  intr : UInt8
  quit : UInt8
  xon : UInt8
  xoff : UInt8
  eof : UInt8
  /-- process that made the call (usually FS) -/
  incaller : Int
  /-- process that wants to read from tty -/
  inproc : Int
  /-- virtual address where data is to go -/
  inVir : Nat
  /-- how many chars are still needed -/
  inleft : Int
  /-- process that made the call (usually FS) -/
  otcaller : Int
  /-- process that wants to write to tty -/
  outproc : Int
  /-- # chars yet to be copied to the screen -/
  outleft : Int
  /-- # chars copied to the screen so far -/
  cum : Int
  keys : Keys

/-- What the task does to the others: a message, bytes for a user, a signal. -/
inductive Output where
  | reply (code : Nat) (replyee procNr status : Int) (flags spek : Nat)
  | physCopy (userPhys : Int) (bytes : List UInt8)
  | causeSig (procNr : Int) (sig : Nat)
  deriving DecidableEq

/-- The physical address of a range in the data of a process, as the kernel maps it now, or 0. -/
abbrev UmapD : Type := Int → Nat → Int → Int

section Keyboard

/-- The code of a key in a table. The keyboard has no key beyond them. -/
def codeOf (table : List Nat) (c : Nat) : Nat := table.getD c 0

/-- Keyboards that interrupt on key depression and key release. -/
def makeBreak (k : Keys) (ch : UInt8) : UInt8 × Keys :=
  let c := ch.toNat % 128
  let make := decide (ch.toNat < 128)
  let code :=
    if k.olivetti = false then
      let code := if k.shift1 || k.shift2 || k.capslock then codeOf sh c else codeOf unsh c
      let code := if k.control ∧ c < TOP_ROW then codeOf sh c else code
      if c > 70 ∧ k.numlock then codeOf sh c else code
    else
      let code := if k.shift1 || k.shift2 || k.capslock then codeOf m24 c else codeOf unm24 c
      let code := if k.control ∧ c < TOP_ROW then codeOf sh c else code
      if c > 70 ∧ k.numlock then codeOf m24 c else code
  if code < 128 ∨ code ≥ 134 then
    -- ordinary key, i.e. not shift, control, alt, etc.
    let code := if k.alt then code ||| 128 else code
    let code := if k.control then code % 32 else code
    let code := if code = 0 then AT_SIGN else code
    (if make then code.toUInt8 else 0, k)
  else
    (0, match code - 128 with
      | 0 => { k with shift1 := make }
      | 1 => { k with shift2 := make }
      | 2 => { k with control := make }
      | 3 => { k with alt := make }
      | 4 => if make then { k with capslock := !k.capslock } else k
      | 5 => if make then { k with numlock := !k.numlock } else k
      | _ => k)

end Keyboard

section Output

/-- A command has terminated (possibly due to DEL). Tell caller. -/
def finish (tp : TtyStruct) (code : Int) : TtyStruct × List Output :=
  ({ tp with outleft := 0, waiting := false },
    if tp.waiting then [.reply TASK_REPLY tp.otcaller tp.outproc code 0 0] else [])

/-- Print as much data as possible. -/
def console (tp : TtyStruct) : TtyStruct × List Output :=
  let count := if tp.inhibited then 0 else max tp.outleft 0
  let tp := { tp with outleft := tp.outleft - count, cum := tp.cum + count }
  -- if all data has been copied to the terminal, send the reply
  if tp.outleft = 0 then finish tp tp.cum else (tp, [])

end Output

section Input

/-- Delete one character from the input queue, and tell if that was possible. -/
def chuck (tp : TtyStruct) : Bool × TtyStruct :=
  if tp.incount = 0 then (false, tp)
  else
    let prev := Ring.prev TTY_IN_BYTES tp.inhead
    if tp.inqueue prev = LF ∨ tp.inqueue prev = CR then (false, tp)
    else (true, { tp with inhead := prev, incount := tp.incount - 1 })

/-- Kill processing (remove current line). A full queue takes that many rounds at most. -/
def chuckAll : Nat → TtyStruct → TtyStruct
  | 0, tp => tp
  | fuel + 1, tp =>
    match chuck tp with
    | (true, tp) => chuckAll fuel tp
    | (false, tp) => tp

/-- Put a character into the input queue. -/
def enqueue (tp : TtyStruct) (ch : UInt8) : TtyStruct :=
  { tp with
    inqueue := update tp.inqueue tp.inhead ch
    inhead := Ring.next TTY_IN_BYTES tp.inhead
    incount := tp.incount + 1 }

/-- All 3 modes come here. -/
def store (tp : TtyStruct) (ch : UInt8) : TtyStruct :=
  let tp := if ch = LF ∨ ch = MARKER then { tp with lfct := tp.lfct + 1 } else tp
  enqueue tp ch

/-- Discard all input. -/
def discard (tp : TtyStruct) : TtyStruct :=
  { tp with inhead := 0, intail := 0, incount := 0, lfct := 0 }

/-- Both COOKED and CBREAK modes come here. -/
def special (tp : TtyStruct) (ch : UInt8) : TtyStruct × List Output :=
  let ch := if ch = CR ∧ tp.mode &&& CRMOD ≠ 0 then LF else ch
  if ch = tp.intr ∨ ch = tp.quit then
    let sig := if ch = tp.intr then SIGINT else SIGQUIT
    let (tp, out) := finish { tp with inhibited := false } EINTR
    (discard tp, out ++ [.causeSig (LOW_USER + 1) sig])
  else if ch = tp.xoff then ({ tp with inhibited := true }, [])
  else if ch = tp.xon then console { tp with inhibited := false }
  else (store tp ch, [])

/-- Erase, kill and escape processing in COOKED mode. -/
def cooked (tp : TtyStruct) (ch : UInt8) : TtyStruct × List Output :=
  if ch = tp.erase ∧ tp.escaped = false then ((chuck tp).2, [])
  else if ch = tp.kill ∧ tp.escaped = false then (chuckAll (tp.incount.toNat + 1) tp, [])
  else if tp.escaped = false then
    if ch = BACKSLASH then ({ tp with escaped := true }, []) -- do not store it
    else special tp (if ch = tp.eof then MARKER else ch)
  else
    let tp := { tp with escaped := false }
    -- store the escape previously skipped over
    let tp := if ch ≠ tp.erase ∧ ch ≠ tp.kill ∧ ch ≠ tp.eof then enqueue tp BACKSLASH else tp
    special tp ch

/-- The character that a scan code stands for. -/
def translate (tp : TtyStruct) (ch : UInt8) : UInt8 × TtyStruct :=
  if tp.makebreak then
    let (ch, keys) := makeBreak tp.keys ch
    (ch, { tp with keys := keys })
  else (if tp.mode &&& (RAW ||| CBREAK) ≠ RAW then ch % 128 else ch, tp)

/-- A character has just been typed in. Process and save it. -/
def inChar (tp : TtyStruct) (ch : UInt8) : TtyStruct × List Output :=
  if F1 ≤ ch ∧ ch ≤ F10 then (tp, []) -- debug dumps
  else if tp.incount ≥ TTY_IN_BYTES then (tp, []) -- no room, discard char
  else
    let mode := tp.mode &&& (RAW ||| CBREAK)
    let (ch, tp) := translate tp ch
    if ch = 0 then (tp, [])
    else if mode = COOKED then cooked tp ch
    else if mode = CBREAK then special tp ch
    else (store tp ch, [])

end Input

section Read

/-- What has come out of the queue into one buffer. -/
structure Fill where
  tp : TtyStruct
  buf : List UInt8
  enough : Bool
  eotSeen : Bool

/-- The inner loop fills one buffer, and only provides 1 line in COOKED mode. -/
def fill (inCooked : Bool) : Nat → Fill → Fill
  | 0, x => x
  | n + 1, x =>
    let ch := x.tp.inqueue x.tp.intail
    let tp := { x.tp with intail := Ring.next TTY_IN_BYTES x.tp.intail }
    let buf := x.buf ++ [ch]
    if ch = LF ∨ ch = MARKER then
      let x := ⟨{ tp with lfct := tp.lfct - 1 }, buf, true, x.eotSeen || inCooked && ch = MARKER⟩
      if inCooked then x else fill inCooked n x
    else fill inCooked n ⟨tp, buf, x.enough, x.eotSeen⟩

/-- The outer loop iterates on buffers, one buffer load per iteration. A MARKER is not counted. -/
def rdLoop (inCooked : Bool) : Nat → TtyStruct → Bool → Bool → Int → Int → List Output →
    Int × TtyStruct × List Output
  | 0, tp, _, _, _, cum, out => (cum, tp, out)
  | fuel + 1, tp, enough, eotSeen, userPhys, cum, out =>
    if tp.inleft ≤ 0 then (cum, tp, out)
    else
      let bufCt := min (min tp.inleft tp.incount) TTY_BUF_SIZE
      let x := fill inCooked bufCt.toNat ⟨tp, [], enough, eotSeen⟩
      let ct : Int := x.buf.length
      let userCt := if x.eotSeen then ct - 1 else ct
      let tp := { x.tp with inleft := x.tp.inleft - ct, incount := x.tp.incount - ct }
      let out := out ++ [.physCopy userPhys (x.buf.take userCt.toNat)]
      if tp.incount = 0 ∨ x.enough then (cum + userCt, tp, out)
      else rdLoop inCooked fuel tp x.enough x.eotSeen (userPhys + userCt) (cum + userCt) out

/-- A line or, in RAW and CBREAK mode, a character is there. -/
def lineReady (tp : TtyStruct) : Prop :=
  ¬(tp.incount = 0 ∨ tp.mode &&& (RAW ||| CBREAK) = 0 ∧ tp.lfct = 0)

instance (tp : TtyStruct) : Decidable (lineReady tp) := by
  unfold lineReady
  infer_instance

/-- A process wants to read from a terminal. -/
def rdChars (umap : UmapD) (tp : TtyStruct) : Int × TtyStruct × List Output :=
  if ¬lineReady tp then (SUSPEND, tp, [])
  else
    let userPhys := umap tp.inproc tp.inVir tp.inleft
    if userPhys = 0 then (E_BAD_ADDR, tp, [])
    else
      let inCooked := decide (tp.mode &&& (RAW ||| CBREAK) = 0)
      let (cum, tp, out) := rdLoop inCooked (tp.inleft.toNat + 1) tp false false userPhys 0 []
      (cum, { tp with inleft := 0 }, out)

end Read

/-- The messages. What comes with TTY_CHAR_INT are the scan codes in the buffer of the driver; the
last one is no message, but the interrupt for a CTRL-S. -/
inductive Message where
  | charInt (chars : List UInt8)
  | read (source procNr : Int) (address : Nat) (count : Int)
  | write (source procNr : Int) (address : Nat) (count : Int)
  | ioctl (source procNr : Int) (request spek flags : Nat)
  | cancel (source procNr : Int)
  | other (source procNr : Int)
  | stop

section Messages

/-- See if a previously blocked reader can now be satisfied. -/
def satisfy (umap : UmapD) (tp : TtyStruct) : TtyStruct × List Output :=
  if tp.inleft > 0 ∧
      (tp.lfct > 0 ∨ tp.mode &&& (CBREAK ||| RAW) ≠ 0 ∧ tp.incount > 0) then
    let (m, tp, out) := rdChars umap tp
    (tp, out ++ [.reply REVIVE tp.incaller tp.inproc m 0 0])
  else (tp, [])

/-- One of the accumulated characters. -/
def typed (umap : UmapD) (tp : TtyStruct) (ch : UInt8) : TtyStruct × List Output :=
  let (tp, out) := inChar tp ch
  let (tp, out') := satisfy umap tp
  (tp, out ++ out')

/-- Loop on the accumulated characters, processing each in turn. -/
def doCharint (umap : UmapD) : TtyStruct → List UInt8 → TtyStruct × List Output
  | tp, [] => (tp, [])
  | tp, ch :: l =>
    let (tp, out) := typed umap tp ch
    let (tp, out') := doCharint umap tp l
    (tp, out ++ out')

/-- A process wants to read from a terminal. -/
def doRead (umap : UmapD) (tp : TtyStruct) (source procNr : Int) (address : Nat) (count : Int) :
    TtyStruct × List Output :=
  -- if someone else is hanging, give up
  if tp.inleft > 0 then (tp, [.reply TASK_REPLY source procNr E_TRY_AGAIN 0 0])
  else
    let (code, tp, out) := rdChars umap
      { tp with incaller := source, inproc := procNr, inVir := address, inleft := count }
    (tp, out ++ [.reply TASK_REPLY source tp.inproc code 0 0])

/-- A process wants to write on a terminal. -/
def doWrite (umap : UmapD) (tp : TtyStruct) (source procNr : Int) (address : Nat) (count : Int) :
    TtyStruct × List Output :=
  let tp := { tp with
    otcaller := source, outproc := procNr, outleft := count, waiting := true, cum := 0 }
  console (if umap procNr address count = 0 then { tp with cum := E_BAD_ADDR, outleft := 0 } else tp)

/-- Perform IOCTL on this terminal. -/
def doIoctl (tp : TtyStruct) (source procNr : Int) (request spek flags : Nat) :
    TtyStruct × List Output :=
  let byte := fun n : Nat => n.toUInt8
  if request = TIOCSETP then
    ({ tp with erase := byte (spek / 256), kill := byte spek, mode := flags % 65536 },
      [.reply TASK_REPLY source procNr OK 0 0])
  else if request = TIOCSETC then
    ({ tp with
      intr := byte (spek / 256 ^ 3), quit := byte (spek / 256 ^ 2), xon := byte (spek / 256)
      xoff := byte spek, eof := byte (flags / 256) }, [.reply TASK_REPLY source procNr OK 0 0])
  else if request = TIOCGETP then
    (tp, [.reply TASK_REPLY source procNr OK tp.mode (tp.erase.toNat * 256 + tp.kill.toNat)])
  else if request = TIOCGETC then
    (tp, [.reply TASK_REPLY source procNr OK (tp.eof.toNat * 256)
      (tp.intr.toNat * 256 ^ 3 + tp.quit.toNat * 256 ^ 2 + tp.xon.toNat * 256 + tp.xoff.toNat)])
  else (tp, [.reply TASK_REPLY source procNr EINVAL 0 0])

/-- A signal has been sent to a process that is hanging trying to read or write. -/
def doCancel (tp : TtyStruct) (source procNr : Int) : TtyStruct × List Output :=
  -- if nobody is hanging, don't reply (to avoid race conditions)
  if tp.inleft = 0 ∧ tp.outleft = 0 then (tp, [])
  else
    ({ discard tp with inleft := 0, outleft := 0, waiting := false, inhibited := false },
      [.reply TASK_REPLY source procNr EINTR 0 0])

/-- What the task does with a message. -/
def handle (umap : UmapD) (tp : TtyStruct) : Message → TtyStruct × List Output
  | .charInt chars => doCharint umap tp chars
  | .read source procNr address count => doRead umap tp source procNr address count
  | .write source procNr address count => doWrite umap tp source procNr address count
  | .ioctl source procNr request spek flags => doIoctl tp source procNr request spek flags
  | .cancel source procNr => doCancel tp source procNr
  | .other source procNr => (tp, [.reply TASK_REPLY source procNr EINVAL 0 0])
  | .stop => ({ tp with inhibited := true }, [])

end Messages

/-- The task, with all it has received and what it did then; the code does not look at it. -/
structure Task where
  tp : TtyStruct
  log : List (Message × List Output)

/-- What happens to the task: a message, and how the processes are mapped when it comes. -/
structure Event where
  msg : Message
  umap : UmapD

/-- A turn of the main loop. -/
def step (t : Task) (e : Event) : Option Task :=
  let (tp, out) := handle e.umap t.tp e.msg
  some ⟨tp, t.log ++ [(e.msg, out)]⟩

/-- The terminal as `tty_init` leaves it. What the queue holds does not matter. -/
structure Started (t : Task) : Prop where
  empty : t.tp.inhead = 0 ∧ t.tp.intail = 0 ∧ t.tp.incount = 0 ∧ t.tp.lfct = 0
  idle : t.tp.inleft = 0 ∧ t.tp.outleft = 0 ∧ t.tp.waiting = false
  mode : t.tp.mode = CRMOD + XTABS + ECHO
  chars : t.tp.erase = 8 ∧ t.tp.kill = 64 ∧ t.tp.intr = 127 ∧ t.tp.quit = 28 ∧ t.tp.xon = 17 ∧
    t.tp.xoff = 19 ∧ t.tp.eof = 4
  state : t.tp.makebreak = true ∧ t.tp.escaped = false ∧ t.tp.inhibited = false
  log : t.log = []

end Minix.Kernel.Tty
