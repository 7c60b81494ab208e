import Mathlib.Data.Int.ModEq
import Minix.Kernel.Tty

/-!
# The screen of the console

The video RAM holds more lines than the screen, and a scroll moves the origin in it. Row and column
of the cursor are kept beside its place in the video RAM, and characters wait in a queue until they
are flushed to this place.

Places in the video RAM count bytes. A mask is one less than a power of 2.
-/

namespace Minix.Kernel.Console

open Function
open Tty (CRMOD XTABS ECHO)

/-- ram buffer size -/
abbrev TTY_RAM_WORDS : Nat := 320

/-- mask for tty_column when tabbing -/
abbrev TAB_MASK : Nat := 7

/-- mask for 16K video RAM -/
abbrev C_VID_MASK : Nat := 0x3FFF

/-- mask for 4K video RAM -/
abbrev M_VID_MASK : Nat := 0x0FFF

/-- how many characters to display at once -/
abbrev C_RETRACE : Int := 0x0300
/-- how many characters to display at once -/
abbrev M_RETRACE : Int := 0x7000

/-- determines cursor color on blank screen -/
abbrev BLANK : BitVec 16 := 0x0700

/-- # characters on a line -/
abbrev LINE_WIDTH : Int := 80

/-- # lines on the screen -/
abbrev SCR_LINES : Int := 25

/-- The characters that `out_char` tells apart. -/
abbrev BELL : BitVec 8 := 7
/-- backspace -/
abbrev BS : BitVec 8 := 8
/-- tab -/
abbrev TAB : BitVec 8 := 9
/-- line feed -/
abbrev LF : BitVec 8 := 10
/-- move cursor up -/
abbrev CTRL_K : BitVec 8 := 11
/-- move cursor right -/
abbrev CTRL_L : BitVec 8 := 12
/-- carriage return -/
abbrev CR : BitVec 8 := 13
/-- move cursor right -/
abbrev CTRL_N : BitVec 8 := 14
/-- escape -/
abbrev ESC : BitVec 8 := 27
/-- blank -/
abbrev SPACE : BitVec 8 := 32

/-- scroll forward or backward -/
inductive Dir
  | GO_FORWARD
  | GO_BACKWARD
  deriving DecidableEq

/-- The output section of a `tty_struct`, with the video RAM, the 6845 and the parameters of the
display. -/
structure Screen where
  /-- the first `tty_rwords` words of the buffer for video RAM -/
  ramqueue : List (BitVec 16)
  /-- location in RAM where 6845 base points -/
  org : Int
  /-- current position of cursor in video RAM -/
  vid : Int
  /-- 0=normal, 1 = ESC seen, 2 = ESC + x seen -/
  escState : Nat
  /-- first character following an ESC -/
  echar : BitVec 8
  /-- current attribute byte << 8 -/
  attr : BitVec 16
  mode : Nat
  /-- current column number (0-origin) -/
  column : Int
  /-- current row (0 at bottom of screen) -/
  row : Int
  vram : Nat → BitVec 16
  /-- the registers 6845 origin and cursor -/
  vidOrg : Int
  cursor : Int
  vidMask : Nat
  vidRetrace : Int

/-- number of WORDS (not bytes) in outqueue -/
abbrev Screen.rwords (tp : Screen) : Nat := tp.ramqueue.length

/-- `n & vid_mask`. -/
def vidAnd (n : Int) (mask : Nat) : Int := n % (mask + 1)

/-- Words are moved to the video RAM. -/
def movs : Nat → List (BitVec 16) → (Nat → BitVec 16) → Nat → BitVec 16
  | _, [], vram => vram
  | di, w :: ws, vram => movs (di + 2) ws (update vram di w)

/-- `vid_copy()`. What would run off the end of the video RAM is copied to its base. -/
def vidCopy (mask : Nat) (ws : List (BitVec 16)) (offset : Int) (vram : Nat → BitVec 16) :
    Nat → BitVec 16 :=
  let di := (vidAnd offset mask).toNat
  let bx := (di + 2 * ws.length - (mask + 1)) / 2 -- # words that don't fit
  let cx := ws.length - bx
  movs 0 (ws.drop cx) (movs di (ws.take cx) vram)

/-- `vid_copy()` with a null pointer blanks the screen. -/
def vidBlank (mask count : Nat) (offset : Int) (vram : Nat → BitVec 16) : Nat → BitVec 16 :=
  vidCopy mask (List.replicate count BLANK) offset vram

/-- Set a register pair inside the 6845: its high byte, and its low byte. -/
def set6845 (val : Int) : Int := val / 256 % 256 * 256 + val % 256

/-- Have the characters in 'ramqueue' transferred to the screen. -/
def flush (tp : Screen) : Screen :=
  if tp.rwords = 0 then tp
  else
    let vid := tp.vid + 2 * tp.rwords
    { tp with
      vram := vidCopy tp.vidMask tp.ramqueue tp.vid tp.vram
      vid := vid
      cursor := set6845 (vid / 2)
      ramqueue := [] }

/-- Move the cursor to (x, y). -/
def moveTo (tp : Screen) (x y : Int) : Screen :=
  let tp := flush tp
  if x < 0 ∨ x ≥ LINE_WIDTH ∨ y < 0 ∨ y ≥ SCR_LINES then tp
  else
    let vid := tp.org + 2 * (SCR_LINES - 1 - y) * LINE_WIDTH + 2 * x
    { tp with
      column := x
      row := y
      vid := vid
      cursor := set6845 (vid / 2) }

/-- Scroll the screen by one line. -/
def scrollScreen (tp : Screen) (dir : Dir) : Screen :=
  let amount := if dir = .GO_FORWARD then 2 * LINE_WIDTH else -2 * LINE_WIDTH
  let org := vidAnd (tp.org + amount) tp.vidMask
  let offset :=
    if dir = .GO_FORWARD then vidAnd (org + 2 * (SCR_LINES - 1) * LINE_WIDTH) tp.vidMask else org
  { tp with
    org := org
    -- Blank the new line at top or bottom.
    vram := vidBlank tp.vidMask LINE_WIDTH.toNat offset tp.vram
    vidOrg := set6845 (org / 2) }

/-- Clear from cursor to end of screen. The fuel runs out unless the loop ends. -/
def clearLoop : Nat → Int → Int → Screen → Option Screen
  | 0, _, _, _ => none
  | fuel + 1, n, vx, tp =>
    if n > 0 then
      let ct := min n tp.vidRetrace
      clearLoop fuel (n - ct) (vx + ct)
        { tp with vram := vidBlank tp.vidMask (ct / 2).toNat vx tp.vram }
    else some tp

/-- Handle an escape sequence. -/
def escape (fuel : Nat) (tp : Screen) (x y : BitVec 8) : Option Screen :=
  if x = 122 then -- 'z'
    some { tp with attr := y.signExtend 16 <<< 8 }
  else if x = 126 then -- '~'
    if y = 48 then
      clearLoop fuel (2 * LINE_WIDTH * (tp.row + 1) - 2 * tp.column) tp.vid tp
    else if y = 49 then some (scrollScreen tp .GO_BACKWARD)
    else some tp
  else some (moveTo tp (x.toInt - 32) (y.toInt - 32))

/-- Printable chars are stored in ramqueue. -/
def putWord (tp : Screen) (c : BitVec 8) : Screen :=
  if tp.column ≥ LINE_WIDTH then tp -- long line
  else
    let tp := if tp.rwords = TTY_RAM_WORDS then flush tp else tp
    { tp with
      ramqueue := tp.ramqueue ++ [tp.attr ||| c.signExtend 16]
      column := tp.column + 1 }

/-- The loop of a tab: `do ... while (tp->tty_column & TAB_MASK)`. -/
def tabLoop (out : Screen → Option Screen) : Nat → Screen → Option Screen
  | 0, _ => none
  | fuel + 1, tp => do
    let tp ← out tp
    if tp.column.toNat &&& TAB_MASK ≠ 0 then tabLoop out fuel tp else some tp

/-- A line feed, after the carriage return that goes with it in CRMOD. -/
def lineFeed (tp : Screen) : Screen :=
  let tp := if tp.row = 0 then scrollScreen tp .GO_FORWARD else { tp with row := tp.row - 1 }
  moveTo tp tp.column tp.row

/-- Output a character on the console. Check for escape sequences. The fuel runs out unless the
calls and loops end. -/
def outChar : Nat → Screen → BitVec 8 → Option Screen
  | 0, _, _ => none
  | fuel + 1, tp, c =>
    if tp.escState = 1 then some { tp with echar := c, escState := 2 }
    else if tp.escState = 2 then
      (escape (fuel + 1) tp tp.echar c).map fun tp => { tp with escState := 0 }
    else if c = BELL then some (flush tp)
    else if c = CTRL_K then some (moveTo tp tp.column (tp.row + 1))
    else if c = CTRL_L then some (moveTo tp (tp.column + 1) tp.row)
    else if c = CTRL_N then some (moveTo tp (tp.column + 1) tp.row)
    else if c = BS then some (moveTo tp (tp.column - 1) tp.row)
    else if c = LF then
      (if tp.mode &&& CRMOD ≠ 0 then outChar fuel tp CR else some tp).map lineFeed
    else if c = CR then some (moveTo tp 0 tp.row)
    else if c = TAB then
      if tp.mode &&& XTABS = XTABS then tabLoop (outChar fuel · SPACE) fuel tp
      else some tp
    else if c = ESC then some { flush tp with escState := 1 }
    else some (putWord tp c)

/-- Initialize the tty tables, for a color or a monochrome display. -/
def ttyInit (color : Bool) (vram : Nat → BitVec 16) : Screen :=
  moveTo {
    ramqueue := []
    org := 0
    vid := 0
    escState := 0
    echar := 0
    attr := BLANK
    mode := CRMOD ||| XTABS ||| ECHO
    column := 0
    row := 0
    vram := vram
    vidOrg := set6845 0
    cursor := 0
    vidMask := if color then C_VID_MASK else M_VID_MASK
    vidRetrace := if color then C_RETRACE else M_RETRACE } 0 0

variable {tp tp' : Screen} {c : BitVec 8} {fuel : Nat}

/-! ## What is on the screen -/

/-- What the video RAM shows once the queue has been flushed. -/
def shown (tp : Screen) : Nat → BitVec 16 := vidCopy tp.vidMask tp.ramqueue tp.vid tp.vram

/-- The cell of the screen at a row and a column. -/
def cell (tp : Screen) : Int := tp.org + 2 * (SCR_LINES - 1 - tp.row) * LINE_WIDTH + 2 * tp.column

/-- Row and column are on the screen, or the column is the one after the end of a line. -/
structure InRange (tp : Screen) : Prop where
  row : 0 ≤ tp.row ∧ tp.row < SCR_LINES
  column : 0 ≤ tp.column ∧ tp.column ≤ LINE_WIDTH
  rwords : tp.rwords ≤ TTY_RAM_WORDS

/-- The next character goes where row and column say. -/
def InPlace (tp : Screen) : Prop := tp.vid + 2 * tp.rwords ≡ cell tp [ZMOD tp.vidMask + 1]

/-- What holds of the screen at any time, wherever the cursor is. -/
structure Sane (tp : Screen) : Prop extends InRange tp where
  pending : (tp.rwords : Int) ≤ tp.column
  mask : tp.vidMask = C_VID_MASK ∨ tp.vidMask = M_VID_MASK
  retrace : C_RETRACE ≤ tp.vidRetrace
  org : 0 ≤ tp.org ∧ tp.org ≤ tp.vidMask ∧ tp.org % 2 = 0
  vid : 0 ≤ tp.vid ∧ tp.vid % 2 = 0
  /-- the place of the cursor is an integer -/
  reach : tp.vid + 2 * (LINE_WIDTH - tp.column + tp.rwords) ≤ 20383
  esc : tp.escState ≤ 2

/-- The rest of the screen does not matter to that. -/
theorem Sane.marked (h : Sane tp) (attr : BitVec 16) (echar : BitVec 8) (mode : Nat)
    (vram : Nat → BitVec 16) {escState : Nat} (hesc : escState ≤ 2) :
    Sane { tp with
      attr := attr
      echar := echar
      mode := mode
      vram := vram
      escState := escState } :=
  ⟨⟨h.row, h.column, h.rwords⟩, h.pending, h.mask, h.retrace, h.org, h.vid, h.reach, hesc⟩

section Copies

variable {di mask : Nat} {ws us : List (BitVec 16)} {w : BitVec 16} {offset : Int}
  {vram : Nat → BitVec 16}

/-- Words that are put in video RAM one after the other. -/
theorem movs_append : movs di (ws ++ us) vram = movs (di + 2 * ws.length) us (movs di ws vram) := by
  induction ws generalizing di vram with
  | nil => rfl
  | cons w ws ih =>
    rw [List.cons_append, movs, ih, movs, List.length_cons]
    congr 1
    omega

/-- One word more goes to the place after the others, or to the base of the video RAM. -/
theorem vidCopy_snoc (hmask : mask % 2 = 1) (hoff : offset % 2 = 0)
    (hfit : 2 * (ws.length + 1) ≤ mask + 1) : vidCopy mask (ws ++ [w]) offset vram =
      update (vidCopy mask ws offset vram) (vidAnd (offset + 2 * ws.length) mask).toNat w := by
  have hlen : (ws ++ [w]).length = ws.length + 1 := List.length_append
  have hdi : 0 ≤ offset % (mask + 1 : Int) ∧ offset % (mask + 1 : Int) < mask + 1 :=
    ⟨Int.emod_nonneg _ (by omega), Int.emod_lt_of_pos _ (by omega)⟩
  have heven : offset % (mask + 1 : Int) % 2 = 0 := by
    rw [Int.emod_emod_of_dvd _ (by omega), hoff]
  have hmod := Int.emod_add_mul_ediv offset (mask + 1)
  unfold vidCopy vidAnd
  dsimp only
  rw [hlen]
  generalize hd : (offset % (mask + 1 : Int)).toNat = di
  have hplace : ((offset + 2 * ws.length) % (mask + 1 : Int)).toNat =
      if di + 2 * ws.length < mask + 1 then di + 2 * ws.length
      else di + 2 * ws.length - (mask + 1) := by
    rw [← Int.emod_add_emod]
    split
    · rw [Int.emod_eq_of_lt (by omega) (by omega)]
      omega
    · rw [← Int.sub_emod_right, Int.emod_eq_of_lt (by omega) (by omega)]
      omega
  rw [hplace]
  split
  · rename_i hlt
    have hbx : (di + 2 * (ws.length + 1) - (mask + 1)) / 2 = 0 := by omega
    have hbx' : (di + 2 * ws.length - (mask + 1)) / 2 = 0 := by omega
    rw [hbx, hbx', Nat.sub_zero, Nat.sub_zero, List.take_of_length_le hlen.le,
      List.drop_of_length_le hlen.le, List.take_of_length_le le_rfl,
      List.drop_of_length_le le_rfl, movs_append]
    rfl
  · rename_i hge
    have hcx : ws.length + 1 - (di + 2 * (ws.length + 1) - (mask + 1)) / 2 =
        ws.length - (di + 2 * ws.length - (mask + 1)) / 2 := by omega
    rw [hcx]
    generalize hn : ws.length - (di + 2 * ws.length - (mask + 1)) / 2 = cx
    have hle : cx ≤ ws.length := by omega
    rw [List.take_append_of_le_length hle, List.drop_append_of_le_length hle, movs_append,
      List.length_drop]
    have hend : 0 + 2 * (ws.length - cx) = di + 2 * ws.length - (mask + 1) := by omega
    rw [hend]
    rfl

end Copies

/-! ## The queue -/

/-- What `flush` does, but for the registers of the 6845. -/
structure Flushed (tp tp' : Screen) : Prop where
  ramqueue : tp'.ramqueue = []
  vid : tp'.vid = tp.vid + 2 * tp.rwords
  vram : tp'.vram = shown tp
  org : tp'.org = tp.org
  column : tp'.column = tp.column
  row : tp'.row = tp.row
  escState : tp'.escState = tp.escState
  mode : tp'.mode = tp.mode
  attr : tp'.attr = tp.attr
  vidMask : tp'.vidMask = tp.vidMask
  vidRetrace : tp'.vidRetrace = tp.vidRetrace

/-- `flush` empties the buffer. -/
theorem flush_flushed (tp : Screen) : Flushed tp (flush tp) := by
  unfold flush
  split
  · rename_i h
    have hq : tp.ramqueue = [] := List.length_eq_zero_iff.mp h
    have hshown : tp.vram = shown tp := by
      unfold shown vidCopy
      rw [hq]
      dsimp only
      rw [List.drop_nil, List.take_nil]
      rfl
    refine ⟨hq, ?_, hshown, rfl, rfl, rfl, rfl, rfl, rfl, rfl, rfl⟩
    rw [h, Nat.cast_zero, mul_zero, add_zero]
  · exact ⟨rfl, rfl, rfl, rfl, rfl, rfl, rfl, rfl, rfl, rfl, rfl⟩

namespace Flushed

variable (h : Flushed tp tp')

include h

/-- Nothing is left in the buffer. -/
theorem rwords : tp'.rwords = 0 := by
  unfold Screen.rwords
  rw [h.ramqueue]
  rfl

/-- The cursor stays. -/
theorem cell : cell tp' = Console.cell tp := by
  unfold Console.cell
  rw [h.org, h.row, h.column]

/-- The redundant data agree as before. -/
theorem inPlace : InPlace tp' ↔ InPlace tp := by
  unfold InPlace
  rw [h.cell, h.vid, h.rwords, h.vidMask, Nat.cast_zero, mul_zero, add_zero]

/-- The ranges stay. -/
theorem sane (hs : Sane tp) : Sane tp' := by
  have hpending := hs.pending
  have hvid := hs.vid
  have hreach := hs.reach
  refine ⟨⟨?_, ?_, ?_⟩, ?_, ?_, ?_, ?_, ?_, ?_, ?_⟩
  · rw [h.row]
    exact hs.row
  · rw [h.column]
    exact hs.column
  · rw [h.rwords]
    exact Nat.zero_le _
  · rw [h.rwords, h.column]
    exact hs.column.1
  · rw [h.vidMask]
    exact hs.mask
  · rw [h.vidRetrace]
    exact hs.retrace
  · rw [h.org, h.vidMask]
    exact hs.org
  · rw [h.vid]
    omega
  · rw [h.vid, h.column, h.rwords]
    omega
  · rw [h.escState]
    exact hs.esc

end Flushed

/-- `flush` keeps the ranges. -/
theorem flush_sane (h : Sane tp) : Sane (flush tp) := (flush_flushed tp).sane h

/-- `flush` keeps the agreement. -/
theorem flush_inPlace (tp : Screen) : InPlace (flush tp) ↔ InPlace tp := (flush_flushed tp).inPlace

/-! ## Movements -/

section Movements

variable {x y : Int}

/-- A place that is not on the screen. -/
theorem moveTo_stay (h : x < 0 ∨ x ≥ LINE_WIDTH ∨ y < 0 ∨ y ≥ SCR_LINES) :
    moveTo tp x y = flush tp := if_pos h

/-- `move_to` goes to a place on the screen. -/
theorem moveTo_go (h : ¬(x < 0 ∨ x ≥ LINE_WIDTH ∨ y < 0 ∨ y ≥ SCR_LINES)) :
    moveTo tp x y = { flush tp with
      column := x
      row := y
      vid := (flush tp).org + 2 * (SCR_LINES - 1 - y) * LINE_WIDTH + 2 * x
      cursor := set6845 (((flush tp).org + 2 * (SCR_LINES - 1 - y) * LINE_WIDTH + 2 * x) / 2) } :=
  if_neg h

/-- `move_to` keeps the ranges. -/
theorem moveTo_sane (hs : Sane tp) (x y : Int) : Sane (moveTo tp x y) := by
  by_cases h : x < 0 ∨ x ≥ LINE_WIDTH ∨ y < 0 ∨ y ≥ SCR_LINES
  · rw [moveTo_stay h]
    exact flush_sane hs
  · rw [moveTo_go h]
    have hf := flush_flushed tp
    have hs' := flush_sane hs
    have horg := hs'.org
    have hrwords := hf.rwords
    have hmask : ((flush tp).vidMask : Int) ≤ 16383 := by
      rcases hs'.mask with hm | hm <;> rw [hm] <;> decide
    simp only [LINE_WIDTH, SCR_LINES, not_or, not_lt, not_le, ge_iff_le] at h
    refine ⟨⟨h.2.2, ⟨h.1, h.2.1.le⟩, hs'.rwords⟩, ?_, hs'.mask, hs'.retrace, horg, ?_, ?_,
      hs'.esc⟩
    · dsimp only at hrwords ⊢
      rw [hrwords]
      exact h.1
    · dsimp only [LINE_WIDTH, SCR_LINES]
      omega
    · dsimp only [LINE_WIDTH, SCR_LINES, Screen.rwords] at hrwords ⊢
      omega

/-- A move puts the cursor in its place, or leaves it where it is. -/
theorem moveTo_inPlace (tp : Screen) (x y : Int) : InPlace (moveTo tp x y) ↔
    (x < 0 ∨ x ≥ LINE_WIDTH ∨ y < 0 ∨ y ≥ SCR_LINES → InPlace tp) := by
  by_cases h : x < 0 ∨ x ≥ LINE_WIDTH ∨ y < 0 ∨ y ≥ SCR_LINES
  · rw [moveTo_stay h, flush_inPlace]
    exact ⟨fun hp _ => hp, fun hp => hp h⟩
  · rw [moveTo_go h]
    refine iff_of_true ?_ fun h' => absurd h' h
    have hr := (flush_flushed tp).rwords
    unfold InPlace cell
    dsimp only at hr ⊢
    rw [hr, Nat.cast_zero, mul_zero, add_zero]

end Movements

/-! ## Lines -/

/-- How far the lines of the screen move in the video RAM. -/
def Dir.amount (dir : Dir) : Int := if dir = .GO_FORWARD then 2 * LINE_WIDTH else -2 * LINE_WIDTH

/-- The video RAM of a colour card, or of a monochrome one. -/
theorem Sane.size (h : Sane tp) : (tp.vidMask : Int) = 16383 ∨ (tp.vidMask : Int) = 4095 := by
  rcases h.mask with hm | hm <;> rw [hm]
  · exact Or.inl rfl
  · exact Or.inr rfl

/-- Scrolling keeps the ranges. -/
theorem scrollScreen_sane (h : Sane tp) (dir : Dir) : Sane (scrollScreen tp dir) := by
  refine ⟨⟨h.row, h.column, h.rwords⟩, h.pending, h.mask, h.retrace, ?_, h.vid, h.reach, h.esc⟩
  have hamount : dir.amount = 160 ∨ dir.amount = -160 := by cases dir <;> decide
  have horg := h.org
  have hsize := h.size
  change 0 ≤ (tp.org + dir.amount) % (tp.vidMask + 1 : Int) ∧
    (tp.org + dir.amount) % (tp.vidMask + 1 : Int) ≤ tp.vidMask ∧
      (tp.org + dir.amount) % (tp.vidMask + 1 : Int) % 2 = 0
  rcases hsize with hm | hm <;> rw [hm] <;> omega

/-- The lines have moved away under the cursor. -/
theorem scrollScreen_inPlace (tp : Screen) (dir : Dir) : InPlace (scrollScreen tp dir) ↔
    tp.vid + 2 * tp.rwords ≡ cell tp + dir.amount [ZMOD tp.vidMask + 1] := by
  have hcell : cell (scrollScreen tp dir) ≡ cell tp + dir.amount [ZMOD tp.vidMask + 1] := by
    have horg : (tp.org + dir.amount) % (tp.vidMask + 1 : Int) ≡ tp.org + dir.amount
      [ZMOD tp.vidMask + 1] := Int.mod_modEq _ _
    have hadd := horg.add_right (2 * (SCR_LINES - 1 - tp.row) * LINE_WIDTH + 2 * tp.column)
    have hl : cell (scrollScreen tp dir) = (tp.org + dir.amount) % (tp.vidMask + 1 : Int) +
        (2 * (SCR_LINES - 1 - tp.row) * LINE_WIDTH + 2 * tp.column) := add_assoc _ _ _
    have hr : cell tp + dir.amount = tp.org + dir.amount +
        (2 * (SCR_LINES - 1 - tp.row) * LINE_WIDTH + 2 * tp.column) := by
      unfold cell
      omega
    rwa [hl, hr]
  exact ⟨fun h => h.trans hcell, fun h => h.trans hcell.symm⟩

/-- A cursor in its place is not in the place of another line. -/
theorem InPlace.not_moved (h : InPlace tp) (hs : Sane tp) {n : Int} (hn : n = 160 ∨ n = -160) :
    ¬tp.vid + 2 * tp.rwords ≡ cell tp + n [ZMOD tp.vidMask + 1] := by
  intro h'
  have hz : cell tp + 0 ≡ cell tp + n [ZMOD tp.vidMask + 1] := by
    rw [add_zero]
    exact h.symm.trans h'
  have hdvd := (Int.ModEq.add_left_cancel' _ hz).dvd
  rcases hs.size with hm | hm <;> rw [hm] at hdvd <;> omega

/-- A line feed keeps the ranges. -/
theorem lineFeed_sane (h : Sane tp) : Sane (lineFeed tp) := by
  have hrow := h.row
  have hsane : Sane (if tp.row = 0 then scrollScreen tp .GO_FORWARD
      else { tp with row := tp.row - 1 }) := by
    split
    · exact scrollScreen_sane h _
    · exact ⟨⟨⟨by dsimp only; omega, by dsimp only; omega⟩, h.column, h.rwords⟩, h.pending, h.mask,
        h.retrace, h.org, h.vid, h.reach, h.esc⟩
  exact moveTo_sane hsane _ _

/-- A line feed leaves the cursor behind if the line is full. -/
theorem lineFeed_inPlace (hs : Sane tp) (h : InPlace tp) :
    InPlace (lineFeed tp) ↔ tp.column ≠ LINE_WIDTH := by
  have hrow := hs.row
  have hcolumn := hs.column
  unfold lineFeed
  dsimp only
  rw [moveTo_inPlace]
  split
  · rename_i hz
    have hinto : (scrollScreen tp .GO_FORWARD).column < 0 ∨
        (scrollScreen tp .GO_FORWARD).column ≥ LINE_WIDTH ∨
        (scrollScreen tp .GO_FORWARD).row < 0 ∨ (scrollScreen tp .GO_FORWARD).row ≥ SCR_LINES ↔
        tp.column = LINE_WIDTH := by
      change tp.column < 0 ∨ tp.column ≥ LINE_WIDTH ∨ tp.row < 0 ∨ tp.row ≥ SCR_LINES ↔ _
      omega
    rw [hinto, scrollScreen_inPlace]
    exact ⟨fun hp hc => h.not_moved hs (Or.inl rfl) (hp hc), fun hne hc => absurd hc hne⟩
  · rename_i hz
    have hinto : tp.column < 0 ∨ tp.column ≥ LINE_WIDTH ∨ tp.row - 1 < 0 ∨
        tp.row - 1 ≥ SCR_LINES ↔ tp.column = LINE_WIDTH := by omega
    have hmoved : InPlace { tp with row := tp.row - 1 } ↔
        tp.vid + 2 * tp.rwords ≡ cell tp + 160 [ZMOD tp.vidMask + 1] := by
      have hcell : cell { tp with row := tp.row - 1 } = cell tp + 160 := by
        dsimp only [cell, SCR_LINES, LINE_WIDTH]
        omega
      unfold InPlace
      rw [hcell]
    dsimp only
    rw [hinto, hmoved]
    exact ⟨fun hp hc => h.not_moved hs (Or.inl rfl) (hp hc), fun hne hc => absurd hc hne⟩

/-! ## Characters -/

/-- Behind the end of a line nothing is put. -/
theorem putWord_full (h : tp.column ≥ LINE_WIDTH) : putWord tp c = tp := if_pos h

/-- There is room in the queue for a line. -/
theorem Sane.putWord_eq (h : Sane tp) (hc : tp.column < LINE_WIDTH) (c : BitVec 8) :
    putWord tp c = { tp with
      ramqueue := tp.ramqueue ++ [tp.attr ||| c.signExtend 16]
      column := tp.column + 1 } := by
  have hpending := h.pending
  simp only [LINE_WIDTH] at hc
  unfold putWord
  rw [if_neg (not_le.mpr hc), if_neg (by simp only [TTY_RAM_WORDS]; omega)]

/-- A character keeps the ranges. -/
theorem putWord_sane (h : Sane tp) (c : BitVec 8) : Sane (putWord tp c) := by
  by_cases hc : tp.column ≥ LINE_WIDTH
  · rwa [putWord_full hc]
  · have hc' := not_le.mp hc
    have hcol := h.column
    have hpending := h.pending
    have hreach := h.reach
    have hlen : (tp.ramqueue ++ [tp.attr ||| c.signExtend 16]).length = tp.ramqueue.length + 1 :=
      List.length_append
    rw [h.putWord_eq hc']
    refine ⟨⟨h.row, ⟨?_, ?_⟩, ?_⟩, ?_, h.mask, h.retrace, h.org, h.vid, ?_, h.esc⟩ <;>
      dsimp only [Screen.rwords, LINE_WIDTH, TTY_RAM_WORDS] at * <;> omega

/-- A character keeps the agreement. -/
theorem putWord_inPlace (h : Sane tp) (c : BitVec 8) : InPlace (putWord tp c) ↔ InPlace tp := by
  by_cases hc : tp.column ≥ LINE_WIDTH
  · rw [putWord_full hc]
  · have hlen : (tp.ramqueue ++ [tp.attr ||| c.signExtend 16]).length = tp.ramqueue.length + 1 :=
      List.length_append
    rw [h.putWord_eq (not_le.mp hc)]
    unfold InPlace cell
    dsimp only [Screen.rwords]
    rw [hlen, Nat.cast_succ, mul_add, mul_add, ← add_assoc, ← add_assoc]
    exact ⟨fun h => Int.ModEq.add_right_cancel' _ h, fun h => h.add_right _⟩

/-- A character that is put out is shown in the cell of its row and column. -/
theorem putWord_shown (h : Sane tp) (hp : InPlace tp) (hc : tp.column < LINE_WIDTH)
    (c : BitVec 8) : shown (putWord tp c) =
      update (shown tp) (vidAnd (cell tp) tp.vidMask).toNat (tp.attr ||| c.signExtend 16) := by
  have hpending := h.pending
  have hodd : tp.vidMask % 2 = 1 := by rcases h.mask with hm | hm <;> rw [hm] <;> rfl
  have hfit : 2 * (tp.ramqueue.length + 1) ≤ tp.vidMask + 1 := by
    simp only [LINE_WIDTH] at hc
    have hm := h.size
    dsimp only [Screen.rwords] at hpending
    omega
  have hcell : vidAnd (tp.vid + 2 * tp.ramqueue.length) tp.vidMask = vidAnd (cell tp) tp.vidMask :=
    hp
  rw [h.putWord_eq hc]
  unfold shown
  dsimp only
  rw [vidCopy_snoc hodd h.vid.2 hfit, hcell]

/-- A character leaves the state of escape sequences. -/
theorem putWord_escState (h : Sane tp) (c : BitVec 8) : (putWord tp c).escState = tp.escState := by
  by_cases hc : tp.column ≥ LINE_WIDTH
  · rw [putWord_full hc]
  · rw [h.putWord_eq (not_le.mp hc)]

/-- The mask for tabs is a remainder. -/
theorem tabMask_eq (n : Nat) : n &&& TAB_MASK = n % 8 := Nat.and_two_pow_sub_one_eq_mod n 3

/-- A tab ends at the next stop, or with the line. -/
theorem tabLoop_ends (k : Nat) (hs : Sane tp) (hesc : tp.escState = 0)
    (hk : 8 - tp.column.toNat % 8 ≤ k) :
    ∃ tp', (∀ out n, (∀ t, t.escState = 0 → out t = some (putWord t SPACE)) →
      tabLoop out (n + k) tp = some tp') ∧ Sane tp' ∧ (InPlace tp' ↔ InPlace tp) := by
  induction k generalizing tp with
  | zero => omega
  | succ k ih =>
    have hs' := putWord_sane hs SPACE
    have hp' := putWord_inPlace hs SPACE
    have hstep (out : Screen → Option Screen) (n : Nat)
        (hout : ∀ t, t.escState = 0 → out t = some (putWord t SPACE)) :
        tabLoop out (n + (k + 1)) tp = if (putWord tp SPACE).column.toNat % 8 ≠ 0 then
          tabLoop out (n + k) (putWord tp SPACE) else some (putWord tp SPACE) := by
      change (out tp >>= fun tp => _) = _
      rw [hout tp hesc, ← tabMask_eq]
      rfl
    by_cases hstop : (putWord tp SPACE).column.toNat % 8 = 0
    · refine ⟨putWord tp SPACE, fun out n hout => ?_, hs', hp'⟩
      rw [hstep out n hout, if_neg (not_not.mpr hstop)]
    · have hc : tp.column < LINE_WIDTH := by
        by_contra hfull
        have hcol := hs.column
        rw [putWord_full (not_lt.mp hfull)] at hstop
        simp only [LINE_WIDTH] at hfull hcol
        omega
      have hnext : (putWord tp SPACE).column = tp.column + 1 := by rw [hs.putWord_eq hc]
      have hcol := hs.column
      obtain ⟨t, ht, hst, hpt⟩ := ih hs' ((putWord_escState hs SPACE).trans hesc) (by
        rw [hnext] at hstop ⊢
        omega)
      refine ⟨t, fun out n hout => ?_, hst, hpt.trans hp'⟩
      rw [hstep out n hout, if_pos hstop, ht out n hout]

/-- The rest of the screen is cleared in bursts. -/
theorem clearLoop_ends (k : Nat) {n vx : Int} (hn : n ≤ 768 * k)
    (hret : C_RETRACE ≤ tp.vidRetrace) :
    ∃ vram, ∀ m, clearLoop (m + (k + 1)) n vx tp = some { tp with vram := vram } := by
  induction k generalizing n vx tp with
  | zero => exact ⟨tp.vram, fun m => if_neg (by omega)⟩
  | succ k ih =>
    by_cases hpos : n > 0
    · obtain ⟨ct, hct⟩ : ∃ ct, min n tp.vidRetrace = ct := ⟨_, rfl⟩
      have hle : n - ct ≤ 768 * k := by
        have hret' : 768 ≤ tp.vidRetrace := hret
        rcases min_choice n tp.vidRetrace with hmin | hmin <;> omega
      obtain ⟨vram, h⟩ := @ih
        { tp with vram := vidBlank tp.vidMask (ct / 2).toNat vx tp.vram } _ (vx + ct) hle hret
      refine ⟨vram, fun m => ?_⟩
      rw [← Nat.add_assoc, clearLoop, if_pos hpos, hct]
      exact h m
    · exact ⟨tp.vram, fun m => if_neg hpos⟩

/-! ## One character -/

/-- The cursor is not scrolled away from, and it does not stand behind a full line when a line feed
comes alone. -/
def Steady (tp : Screen) (c : BitVec 8) : Prop :=
  ¬(tp.escState = 2 ∧ tp.echar = 126 ∧ c = 49) ∧
    ¬(tp.escState = 0 ∧ c = LF ∧ tp.mode &&& CRMOD = 0 ∧ tp.column = LINE_WIDTH)

instance (tp : Screen) (c : BitVec 8) : Decidable (Steady tp c) := instDecidableAnd

/-- A sequence ends. The reverse scroll takes the screen away under the cursor. -/
theorem escape_ends (h : Sane tp) (x y : BitVec 8) :
    ∃ tp', (∀ n, escape (n + 9) tp x y = some tp') ∧ Sane tp' ∧
      (InPlace tp → (InPlace tp' ↔ ¬(x = 126 ∧ y = 49))) := by
  have hrow := h.row
  have hcolumn := h.column
  simp only [SCR_LINES, LINE_WIDTH] at hrow hcolumn
  by_cases hz : x = 122
  · refine ⟨{ tp with attr := y.signExtend 16 <<< 8 }, fun n => if_pos hz,
      h.marked _ _ _ _ h.esc, fun hp => ?_⟩
    · exact iff_of_true hp fun hx => absurd (hz.symm.trans hx.1) (by decide)
  by_cases ht : x = 126
  · by_cases hclear : y = 48
    · have hn : 2 * LINE_WIDTH * (tp.row + 1) - 2 * tp.column ≤ 768 * (6 : Nat) := by
        simp only [LINE_WIDTH]
        omega
      obtain ⟨vram, hv⟩ := @clearLoop_ends tp 6 _ tp.vid hn h.retrace
      refine ⟨{ tp with vram := vram }, fun n => ?_, h.marked _ _ _ _ h.esc, fun hp => ?_⟩
      · rw [escape, if_neg hz, if_pos ht, if_pos hclear]
        exact hv (n + 2)
      · exact iff_of_true hp fun hy => absurd (hclear.symm.trans hy.2) (by decide)
    by_cases hback : y = 49
    · refine ⟨scrollScreen tp .GO_BACKWARD, fun n => ?_, scrollScreen_sane h _, fun hp => ?_⟩
      · rw [escape, if_neg hz, if_pos ht, if_neg hclear, if_pos hback]
      · rw [scrollScreen_inPlace]
        exact iff_of_false (hp.not_moved h (Or.inr rfl)) (not_not.mpr ⟨ht, hback⟩)
    · refine ⟨tp, fun n => ?_, h, fun hp => iff_of_true hp fun hy => hback hy.2⟩
      rw [escape, if_neg hz, if_pos ht, if_neg hclear, if_neg hback]
  · refine ⟨moveTo tp (x.toInt - 32) (y.toInt - 32), fun n => ?_, moveTo_sane h _ _, fun hp => ?_⟩
    · rw [escape, if_neg hz, if_neg ht]
    · exact iff_of_true ((moveTo_inPlace _ _ _).mpr fun _ => hp) fun hx => ht hx.1

/-- A line feed, with or without a carriage return. -/
theorem outChar_lineFeed (h : Sane tp) (hesc : tp.escState = 0) :
    ∃ tp', (∀ n, outChar (n + 9) tp LF = some tp') ∧ Sane tp' ∧
      (InPlace tp → (InPlace tp' ↔ Steady tp LF)) := by
  have hne : ¬tp.escState = 1 ∧ ¬tp.escState = 2 := by omega
  have hlf (n : Nat) : outChar (n + 9) tp LF =
      (if tp.mode &&& CRMOD ≠ 0 then outChar (n + 8) tp CR else some tp).map lineFeed := by
    rw [outChar, if_neg hne.1, if_neg hne.2]
    rfl
  have hsteady : Steady tp LF ↔ ¬(tp.mode &&& CRMOD = 0 ∧ tp.column = LINE_WIDTH) :=
    ⟨fun hs hc => hs.2 ⟨hesc, rfl, hc⟩,
      fun hc => ⟨fun hb => absurd hb.1 hne.2, fun hl => hc hl.2.2⟩⟩
  by_cases hcr : tp.mode &&& CRMOD = 0
  · refine ⟨lineFeed tp, fun n => ?_, lineFeed_sane h, fun hp => ?_⟩
    · rw [hlf, if_neg (not_not.mpr hcr)]
      rfl
    · rw [lineFeed_inPlace h hp, hsteady]
      exact ⟨fun hc hb => hc hb.2, fun hc hb => hc ⟨hcr, hb⟩⟩
  · have hrow := h.row
    have hs := moveTo_sane h 0 tp.row
    have hret (n : Nat) : outChar (n + 8) tp CR = some (moveTo tp 0 tp.row) := by
      rw [outChar, if_neg hne.1, if_neg hne.2]
      rfl
    refine ⟨lineFeed (moveTo tp 0 tp.row), fun n => ?_, lineFeed_sane hs, fun hp => ?_⟩
    · rw [hlf, if_pos hcr, hret]
      rfl
    · have hcol : (moveTo tp 0 tp.row).column = 0 := by
        rw [moveTo_go (by simp only [SCR_LINES, LINE_WIDTH] at *; omega)]
      rw [lineFeed_inPlace hs ((moveTo_inPlace _ _ _).mpr fun _ => hp), hcol, hsteady]
      exact iff_of_true (by decide) fun hb => hcr hb.1

/-- A tab, which is expanded or ignored. -/
theorem outChar_tab (h : Sane tp) (hesc : tp.escState = 0) :
    ∃ tp', (∀ n, outChar (n + 9) tp TAB = some tp') ∧ Sane tp' ∧ (InPlace tp' ↔ InPlace tp) := by
  have htab (n : Nat) : outChar (n + 9) tp TAB =
      if tp.mode &&& XTABS = XTABS then tabLoop (outChar (n + 8) · SPACE) (n + 8) tp
      else some tp := by
    rw [outChar, if_neg (by omega), if_neg (by omega)]
    rfl
  by_cases hx : tp.mode &&& XTABS = XTABS
  · obtain ⟨t, ht, hs, hp⟩ := tabLoop_ends 8 h hesc (Nat.sub_le _ _)
    refine ⟨t, fun n => ?_, hs, hp⟩
    rw [htab, if_pos hx]
    refine ht _ n fun t ht => ?_
    rw [outChar, if_neg (by omega), if_neg (by omega)]
    rfl
  · exact ⟨tp, fun n => (htab n).trans (if_neg hx), h, Iff.rfl⟩

/-- The characters that are not for the driver. -/
def Printable (c : BitVec 8) : Prop :=
  c ∉ [BELL, CTRL_K, CTRL_L, CTRL_N, BS, LF, CR, TAB, ESC]

/-- A printing character is put in the buffer. -/
theorem outChar_printable (hesc : tp.escState = 0) (hc : Printable c) (n : Nat) :
    outChar (n + 1) tp c = some (putWord tp c) := by
  simp only [Printable, List.mem_cons, List.not_mem_nil, or_false, not_or] at hc
  obtain ⟨hbell, hk, hl, hn, hbs, hlf, hcr, htab, hescape⟩ := hc
  rw [outChar, if_neg (by omega), if_neg (by omega), if_neg hbell, if_neg hk, if_neg hl, if_neg hn,
    if_neg hbs, if_neg hlf, if_neg hcr, if_neg htab, if_neg hescape]

/-- Every character is put out. -/
theorem outChar_ends (h : Sane tp) (c : BitVec 8) :
    ∃ tp', (∀ n, outChar (n + 9) tp c = some tp') ∧ Sane tp' ∧
      (InPlace tp → (InPlace tp' ↔ Steady tp c)) := by
  by_cases h1 : tp.escState = 1
  · refine ⟨{ tp with echar := c, escState := 2 }, fun n => if_pos h1, h.marked _ _ _ _ le_rfl,
      fun hp => ?_⟩
    · exact iff_of_true hp ⟨fun hb => by omega, fun hb => by omega⟩
  by_cases h2 : tp.escState = 2
  · obtain ⟨t, ht, hs, hp⟩ := escape_ends h tp.echar c
    refine ⟨{ t with escState := 0 }, fun n => ?_, hs.marked _ _ _ _ (Nat.zero_le _),
      fun hpl => ?_⟩
    · rw [outChar, if_neg h1, if_pos h2, ht]
      rfl
    · refine (hp hpl).trans ⟨fun hne => ⟨fun hb => hne hb.2, fun hb => by omega⟩, fun hst hb => ?_⟩
      exact hst.1 ⟨h2, hb⟩
  have hesc : tp.escState = 0 := by
    have := h.esc
    omega
  by_cases hlf : c = LF
  · rw [hlf]
    exact outChar_lineFeed h hesc
  have hsteady : Steady tp c := ⟨fun hb => h2 hb.1, fun hb => hlf hb.2.1⟩
  by_cases htab : c = TAB
  · obtain ⟨t, ht, hs, hp⟩ := outChar_tab h hesc
    rw [htab] at hsteady ⊢
    exact ⟨t, ht, hs, fun hpl => iff_of_true (hp.mpr hpl) hsteady⟩
  have hmove (x y : Int) : Sane (moveTo tp x y) ∧
      (InPlace tp → (InPlace (moveTo tp x y) ↔ Steady tp c)) :=
    ⟨moveTo_sane h x y, fun hp => iff_of_true ((moveTo_inPlace _ _ _).mpr fun _ => hp) hsteady⟩
  have hflush := flush_flushed tp
  by_cases hbell : c = BELL
  · refine ⟨flush tp, fun n => ?_, hflush.sane h,
      fun hp => iff_of_true (hflush.inPlace.mpr hp) hsteady⟩
    rw [outChar, if_neg h1, if_neg h2, if_pos hbell]
  by_cases hk : c = CTRL_K
  · refine ⟨_, fun n => ?_, hmove tp.column (tp.row + 1)⟩
    rw [outChar, if_neg h1, if_neg h2, if_neg hbell, if_pos hk]
  by_cases hl : c = CTRL_L
  · refine ⟨_, fun n => ?_, hmove (tp.column + 1) tp.row⟩
    rw [outChar, if_neg h1, if_neg h2, if_neg hbell, if_neg hk, if_pos hl]
  by_cases hn : c = CTRL_N
  · refine ⟨_, fun n => ?_, hmove (tp.column + 1) tp.row⟩
    rw [outChar, if_neg h1, if_neg h2, if_neg hbell, if_neg hk, if_neg hl, if_pos hn]
  by_cases hbs : c = BS
  · refine ⟨_, fun n => ?_, hmove (tp.column - 1) tp.row⟩
    rw [outChar, if_neg h1, if_neg h2, if_neg hbell, if_neg hk, if_neg hl, if_neg hn, if_pos hbs]
  by_cases hcr : c = CR
  · refine ⟨_, fun n => ?_, hmove 0 tp.row⟩
    rw [outChar, if_neg h1, if_neg h2, if_neg hbell, if_neg hk, if_neg hl, if_neg hn, if_neg hbs,
      if_neg hlf, if_pos hcr]
  by_cases hescape : c = ESC
  · refine ⟨{ flush tp with escState := 1 }, fun n => ?_,
      (hflush.sane h).marked _ _ _ _ (by decide), fun hp => ?_⟩
    · rw [outChar, if_neg h1, if_neg h2, if_neg hbell, if_neg hk, if_neg hl, if_neg hn, if_neg hbs,
        if_neg hlf, if_neg hcr, if_neg htab, if_pos hescape]
    · exact iff_of_true (hflush.inPlace.mpr hp) hsteady
  · have hprint : Printable c := by
      simp only [Printable, List.mem_cons, List.not_mem_nil, or_false, not_or]
      exact ⟨hbell, hk, hl, hn, hbs, hlf, hcr, htab, hescape⟩
    refine ⟨putWord tp c, fun n => outChar_printable hesc hprint (n + 8), putWord_sane h c,
      fun hp => ?_⟩
    · exact iff_of_true ((putWord_inPlace h c).mpr hp) hsteady

/-! ## The fuel does not matter -/

/-- The second run ends as the first one does, if that ends. -/
def Extends (a b : Option Screen) : Prop := ∀ t, a = some t → b = some t

/-- The same result. -/
theorem Extends.refl (a : Option Screen) : Extends a a := fun _ => id

/-- Results that are worked on. -/
theorem Extends.map {a b : Option Screen} (h : Extends a b) (f : Screen → Screen) :
    Extends (a.map f) (b.map f) := by
  intro t ht
  obtain ⟨s, hs, rfl⟩ := Option.map_eq_some_iff.mp ht
  rw [h s hs]
  rfl

/-- Results on the two branches of a test. -/
theorem Extends.ite {p : Prop} [Decidable p] {a b a' b' : Option Screen} (h : Extends a b)
    (h' : Extends a' b') : Extends (if p then a else a') (if p then b else b') := by
  split
  · exact h
  · exact h'

/-- More turns of the loop that clears do not change its result. -/
theorem clearLoop_extends (fuel : Nat) (n vx : Int) (tp : Screen) :
    Extends (clearLoop fuel n vx tp) (clearLoop (fuel + 1) n vx tp) := by
  induction fuel generalizing n vx tp with
  | zero => exact fun _ h => nomatch h
  | succ fuel ih => exact .ite (ih _ _ _) (.refl _)

/-- Nor that of an escape sequence. -/
theorem escape_extends (fuel : Nat) (tp : Screen) (x y : BitVec 8) :
    Extends (escape fuel tp x y) (escape (fuel + 1) tp x y) :=
  .ite (.refl _) (.ite (.ite (clearLoop_extends _ _ _ _) (.refl _)) (.refl _))

/-- Nor that of a tab. -/
theorem tabLoop_extends {out out' : Screen → Option Screen} (hout : ∀ t, Extends (out t) (out' t))
    (fuel : Nat) (tp : Screen) : Extends (tabLoop out fuel tp) (tabLoop out' (fuel + 1) tp) := by
  induction fuel generalizing tp with
  | zero => exact fun _ h => nomatch h
  | succ fuel ih =>
    intro t ht
    obtain ⟨s, hs, ht⟩ := Option.bind_eq_some_iff.mp ht
    exact Option.bind_eq_some_iff.mpr ⟨s, hout tp s hs, Extends.ite (ih s) (.refl _) t ht⟩

/-- Nor that of a character. -/
theorem outChar_extends (fuel : Nat) (tp : Screen) (c : BitVec 8) :
    Extends (outChar fuel tp c) (outChar (fuel + 1) tp c) := by
  induction fuel generalizing tp c with
  | zero => exact fun _ h => nomatch h
  | succ fuel ih =>
    rw [outChar, outChar]
    refine .ite (.refl _) (.ite ((escape_extends _ _ _ _).map _) ?_)
    refine .ite (.refl _) (.ite (.refl _) (.ite (.refl _) (.ite (.refl _) (.ite (.refl _) ?_))))
    refine .ite ((Extends.ite (ih tp CR) (.refl _)).map _) (.ite (.refl _) ?_)
    exact .ite (.ite (tabLoop_extends (fun t => ih t SPACE) _ _) (.refl _)) (.refl _)

/-- Any number of turns more. -/
theorem outChar_add (n : Nat) (h : outChar fuel tp c = some tp') :
    outChar (fuel + n) tp c = some tp' := by
  induction n with
  | zero => exact h
  | succ n ih => exact outChar_extends _ _ _ _ ih

/-- A character that is put out within some fuel is the one that always is. -/
theorem outChar_of_ends {t : Screen} (ht : ∀ n, outChar (n + 9) tp c = some t)
    (h : outChar fuel tp c = some tp') : tp' = t :=
  Option.some.inj ((outChar_add 9 h).symm.trans (ht fuel))

/-! ## All runs -/

/-- What `finish()` does to the screen at the end of a command: characters that have not been
transferred are forgotten. -/
def finish (tp : Screen) : Screen := { tp with ramqueue := [] }

/-- What the screen gets to: characters are put out, of which `ok` may tell something, the queue is
flushed, commands end, of which `idle` may tell something, and the mode is changed. -/
inductive Displays (ok : Screen → BitVec 8 → Prop) (idle : Screen → Prop) : Screen → Prop
  | init (color : Bool) (vram : Nat → BitVec 16) : Displays ok idle (ttyInit color vram)
  | char {tp tp' : Screen} {c : BitVec 8} {fuel : Nat} :
      Displays ok idle tp → ok tp c → outChar fuel tp c = some tp' → Displays ok idle tp'
  | flush {tp : Screen} : Displays ok idle tp → Displays ok idle (flush tp)
  | finish {tp : Screen} : Displays ok idle tp → idle tp → Displays ok idle (finish tp)
  | ioctl {tp : Screen} (mode : Nat) :
      Displays ok idle tp → Displays ok idle { tp with mode := mode }

variable {ok : Screen → BitVec 8 → Prop} {idle : Screen → Prop}

/-- Less is in the queue, and the rest is as before. -/
theorem finish_sane (h : Sane tp) : Sane (finish tp) := by
  have hcolumn := h.column
  have hreach := h.reach
  refine ⟨⟨h.row, h.column, Nat.zero_le _⟩, hcolumn.1, h.mask, h.retrace, h.org, h.vid, ?_, h.esc⟩
  change tp.vid + 2 * (LINE_WIDTH - tp.column + (0 : Nat)) ≤ 20383
  omega

/-- The cursor keeps its place exactly when nothing is forgotten. -/
theorem finish_inPlace (hs : Sane tp) (h : InPlace tp) : InPlace (finish tp) ↔ tp.rwords = 0 := by
  have hpending := hs.pending
  have hcolumn := hs.column.2
  have hsize := hs.size
  simp only [LINE_WIDTH] at hcolumn
  constructor
  · intro hf
    have hvid : tp.vid ≡ tp.vid + 2 * tp.rwords [ZMOD tp.vidMask + 1] := by
      have hf' : tp.vid + 2 * ((0 : Nat) : Int) ≡ cell tp [ZMOD tp.vidMask + 1] := hf
      rw [Nat.cast_zero, mul_zero, add_zero] at hf'
      exact hf'.trans h.symm
    -- less than a screen is pending
    have hdvd := Int.modEq_iff_dvd.mp hvid
    obtain ⟨k, hk⟩ := hdvd
    rcases hsize with hsize | hsize
    · rw [hsize] at hk
      omega
    · rw [hsize] at hk
      omega
  · intro hz
    have he : finish tp = tp := by
      unfold finish
      rw [← List.length_eq_zero_iff.mp hz]
    rwa [he]

/-- The ranges hold at the start. -/
theorem ttyInit_sane (color : Bool) (vram : Nat → BitVec 16) : Sane (ttyInit color vram) := by
  have hrow : (0 : Int) ≤ 0 ∧ (0 : Int) < SCR_LINES := by decide
  have hcolumn : (0 : Int) ≤ 0 ∧ (0 : Int) ≤ LINE_WIDTH := by decide
  have hreach : (0 : Int) + 2 * (LINE_WIDTH - 0 + (0 : Nat)) ≤ 20383 := by decide
  refine moveTo_sane ?_ 0 0
  cases color
  · exact ⟨⟨hrow, hcolumn, Nat.zero_le _⟩, le_rfl, Or.inr rfl, (by decide : C_RETRACE ≤ M_RETRACE),
      ⟨le_rfl, Int.natCast_nonneg M_VID_MASK, rfl⟩, ⟨le_rfl, rfl⟩, hreach, Nat.zero_le _⟩
  · exact ⟨⟨hrow, hcolumn, Nat.zero_le _⟩, le_rfl, Or.inl rfl, le_rfl,
      ⟨le_rfl, Int.natCast_nonneg C_VID_MASK, rfl⟩, ⟨le_rfl, rfl⟩, hreach, Nat.zero_le _⟩

/-- The ranges hold in every run. -/
theorem Displays.sane (h : Displays ok idle tp) : Sane tp := by
  induction h with
  | init color vram => exact ttyInit_sane color vram
  | @char tp tp' c fuel _ _ he ih =>
    obtain ⟨t, ht, hs, -⟩ := outChar_ends ih c
    rw [outChar_of_ends ht he]
    exact hs
  | flush _ ih => exact flush_sane ih
  | finish _ _ ih => exact finish_sane ih
  | ioctl mode _ ih => exact ih.marked _ _ mode _ ih.esc

/-- The agreement holds in a run of bytes that keep it. -/
theorem Displays.inPlace (h : Displays ok idle tp) (hok : ∀ t c, ok t c → Steady t c)
    (hidle : ∀ t, idle t → t.rwords = 0) : InPlace tp := by
  induction h with
  | init color vram => exact (moveTo_inPlace _ _ _).mpr fun hout => absurd hout (by decide)
  | @char tp tp' c fuel h hc he ih =>
    obtain ⟨t, ht, -, hp⟩ := outChar_ends h.sane c
    rw [outChar_of_ends ht he]
    exact (hp ih).mpr (hok tp c hc)
  | flush _ ih => exact (flush_inPlace _).mpr ih
  | finish h he ih => exact (finish_inPlace h.sane ih).mpr (hidle _ he)
  | ioctl mode _ ih => exact ih

/-- Row and column stay on the screen, and every character is put out, whatever comes. As long as
the screen is not scrolled back, no line feed comes alone behind a full line and no command ends with
characters that have not been transferred, the cursor is where row and column say, and every
printable character is shown there. Each of the three makes the cursor lose its place. -/
theorem console_cursor (h : Displays ok idle tp) :
    (InRange tp ∧ ∀ c, ∃ fuel tp', outChar fuel tp c = some tp') ∧
    ((∀ t c, ok t c → Steady t c) → (∀ t, idle t → t.rwords = 0) → InPlace tp ∧
      (∀ c fuel tp', outChar fuel tp c = some tp' → (InPlace tp' ↔ Steady tp c)) ∧
      (InPlace (finish tp) ↔ tp.rwords = 0) ∧
      ∀ c fuel tp', tp.escState = 0 → Printable c → tp.column < LINE_WIDTH →
        outChar fuel tp c = some tp' → shown tp' =
          update (shown tp) (vidAnd (cell tp) tp.vidMask).toNat (tp.attr ||| c.signExtend 16)) := by
  have hs := h.sane
  refine ⟨⟨hs.toInRange, fun c => ?_⟩, fun hok hidle => ?_⟩
  · obtain ⟨t, ht, -⟩ := outChar_ends hs c
    exact ⟨9, t, ht 0⟩
  have hplace := h.inPlace hok hidle
  refine ⟨hplace, fun c fuel tp' he => ?_, finish_inPlace hs hplace,
    fun c fuel tp' hesc hc hcol he => ?_⟩
  · obtain ⟨t, ht, -, hp⟩ := outChar_ends hs c
    rw [outChar_of_ends ht he]
    exact hp hplace
  · rw [outChar_of_ends (fun n => outChar_printable hesc hc (n + 8)) he]
    exact putWord_shown hs hplace hcol c

/-- Characters are put out one after the other, as long as they leave the cursor in its place. -/
def putOut : List (BitVec 8) → Screen → Option Screen
  | [], tp => some tp
  | c :: l, tp => if Steady tp c then (outChar 9 tp c).bind (putOut l) else none

theorem Displays.putOut {l : List (BitVec 8)} {tp' : Screen} (h : Displays Steady idle tp)
    (he : putOut l tp = some tp') : Displays Steady idle tp' := by
  induction l generalizing tp with
  | nil => exact Option.some.inj he ▸ h
  | cons c l ih =>
    unfold Console.putOut at he
    split at he
    · rename_i hc
      obtain ⟨t, ht, he⟩ := Option.bind_eq_some_iff.mp he
      exact ih (h.char hc ht) he
    · cases he

/-- A line with a tab and a sequence is put out on a color display, which scrolls up for the next line,
and the cursor goes back to the left. -/
theorem console_cursor_line : ∃ tp : Screen,
    putOut [65, TAB, 66, BS, ESC, 122, 7, 67, LF, 68, CR] (ttyInit true fun _ => 0) = some tp ∧
      tp.row = 0 ∧ tp.column = 0 ∧ InPlace tp := by
  have hrun : ((putOut [65, TAB, 66, BS, ESC, 122, 7, 67, LF, 68, CR]
      (ttyInit true fun _ => 0)).map fun tp => (tp.row, tp.column)) = some (0, 0) := by
    decide +kernel
  obtain ⟨tp, he, hplace⟩ := Option.map_eq_some_iff.mp hrun
  obtain ⟨hrow, hcolumn⟩ := Prod.mk.inj hplace
  have hstart : Displays Steady (fun t => t.rwords = 0) (ttyInit true fun _ => 0) := .init true _
  exact ⟨tp, he, hrow, hcolumn,
    ((console_cursor (hstart.putOut he)).2 (fun _ _ => id) fun _ => id).1⟩

/-- ESC ~ 1 has been put out. -/
def scrolledBack : Screen :=
  { scrollScreen { ttyInit true (fun _ => 0) with echar := 126, escState := 2 } .GO_BACKWARD with
    escState := 0 }

/-- The screen has been scrolled back under the cursor, but neither row nor column changes. -/
theorem console_cursor_scrolled :
    ¬∀ ok tp, Displays ok (fun t => t.rwords = 0) tp → InPlace tp := by
  intro h
  have hstart : Displays (fun _ _ => True) (fun t => t.rwords = 0) (ttyInit true fun _ => 0) :=
    .init true fun _ => 0
  have hesc : outChar 1 (ttyInit true fun _ => 0) ESC =
      some { ttyInit true (fun _ => 0) with escState := 1 } := rfl
  have htilde : outChar 1 { ttyInit true (fun _ => 0) with escState := 1 } 126 =
      some { ttyInit true (fun _ => 0) with echar := 126, escState := 2 } := rfl
  have hone : outChar 1 { ttyInit true (fun _ => 0) with echar := 126, escState := 2 } 49 =
      some scrolledBack := rfl
  have hp := h _ _ (((hstart.char trivial hesc).char trivial htilde).char trivial hone)
  have hplaces : scrolledBack.vid + 2 * scrolledBack.rwords = 3840 ∧ cell scrolledBack = 20064 ∧
      scrolledBack.vidMask = C_VID_MASK := ⟨rfl, rfl, rfl⟩
  unfold InPlace at hp
  rw [hplaces.1, hplaces.2.1, hplaces.2.2] at hp
  exact absurd hp (by decide)

end Minix.Kernel.Console
