import Minix.Kernel.Memory

/-!
# The floppy disk task

A block is a sector number of a diskette. Its cylinder, head and sector are computed for the density
that the drive had last, and then the operation is tried again and again; after five errors, another
density is tried.

The controller is seen through its ports: the bytes that are read from them are an input, and the
ones that are written are kept. Interrupts and the clock are waited for, which changes nothing.
-/

namespace Minix.Kernel.Floppy

open Function

/-- motor drive control bits -/
abbrev DOR : Nat := 0x3F2

/-- floppy disk controller data register -/
abbrev FDC_DATA : Nat := 0x3F5

/-- transfer rate register -/
abbrev FDC_RATE : Nat := 0x3F7

/-- Port for the low 16 bits of the DMA address. -/
abbrev DMA_ADDR : Nat := 0x004

/-- Port for the top 4 bits of the 20-bit DMA address. -/
abbrev DMA_TOP : Nat := 0x081

/-- Port for the DMA count. -/
abbrev DMA_COUNT : Nat := 0x005

/-- DMA status port. -/
abbrev DMA_M2 : Nat := 0x00C

/-- The other DMA status port. -/
abbrev DMA_M1 : Nat := 0x00B

/-- DMA init port. -/
abbrev DMA_INIT : Nat := 0x00A

/-- status register 0 -/
abbrev ST0 : Nat := 0x00

/-- status register 1 -/
abbrev ST1 : Nat := 0x01

/-- status register 2 -/
abbrev ST2 : Nat := 0x02

/-- slot where controller reports cylinder -/
abbrev ST_CYL : Nat := 0x03

/-- slot where controller reports head -/
abbrev ST_HEAD : Nat := 0x04

/-- slot where controller reports sector -/
abbrev ST_SEC : Nat := 0x05

/-- slot where controller reports present cyl -/
abbrev ST_PCN : Nat := 0x01

/-- used to see who is master -/
abbrev MASTER : BitVec 8 := 0x80

/-- is FDC trying to read or write? -/
abbrev DIRECTION : BitVec 8 := 0x40

/-- used to see when controller is busy -/
abbrev CTL_BUSY : BitVec 8 := 0x10

/-- bit pattern FDC gives when idle -/
abbrev CTL_ACCEPTING : BitVec 8 := 0x80

/-- used for setting DOR port -/
abbrev ENABLE_INT : BitVec 16 := 0x0C

/-- check top 5 bits of seek status -/
abbrev ST0_BITS : BitVec 8 := 0xF8

/-- top 5 bits of ST0 for READ/WRITE -/
abbrev TRANS_ST0 : BitVec 8 := 0x00

/-- top 5 bits of ST0 for SEEK -/
abbrev SEEK_ST0 : BitVec 8 := 0x20

/-- if these bits are set in ST1, recalibrate -/
abbrev BAD_SECTOR : BitVec 8 := 0x05

/-- if any of these bits are set, recalibrate -/
abbrev BAD_CYL : BitVec 8 := 0x1F

/-- bit is set if diskette is write protected -/
abbrev WRITE_PROTECT : BitVec 8 := 0x02

/-- command the drive to seek -/
abbrev FDC_SEEK : Int := 0x0F

/-- command the drive to read -/
abbrev FDC_READ : Int := 0xE6

/-- command the drive to write -/
abbrev FDC_WRITE : Int := 0xC5

/-- command the controller to tell its status -/
abbrev FDC_SENSE : Int := 0x08

/-- command the drive to go to cyl 0 -/
abbrev FDC_RECALIBRATE : Int := 0x07

/-- command the drive to accept params -/
abbrev FDC_SPECIFY : Int := 0x03

/-- DMA read opcode -/
abbrev DMA_READ : Int := 0x46

/-- DMA write opcode -/
abbrev DMA_WRITE : Int := 0x4A

/-- physical sector size in bytes -/
abbrev SECTOR_SIZE : Int := 512

/-- # sectors on a high-capacity (1.2M) disk -/
abbrev HC_SIZE : Int := 2400

/-- two heads (i.e., two tracks/cylinder) -/
abbrev NR_HEADS : Int := 2

/-- determines data length (sector size) -/
abbrev DTL : Int := 0xFF

/-- first parameter to SPECIFY -/
abbrev SPEC1 : Int := 0xDF

/-- second parameter to SPECIFY -/
abbrev SPEC2 : Int := 0x02

/-- bad seek -/
abbrev ERR_SEEK : Int := -1

/-- bad transfer -/
abbrev ERR_TRANSFER : Int := -2

/-- something wrong when getting status -/
abbrev ERR_STATUS : Int := -3

/-- recalibrate didn't work properly -/
abbrev ERR_RECALIBRATE : Int := -4

/-- diskette is write protected -/
abbrev ERR_WR_PROTECT : Int := -5

/-- The error code of a transfer that failed. -/
abbrev EIO : Int := -5

/-- how often to try rd/wt before quitting -/
abbrev MAX_ERRORS : Nat := 20

/-- max number of bytes controller returns -/
abbrev MAX_RESULTS : Nat := 8

/-- maximum number of drives -/
abbrev NR_DRIVES : Int := 2

/-- max # times to try to output to FDC -/
abbrev MAX_FDC_RETRY : Nat := 100

/-- number of diskette/drive combinations -/
abbrev NT : Nat := 4

/-- gap size -/
def gap (d : Nat) : Int := if d = 2 then 0x23 else if d = 3 then 0x1B else 0x2A

/-- 250,300,500 kbps -/
def rate (d : Nat) : Int := if d = 2 then 0x01 else if d = 3 then 0x00 else 0x02

/-- sectors/track -/
def nrSectors (d : Nat) : Int := if d = 3 then 15 else 9

/-- sectors/diskette -/
def nrBlocks (d : Nat) : Int := if d = 3 then 2400 else 720

/-- 2 = dbl step -/
def stepsPerCyl (d : Nat) : Int := if d = 1 ∨ d = 2 then 2 else 1

/-- The number of a sector on its track; there are 15 of them. -/
def interleave (i : Int) : Int := if 0 ≤ i ∧ i < 15 then i + 1 else 0

/-- What a request sets in the struct of its drive. -/
structure Fp where
  /-- DISK_READ or DISK_WRITE -/
  opcode : Int
  /-- drive number addressed -/
  drive : Nat
  /-- cylinder number addressed -/
  cylinder : Int
  /-- sector addressed -/
  sector : Int
  /-- head addressed -/
  head : Int
  /-- byte count -/
  count : Int
  /-- user virtual address -/
  address : Nat

/-- What the struct of a drive keeps from one operation to the next. -/
structure Drive where
  /-- current cylinder -/
  curcyl : Int
  /-- the controller can give lots of output -/
  results : Nat → BitVec 8
  /-- CALIBRATED or UNCALIBRATED -/
  calibrated : Bool

/-- The drives, and the controller as it is seen through its ports. -/
structure Fdc where
  drives : Nat → Drive
  /-- current motor status is in 4 high bits -/
  motorStatus : BitVec 16
  /-- desired motor status is in 4 high bits -/
  motorGoal : BitVec 16
  /-- which motor was started last -/
  prevMotor : BitVec 16
  /-- set to 1 when controller must be reset -/
  needReset : Bool
  /-- The bytes that the ports give. -/
  ins : Nat → BitVec 8
  /-- How many of them have been read. -/
  pos : Nat
  /-- The ports that have been written to, with the bytes. -/
  outs : List (Nat × Int)

/-- `port_in`. -/
def portIn (s : Fdc) : BitVec 8 × Fdc := (s.ins s.pos, { s with pos := s.pos + 1 })

/-- `port_out`. -/
def portOut (port : Nat) (val : Int) (s : Fdc) : Fdc :=
  { s with outs := s.outs ++ [(port, val % 256)] }

/-- It may take several tries to get the FDC to accept a command. -/
def fdcTry (val : Int) : Nat → Fdc → Fdc
  | 0, s => { s with needReset := true }
  | retries + 1, s =>
    if (portIn s).1 &&& (MASTER ||| DIRECTION) ≠ CTL_ACCEPTING then
      fdcTry val retries (portIn s).2
    else portOut FDC_DATA val (portIn s).2

/-- Output a byte to the controller. -/
def fdcOut (val : Int) (s : Fdc) : Fdc := if s.needReset then s else fdcTry val MAX_FDC_RETRY s

/-- The controller is asked for its status until it is master. -/
def ready : Nat → Fdc → Option (BitVec 8) × Fdc
  | 0, s => (none, s)
  | n + 1, s =>
    if (portIn s).1 &&& MASTER ≠ 0 then (some (portIn s).1, (portIn s).2)
    else ready n (portIn s).2

/-- The loop that extracts bytes from FDC, when `left` of them can still be kept. -/
def fdcResultsFrom (drive : Nat) : Nat → Fdc → Int × Fdc
  | 0, s => (ERR_STATUS, { s with needReset := true })
  | left + 1, s =>
    match ready MAX_FDC_RETRY s with
    | (none, s) => (ERR_STATUS, s)
    | (some status, s) =>
      if status &&& CTL_BUSY = 0 then (OK, s)
      else if status &&& DIRECTION = 0 then (ERR_STATUS, s)
      else
        let s' := (portIn s).2
        let fp := s'.drives drive
        let results := update fp.results (MAX_RESULTS - (left + 1)) (portIn s).1
        fdcResultsFrom drive left
          { s' with drives := update s'.drives drive { fp with results := results } }

/-- Extract results from the controller after an operation. -/
def fdcResults (drive : Nat) (s : Fdc) : Int × Fdc := fdcResultsFrom drive MAX_RESULTS s

/-- If a motor is off, turn it on. -/
def startMotor (fp : Fp) (s : Fdc) : Fdc :=
  let motorBit : BitVec 16 := 1 <<< (fp.drive + 4)
  let goal := motorBit ||| ENABLE_INT ||| BitVec.ofNat 16 fp.drive
  let goal := if s.motorStatus &&& s.prevMotor ≠ 0 then goal ||| s.prevMotor else goal
  let s := portOut DOR goal.toNat s
  { s with motorGoal := goal, motorStatus := goal, prevMotor := motorBit }

/-- The drive struct is given a cylinder and a calibration. -/
def calibrate (drive : Nat) (curcyl : Int) (calibrated : Bool) (s : Fdc) : Fdc :=
  let fp := { s.drives drive with curcyl := curcyl, calibrated := calibrated }
  { s with drives := update s.drives drive fp }

/-- The arm is forced to cylinder 0. -/
def recalibrate (fp : Fp) (s : Fdc) : Int × Fdc :=
  let s := fdcOut fp.drive (fdcOut FDC_RECALIBRATE (startMotor fp s))
  if s.needReset then (ERR_SEEK, s)
  else
    let out := fdcResults fp.drive (fdcOut FDC_SENSE s)
    let results := (out.2.drives fp.drive).results
    if out.1 ≠ OK ∨ results ST0 &&& ST0_BITS ≠ SEEK_ST0 ∨ results ST_PCN ≠ 0 then
      (ERR_RECALIBRATE, { calibrate fp.drive (-1) false out.2 with needReset := true })
    else (OK, calibrate fp.drive (-1) true out.2)

/-- Issue a reset to the controller. -/
def reset (s : Fdc) : Fdc :=
  let s := { s with needReset := false, motorStatus := 0, motorGoal := 0 }
  let s := portOut DOR ENABLE_INT.toNat (portOut DOR 0 s)
  let fp := s.drives 0
  let s := { s with drives := update s.drives 0 { fp with results := update fp.results 0 0 } }
  let s := (fdcResults 0 (fdcOut FDC_SENSE s)).2
  let s := fdcOut SPEC2 (fdcOut SPEC1 (fdcOut FDC_SPECIFY s))
  { s with drives := fun n =>
      if n < NR_DRIVES.toNat then { s.drives n with calibrated := false } else s.drives n }

/-- The second half of `seek`: when the drive is calibrated, a SEEK is issued unless the arm is
already positioned on the correct cylinder. -/
def seekCyl (d : Nat) (fp : Fp) (s : Fdc) : Int × Fdc :=
  if (s.drives fp.drive).curcyl = fp.cylinder then (OK, s)
  else
    let s := fdcOut (fp.cylinder * stepsPerCyl d)
      (fdcOut (fp.head * 4 + fp.drive) (fdcOut FDC_SEEK s))
    if s.needReset then (ERR_SEEK, s)
    else
      let out := fdcResults fp.drive (fdcOut FDC_SENSE s)
      let results := (out.2.drives fp.drive).results
      let r := if results ST0 &&& ST0_BITS ≠ SEEK_ST0 then ERR_SEEK else out.1
      let r := if (results ST1).toInt ≠ fp.cylinder * stepsPerCyl d then ERR_SEEK else r
      if r ≠ OK then
        let again := recalibrate fp out.2
        (if again.1 ≠ OK then ERR_SEEK else r, again.2)
      else (r, out.2)

/-- Issue a SEEK command on the indicated drive, which may have to be calibrated first. -/
def seek (d : Nat) (fp : Fp) (s : Fdc) : Int × Fdc :=
  if (s.drives fp.drive).calibrated then seekCyl d fp s
  else
    let out := recalibrate fp s
    if out.1 ≠ OK then (ERR_SEEK, out.2) else seekCyl d fp out.2

/-- The nine bytes of a command to read or write. -/
def commandBytes (d : Nat) (fp : Fp) : List Int :=
  [if fp.opcode = DISK_READ then FDC_READ else FDC_WRITE, fp.head * 4 + fp.drive, fp.cylinder,
    fp.head, fp.sector, 2, nrSectors d, gap d, DTL]

/-- The number of sectors that the controller reports. -/
def sectorsMoved (d : Nat) (fp : Fp) (results : Nat → BitVec 8) : Int :=
  ((results ST_CYL).toInt - fp.cylinder) * NR_HEADS * nrSectors d +
    ((results ST_HEAD).toInt - fp.head) * nrSectors d + ((results ST_SEC).toInt - fp.sector)

/-- Get controller status and check for errors. -/
def checkStatus (d : Nat) (fp : Fp) (s : Fdc) : Int × Fdc :=
  let out := fdcResults fp.drive s
  if out.1 ≠ OK then out
  else
    let results := (out.2.drives fp.drive).results
    let s := if results ST1 &&& BAD_SECTOR ≠ 0 ∨ results ST2 &&& BAD_CYL ≠ 0 then
        calibrate fp.drive (out.2.drives fp.drive).curcyl false out.2
      else out.2
    (if results ST1 &&& WRITE_PROTECT ≠ 0 then ERR_WR_PROTECT
      else if results ST0 &&& ST0_BITS ≠ TRANS_ST0 then ERR_TRANSFER
      else if results ST1 ||| results ST2 ≠ 0 then ERR_TRANSFER
      else if Int.bmod (sectorsMoved d fp results * SECTOR_SIZE) 65536 ≠ fp.count then ERR_TRANSFER
      else OK, s)

/-- The command is issued, after the data rate has been set. -/
def issue (pcAt : Bool) (d : Nat) (fp : Fp) (s : Fdc) : Fdc :=
  (commandBytes d fp).foldl (fun s val => fdcOut val s)
    (if pcAt then portOut FDC_RATE (rate d) s else s)

/-- Read or write one block. -/
def transfer (pcAt : Bool) (d : Nat) (fp : Fp) (s : Fdc) : Int × Fdc :=
  if ¬(s.drives fp.drive).calibrated then (ERR_TRANSFER, s)
  else if s.motorStatus >>> (fp.drive + 4) &&& 1 = 0 then (ERR_TRANSFER, s)
  else if (issue pcAt d fp s).needReset then (ERR_TRANSFER, issue pcAt d fp s)
  else checkStatus d fp (issue pcAt d fp s)

/-- The DMA chip is set up, unless the address of the user is bad: then the system panics. -/
def dmaSetup (map : ProcMap) (fp : Fp) (s : Fdc) : Option Fdc :=
  let mode := if fp.opcode = DISK_READ then DMA_READ else DMA_WRITE
  let userPhys := umap map D fp.address fp.count.toNat
  let ct := fp.count
  if userPhys = 0 then none
  else if (userPhys + ct - 1) / 65536 % 256 ≠ userPhys / 65536 % 256 then none
  else
    let s := portOut DMA_ADDR userPhys (portOut DMA_M1 mode (portOut DMA_M2 mode s))
    let s := portOut DMA_TOP (userPhys / 65536) (portOut DMA_ADDR (userPhys / 256) s)
    some (portOut DMA_INIT 2 (portOut DMA_COUNT ((ct - 1) / 256) (portOut DMA_COUNT (ct - 1) s)))

/-- How the loop of `do_rdwt` goes on. -/
inductive Progress where
  | running
  | broken
  | panicked
  deriving DecidableEq

/-- The variables of the loop. -/
structure Loop where
  errors : Nat
  r : Int
  progress : Progress
  /-- diskette/drive combination -/
  d : Nat
  /-- 0 = 360K/360K; 1 = 360K/1.2M; 2= 1.2M/1.2M -/
  density : Nat → Nat
  fdc : Fdc

/-- `errors` is incremented, and after some of them another density is tried. -/
def nextDensity (fp : Fp) (l : Loop) : Loop :=
  if (l.errors + 1) % (MAX_ERRORS / NT) = 0 then
    { l with
      errors := l.errors + 1
      d := (l.d + 1) % NT
      density := update l.density fp.drive ((l.d + 1) % NT)
      fdc := { l.fdc with needReset := true } }
  else { l with errors := l.errors + 1 }

/-- The part of an iteration before the transfer: it either ends the iteration, or the transfer
comes next. -/
def approach (map : ProcMap) (block : Int) (fp : Fp) (l : Loop) : Except Loop Loop :=
  let l := nextDensity fp l
  if block ≥ nrBlocks l.d then .error l
  else
    let s := if l.fdc.needReset then reset l.fdc else l.fdc
    match dmaSetup map fp s with
    | none => .error { l with progress := .panicked, fdc := s }
    | some s =>
      let out := seek l.d fp (startMotor fp s)
      if out.1 ≠ OK then .error { l with r := out.1, fdc := out.2 }
      else .ok { l with r := out.1, fdc := out.2 }

/-- The part of an iteration from the transfer on: the loop is left when it was successful, and when
retries won't help. -/
def attempt (pcAt : Bool) (fp : Fp) (l : Loop) : Loop :=
  let out := transfer pcAt l.d fp l.fdc
  { l with
    r := out.1
    progress := if out.1 = OK ∨ out.1 = ERR_WR_PROTECT then .broken else .running
    fdc := out.2 }

/-- One iteration of the loop. -/
def iteration (pcAt : Bool) (map : ProcMap) (block : Int) (fp : Fp) (l : Loop) : Loop :=
  match approach map block fp l with
  | .error l => l
  | .ok l => attempt pcAt fp l

/-- This loop allows a failed operation to be repeated: `n` iterations of it. -/
def iterations (pcAt : Bool) (map : ProcMap) (block : Int) (fp : Fp) : Nat → Loop → Loop
  | 0, l => l
  | n + 1, l =>
    let l := iterations pcAt map block fp n l
    if l.progress = .running ∧ l.errors ≤ MAX_ERRORS then iteration pcAt map block fp l else l

/-- What the task keeps from one request to the next. -/
structure Task where
  d : Nat
  density : Nat → Nat
  /-- set to 1 after first successful transfer -/
  initialized : Bool
  fdc : Fdc

/-- The struct of a drive when the parameters of a message have been decoded. -/
def decoded (d : Nat) (m : DevMess) : Fp :=
  let block := m.position.tdiv SECTOR_SIZE
  { opcode := m.mType
    drive := m.device.toNat
    cylinder := Int.bmod (block.tdiv (NR_HEADS * nrSectors d)) 65536
    sector := interleave (block.tmod (nrSectors d))
    head := (block.tmod (NR_HEADS * nrSectors d)).tdiv (nrSectors d)
    count := m.count
    address := virBytes m.address }

/-- The loop when it is entered; `r` has not been assigned. -/
def entered (t : Task) (r : Int) (m : DevMess) : Loop :=
  ⟨0, r, .running, t.density m.device.toNat, t.density, t.fdc⟩

/-- The end of `do_rdwt`, unless the system has panicked. -/
def finish (t : Task) (fp : Fp) (l : Loop) : Option (Int × Task) :=
  if l.progress = .panicked then none
  else some (if l.r = OK then BLOCK_SIZE else EIO, {
    d := l.d
    density := l.density
    initialized := t.initialized || (l.r = OK && fp.cylinder > 0)
    fdc := { l.fdc with motorGoal := ENABLE_INT } })

/-- Carry out a read or write request from the disk. -/
def doRdwt (pcAt : Bool) (map : ProcMap) (r : Int) (t : Task) (m : DevMess) :
    Option (Int × Task) :=
  if m.device < 0 ∨ m.device ≥ NR_DRIVES then some ( EIO, t)
  else if m.position.tmod BLOCK_SIZE ≠ 0 then some (EINVAL, t)
  else
    let block := m.position.tdiv SECTOR_SIZE
    if block ≥ HC_SIZE then some (EOF, t)
    else
      let d := t.density m.device.toNat
      let fp := decoded d m
      if fp.count ≠ BLOCK_SIZE then some (EINVAL, { t with d := d })
      else finish t fp (iterations pcAt map block fp (MAX_ERRORS + 1) (entered t r m))

/-! ## What is sent to the controller -/

section Bytes

variable {pcAt : Bool} {d drive : Nat} {fp : Fp} {s : Fdc}

/-- The bytes that have been output to the controller. -/
def dataBytes (s : Fdc) : List Int := (s.outs.filter fun o => o.1 = FDC_DATA).map Prod.snd

/-- A byte for the data port is one more byte for the controller. -/
theorem dataBytes_portOut (val : Int) (s : Fdc) :
    dataBytes (portOut FDC_DATA val s) = dataBytes s ++ [val % 256] := by
  unfold dataBytes portOut
  rw [List.filter_append, List.map_append]
  rfl

/-- A byte for any other port is none. -/
theorem dataBytes_portOut_other {port : Nat} (h : port ≠ FDC_DATA) (val : Int) (s : Fdc) :
    dataBytes (portOut port val s) = dataBytes s := by
  unfold dataBytes portOut
  rw [List.filter_append, List.filter_cons_of_neg (by simpa using h), List.filter_nil,
    List.append_nil]

/-- A byte is sent, unless the controller refuses to listen. -/
theorem fdcTry_sent (val : Int) (n : Nat) (s : Fdc) : (fdcTry val n s).needReset = true ∨
    (fdcTry val n s).needReset = s.needReset ∧
      dataBytes (fdcTry val n s) = dataBytes s ++ [val % 256] := by
  induction n generalizing s with
  | zero => exact Or.inl rfl
  | succ n ih =>
    unfold fdcTry
    split
    · exact ih (portIn s).2
    · exact Or.inr ⟨rfl, dataBytes_portOut val (portIn s).2⟩

/-- When `fdc_out` has not failed, it has sent its byte. -/
theorem fdcOut_sent {val : Int} (h : (fdcOut val s).needReset = false) :
    s.needReset = false ∧ dataBytes (fdcOut val s) = dataBytes s ++ [val % 256] := by
  unfold fdcOut at h ⊢
  split at h
  · rename_i hs
    exact absurd h (by rw [hs]; decide)
  · rename_i hs
    rw [if_neg hs]
    rcases fdcTry_sent val MAX_FDC_RETRY s with hr | ⟨-, hd⟩
    · exact absurd (hr.symm.trans h) (by decide)
    · exact ⟨Bool.eq_false_iff.mpr hs, hd⟩

/-- A command is sent as a whole, or the controller must be reset. -/
theorem fdcOuts_sent (l : List Int)
    (h : (l.foldl (fun s val => fdcOut val s) s).needReset = false) :
    s.needReset = false ∧
      dataBytes (l.foldl (fun s val => fdcOut val s) s) = dataBytes s ++ l.map (· % 256) := by
  induction l generalizing s with
  | nil => exact ⟨h, (List.append_nil _).symm⟩
  | cons val l ih =>
    obtain ⟨hone, hrest⟩ := ih h
    obtain ⟨hs, hd⟩ := fdcOut_sent hone
    refine ⟨hs, ?_⟩
    rw [List.foldl_cons, hrest, hd, List.append_assoc]
    rfl

/-- Waiting for the controller sends nothing. -/
theorem ready_outs (n : Nat) (s : Fdc) : (ready n s).2.outs = s.outs := by
  induction n generalizing s with
  | zero => rfl
  | succ n ih =>
    unfold ready
    split
    · rfl
    · exact ih (portIn s).2

/-- Nothing is written while results are read. -/
theorem fdcResultsFrom_outs (drive left : Nat) (s : Fdc) :
    (fdcResultsFrom drive left s).2.outs = s.outs := by
  induction left generalizing s with
  | zero => rfl
  | succ left ih =>
    have hready := ready_outs MAX_FDC_RETRY s
    unfold fdcResultsFrom
    split
    · rename_i s' he
      rw [he] at hready
      exact hready
    · rename_i status s' he
      rw [he] at hready
      split
      · exact hready
      split
      · exact hready
      · exact (ih _).trans hready

/-- Nothing is written while the status is checked. -/
theorem checkStatus_outs (d : Nat) (fp : Fp) (s : Fdc) : (checkStatus d fp s).2.outs = s.outs := by
  have hresults : (fdcResults fp.drive s).2.outs = s.outs :=
    fdcResultsFrom_outs fp.drive MAX_RESULTS s
  unfold checkStatus
  dsimp only
  split
  · exact hresults
  · dsimp only
    split <;> exact hresults

/-- A transfer that succeeds has sent the nine bytes of its command. -/
theorem transfer_sent (h : (transfer pcAt d fp s).1 = OK) : dataBytes (transfer pcAt d fp s).2 =
    dataBytes s ++ (commandBytes d fp).map (· % 256) := by
  have herr : ¬ERR_TRANSFER = OK := by decide
  have hrate : dataBytes (if pcAt then portOut FDC_RATE (rate d) s else s) = dataBytes s := by
    split
    · exact dataBytes_portOut_other (by decide) _ s
    · rfl
  unfold transfer at h ⊢
  by_cases hcal : (s.drives fp.drive).calibrated
  · rw [if_neg (not_not.mpr hcal)] at h ⊢
    split at h
    · exact absurd h herr
    rename_i hmotor
    rw [if_neg hmotor]
    split at h
    · exact absurd h herr
    rename_i hreset
    rw [if_neg hreset]
    obtain ⟨-, hsent⟩ := fdcOuts_sent (commandBytes d fp) (Bool.eq_false_iff.mpr hreset)
    rw [hrate] at hsent
    unfold dataBytes at hsent ⊢
    rw [checkStatus_outs]
    exact hsent
  · rw [if_pos hcal] at h
    exact absurd h herr

end Bytes

/-! ## The loop of a request -/

section Loops

variable {pcAt : Bool} {map : ProcMap} {block : Int} {fp : Fp} {l l' l₀ : Loop} {n : Nat}

/-- Each failure is counted. -/
theorem nextDensity_errors (fp : Fp) (l : Loop) : (nextDensity fp l).errors = l.errors + 1 := by
  unfold nextDensity
  split <;> rfl

/-- And the density is changed every so many failures. -/
theorem nextDensity_d (fp : Fp) (l : Loop) : (nextDensity fp l).d =
    if (l.errors + 1) % (MAX_ERRORS / NT) = 0 then (l.d + 1) % NT else l.d := by
  unfold nextDensity
  split <;> rfl

/-- A failure changes nothing else of the loop. -/
theorem nextDensity_rest (fp : Fp) (l : Loop) :
    (nextDensity fp l).r = l.r ∧ (nextDensity fp l).progress = l.progress := by
  unfold nextDensity
  split <;> exact ⟨rfl, rfl⟩

/-- What holds when the transfer comes next. -/
theorem approach_ok (h : approach map block fp l = .ok l') : l'.errors = l.errors + 1 ∧
    l'.d = (nextDensity fp l).d ∧ block < nrBlocks l'.d := by
  have herrors := nextDensity_errors fp l
  unfold approach at h
  dsimp only at h
  split at h
  · cases h
  · rename_i hblock
    split at h
    · cases h
    · split at h
      · cases h
      · cases h
        exact ⟨herrors, rfl, not_le.mp hblock⟩

/-- What holds when an iteration ends before its transfer: the density is too small for the block,
or something went wrong. -/
theorem approach_error (h : approach map block fp l = .error l') : l'.progress = .panicked ∨
    l'.progress = l.progress ∧ l'.errors = l.errors + 1 ∧ l'.d = (nextDensity fp l).d ∧
      (l'.r = l.r ∧ nrBlocks l'.d ≤ block ∨ l'.r ≠ OK) := by
  have herrors := nextDensity_errors fp l
  obtain ⟨hr, hprogress⟩ := nextDensity_rest fp l
  unfold approach at h
  dsimp only at h
  split at h
  · rename_i hblock
    cases h
    exact Or.inr ⟨hprogress, herrors, rfl, Or.inl ⟨hr, hblock⟩⟩
  · split at h
    · cases h
      exact Or.inl rfl
    · split at h
      · rename_i hseek
        cases h
        exact Or.inr ⟨hprogress, herrors, rfl, Or.inr hseek⟩
      · cases h

/-- The density of an attempt, counted from 1, when the first one is for the density `d`. -/
def densityAt (d n : Nat) : Nat := (d + n / (MAX_ERRORS / NT)) % NT

/-- An attempt gets as far as its transfer, and the controller completes it. -/
structure Completed (pcAt : Bool) (map : ProcMap) (block : Int) (fp : Fp) (l₀ : Loop) (n : Nat)
    (l : Loop) : Prop where
  bound : n ≤ MAX_ERRORS
  running : (iterations pcAt map block fp n l₀).progress = .running
  approached : approach map block fp (iterations pcAt map block fp n l₀) = .ok l
  ok : (transfer pcAt l.d fp l.fdc).1 = OK

/-- What is known after some iterations: no transfer has succeeded yet, or the last one did or can't
be retried, or the system has panicked. -/
inductive Tried (pcAt : Bool) (map : ProcMap) (block : Int) (fp : Fp) (l₀ : Loop) (n : Nat)
    (l : Loop) : Prop
  | running (progress : l.progress = .running) (errors : l.errors = n)
      (density : l.d = densityAt l₀.d n)
      (failed : l.r ≠ OK ∨ ∀ k, 1 ≤ k → k ≤ n → nrBlocks (densityAt l₀.d k) ≤ block)
  | broken (progress : l.progress = .broken)
      (completed : l.r = OK → ∃ k l', Completed pcAt map block fp l₀ k l' ∧ l = attempt pcAt fp l')
  | panicked (progress : l.progress = .panicked)

/-- A loop that has just been entered. -/
structure Entered (l₀ : Loop) : Prop where
  progress : l₀.progress = .running
  errors : l₀.errors = 0
  density : l₀.d < NT

/-- The density after one more failure. -/
theorem nextDensity_at (fp : Fp) (he : l.errors = n) (hd : l.d = densityAt l₀.d n) :
    (nextDensity fp l).d = densityAt l₀.d (n + 1) := by
  rw [nextDensity_d, he, hd]
  dsimp only [densityAt, MAX_ERRORS, NT]
  split <;> omega

/-- The loop of `do_rdwt` by induction on its rounds: each tries the density of its number. -/
theorem iterations_tried (pcAt : Bool) (map : ProcMap) (block : Int) (fp : Fp) (h : Entered l₀)
    (hn : n ≤ MAX_ERRORS + 1) :
    Tried pcAt map block fp l₀ n (iterations pcAt map block fp n l₀) := by
  induction n with
  | zero =>
    refine .running h.progress h.errors ?_ (Or.inr fun k hk hk' => by omega)
    have hd := h.density
    dsimp only [densityAt, MAX_ERRORS, NT, iterations] at hd ⊢
    omega
  | succ n ih =>
    have ih := ih (by omega)
    rw [iterations]
    cases ih with
    | broken progress completed =>
      rw [if_neg fun hp => absurd (progress.symm.trans hp.1) (by decide)]
      exact .broken progress completed
    | panicked progress =>
      rw [if_neg fun hp => absurd (progress.symm.trans hp.1) (by decide)]
      exact .panicked progress
    | running progress errors density failed =>
      have hnext := nextDensity_at fp errors density
      rw [if_pos ⟨progress, by omega⟩]
      unfold iteration
      cases ha : approach map block fp (iterations pcAt map block fp n l₀) with
      | error l' =>
        rcases approach_error ha with hp | ⟨hp, he, hd, hr⟩
        · exact .panicked hp
        · refine .running (hp.trans progress) (he.trans (by rw [errors])) (hd.trans hnext) ?_
          rcases hr with ⟨hr, hblock⟩ | hr
          · refine failed.imp (fun hf => by rwa [hr]) fun hf k hk hk' => ?_
            rcases Nat.lt_or_ge n k with hlt | hge
            · obtain rfl : k = n + 1 := by omega
              rwa [hd, hnext] at hblock
            · exact hf k hk hge
          · exact Or.inl hr
      | ok l' =>
        obtain ⟨he, hd, -⟩ := approach_ok ha
        dsimp only
        by_cases hok : (transfer pcAt l'.d fp l'.fdc).1 = OK
        · refine .broken ?_ fun _ => ⟨n, l', ⟨by omega, progress, ha, hok⟩, rfl⟩
          unfold attempt
          exact if_pos (Or.inl hok)
        · by_cases hwp : (transfer pcAt l'.d fp l'.fdc).1 = ERR_WR_PROTECT
          · refine .broken ?_ fun hr => absurd hr hok
            unfold attempt
            exact if_pos (Or.inr hwp)
          · refine .running ?_ (he.trans (by rw [errors])) (hd.trans hnext) (Or.inl hok)
            unfold attempt
            exact if_neg (not_or.mpr ⟨hok, hwp⟩)

/-- A loop that has been left stays as it is. -/
theorem iterations_stopped {k : Nat} (h : (iterations pcAt map block fp n l₀).progress ≠ .running) :
    iterations pcAt map block fp (n + k) l₀ = iterations pcAt map block fp n l₀ := by
  induction k with
  | zero => rfl
  | succ k ih =>
    rw [Nat.add_succ, iterations, ih, if_neg fun hp => h hp.1]

/-- After that many iterations, the loop has ended. -/
theorem iterations_ended (h : Entered l₀) :
    iterations pcAt map block fp (MAX_ERRORS + 2) l₀ =
      iterations pcAt map block fp (MAX_ERRORS + 1) l₀ := by
  rw [iterations]
  refine if_neg fun hp => ?_
  cases iterations_tried pcAt map block fp h le_rfl with
  | running progress errors => omega
  | broken progress => exact absurd (progress.symm.trans hp.1) (by decide)
  | panicked progress => exact absurd (progress.symm.trans hp.1) (by decide)

/-- The density of a transfer that is completed. -/
theorem Completed.density (h : Entered l₀) (hc : Completed pcAt map block fp l₀ n l) :
    l.d = densityAt l₀.d (n + 1) := by
  cases iterations_tried pcAt map block fp h (hc.bound.trans (Nat.le_succ _)) with
  | running progress errors density =>
    exact (approach_ok hc.approached).2.1.trans (nextDensity_at fp errors density)
  | broken progress => exact absurd (progress.symm.trans hc.running) (by decide)
  | panicked progress => exact absurd (progress.symm.trans hc.running) (by decide)

/-- The loop is left after a transfer that is completed. -/
theorem Completed.left (h : Entered l₀) (hc : Completed pcAt map block fp l₀ n l) {k : Nat}
    (hk : n < k) : iterations pcAt map block fp k l₀ = attempt pcAt fp l := by
  have herrors : (iterations pcAt map block fp n l₀).errors ≤ MAX_ERRORS := by
    cases iterations_tried pcAt map block fp h (hc.bound.trans (Nat.le_succ _)) with
    | running progress errors => exact errors.trans_le hc.bound
    | broken progress => exact absurd (progress.symm.trans hc.running) (by decide)
    | panicked progress => exact absurd (progress.symm.trans hc.running) (by decide)
  have hnext : iterations pcAt map block fp (n + 1) l₀ = attempt pcAt fp l := by
    rw [iterations, if_pos ⟨hc.running, herrors⟩]
    unfold iteration
    rw [hc.approached]
  have hstop : (iterations pcAt map block fp (n + 1) l₀).progress ≠ .running := by
    rw [hnext]
    unfold attempt
    dsimp only
    rw [if_pos (Or.inl hc.ok)]
    decide
  obtain ⟨j, rfl⟩ := Nat.exists_eq_add_of_lt hk
  rw [Nat.add_right_comm, iterations_stopped hstop, hnext]

/-- Only one transfer of a request is completed. -/
theorem Completed.unique (h : Entered l₀) {n' : Nat} (hc : Completed pcAt map block fp l₀ n l)
    (hc' : Completed pcAt map block fp l₀ n' l') : n = n' ∧ l = l' := by
  have hle : ∀ {n n' l l'}, Completed pcAt map block fp l₀ n l →
      Completed pcAt map block fp l₀ n' l' → n' ≤ n := fun hc hc' => by
    by_contra hlt
    have hr := hc'.running
    rw [hc.left h (not_le.mp hlt)] at hr
    unfold attempt at hr
    dsimp only at hr
    rw [if_pos (Or.inl hc.ok)] at hr
    exact absurd hr (by decide)
  obtain rfl : n = n' := Nat.le_antisymm (hle hc' hc) (hle hc hc')
  exact ⟨rfl, Except.ok.inj (hc.approached.symm.trans hc'.approached)⟩

/-- A block of the largest diskette is small enough for one of the densities. -/
theorem density_found {d : Nat} (hd : d < NT) (hb : block < HC_SIZE) :
    ∃ k, 1 ≤ k ∧ k ≤ MAX_ERRORS + 1 ∧ ¬nrBlocks (densityAt d k) ≤ block := by
  dsimp only [NT, HC_SIZE] at hd hb
  have hthree : ∀ k, densityAt d k = 3 → ¬nrBlocks (densityAt d k) ≤ block := fun k hk => by
    rw [hk]
    exact not_le.mpr hb
  obtain rfl | rfl | rfl | rfl : d = 0 ∨ d = 1 ∨ d = 2 ∨ d = 3 := by omega
  · exact ⟨15, by decide, by decide, hthree 15 rfl⟩
  · exact ⟨10, by decide, by decide, hthree 10 rfl⟩
  · exact ⟨5, by decide, by decide, hthree 5 rfl⟩
  · exact ⟨1, by decide, by decide, hthree 1 rfl⟩

/-- When the loop ends with success, a transfer has been completed. -/
theorem completed_of_ok (h : Entered l₀) (hb : block < HC_SIZE)
    (hp : (iterations pcAt map block fp (MAX_ERRORS + 1) l₀).progress ≠ .panicked)
    (hr : (iterations pcAt map block fp (MAX_ERRORS + 1) l₀).r = OK) :
    ∃ k l, Completed pcAt map block fp l₀ k l ∧
      iterations pcAt map block fp (MAX_ERRORS + 1) l₀ = attempt pcAt fp l := by
  cases iterations_tried pcAt map block fp h le_rfl with
  | running progress errors density failed =>
    obtain ⟨k, hk, hk', hsmall⟩ := density_found h.density hb
    exact absurd (failed.resolve_left (not_not.mpr hr) k hk hk') hsmall
  | broken progress completed => exact completed hr
  | panicked progress => exact absurd progress hp

end Loops

/-! ## The place of a block -/

section Requests

variable {pcAt : Bool} {map : ProcMap} {r : Int} {t : Task} {m : DevMess} {n : Nat} {l : Loop}

/-- The logical block that a request is for. -/
def blockOf (m : DevMess) : Int := m.position.tdiv SECTOR_SIZE

/-- The cylinder that a block has for a density. -/
def cylinderOf (d : Nat) (block : Int) : Int := block / (NR_HEADS * nrSectors d)

/-- The head that it has. -/
def headOf (d : Nat) (block : Int) : Int := block % (NR_HEADS * nrSectors d) / nrSectors d

/-- The sector that it has, in the interleaved numbering. -/
def sectorOf (d : Nat) (block : Int) : Int := interleave (block % nrSectors d)

/-- A request that is carried out. -/
structure Accepted (m : DevMess) : Prop where
  device : 0 ≤ m.device ∧ m.device < NR_DRIVES
  aligned : m.position.tmod BLOCK_SIZE = 0
  block : blockOf m < HC_SIZE
  count : m.count = BLOCK_SIZE

/-- The density of the drive when the request arrives. -/
def startDensity (t : Task) (m : DevMess) : Nat := t.density m.device.toNat

/-- The controller completes the transfer of an attempt, for which the loop is in a state `l`. -/
def Completes (pcAt : Bool) (map : ProcMap) (r : Int) (t : Task) (m : DevMess) (n : Nat)
    (l : Loop) : Prop :=
  Completed pcAt map (blockOf m) (decoded (startDensity t m) m) (entered t r m) n l

/-- The bytes that are sent from one state to another are a command for the place of a block. -/
structure SentFor (d : Nat) (block : Int) (s s' : Fdc) : Prop where
  exists_block : 0 ≤ block
  bytes : ∃ op headDrive, dataBytes s' = dataBytes s ++ [op, headDrive, cylinderOf d block,
    headOf d block, sectorOf d block, 2, nrSectors d, gap d, DTL]

/-- A request that is carried out is answered with success or an error; and success means that a
transfer has succeeded, for which the command had the place of the block, for the density that was
in force. -/
structure Addresses (pcAt : Bool) (map : ProcMap) (r : Int) (t : Task) (m : DevMess) : Prop where
  result : ∀ out, doRdwt pcAt map r t m = some out → out.1 = BLOCK_SIZE ∨ out.1 = EIO
  completed : ∀ out, doRdwt pcAt map r t m = some out → out.1 = BLOCK_SIZE →
    ∃ n l, Completes pcAt map r t m n l ∧ out.2.d = l.d ∧
      SentFor l.d (blockOf m) l.fdc out.2.fdc

/-- The loop as it is entered. -/
theorem entered_entered (hd : ∀ n, t.density n < NT) (r : Int) (m : DevMess) :
    Entered (entered t r m) :=
  ⟨rfl, rfl, hd _⟩

/-- How a request that is accepted is answered. -/
theorem doRdwt_accepted (pcAt : Bool) (map : ProcMap) (r : Int) (t : Task) (hm : Accepted m) :
    doRdwt pcAt map r t m = finish t (decoded (startDensity t m) m)
      (iterations pcAt map (blockOf m) (decoded (startDensity t m) m) (MAX_ERRORS + 1)
        (entered t r m)) := by
  have hdev : ¬(m.device < 0 ∨ m.device ≥ NR_DRIVES) :=
    not_or.mpr ⟨not_lt.mpr hm.device.1, not_le.mpr hm.device.2⟩
  have hblock : ¬blockOf m ≥ HC_SIZE := not_le.mpr hm.block
  have hcount : ¬(decoded (startDensity t m) m).count ≠ BLOCK_SIZE := not_not.mpr hm.count
  unfold startDensity at hcount ⊢
  unfold blockOf at hblock ⊢
  unfold doRdwt
  rw [if_neg hdev, if_neg (not_not.mpr hm.aligned)]
  dsimp only
  rw [if_neg hblock, if_neg hcount]

/-- After a transfer that is completed, the request is answered with success. -/
theorem Completes.answered (hd : ∀ n, t.density n < NT) (hm : Accepted m)
    (hc : Completes pcAt map r t m n l) : ∃ out, doRdwt pcAt map r t m = some out ∧
      out.1 = BLOCK_SIZE ∧ out.2.d = l.d ∧ dataBytes out.2.fdc = dataBytes l.fdc ++
        (commandBytes l.d (decoded (startDensity t m) m)).map (· % 256) := by
  have hleft := hc.left (entered_entered hd r m) (Nat.lt_succ_of_le hc.bound)
  have hok : (attempt pcAt (decoded (startDensity t m) m) l).r = OK := hc.ok
  have hprogress : ¬(attempt pcAt (decoded (startDensity t m) m) l).progress = .panicked := by
    unfold attempt
    dsimp only
    rw [if_pos (Or.inl hc.ok)]
    decide
  have he := doRdwt_accepted pcAt map r t hm
  rw [hleft, finish, if_neg hprogress, if_pos hok] at he
  exact ⟨_, he, rfl, rfl, transfer_sent hc.ok⟩

/-- A track has 9 or 15 sectors. -/
theorem nrSectors_cases (d : Nat) : nrSectors d = 9 ∨ nrSectors d = 15 := by
  unfold nrSectors
  split
  · exact Or.inr rfl
  · exact Or.inl rfl

/-- What is sent for a block, when its place has been computed for the density `d`. -/
theorem decoded_bytes {d : Nat} (h0 : 0 ≤ blockOf m) (hb : blockOf m < HC_SIZE) :
    (decoded d m).cylinder % 256 = cylinderOf d (blockOf m) ∧
      (decoded d m).head % 256 = headOf d (blockOf m) ∧
      (decoded d m).sector % 256 = sectorOf d (blockOf m) := by
  have hb' : blockOf m < 2400 := hb
  change Int.bmod ((blockOf m).tdiv (NR_HEADS * nrSectors d)) 65536 % 256 = _ ∧
    ((blockOf m).tmod (NR_HEADS * nrSectors d)).tdiv (nrSectors d) % 256 = _ ∧
    interleave ((blockOf m).tmod (nrSectors d)) % 256 = _
  unfold cylinderOf headOf sectorOf interleave
  generalize blockOf m = block at *
  dsimp only [NR_HEADS]
  rw [Int.tdiv_eq_ediv_of_nonneg h0, Int.tmod_eq_emod_of_nonneg h0,
    Int.tmod_eq_emod_of_nonneg h0, Int.bmod_def]
  rcases nrSectors_cases d with h | h
  · rw [h, Int.tdiv_eq_ediv_of_nonneg (by omega)]
    refine ⟨?_, ?_, ?_⟩
    · split <;> omega
    · omega
    · split <;> omega
  · rw [h, Int.tdiv_eq_ediv_of_nonneg (by omega)]
    refine ⟨?_, ?_, ?_⟩
    · split <;> omega
    · omega
    · split <;> omega

/-- The sector of a block counts from 1. -/
theorem sectorOf_eq (d : Nat) (block : Int) : sectorOf d block = block % nrSectors d + 1 := by
  unfold sectorOf interleave
  rcases nrSectors_cases d with h | h
  · rw [h, if_pos (by omega)]
  · rw [h, if_pos (by omega)]

/-- A block has the same place for two densities just when these have the same number of sectors per
track, or the block is on the first nine sectors. -/
theorem same_place {d d' : Nat} {block : Int} (h0 : 0 ≤ block) :
    (cylinderOf d block = cylinderOf d' block ∧ headOf d block = headOf d' block ∧
        sectorOf d block = sectorOf d' block) ↔
      nrSectors d' = nrSectors d ∨ block < 9 := by
  rw [sectorOf_eq, sectorOf_eq]
  unfold cylinderOf headOf
  dsimp only [NR_HEADS]
  rcases nrSectors_cases d with h | h <;> rcases nrSectors_cases d' with h' | h' <;>
    rw [h, h'] <;> constructor <;> omega

/-- The controller completes a transfer only for a block of the diskette, and while the density has
as many sectors per track as the one that the drive had when the request arrived, unless the block
is on the first nine sectors. -/
def KeepsGeometry (pcAt : Bool) (map : ProcMap) (r : Int) (t : Task) (m : DevMess) : Prop :=
  ∀ n l, Completes pcAt map r t m n l → 0 ≤ blockOf m ∧
    (nrSectors (densityAt (startDensity t m) (n + 1)) = nrSectors (startDensity t m) ∨
      blockOf m < 9)

/-- The gap length is a byte. -/
theorem gap_byte (d : Nat) : gap d % 256 = gap d := by
  unfold gap
  split
  · rfl
  split <;> rfl

/-- The number of sectors is a byte. -/
theorem nrSectors_byte (d : Nat) : nrSectors d % 256 = nrSectors d := by
  unfold nrSectors
  split <;> rfl

/-- The bytes that are sent for a command. -/
theorem commandBytes_sent (d : Nat) (fp : Fp) : ∃ op headDrive,
    (commandBytes d fp).map (· % 256) = [op, headDrive, fp.cylinder % 256, fp.head % 256,
      fp.sector % 256, 2, nrSectors d, gap d, DTL] := by
  refine ⟨(if fp.opcode = DISK_READ then FDC_READ else FDC_WRITE) % 256,
    (fp.head * 4 + fp.drive) % 256, ?_⟩
  unfold commandBytes
  simp only [List.map_cons, List.map_nil, nrSectors_byte, gap_byte]
  rfl

/-- The density of a transfer that the controller completes. -/
theorem Completes.density (hd : ∀ n, t.density n < NT) (hc : Completes pcAt map r t m n l) :
    l.d = densityAt (startDensity t m) (n + 1) := Completed.density (entered_entered hd r m) hc

/-- If each attempt addresses its block, the geometry has not changed between them. -/
theorem Addresses.keepsGeometry (hd : ∀ n, t.density n < NT) (hm : Accepted m)
    (h : Addresses pcAt map r t m) : KeepsGeometry pcAt map r t m := by
  intro n l hc
  obtain ⟨out, he, hok, -, hsent⟩ := hc.answered hd hm
  obtain ⟨n', l', hc', -, h0, op, headDrive, hbytes⟩ := h.completed out he hok
  obtain ⟨rfl, rfl⟩ := Completed.unique (entered_entered hd r m) hc hc'
  obtain ⟨hcyl, hhead, hsec⟩ := decoded_bytes (d := startDensity t m) h0 hm.block
  obtain ⟨op', headDrive', hbytes'⟩ := commandBytes_sent l.d (decoded (startDensity t m) m)
  rw [hbytes', hcyl, hhead, hsec] at hsent
  have hlist := List.append_cancel_left (hsent.symm.trans hbytes)
  simp only [List.cons.injEq] at hlist
  refine ⟨h0, ?_⟩
  rw [← hc.density hd]
  exact (same_place h0).mp ⟨hlist.2.2.1, hlist.2.2.2.1, hlist.2.2.2.2.1⟩

/-- What is known from an answer. -/
theorem finish_some {fp : Fp} {out : Int × Task} (h : finish t fp l = some out) :
    l.progress ≠ .panicked ∧ (out.1 = BLOCK_SIZE ∧ l.r = OK ∨ out.1 = EIO) := by
  unfold finish at h
  split at h
  · cases h
  · rename_i hp
    cases h
    refine ⟨hp, ?_⟩
    dsimp only
    split
    · rename_i hr
      exact Or.inl ⟨rfl, hr⟩
    · exact Or.inr rfl

/-- And conversely. -/
theorem KeepsGeometry.addresses (hd : ∀ n, t.density n < NT) (hm : Accepted m)
    (h : KeepsGeometry pcAt map r t m) : Addresses pcAt map r t m := by
  have hanswer := doRdwt_accepted pcAt map r t hm
  constructor
  · intro out he
    exact (finish_some (hanswer.symm.trans he)).2.imp_left And.left
  · intro out he hok
    obtain ⟨hp, hr⟩ := finish_some (hanswer.symm.trans he)
    have hr := (hr.resolve_right fun hio => absurd (hok.symm.trans hio) (by decide)).2
    obtain ⟨n, l, hc, -⟩ := completed_of_ok (entered_entered hd r m) hm.block hp hr
    have hc : Completes pcAt map r t m n l := hc
    obtain ⟨out', he', -, hd', hsent⟩ := hc.answered hd hm
    obtain rfl := Option.some.inj (he'.symm.trans he)
    obtain ⟨h0, hsame⟩ := h n l hc
    rw [← hc.density hd] at hsame
    obtain ⟨hcyl, hhead, hsec⟩ := (same_place h0).mpr hsame
    obtain ⟨hcyl', hhead', hsec'⟩ := decoded_bytes (d := startDensity t m) h0 hm.block
    obtain ⟨op, headDrive, hbytes⟩ := commandBytes_sent l.d (decoded (startDensity t m) m)
    rw [hbytes, hcyl', hhead', hsec', hcyl, hhead, hsec] at hsent
    exact ⟨n, l, hc, hd', h0, op, headDrive, hsent⟩

/-- A request is carried out at the place of its block just when the transfer is completed for a
density with the geometry that was computed before the loop. -/
theorem floppy_addresses_iff (hd : ∀ n, t.density n < NT) (hm : Accepted m) :
    Addresses pcAt map r t m ↔ KeepsGeometry pcAt map r t m :=
  ⟨Addresses.keepsGeometry hd hm, KeepsGeometry.addresses hd hm⟩

end Requests

section Example

/-- The controller returns some results, each after it has said that it is busy. -/
def resultBytes (results : List (BitVec 8)) : List (BitVec 8) :=
  results.flatMap (fun r => [0xD0, r]) ++ [0x80]

/-- The controller calibrates a drive, seeks a cylinder and moves two sectors. -/
def servedBytes (cylinder head sector : BitVec 8) : List (BitVec 8) :=
  List.replicate 3 0x80 ++ resultBytes [0x20, 0] ++ List.replicate 4 0x80 ++
    resultBytes [0x20, cylinder] ++ List.replicate 9 0x80 ++
    resultBytes [0, 0, 0, cylinder, head, sector + 2, 2]

/-- The task has just been started, and the ports give these bytes. -/
def floppyStart (ins : List (BitVec 8)) : Task :=
  ⟨0, fun _ => 0, false, fun _ => ⟨0, fun _ => 0, false⟩, 0, 0, 0, false, fun n => ins.getD n 0x80,
    0, []⟩

/-- A block is read from a position of the first drive. -/
def floppyRead (position : Int) : DevMess := ⟨DISK_READ, 0, 2, 1024, position, 256⟩

/-- At the start every drive has a density of the table. -/
theorem floppyStart_density (ins : List (BitVec 8)) (n : Nat) :
    (floppyStart ins).density n < NT := Nat.zero_lt_succ 3

/-- The third sector of a diskette is read. -/
theorem floppy_addresses_iff_first :
    (doRdwt false userMap 0 (floppyStart (servedBytes 0 0 3)) (floppyRead 1024)).map Prod.fst =
        some BLOCK_SIZE ∧
      Addresses false userMap 0 (floppyStart (servedBytes 0 0 3)) (floppyRead 1024) :=
  ⟨by decide +kernel, (floppy_addresses_iff (floppyStart_density _)
    ⟨by decide, by decide, by decide, rfl⟩).mpr fun _ _ _ => ⟨by decide, Or.inr (by decide)⟩⟩

/-- Sector 720 is only on the large diskettes. It is read from the cylinder that it has for the
small ones. -/
theorem floppy_addresses_stale : ¬∀ pcAt map r t m, (∀ n, t.density n < NT) → Accepted m →
    Addresses pcAt map r t m := by
  intro h
  let t := floppyStart ([0x80] ++ resultBytes [0xC0, 0] ++ List.replicate 3 0x80 ++
    servedBytes 40 0 1)
  have hd : ∀ n, t.density n < NT := floppyStart_density _
  have hm : Accepted (floppyRead 368640) := ⟨by decide, by decide, by decide, rfl⟩
  have hall := h false userMap 0 t (floppyRead 368640) hd hm
  have hrun : (doRdwt false userMap 0 t (floppyRead 368640)).map (fun out => (out.1, out.2.d)) =
      some (BLOCK_SIZE, 3) := by decide
  obtain ⟨out, he, hout⟩ := Option.map_eq_some_iff.mp hrun
  obtain ⟨hok, hd3⟩ := Prod.mk.inj hout
  obtain ⟨n, l, hc, hl, -⟩ := hall.completed out he hok
  have hkeep := ((hall.keepsGeometry hd hm) n l hc).2
  rw [← hc.density hd, ← hl, hd3] at hkeep
  exact absurd hkeep (by decide)

end Example

end Minix.Kernel.Floppy
