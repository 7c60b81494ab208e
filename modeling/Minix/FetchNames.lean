import Minix.Execs
import Minix.FS.NameCalls

/-!
# Path names from user space

How a path name gets into `user_path`: from the message, or by a copy that the system task makes
from the memory of the caller. Both are followed down to the bytes of memory. A store that misses
`user_path` hits whatever lies behind it, and nothing is said of what follows.
-/

namespace Minix.FetchNames

open Function
open Kernel (Slot ProcMap PhysCopy CopyMess D virBytes umap doCopy procAddr lastClick chosenSeg
  segAddr image Inside Fits Refused Contiguous Words)
open Execs (physCopy)
open Alarms (slotOf procNr_slotOf)
open FS.Inodes (NameFlag PathArg Tables M3_STRING MAX_PATH E_LONG_STRING OK)

/-- process number of file system -/
abbrev FS_PROC_NR : FS.Proc := 1

/-- Where in its data FS has `user_path`, and `pathname` of the message that it works on. -/
structure Layout where
  userPath : Nat
  pathname : Nat

/-- The table of the kernel, and memory. -/
structure System where
  kernel : Kernel.State
  mem : Int → UInt8

/-- The segments of FS, as the kernel has them. -/
def System.fsMap (s : System) : ProcMap := s.kernel.pMap (slotOf FS_PROC_NR)

/-- The place in memory of a byte of the data of FS. -/
def dataAddr (map : ProcMap) (offset : Nat) : Int := map.d.memPhys * 16 + (offset % 65536 : Nat)

/-- How `fetch_name` ends: the name is there, `err_code` is set, or a store misses `user_path`. -/
inductive Fetched where
  | ok (mem : Int → UInt8)
  | error (errCode : Int) (mem : Int → UInt8)
  | overrun

/-- `do { *rpu++ = *rpm++; } while (--len);`, while there is room in `user_path`. -/
def copyMessage (map : ProcMap) : Nat → Nat → Nat → Int → (Int → UInt8) → Option (Int → UInt8)
  | 0, _, _, _, _ => none
  | room + 1, rpu, rpm, len, mem =>
    let mem := update mem (dataAddr map rpu) (mem (dataAddr map rpm))
    let len := Int.bmod (len - 1) 65536
    if len = 0 then some mem else copyMessage map room (rpu + 1) (rpm + 1) len mem

/-- The message of `rw_user` when data go from user space to FS space. -/
def fromUser (who : FS.Proc) (vir bytes buff : Nat) : CopyMess where
  srcSpace := D
  srcProcNr := who.val
  srcBuffer := vir
  dstSpace := D
  dstProcNr := FS_PROC_NR.val
  dstBuffer := buff
  copyBytes := bytes

/-- A copy to `user_path`, and nowhere else. -/
def Within (map : ProcMap) (lay : Layout) (c : PhysCopy) : Prop :=
  dataAddr map lay.userPath ≤ c.dst ∧ c.dst + c.bytes ≤ dataAddr map lay.userPath + MAX_PATH

instance (map : ProcMap) (lay : Layout) (c : PhysCopy) : Decidable (Within map lay c) :=
  inferInstanceAs (Decidable (_ ∧ _))

/-- Transfer a block of data from user space to `user_path`. -/
def rwUser (s : System) (lay : Layout) (who : FS.Proc) (vir bytes : Nat) : Fetched :=
  match doCopy s.kernel (fromUser who vir bytes lay.userPath) with
  | none => .overrun
  | some (r, copies) =>
    if ∀ c ∈ copies, Within s.fsMap lay c then
      if r = OK then .ok (copies.foldl physCopy s.mem) else .error r (copies.foldl physCopy s.mem)
    else .overrun

/-- Go get path and put it in 'user_path'. If 'flag' = M3 and 'len' <= M3_STRING, the path is
present in 'message'. If it is not, go copy it from user space. -/
def fetchName (s : System) (lay : Layout) (who : FS.Proc) (path : Nat) (len : Int)
    (flag : NameFlag) : Fetched :=
  if flag = .M3 ∧ len ≤ M3_STRING then
    -- just copy the path from the message to 'user_path'
    match copyMessage s.fsMap MAX_PATH lay.userPath lay.pathname len s.mem with
    | none => .overrun
    | some mem => .ok mem
  else if len > MAX_PATH then .error E_LONG_STRING s.mem
  else rwUser s lay who path (virBytes len)

/-- `user_path` and the characters of the message lie apart in the data of FS. -/
structure Placed (lay : Layout) (map : ProcMap) : Prop where
  data : map.d.memVir = 0
  phys : 0 < map.d.memPhys
  len : map.d.memLen ≤ 4096
  userPath : lay.userPath + MAX_PATH ≤ map.d.memLen * 16
  pathname : lay.pathname + M3_STRING ≤ map.d.memLen * 16
  apart : lay.pathname + M3_STRING ≤ lay.userPath ∨ lay.userPath + MAX_PATH ≤ lay.pathname

/-- A byte of `user_path`. -/
def pathByte (map : ProcMap) (lay : Layout) (mem : Int → UInt8) (i : Nat) : UInt8 :=
  mem (dataAddr map lay.userPath + i)

/-- Memory outside of `user_path` is as it was. -/
def Kept (map : ProcMap) (lay : Layout) (mem mem' : Int → UInt8) : Prop :=
  ∀ a, a < dataAddr map lay.userPath ∨ dataAddr map lay.userPath + MAX_PATH ≤ a → mem' a = mem a

/-- The name in `user_path` is what the caller has sent: in the message, or from its memory. -/
def Exact (s : System) (lay : Layout) (caller : ProcMap) (path : Nat) (len : Int) (flag : NameFlag)
    (mem : Int → UInt8) : Prop :=
  if flag = .M3 ∧ len ≤ M3_STRING then
    ∀ i : Nat, i < len → pathByte s.fsMap lay mem i = s.mem (dataAddr s.fsMap lay.pathname + i)
  else Inside caller D (image caller D path) len ∧
    ∀ i : Nat, i < len → pathByte s.fsMap lay mem i = s.mem (image caller D path + i)

/-- `fetch_name` has stored into `user_path` only, and the caller's name is there or there is an
error. -/
def Safe (s : System) (lay : Layout) (caller : ProcMap) (path : Nat) (len : Int) (flag : NameFlag) :
    Fetched → Prop
  | .ok mem => Kept s.fsMap lay s.mem mem ∧ Exact s lay caller path len flag mem
  | .error errCode mem => errCode ≠ OK ∧ Kept s.fsMap lay s.mem mem
  | .overrun => False

section Message

variable {map : ProcMap} {room rpu rpm : Nat} {len : Int} {mem mem' : Int → UInt8}

/-- How many bytes the loop copies. -/
def loopCount (len : Int) : Nat := ((len - 1) % 65536).toNat + 1

/-- One turn of the loop. -/
theorem loopCount_next (h : Int.bmod (len - 1) 65536 ≠ 0) :
    loopCount (Int.bmod (len - 1) 65536) + 1 = loopCount len := by
  unfold loopCount
  have he : (len - 1).bmod 65536 % 65536 = (len - 1) % 65536 := Int.bmod_emod
  have hne : (len - 1) % 65536 ≠ 0 := by
    intro hz
    have hb : ((len - 1) % 65536).bmod 65536 = (len - 1).bmod 65536 := Int.emod_bmod ..
    rw [hz] at hb
    exact h hb.symm
  omega

theorem loopCount_last (h : Int.bmod (len - 1) 65536 = 0) : loopCount len = 1 := by
  unfold loopCount
  have he : (len - 1).bmod 65536 % 65536 = (len - 1) % 65536 := Int.bmod_emod
  omega

/-- The loop ends in `user_path` exactly when there is room for all that it copies. -/
theorem copyMessage_none_iff :
    copyMessage map room rpu rpm len mem = none ↔ room < loopCount len := by
  induction room generalizing rpu rpm len mem with
  | zero => exact iff_of_true rfl (Nat.succ_pos _)
  | succ room ih =>
    unfold copyMessage
    dsimp only
    split
    · rename_i h
      rw [loopCount_last h]
      exact iff_of_false (by simp) (by omega)
    · rename_i h
      rw [ih, ← loopCount_next h]
      omega

/-- In a segment that does not wrap around, offsets are places in memory. -/
theorem dataAddr_add {offset i : Nat} (h : offset + i < 65536) :
    dataAddr map (offset + i) = dataAddr map offset + i := by
  unfold dataAddr
  omega

/-- What the loop leaves in memory, when it copies between two arrays. -/
theorem copyMessage_spec (map : ProcMap) (mem : Int → UInt8) (rpu rpm : Nat)
    (hlen : 0 < len) (hroom : len ≤ room) (hmax : room < 32768)
    (hrpu : rpu + len ≤ 65536) (hrpm : rpm + len ≤ 65536)
    (hapart : rpm + len ≤ rpu ∨ rpu + len ≤ rpm) :
    ∃ mem', copyMessage map room rpu rpm len mem = some mem' ∧
      (∀ i : Nat, i < len → mem' (dataAddr map rpu + i) = mem (dataAddr map rpm + i)) ∧
      ∀ a, a < dataAddr map rpu ∨ dataAddr map rpu + len ≤ a → mem' a = mem a := by
  induction room generalizing mem rpu rpm len with
  | zero => omega
  | succ room ih =>
    have hnext : Int.bmod (len - 1) 65536 = len - 1 := by
      rw [Int.bmod_eq_of_le] <;> omega
    unfold copyMessage
    dsimp only
    rw [hnext]
    by_cases hone : len - 1 = 0
    · rw [if_pos hone]
      refine ⟨_, rfl, fun i hi => ?_, fun a ha => update_of_ne (by omega) ..⟩
      obtain rfl : i = 0 := by omega
      rw [Int.ofNat_zero, add_zero, add_zero, update_self]
    · rw [if_neg hone]
      have hu : dataAddr map (rpu + 1) = dataAddr map rpu + 1 := dataAddr_add (by omega)
      have hm : dataAddr map (rpm + 1) = dataAddr map rpm + 1 := dataAddr_add (by omega)
      have hu' : dataAddr map rpu = map.d.memPhys * 16 + rpu := by
        unfold dataAddr
        omega
      have hm' : dataAddr map rpm = map.d.memPhys * 16 + rpm := by
        unfold dataAddr
        omega
      have hpos' : 0 < len - 1 := by omega
      have hroom' : len - 1 ≤ room := by omega
      obtain ⟨mem', hc, hin, hout⟩ := ih (update mem (dataAddr map rpu) (mem (dataAddr map rpm)))
        (rpu + 1) (rpm + 1) hpos' hroom' (by omega) (by omega) (by omega) (by omega)
      rw [hu] at hin hout
      rw [hm] at hin
      refine ⟨mem', hc, fun i hi => ?_, fun a ha => ?_⟩
      · cases i with
        | zero =>
          rw [hout _ (by omega), Int.ofNat_zero, add_zero, add_zero, update_self]
        | succ i =>
          have := hin i (by omega)
          rw [Int.natCast_succ, add_comm (i : Int), ← add_assoc, ← add_assoc, this]
          exact update_of_ne (by omega) ..
      · rw [hout a (by omega)]
        exact update_of_ne (by omega) ..

end Message

section UserSpace

variable {s : System} {lay : Layout} {who : FS.Proc} {path bytes : Nat}

/-- The copy that `rw_user` asks for. -/
theorem doCopy_fromUser (hpath : path < 65536) (hup : lay.userPath < 65536) (hb : bytes < 65536) :
    doCopy s.kernel (fromUser who path bytes lay.userPath) =
      some (if umap (s.kernel.pMap (slotOf who)) D path bytes = 0 ∨
          umap s.fsMap D lay.userPath bytes = 0 then (Kernel.EFAULT, [])
        else (OK, [⟨umap (s.kernel.pMap (slotOf who)) D path bytes,
          umap s.fsMap D lay.userPath bytes, bytes⟩])) := by
  unfold Kernel.doCopy fromUser System.fsMap
  dsimp only
  rw [Execs.copyAddr_proc _ _ _ hpath hb, Execs.copyAddr_proc _ _ _ hup hb]
  rfl

/-- A range in the data of FS is found there. -/
theorem umap_data {map : ProcMap} {offset : Nat} (h : Placed lay map) (hb : 0 < bytes)
    (hend : offset + bytes ≤ map.d.memLen * 16) :
    umap map D offset bytes = dataAddr map offset ∧ dataAddr map offset ≠ 0 := by
  have hlen := h.len
  have hphys := h.phys
  have hlast : lastClick offset bytes < map.d.memLen := by
    unfold lastClick
    omega
  have hch : chosenSeg map D (lastClick offset bytes) = map.d := by
    unfold chosenSeg
    rw [if_neg (by decide), h.data, if_pos (by omega)]
  have haddr : dataAddr map offset = map.d.memPhys * 16 + offset := by
    unfold dataAddr
    omega
  have hseg : segAddr map.d offset = dataAddr map offset := by
    unfold segAddr
    rw [h.data, if_neg (by omega), haddr]
    omega
  rw [Kernel.umap_eq hb, hch, hseg]
  exact ⟨rfl, by omega⟩

/-- A copy that the system task refuses. -/
theorem rwUser_refused (hpath : path < 65536) (hup : lay.userPath < 65536) (hb : bytes < 65536)
    (h : umap (s.kernel.pMap (slotOf who)) D path bytes = 0 ∨
      umap s.fsMap D lay.userPath bytes = 0) :
    rwUser s lay who path bytes = .error Kernel.EFAULT s.mem := by
  unfold rwUser
  rw [doCopy_fromUser hpath hup hb, if_pos h]
  rfl

/-- A copy that fits into `user_path`. -/
theorem rwUser_ok (hp : Placed lay s.fsMap) (hpath : path < 65536) (hpos : 0 < bytes)
    (hmax : bytes ≤ MAX_PATH) (h : umap (s.kernel.pMap (slotOf who)) D path bytes ≠ 0) :
    rwUser s lay who path bytes = .ok (physCopy s.mem
      ⟨umap (s.kernel.pMap (slotOf who)) D path bytes, dataAddr s.fsMap lay.userPath, bytes⟩) := by
  have hlen := hp.len
  have hup := hp.userPath
  have hmp : MAX_PATH = 128 := rfl
  obtain ⟨hdst, hne⟩ := umap_data hp hpos (by omega : lay.userPath + bytes ≤ _)
  unfold rwUser
  rw [doCopy_fromUser hpath (by omega) (by omega), hdst, if_neg (not_or.mpr ⟨h, hne⟩)]
  dsimp only
  rw [if_pos, if_pos rfl]
  · rfl
  · intro c hc
    obtain rfl := List.mem_singleton.mp hc
    refine ⟨le_refl _, ?_⟩
    dsimp only
    omega

/-- A copy that is longer than `user_path` misses it wherever it goes. -/
theorem rwUser_overrun (hpath : path < 65536) (hup : lay.userPath < 65536) (hb : bytes < 65536)
    (hmax : MAX_PATH < bytes) (h : umap (s.kernel.pMap (slotOf who)) D path bytes ≠ 0)
    (h' : umap s.fsMap D lay.userPath bytes ≠ 0) : rwUser s lay who path bytes = .overrun := by
  unfold rwUser
  rw [doCopy_fromUser hpath hup hb, if_neg (not_or.mpr ⟨h, h'⟩)]
  dsimp only
  rw [if_neg]
  intro hall
  have := hall _ (List.mem_singleton_self _)
  unfold Within at this
  dsimp only at this
  omega

end UserSpace

section Safety

variable {s : System} {lay : Layout} {who : FS.Proc} {path : Nat} {len : Int} {flag : NameFlag}

/-- The memory of a process as the memory manager sets it up: in one piece behind the text, with a
stack that starts below 64K. -/
structure Space (map : ProcMap) : Prop where
  words : Words map
  contiguous : Contiguous map
  stack : map.s.memVir < 4096

/-- There is something to copy: from the message, at least one character; from user space, a range
that lies in the memory of the caller. What is too long, empty or refused is answered with an
error, and so is a negative length if either of the two ranges is refused. -/
def Sound (s : System) (lay : Layout) (who : FS.Proc) (path : Nat) (len : Int) (flag : NameFlag) :
    Prop :=
  let caller := s.kernel.pMap (slotOf who)
  if flag = .M3 ∧ len ≤ M3_STRING then 0 < len
  else MAX_PATH < len ∨ len = 0 ∨ Refused caller D path (virBytes len) ∨
    if 0 < len then path + len ≤ (caller.s.memVir + caller.s.memLen) * 16
    else Refused s.fsMap D lay.userPath (virBytes len)

theorem image_data (map : ProcMap) (path : Nat) :
    image map D path = map.d.memPhys * 16 + (path - map.d.memVir * 16) := by
  unfold image
  rw [if_neg (by decide)]

/-- An address that is not refused is the right one. -/
theorem umap_image {map : ProcMap} {bytes : Nat} (h : Space map) (hb : 0 < bytes)
    (hr : ¬Refused map D path bytes) : umap map D path bytes = image map D path ∧
      umap map D path bytes ≠ 0 := by
  obtain ⟨hdata, hstack, -⟩ := h.contiguous
  have hlen := h.words.d
  have hs := h.stack
  obtain ⟨hne, he⟩ := Kernel.segAddr_eq hr
  refine ⟨?_, by rwa [Kernel.umap_eq hb]⟩
  rw [Kernel.umap_eq hb, he, image_data]
  unfold chosenSeg
  rw [if_neg (by decide)]
  split <;> omega

theorem umap_refused {map : ProcMap} {bytes : Nat} (h : Refused map D path bytes) :
    umap map D path bytes = 0 := by
  unfold umap
  split
  · rfl
  · exact Kernel.segAddr_beyond h

theorem umap_ne_zero {map : ProcMap} {bytes : Nat} (hb : 0 < bytes)
    (hr : ¬Refused map D path bytes) : umap map D path bytes ≠ 0 := by
  rw [Kernel.umap_eq hb]
  exact (Kernel.segAddr_eq hr).1

/-- Where the range of the caller lies in its memory. -/
theorem inside_iff {map : ProcMap} (h : Space map) : Inside map D (image map D path) len ↔
    path + len ≤ (map.s.memVir + map.s.memLen) * 16 := by
  obtain ⟨hdata, hstack, -⟩ := h.contiguous
  have hin : Inside map D (image map D path) len ↔ map.d.memPhys * 16 ≤ image map D path ∧
      image map D path + len ≤ (map.s.memPhys + map.s.memLen) * 16 := iff_of_eq (if_neg (by decide))
  rw [hin, image_data]
  omega

/-- A name from the message. -/
theorem fetchName_message (hp : Placed lay s.fsMap) (hm : flag = .M3 ∧ len ≤ M3_STRING)
    (hlen : -32768 ≤ len) : Safe s lay (s.kernel.pMap (slotOf who)) path len flag
      (fetchName s lay who path len flag) ↔ 0 < len := by
  have h3 : M3_STRING = 14 := rfl
  have hmp : MAX_PATH = 128 := rfl
  have hbase := hp.len
  have hup := hp.userPath
  have hpn := hp.pathname
  have hap := hp.apart
  obtain ⟨-, hle⟩ := id hm
  unfold fetchName
  rw [if_pos hm]
  by_cases hpos : 0 < len
  · have hroom : len ≤ MAX_PATH := by omega
    obtain ⟨mem', hc, hin, hout⟩ := copyMessage_spec s.fsMap s.mem lay.userPath
      lay.pathname hpos hroom (by omega) (by omega) (by omega) (by omega)
    rw [hc]
    refine iff_of_true ⟨fun a ha => hout a (by omega), ?_⟩ hpos
    unfold Exact
    rw [if_pos hm]
    exact fun i hi => hin i hi
  · have hnone : copyMessage s.fsMap MAX_PATH lay.userPath lay.pathname len s.mem = none := by
      rw [copyMessage_none_iff]
      unfold loopCount
      omega
    rw [hnone]
    exact iff_of_false id hpos

/-- A name from user space that is neither too long nor empty. -/
theorem rwUser_safe_iff (hp : Placed lay s.fsMap) (hc : Space (s.kernel.pMap (slotOf who)))
    (hpath : path < 65536) (hm : ¬(flag = .M3 ∧ len ≤ M3_STRING)) (hlen : -32768 ≤ len)
    (hmax : len ≤ MAX_PATH) (hne : len ≠ 0) :
    Safe s lay (s.kernel.pMap (slotOf who)) path len flag (rwUser s lay who path (virBytes len)) ↔
      Refused (s.kernel.pMap (slotOf who)) D path (virBytes len) ∨
        if 0 < len then path + len ≤
          ((s.kernel.pMap (slotOf who)).s.memVir + (s.kernel.pMap (slotOf who)).s.memLen) * 16
        else Refused s.fsMap D lay.userPath (virBytes len) := by
  have hmp : MAX_PATH = 128 := rfl
  have hup := hp.userPath
  have hdl := hp.len
  have hb : 0 < virBytes len ∧ virBytes len < 65536 := by
    unfold virBytes
    omega
  have hrefused : ∀ {o : Fetched}, o = .error Kernel.EFAULT s.mem →
      Safe s lay (s.kernel.pMap (slotOf who)) path len flag o := by
    rintro _ rfl
    exact ⟨by decide, fun a _ => rfl⟩
  by_cases hr : Refused (s.kernel.pMap (slotOf who)) D path (virBytes len)
  · have hr₀ : rwUser s lay who path (virBytes len) = .error Kernel.EFAULT s.mem :=
      rwUser_refused hpath (by omega) hb.2 (Or.inl (umap_refused hr))
    exact iff_of_true (hrefused hr₀) (Or.inl hr)
  · obtain ⟨him, hu⟩ := umap_image hc hb.1 hr
    rw [or_iff_right hr]
    by_cases hpos : 0 < len
    · have hvb : (virBytes len : Int) = len := by
        unfold virBytes
        omega
      rw [if_pos hpos, rwUser_ok hp hpath hb.1 (by omega) hu, him, hvb, ← inside_iff hc]
      unfold Safe Exact
      dsimp only
      rw [if_neg hm]
      constructor
      · exact fun h => h.2.1
      · refine fun h => ⟨fun a ha => if_neg ?_, h, fun i hi => ?_⟩
        · dsimp only
          omega
        · unfold pathByte physCopy
          dsimp only
          rw [if_pos (by omega)]
          congr 1
          omega
    · rw [if_neg hpos]
      by_cases hr' : Refused s.fsMap D lay.userPath (virBytes len)
      · have hr₀ : rwUser s lay who path (virBytes len) = .error Kernel.EFAULT s.mem :=
          rwUser_refused hpath (by omega) hb.2 (Or.inr (umap_refused hr'))
        exact iff_of_true (hrefused hr₀) hr'
      · have hlong : MAX_PATH < virBytes len := by
          unfold virBytes
          omega
        rw [rwUser_overrun hpath (by omega) hb.2 hlong hu (umap_ne_zero hb.1 hr')]
        exact iff_of_false id hr'

/-- `fetch_name` is safe exactly when there is something to copy, or an error to report. -/
theorem fetchName_safe_iff (hp : Placed lay s.fsMap) (hc : Space (s.kernel.pMap (slotOf who)))
    (hpath : path < 65536) (hlen : -32768 ≤ len) :
    Safe s lay (s.kernel.pMap (slotOf who)) path len flag (fetchName s lay who path len flag) ↔
      Sound s lay who path len flag := by
  unfold Sound
  dsimp only
  by_cases hm : flag = .M3 ∧ len ≤ M3_STRING
  · rw [if_pos hm]
    exact fetchName_message hp hm hlen
  · unfold fetchName
    rw [if_neg hm, if_neg hm]
    by_cases hlong : len > MAX_PATH
    · rw [if_pos hlong]
      exact iff_of_true ⟨by decide, fun a _ => rfl⟩ (Or.inl hlong)
    · rw [if_neg hlong, or_iff_right hlong]
      by_cases hz : len = 0
      · subst hz
        have hmp : MAX_PATH = 128 := rfl
        have hup := hp.userPath
        have hdl := hp.len
        have hu : umap (s.kernel.pMap (slotOf who)) D path (virBytes 0) = 0 := rfl
        rw [rwUser_refused hpath (by omega) (by decide) (Or.inl hu)]
        exact iff_of_true ⟨by decide, fun a _ => rfl⟩ (Or.inl rfl)
      · rw [or_iff_right hz]
        exact rwUser_safe_iff hp hc hpath hm hlen (not_lt.mp hlong) hz

end Safety

section Callers

/-! ## The calls that take a path -/

/-- The bytes of `user_path`. -/
def pathOf (map : ProcMap) (lay : Layout) (mem : Int → UInt8) : List UInt8 :=
  (List.range MAX_PATH).map (pathByte map lay mem)

/-- The path of a call, as far as the calls look at it. -/
def argOf (s : System) (lay : Layout) (who : FS.Proc) (path : Nat) (len : Int) : PathArg where
  len := len
  pathname := (List.range M3_STRING).map fun i => s.mem (dataAddr s.fsMap lay.pathname + i)
  copied := match rwUser s lay who path (virBytes len) with
    | .ok mem => .ok ((List.range len.toNat).map (pathByte s.fsMap lay mem))
    | .error errCode _ => .error errCode
    | .overrun => .ok []

/-- What a call finds after `fetch_name`. -/
def fetched (map : ProcMap) (lay : Layout) (t : Tables) : Fetched → Option (Except Int Tables)
  | .ok mem => some (.ok { t with userPath := pathOf map lay mem })
  | .error errCode _ => some (.error errCode)
  | .overrun => none

variable {s : System} {lay : Layout} {who : FS.Proc} {path : Nat} {len : Int} {flag : NameFlag}
  {t : Tables}

/-- The first places of an array are overwritten. -/
theorem range_overwrite {α : Type} {n m k : Nat} {f g h : Nat → α} (hk : k ≤ n) (hm : k ≤ m)
    (hnew : ∀ i < k, h i = g i) (hold : ∀ i < n, k ≤ i → h i = f i) :
    ((List.range m).map g).take k ++ ((List.range n).map f).drop k = (List.range n).map h := by
  refine List.ext_getElem ?_ fun i h₁ h₂ => ?_
  · simp
    omega
  · rw [List.length_map, List.length_range] at h₂
    rw [List.getElem_append]
    split
    · rename_i hi
      have : i < k := by
        simp at hi
        omega
      simp [hnew i this]
    · rename_i hi
      have hki : k ≤ i := by
        simp at hi
        omega
      have hlen : (((List.range m).map g).take k).length = k := by simp [hm]
      simp [hlen, hold i h₂ hki, hki]

/-- A name that has come into `user_path`, as the calls see it. -/
theorem setPath_pathOf {n k : Nat} {g : Nat → UInt8} {mem : Int → UInt8} (hk : k ≤ MAX_PATH)
    (hn : k ≤ n) (ht : t.userPath = pathOf s.fsMap lay s.mem)
    (hnew : ∀ i < k, pathByte s.fsMap lay mem i = g i)
    (hold : ∀ i, k ≤ i → pathByte s.fsMap lay mem i = pathByte s.fsMap lay s.mem i) :
    t.setPath k ((List.range n).map g) = { t with userPath := pathOf s.fsMap lay mem } := by
  unfold Tables.setPath
  rw [ht]
  exact congrArg (fun p => { t with userPath := p })
    (range_overwrite hk hn hnew fun i _ hi => hold i hi)

/-- The calls see of a copy from user space what happens to the bytes in memory. -/
theorem rwUser_fetched (hp : Placed lay s.fsMap) (hpath : path < 65536) (hlen : -32768 ≤ len)
    (hmax : len ≤ MAX_PATH) (ht : t.userPath = pathOf s.fsMap lay s.mem) :
    (match (argOf s lay who path len).copied with
      | .error e => some (.error e)
      | .ok l => if len < 0 then none else some (.ok (t.setPath len.toNat l))) =
      fetched s.fsMap lay t (rwUser s lay who path (virBytes len)) := by
  have hmp : MAX_PATH = 128 := rfl
  have hup := hp.userPath
  have hdl := hp.len
  have hb : virBytes len < 65536 := Execs.virBytes_lt len
  unfold argOf
  dsimp only
  by_cases hu : umap (s.kernel.pMap (slotOf who)) D path (virBytes len) = 0 ∨
      umap s.fsMap D lay.userPath (virBytes len) = 0
  · rw [rwUser_refused hpath (by omega) hb hu]
    rfl
  · obtain ⟨hu, hu'⟩ := not_or.mp hu
    have hpos : 0 < virBytes len := Nat.pos_of_ne_zero fun hz => hu (by rw [hz]; rfl)
    by_cases hneg : len < 0
    · have hlong : MAX_PATH < virBytes len := by
        unfold virBytes
        omega
      rw [rwUser_overrun hpath (by omega) hb hlong hu hu']
      exact if_pos hneg
    · have hvb : virBytes len = len.toNat := by
        unfold virBytes
        omega
      rw [rwUser_ok hp hpath hpos (by omega) hu]
      dsimp only
      rw [if_neg hneg, setPath_pathOf (by omega) (le_refl _) ht (fun i _ => rfl) fun i hi => ?_]
      · rfl
      · unfold pathByte physCopy
        dsimp only
        rw [if_neg (by omega)]

/-- The calls see of `fetch_name` what happens to the bytes in memory. -/
theorem fetchName_fetched (hp : Placed lay s.fsMap) (hpath : path < 65536) (hlen : -32768 ≤ len)
    (ht : t.userPath = pathOf s.fsMap lay s.mem) :
    FS.Inodes.fetchName t (argOf s lay who path len) flag =
      fetched s.fsMap lay t (fetchName s lay who path len flag) := by
  have h3 : M3_STRING = 14 := rfl
  have hmp : MAX_PATH = 128 := rfl
  have hbase := hp.len
  have hup := hp.userPath
  have hpn := hp.pathname
  have hap := hp.apart
  unfold FS.Inodes.fetchName fetchName
  rw [show (argOf s lay who path len).len = len from rfl]
  by_cases hm : flag = .M3 ∧ len ≤ M3_STRING
  · obtain ⟨-, hle⟩ := id hm
    rw [if_pos hm, if_pos hm]
    by_cases hpos : 0 < len
    · have hroom : len ≤ MAX_PATH := by omega
      obtain ⟨mem', hc, hin, hout⟩ := copyMessage_spec s.fsMap s.mem lay.userPath
        lay.pathname hpos hroom (by omega) (by omega) (by omega) (by omega)
      rw [if_neg (not_le.mpr hpos), hc]
      exact congrArg (some ∘ Except.ok) (setPath_pathOf (n := M3_STRING) (by omega)
        (by omega) ht (fun i hi => hin i (by omega)) fun i hi => hout _ (by omega))
    · have hnone : copyMessage s.fsMap MAX_PATH lay.userPath lay.pathname len s.mem = none := by
        rw [copyMessage_none_iff]
        unfold loopCount
        omega
      rw [if_pos (not_lt.mp hpos), hnone]
      rfl
  · rw [if_neg hm, if_neg hm]
    by_cases hlong : len > MAX_PATH
    · rw [if_pos hlong, if_pos hlong]
      rfl
    · rw [if_neg hlong, if_neg hlong]
      exact rwUser_fetched hp hpath hlen (not_lt.mp hlong) ht

end Callers

section Stops

open FS.Inodes

/-- The calls that take a path, each with its other parameters. The calls with two paths come twice:
once for each. -/
inductive PathCall where
  | creat (mode : Nat) (devOpen : Int)
  | mknod (mode addr : Nat)
  | openFile (mode : Int)
  | link (a₂ : PathArg)
  | linkTo (a₁ : PathArg)
  | unlink
  | chdir (slot1 : FS.Proc) (cdFlag : Bool)
  | chroot
  | stat (copied : Int)
  | chmod (mode : Nat)
  | chown (owner group : Int)
  | access (mode : Nat)
  | utime (updateTime : Int)
  | mount (a₂ : PathArg) (rdOnly : Bool)
  | mountOn (a₁ : PathArg) (rdOnly : Bool)
  | umount

/-- The flag with which a call fetches its path. -/
def PathCall.flag : PathCall → NameFlag
  | .mknod .. | .link _ | .linkTo _ | .stat _ | .chown .. | .utime _ => .M1
  | .mount .. | .mountOn .. => .M1
  | _ => .M3

variable {σ : Type}

/-- A call with its path. -/
def PathCall.run (d : Disk σ) (t : Tables) (who : FS.Proc) (a : PathArg) :
    PathCall → M σ (Int × Tables)
  | .creat mode devOpen => doCreat d t who a mode devOpen
  | .mknod mode addr => doMknod d t who a mode addr
  | .openFile mode => doOpen d t who a mode
  | .link a₂ => doLink d t who a a₂
  | .linkTo a₁ => doLink d t who a₁ a
  | .unlink => doUnlink d t who a
  | .chdir slot1 cdFlag => doChdir d t who a slot1 cdFlag
  | .chroot => doChroot d t who a
  | .stat copied => doStat d t who a copied
  | .chmod mode => doChmod d t who a mode
  | .chown owner group => doChown d t who a owner group
  | .access mode => doAccess d t who a mode
  | .utime updateTime => doUtime d t who a updateTime
  | .mount a₂ rdOnly => doMount d t who a a₂ rdOnly
  | .mountOn a₁ rdOnly => doMount d t who a₁ a rdOnly
  | .umount => doUmount d t who a

/-- `Reaches d who call t c t₁ c₁ t₂`: from `t` and `c` the call comes to fetch its path in `t₁` and
`c₁`, and leaves `t₂` when it gets none. -/
inductive Reaches (d : Disk σ) (who : FS.Proc) :
    PathCall → Tables → Core σ → Tables → Core σ → Tables → Prop
  | creat {mode devOpen t c} : Reaches d who (.creat mode devOpen) t c t c t
  | mknod {mode addr t c} (hsu : (t.fproc who).superUser) :
      Reaches d who (.mknod mode addr) t c t c t
  | openFile {mode bits t c} (hbits : modeMap mode = some bits) :
      Reaches d who (.openFile mode) t c t c t
  | link {a₂ t c} : Reaches d who (.link a₂) t c t c t
  | linkTo {a₁ rip t c t₁ c₁} (hfirst : linkable d t who a₁ c = some ((.ok rip, t₁), c₁)) :
      Reaches d who (.linkTo a₁) t c t₁ c₁ t₁
  | unlink {t c} : Reaches d who .unlink t c t c t
  | chdir {slot1 cdFlag t c} (hwho : who ≠ MM) : Reaches d who (.chdir slot1 cdFlag) t c t c t
  | chroot {t c} (hsu : (t.fproc who).superUser) : Reaches d who .chroot t c t c t
  | stat {copied t c} : Reaches d who (.stat copied) t c t c t
  | chmod {mode t c} : Reaches d who (.chmod mode) t c t c t
  | chown {owner group t c} (hsu : (t.fproc who).superUser) :
      Reaches d who (.chown owner group) t c t c t
  | access {mode t c} : Reaches d who (.access mode) t c t c t
  | utime {updateTime t c} : Reaches d who (.utime updateTime) t c t c t
  | mount {a₂ rdOnly t c} (hsu : (t.fproc who).superUser) :
      Reaches d who (.mount a₂ rdOnly) t c t c t
  | mountOn {a₁ rdOnly t c t₁ dev c₁ sp x c₂} (hsu : (t.fproc who).superUser)
      (hfirst : FS.Inodes.fetchName t a₁ .M1 = some (.ok t₁))
      (hdev : nameToDev d t₁ who c = some (.ok dev, c₁))
      (hnew : ¬∃ sp, (t₁.super sp).sDev = dev) (hfree : freeSuper t₁.super = some sp)
      (hread : onWorld (d.readSuper dev) c₁ = some (x, c₂))
      (hgood : Super.reasonable { x with sDev := dev } = true) :
      Reaches d who (.mountOn a₁ rdOnly) t c t₁ c₂ (t₁.setSuper sp { x with sDev := FS.NO_DEV })
  | umount {t c} (hsu : (t.fproc who).superUser) : Reaches d who .umount t c t c t

variable {d : Disk σ} {who : FS.Proc} {call : PathCall} {t t₁ t₂ : Tables} {c c₁ : Core σ}
  {a : PathArg} {e : Int}

theorem onFile_stops {flag : NameFlag} {f : (SuperPtr → Super) → Fproc → FS.InodePtr → M σ Int}
    (h : FS.Inodes.fetchName t a flag = some (.error e)) :
    onFile d t who a flag f c = some ((e, t), c) := by
  unfold onFile
  rw [h]
  rfl

theorem change_stops (h : FS.Inodes.fetchName t a .M3 = some (.error e)) :
    change d t who a c = some ((.error e, t), c) := by
  unfold change
  rw [h]
  rfl

theorem linkable_stops (h : FS.Inodes.fetchName t a .M1 = some (.error e)) :
    linkable d t who a c = some ((.error e, t), c) := by
  unfold linkable
  rw [h]
  rfl

/-- What follows a step that has succeeded. -/
theorem bind_of_some {α β : Type} {m : M σ α} {f : α → M σ β} {x : α} (h : m c = some (x, c₁)) :
    (m >>= f) c = f x c₁ := by
  show (m c).bind _ = _
  rw [h]
  rfl

/-- A call that gets no path returns the error, and does nothing more. -/
theorem Reaches.stops (hr : Reaches d who call t c t₁ c₁ t₂)
    (h : FS.Inodes.fetchName t₁ a call.flag = some (.error e)) :
    call.run d t who a c = some ((e, t₂), c₁) := by
  cases hr with
  | creat =>
    have h : FS.Inodes.fetchName t a .M3 = some (.error e) := h
    show doCreat d t who a _ _ c = _
    unfold doCreat
    rw [h]
    rfl
  | mknod hsu =>
    have h : FS.Inodes.fetchName t a .M1 = some (.error e) := h
    show doMknod d t who a _ _ c = _
    unfold doMknod
    dsimp only
    rw [if_neg (not_not_intro hsu), h]
    rfl
  | openFile hbits =>
    have h : FS.Inodes.fetchName t a .M3 = some (.error e) := h
    show doOpen d t who a _ c = _
    unfold doOpen
    rw [hbits, h]
    rfl
  | link =>
    show doLink d t who a _ c = _
    unfold doLink
    rw [bind_of_some (linkable_stops h)]
    rfl
  | linkTo hfirst =>
    have h : FS.Inodes.fetchName t₁ a .M1 = some (.error e) := h
    show doLink d t who _ a c = _
    unfold doLink
    rw [bind_of_some hfirst]
    dsimp only
    rw [h]
    rfl
  | unlink =>
    have h : FS.Inodes.fetchName t a .M3 = some (.error e) := h
    show doUnlink d t who a c = _
    unfold doUnlink
    rw [h]
    rfl
  | chdir hwho =>
    show doChdir d t who a _ _ c = _
    unfold doChdir
    rw [if_neg hwho, bind_of_some (change_stops h)]
    rfl
  | chroot hsu =>
    show doChroot d t who a c = _
    unfold doChroot
    rw [if_neg (not_not_intro hsu), bind_of_some (change_stops h)]
    rfl
  | stat =>
    show doStat d t who a _ c = _
    exact onFile_stops h
  | chmod =>
    show doChmod d t who a _ c = _
    exact onFile_stops h
  | chown hsu =>
    show doChown d t who a _ _ c = _
    unfold doChown
    rw [if_neg (not_not_intro hsu)]
    exact onFile_stops h
  | access =>
    show doAccess d t who a _ c = _
    exact onFile_stops h
  | utime =>
    show doUtime d t who a _ c = _
    exact onFile_stops h
  | mount hsu =>
    have h : FS.Inodes.fetchName t a .M1 = some (.error e) := h
    show doMount d t who a _ _ c = _
    unfold doMount
    dsimp only
    rw [if_neg (not_not_intro hsu), h]
    rfl
  | mountOn hsu hfirst hdev hnew hfree hread hgood =>
    have h : FS.Inodes.fetchName t₁ a .M1 = some (.error e) := h
    show doMount d t who _ a _ c = _
    unfold doMount
    dsimp only
    rw [if_neg (not_not_intro hsu), hfirst]
    have hlift : StateT.lift (some (Except.ok t₁ : Except Int Tables)) c = some (.ok t₁, c) := rfl
    refine (bind_of_some hlift).trans ?_
    refine (bind_of_some hdev).trans ?_
    dsimp only
    rw [if_neg hnew, hfree]
    refine (bind_of_some hread).trans ?_
    rw [if_neg (by rw [hgood]; decide), h]
    rfl
  | umount hsu =>
    have h : FS.Inodes.fetchName t a .M3 = some (.error e) := h
    show doUmount d t who a c = _
    unfold doUmount
    rw [if_neg (not_not_intro hsu), h]
    rfl

end Stops

/-- For every path pointer, length and flag: `fetch_name` ends with the caller's name in
`user_path`, or with an error, and has stored nowhere else, exactly when there is something to copy
or an error to report. And a call that gets an error returns it and does nothing more. -/
theorem fetch_name_safe_iff {s : System} {lay : Layout} {who : FS.Proc} {path : Nat}
    (hp : Placed lay s.fsMap) (hc : Space (s.kernel.pMap (slotOf who))) (hpath : path < 65536)
    (len : Int) (hlen : -32768 ≤ len) (flag : NameFlag) :
    (Safe s lay (s.kernel.pMap (slotOf who)) path len flag (fetchName s lay who path len flag) ↔
      Sound s lay who path len flag) ∧
    ∀ errCode mem, fetchName s lay who path len flag = .error errCode mem →
      ∀ (σ : Type) (d : FS.Inodes.Disk σ) (call : PathCall) (t t₁ t₂ : Tables)
        (c c₁ : FS.Inodes.Core σ), Reaches d who call t c t₁ c₁ t₂ → call.flag = flag →
        t₁.userPath = pathOf s.fsMap lay s.mem →
        call.run d t who (argOf s lay who path len) c = some ((errCode, t₂), c₁) := by
  refine ⟨fetchName_safe_iff hp hc hpath hlen, ?_⟩
  intro errCode mem he σ d call t t₁ t₂ c c₁ hr hflag ht
  refine hr.stops ?_
  rw [hflag, fetchName_fetched hp hpath hlen ht, he]
  rfl

section Example

/-- FS has 64 clicks of data, and everybody else the map of a small process. -/
def exampleMaps (rp : Slot) : ProcMap :=
  if rp = slotOf FS_PROC_NR then ⟨⟨0, 300, 64⟩, ⟨0, 364, 64⟩, ⟨64, 428, 0⟩⟩ else Kernel.userMap

/-- FS and a small process. -/
def exampleSystem : System where
  kernel := { Kernel.exampleStart with pMap := exampleMaps }
  mem _ := 47

/-- `user_path` at the start of the data, and the message behind it. -/
def exampleLayout : Layout := ⟨0, 200⟩

theorem exampleLayout_placed : Placed exampleLayout exampleSystem.fsMap :=
  ⟨rfl, by decide, by decide, by decide, by decide, by decide⟩

theorem exampleSystem_space : Space (exampleSystem.kernel.pMap (slotOf 2)) :=
  ⟨Kernel.userMap_words, Kernel.userMap_contiguous, by decide⟩

/-- A name of twenty bytes in the data of the process arrives. -/
theorem fetch_name_safe_iff_example : Safe exampleSystem exampleLayout
    (exampleSystem.kernel.pMap (slotOf 2)) 100 20 .M1
    (fetchName exampleSystem exampleLayout 2 100 20 .M1) := by
  refine (fetch_name_safe_iff exampleLayout_placed exampleSystem_space (by decide) 20 (by decide)
    .M1).1.mpr ?_
  unfold Sound
  dsimp only
  rw [if_neg (by decide), if_pos (by decide)]
  exact Or.inr (Or.inr (Or.inr (by decide)))

/-- A name in the message of which the length is given as 0 is copied over what lies behind
`user_path`. -/
theorem fetch_name_overrun : Placed exampleLayout exampleSystem.fsMap ∧
    Space (exampleSystem.kernel.pMap (slotOf 2)) ∧
    fetchName exampleSystem exampleLayout 2 100 0 .M3 = .overrun ∧
    ¬Safe exampleSystem exampleLayout (exampleSystem.kernel.pMap (slotOf 2)) 100 0 .M3
      (fetchName exampleSystem exampleLayout 2 100 0 .M3) := by
  have hnone : copyMessage exampleSystem.fsMap MAX_PATH exampleLayout.userPath
      exampleLayout.pathname 0 exampleSystem.mem = none := copyMessage_none_iff.mpr (by decide)
  have hover : fetchName exampleSystem exampleLayout 2 100 0 .M3 = .overrun := by
    unfold fetchName
    rw [if_pos (by decide), hnone]
  exact ⟨exampleLayout_placed, exampleSystem_space, hover, by rw [hover]; exact id⟩

end Example

end Minix.FetchNames
