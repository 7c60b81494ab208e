import Minix.Kernel.Interrupts
import Minix.Kernel.Umap

/-!
# Copies to and from user space

The system task copies for MM and FS, the terminal and printer tasks move characters, and
the memory task reads and writes its devices. Each of them gets the address in user space
from `umap`.

A copy is recorded with its addresses; what it copies does not matter here.
-/

namespace Minix.Kernel

/-- The physical copies `phys_copy(source, destination, bytecount)`. -/
structure PhysCopy where
  src : Int
  dst : Int
  bytes : Int
  deriving DecidableEq

/-- `(vir_bytes) n`. -/
def virBytes (n : Int) : Nat := (n % 65536).toNat

/-- this process means absolute memory -/
abbrev ABS : Int := -999

/-- bad address -/
abbrev EFAULT : Int := -14

/-- A message of type SYS_COPY. -/
structure CopyMess where
  srcSpace : Int
  srcProcNr : Int
  srcBuffer : Int
  dstSpace : Int
  dstProcNr : Int
  dstBuffer : Int
  copyBytes : Int

/-- One of the addresses of a copy. -/
def copyAddr (k : State) (proc space buffer bytes : Int) : Option Int :=
  if proc = ABS then some buffer
  else (procAddr proc).map fun rp => umap (k.pMap rp) space (virBytes buffer) (virBytes bytes)

/-- `sys_copy()`. Copy data for MM or FS. -/
def doCopy (k : State) (m : CopyMess) : Option (Int × List PhysCopy) := do
  let srcPhys ← copyAddr k m.srcProcNr m.srcSpace m.srcBuffer m.copyBytes
  let dstPhys ← copyAddr k m.dstProcNr m.dstSpace m.dstBuffer m.copyBytes
  return if srcPhys = 0 ∨ dstPhys = 0 then (EFAULT, []) else
    (OK, [⟨srcPhys, dstPhys, m.copyBytes⟩])

/-- input queue size -/
abbrev TTY_IN_BYTES : Nat := 200

/-- unit for copying to/from queues -/
abbrev TTY_BUF_SIZE : Nat := 256

/-- non-escaped CTRL-D stored as MARKER -/
abbrev MARKER : UInt8 := 0

/-- used in interrupts when tty has no data -/
abbrev SUSPEND : Int := -998

/-- What `rd_chars` looks at of a terminal. -/
structure TtyIn where
  inqueue : Fin TTY_IN_BYTES → UInt8
  intail : Fin TTY_IN_BYTES
  incount : Int
  lfct : Int
  /-- neither RAW nor CBREAK is set -/
  cooked : Bool
  inproc : Int
  inVir : Int
  inleft : Int

/-- What one run of the inner loop takes from the queue. -/
structure Load where
  tp : TtyIn
  buf : List UInt8
  enough : Nat
  eotSeen : Nat

/-- Fill one buffer. -/
def fillBuf : Nat → TtyIn → Load
  | 0, tp => ⟨tp, [], 0, 0⟩
  | bufCt + 1, tp =>
    let ch := tp.inqueue tp.intail
    let tp := { tp with intail := tp.intail + 1 }
    if ch = 10 ∨ ch = MARKER then
      let tp := { tp with lfct := tp.lfct - 1 }
      if tp.cooked then ⟨tp, [ch], 1, if ch = MARKER then 1 else 0⟩ -- only provide 1 line
      else
        let l := fillBuf bufCt tp
        { l with buf := ch :: l.buf, enough := l.enough + 1 }
    else
      let l := fillBuf bufCt tp
      { l with buf := ch :: l.buf }

/-- How many characters one buffer is to take. -/
def bufCount (tp : TtyIn) : Nat := (min (min tp.inleft tp.incount) TTY_BUF_SIZE).toNat

/-- bytes to copy to user: in cooked mode CTRL-D is not transmitted -/
def userCount (l : Load) : Int := if l.eotSeen ≠ 0 then l.buf.length - 1 else l.buf.length

/-- The counts of the terminal after a buffer load. -/
def afterLoad (l : Load) : TtyIn :=
  { l.tp with inleft := l.tp.inleft - l.buf.length, incount := l.tp.incount - l.buf.length }

/-- The outer loop, one buffer load per iteration. The counts `enough` and `eot_seen` start at 0 for
each, since a load that changes them is the last one. -/
def rdLoop (ttyPhys : Int) : Nat → TtyIn → Int → Int → Option (Int × List PhysCopy × TtyIn)
  | 0, tp, _, cum => if tp.inleft > 0 then none else some (cum, [], { tp with inleft := 0 })
  | fuel + 1, tp, userPhys, cum =>
    if tp.inleft > 0 then
      let l := fillBuf (bufCount tp) tp
      let copy : PhysCopy := ⟨ttyPhys, userPhys, userCount l⟩
      let tp := afterLoad l
      if tp.incount = 0 ∨ l.enough ≠ 0 then
        some (cum + userCount l, [copy], { tp with inleft := 0 })
      else (rdLoop ttyPhys fuel tp (userPhys + userCount l) (cum + userCount l)).map
        fun (cum, copies, tp) => (cum, copy :: copies, tp)
    else some (cum, [], { tp with inleft := 0 })

/-- A process wants to read from a terminal, and the buffer of the driver is at `ttyBuf`. The loop
takes at least one character each time. -/
def rdChars (k : State) (ttyBuf : Nat) (tp : TtyIn) : Option (Int × List PhysCopy × TtyIn) :=
  if tp.incount = 0 ∨ tp.cooked = true ∧ tp.lfct = 0 then some (SUSPEND, [], tp)
  else match procAddr tp.inproc with
    | none => none
    | some rp =>
      let userPhys := umap (k.pMap rp) D (virBytes tp.inVir) (virBytes tp.inleft)
      if userPhys = 0 then some (E_BAD_ADDR, [], tp)
      else rdLoop (umap (k.pMap (taskSlot TTY)) D ttyBuf TTY_BUF_SIZE) tp.inleft.toNat tp userPhys 0

/-- A message to a driver. -/
structure DevMess where
  mType : Int
  device : Int
  procNr : Int
  count : Int
  position : Int
  address : Int

/-- `do_write` of the terminal task: where the characters are, and how many. -/
def ttyWrite (k : State) (m : DevMess) : Option (Int × Int) :=
  (procAddr m.procNr).map fun rp =>
    let phys := umap (k.pMap rp) D (virBytes m.address) (virBytes m.count)
    (phys, if phys = 0 then 0 else m.count)

/-- The addresses of `n` bytes that are fetched one by one, by segment and offset. -/
def fetches (phys : Int) (n : Nat) : List Int :=
  (List.range n).map fun (i : Nat) => phys / 16 % 65536 * 16 + (phys % 16 + i) % 65536

/-- `console`, with the number of characters after which output is inhibited. -/
def console (out : Int × Int) (room : Nat) : (Int × Int) × List Int :=
  let count := min out.2.toNat room
  ((out.1 + count, out.2 - count), fetches out.1 count)

/-- The addresses that are fetched until a terminal has put out everything, or for ever. -/
def consoleFetches : Int × Int → List Nat → List Int
  | _, [] => []
  | out, room :: rooms => (console out room).2 ++ consoleFetches (console out room).1 rooms

abbrev EAGAIN : Int := -11
abbrev EINVAL : Int := -22
abbrev ENXIO : Int := -6
abbrev EOF : Int := -104

/-- `do_write` of the printer task, up to the start of the printer. -/
def prWrite (k : State) (prBusy : Bool) (m : DevMess) : Option (Int × Int) :=
  (procAddr m.procNr).map fun rp =>
    let phys := umap (k.pMap rp) D (virBytes m.address) (virBytes m.count)
    (if phys = 0 then E_BAD_ADDR else if m.count ≤ 0 then EINVAL else if prBusy then EAGAIN
      else OK, phys)

/-- number of RAM-type devices -/
abbrev NR_RAMS : Int := 4

/-- minor device for /dev/null -/
abbrev NULL_DEV : Int := 3

/-- fcn code to DISK -/
abbrev DISK_READ : Int := 3

/-- `(long) n`. -/
def long (n : Int) : Int := Int.bmod n 4294967296

/-- Where a position of a device is in memory. -/
def ramAddr (origin position : Int) : Int := long (origin + position)

/-- The count that is left at the end of the device. What it is cut down to is less than `count`. -/
def ramCount (limit memPhys count : Int) : Int :=
  if long (memPhys + count) > limit then limit - memPhys else count

/-- Read or write /dev/null, /dev/mem, /dev/kmem, or /dev/ram, with the origin and the limit of each
device. -/
def doMem (ramOrigin ramLimit : Int → Int) (k : State) (m : DevMess) :
    Option (Int × List PhysCopy) :=
  if m.device < 0 ∨ m.device ≥ NR_RAMS then some ( ENXIO, [])
  else if m.device = NULL_DEV then some (if m.mType = DISK_READ then EOF else m.count, [])
  else if m.position < 0 then some ( ENXIO, [])
  else
    let memPhys := ramAddr (ramOrigin m.device) m.position
    if memPhys ≥ ramLimit m.device then some (EOF, [])
    else (procAddr m.procNr).map fun rp =>
      let count := ramCount (ramLimit m.device) memPhys m.count
      let userPhys := umap (k.pMap rp) D (virBytes m.address) (virBytes count)
      if userPhys = 0 then (E_BAD_ADDR, [])
      else (count, [if m.mType = DISK_READ then ⟨memPhys, userPhys, count⟩
        else ⟨userPhys, memPhys, count⟩])

variable {k : State} {map : ProcMap} {seg : Int} {rp : Slot} {virAddr bytes : Nat}

/-- The range is one that keeps a process to its memory. -/
structure Keeps (map : ProcMap) (seg : Int) (virAddr bytes : Nat) : Prop where
  words : Words map
  contiguous : Contiguous map
  fits : Fits map seg virAddr bytes ∨ Refused map seg virAddr bytes

theorem virBytes_lt (n : Int) : virBytes n < 65536 := by
  unfold virBytes
  omega

theorem virBytes_of_lt {n : Int} (h : 0 ≤ n) (h' : n < 65536) : (virBytes n : Int) = n := by
  unfold virBytes
  omega

theorem Inside.part {pa n a b : Int} (h : Inside map seg pa n) (hlo : pa ≤ a)
    (hhi : a + b ≤ pa + n) : Inside map seg a b := by
  unfold Inside at h ⊢
  split
  · rw [if_pos ‹_›] at h
    omega
  · rw [if_neg ‹_›] at h
    omega

/-- An address that is not refused starts a range in the memory of the process. -/
theorem Keeps.inside {buffer count : Int} (hk : Keeps map seg (virBytes buffer) (virBytes count))
    (hne : umap map seg (virBytes buffer) (virBytes count) ≠ 0) (hc : 0 ≤ count)
    (hc' : count < 65536) :
    Inside map seg (umap map seg (virBytes buffer) (virBytes count)) count := by
  have hb : 0 < virBytes count := by
    by_contra hz
    exact hne (if_pos (Nat.eq_zero_of_not_pos hz))
  have hin := ((confined_iff hk.words hk.contiguous (virBytes_lt buffer) hb).mpr hk.fits hne).1
  rwa [virBytes_of_lt hc hc'] at hin

/-- One side of a copy by the system task. -/
theorem copyAddr_inside {proc space buffer n pa : Int}
    (h : copyAddr k proc space buffer n = some pa) (hpa : pa ≠ 0) (hn : 0 ≤ n) (hn' : n < 65536)
    (hproc : proc ≠ ABS) (hrp : procAddr proc = some rp)
    (hk : Keeps (k.pMap rp) space (virBytes buffer) (virBytes n)) :
    Inside (k.pMap rp) space pa n := by
  unfold copyAddr at h
  rw [if_neg hproc, hrp] at h
  obtain rfl := Option.some.inj h
  exact hk.inside hpa hn hn'

section Terminal

variable {tp tp' : TtyIn} {l : Load} {userPhys : Int}

/-- The counts of the terminal are brought up to date after the load. -/
theorem fillBuf_counts (n : Nat) (tp : TtyIn) : (fillBuf n tp).tp.inleft = tp.inleft ∧
    (fillBuf n tp).tp.incount = tp.incount := by
  induction n generalizing tp with
  | zero => exact ⟨rfl, rfl⟩
  | succ n ih =>
    rw [fillBuf]
    dsimp only
    split
    · split
      · exact ⟨rfl, rfl⟩
      · exact ih _
    · exact ih _

/-- A buffer that is to take something does. -/
theorem fillBuf_pos {n : Nat} (hn : 0 < n) (tp : TtyIn) : 0 < (fillBuf n tp).buf.length := by
  obtain ⟨n, rfl⟩ := Nat.exists_eq_succ_of_ne_zero hn.ne'
  rw [Nat.succ_eq_add_one, fillBuf]
  dsimp only
  split
  · split
    · exact Nat.one_pos
    · exact Nat.succ_pos _
  · exact Nat.succ_pos _

/-- The buffer takes no more than it is to take, and a CTRL-D is one of the characters. -/
theorem fillBuf_length (n : Nat) (tp : TtyIn) : (fillBuf n tp).buf.length ≤ n ∧
    ((fillBuf n tp).eotSeen ≠ 0 → (fillBuf n tp).buf.length ≠ 0) := by
  induction n generalizing tp with
  | zero => exact ⟨le_refl 0, fun h => absurd rfl h⟩
  | succ n ih =>
    rw [fillBuf]
    dsimp only
    split
    · split
      · exact ⟨Nat.succ_le_succ (Nat.zero_le n), fun _ => Nat.one_ne_zero⟩
      · exact ⟨Nat.succ_le_succ (ih _).1, fun _ => Nat.succ_ne_zero _⟩
    · exact ⟨Nat.succ_le_succ (ih _).1, fun _ => Nat.succ_ne_zero _⟩

theorem userCount_le (h : l.eotSeen ≠ 0 → l.buf.length ≠ 0) :
    0 ≤ userCount l ∧ userCount l ≤ l.buf.length := by
  unfold userCount
  split
  · have := h ‹_›
    omega
  · omega

/-- All that the loop copies lies in the buffer of the user. -/
theorem rdLoop_bounds {ttyPhys cum n : Int} {fuel : Nat} {copies : List PhysCopy}
    (h : rdLoop ttyPhys fuel tp userPhys cum = some (n, copies, tp')) :
    ∀ c ∈ copies, userPhys ≤ c.dst ∧ c.dst + c.bytes ≤ userPhys + tp.inleft := by
  induction fuel generalizing tp userPhys cum n copies tp' with
  | zero =>
    rw [rdLoop] at h
    split at h
    · cases h
    · cases h
      exact fun c hc => (nomatch hc)
  | succ fuel ih =>
    rw [rdLoop] at h
    split at h
    · rename_i hleft
      obtain ⟨hlen, heot⟩ := fillBuf_length (bufCount tp) tp
      obtain ⟨hlo, hhi⟩ := userCount_le heot
      have hcount : (bufCount tp : Int) ≤ tp.inleft := by
        unfold bufCount
        omega
      have hfirst : userPhys ≤ userPhys ∧ userPhys + userCount (fillBuf (bufCount tp) tp) ≤
          userPhys + tp.inleft := by
        omega
      dsimp only at h
      split at h
      · cases h
        exact fun c hc => List.mem_singleton.mp hc ▸ hfirst
      · obtain ⟨⟨n', copies', tp''⟩, hr, he⟩ := Option.map_eq_some_iff.mp h
        cases he
        intro c hc
        rcases List.mem_cons.mp hc with rfl | hc
        · exact hfirst
        · have hrest := ih hr c hc
          have hinleft : (afterLoad (fillBuf (bufCount tp) tp)).inleft =
              tp.inleft - (fillBuf (bufCount tp) tp).buf.length := by
            rw [← (fillBuf_counts (bufCount tp) tp).1]
            rfl
          rw [hinleft] at hrest
          omega
    · cases h
      exact fun c hc => (nomatch hc)

/-- Each iteration takes characters, so the loop ends when there are any. -/
theorem rdLoop_total {fuel : Nat} (hin : 0 < tp.incount) (hf : tp.inleft ≤ fuel)
    (ttyPhys userPhys cum : Int) : (rdLoop ttyPhys fuel tp userPhys cum).isSome = true := by
  induction fuel generalizing tp userPhys cum with
  | zero =>
    rw [rdLoop, if_neg (by omega)]
    rfl
  | succ fuel ih =>
    rw [rdLoop]
    split
    · obtain ⟨hlen, -⟩ := fillBuf_length (bufCount tp) tp
      obtain ⟨hleft, hcount⟩ := fillBuf_counts (bufCount tp) tp
      have hb : 0 < bufCount tp ∧ (bufCount tp : Int) ≤ tp.incount := by
        unfold bufCount
        change 0 < (min (min tp.inleft tp.incount) 256).toNat ∧
          ((min (min tp.inleft tp.incount) 256).toNat : Int) ≤ tp.incount
        omega
      have hpos := fillBuf_pos hb.1 tp
      dsimp only
      split
      · rfl
      · rename_i hmore
        have hne : (fillBuf (bufCount tp) tp).tp.incount -
            (fillBuf (bufCount tp) tp).buf.length ≠ 0 := fun h => hmore (Or.inl h)
        rw [Option.isSome_map]
        refine ih ?_ ?_ _ _
        · change 0 < (fillBuf (bufCount tp) tp).tp.incount - (fillBuf (bufCount tp) tp).buf.length
          omega
        · change (fillBuf (bufCount tp) tp).tp.inleft - (fillBuf (bufCount tp) tp).buf.length ≤ fuel
          omega
    · rfl

theorem rdChars_inside {ttyBuf : Nat} {n : Int} {copies : List PhysCopy}
    (h : rdChars k ttyBuf tp = some (n, copies, tp')) (hleft : 0 ≤ tp.inleft)
    (hleft' : tp.inleft < 65536) (hrp : procAddr tp.inproc = some rp)
    (hk : Keeps (k.pMap rp) D (virBytes tp.inVir) (virBytes tp.inleft)) :
    ∀ c ∈ copies, Inside (k.pMap rp) D c.dst c.bytes := by
  unfold rdChars at h
  rw [hrp] at h
  split at h
  · cases h
    exact fun c hc => (nomatch hc)
  · dsimp only at h
    split at h
    · cases h
      exact fun c hc => (nomatch hc)
    · intro c hc
      obtain ⟨hlo, hhi⟩ := rdLoop_bounds h c hc
      exact (hk.inside ‹_› hleft hleft').part hlo hhi

/-- Bytes below 1M that are fetched are the next ones, as long as the offset has room. -/
theorem mem_fetches {phys a : Int} {n : Nat} (h : a ∈ fetches phys n) (hlo : 0 ≤ phys)
    (hhi : phys + n ≤ 1048576) (hn : n < 32768) : phys ≤ a ∧ a + 1 ≤ phys + n := by
  obtain ⟨i, hi, rfl⟩ := List.mem_map.mp h
  have hi := List.mem_range.mp hi
  omega

/-- A terminal only fetches what is left of the range. -/
theorem mem_consoleFetches {out : Int × Int} {rooms : List Nat} {a : Int}
    (h : a ∈ consoleFetches out rooms) (hlo : 0 ≤ out.1) (hhi : out.1 + out.2 ≤ 1048576)
    (hn : out.2 < 32768) : out.1 ≤ a ∧ a + 1 ≤ out.1 + out.2 := by
  induction rooms generalizing out with
  | nil => cases h
  | cons room rooms ih =>
    have hcount : ((min out.2.toNat room : Nat) : Int) ≤ max out.2 0 := by omega
    rcases List.mem_append.mp h with h | h
    · have hpos : 0 < min out.2.toNat room := by
        by_contra hz
        have hz : min out.2.toNat room = 0 := by omega
        unfold console at h
        dsimp only at h
        rw [hz] at h
        cases h
      have := mem_fetches h hlo (by omega) (by omega)
      omega
    · obtain ⟨h₁, h₂⟩ := ih h (by change 0 ≤ out.1 + _; omega)
        (by change out.1 + _ + (out.2 - _) ≤ _; omega) (by change out.2 - _ < _; omega)
      change out.1 + ((min out.2.toNat room : Nat) : Int) ≤ a at h₁
      change a + 1 ≤ out.1 + ((min out.2.toNat room : Nat) : Int) +
        (out.2 - ((min out.2.toNat room : Nat) : Int)) at h₂
      omega

end Terminal

/-- The memory of the process has an address of 20 bits. -/
def Below1M (map : ProcMap) : Prop := map.s.memPhys + map.s.memLen ≤ 65536

theorem Inside.below {pa n : Int} (h : Inside map D pa n) (hm : Below1M map) :
    0 ≤ pa ∧ pa + n ≤ 1048576 := by
  unfold Inside at h
  rw [if_neg (by decide)] at h
  unfold Below1M at hm
  omega

theorem ttyWrite_inside {m : DevMess} {out : Int × Int} (h : ttyWrite k m = some out)
    (hn : 0 ≤ m.count) (hn' : m.count < 32768) (hrp : procAddr m.procNr = some rp)
    (hk : Keeps (k.pMap rp) D (virBytes m.address) (virBytes m.count)) (hm : Below1M (k.pMap rp))
    (rooms : List Nat) : ∀ a ∈ consoleFetches out rooms, Inside (k.pMap rp) D a 1 := by
  unfold ttyWrite at h
  rw [hrp] at h
  have hout : (umap (k.pMap rp) D (virBytes m.address) (virBytes m.count),
      if umap (k.pMap rp) D (virBytes m.address) (virBytes m.count) = 0 then 0 else m.count) = out :=
    Option.some.inj h
  have hphys := congrArg Prod.fst hout
  have hleft := congrArg Prod.snd hout
  dsimp only at hphys hleft
  intro a ha
  split at hleft
  · rename_i hz
    have := mem_consoleFetches ha (by omega) (by omega) (by omega)
    omega
  · have hin := hk.inside ‹_› hn (by omega)
    obtain ⟨hlo, hhi⟩ := hin.below hm
    have := mem_consoleFetches ha (by omega) (by omega) (by omega)
    exact hin.part (by omega) (by omega)

theorem prWrite_inside {m : DevMess} {prBusy : Bool} {phys : Int} {n : Nat}
    (h : prWrite k prBusy m = some (OK, phys)) (hn' : m.count < 32768)
    (hrp : procAddr m.procNr = some rp)
    (hk : Keeps (k.pMap rp) D (virBytes m.address) (virBytes m.count)) (hm : Below1M (k.pMap rp))
    (hn : n ≤ m.count) : ∀ a ∈ fetches phys n, Inside (k.pMap rp) D a 1 := by
  unfold prWrite at h
  rw [hrp] at h
  have h := Option.some.inj h
  simp only [Prod.mk.injEq] at h
  obtain ⟨hok, rfl⟩ := h
  by_cases hz : umap (k.pMap rp) D (virBytes m.address) (virBytes m.count) = 0
  · rw [if_pos hz] at hok
    exact absurd hok (by decide)
  · intro a ha
    have hin := hk.inside hz (by omega) (by omega)
    obtain ⟨hlo, hhi⟩ := hin.below hm
    have := mem_fetches ha hlo (by omega) (by omega)
    exact hin.part this.1 (by omega)

/-- A long differs from the number by a multiple of 2^32. -/
theorem long_cases (n : Int) :
    (∃ q, long n = n - 4294967296 * q) ∧ -2147483648 ≤ long n ∧ long n < 2147483648 := by
  have hm : ((4294967296 : Nat) : Int) = 4294967296 := rfl
  unfold long
  rw [Int.bmod_def, hm]
  split
  · exact ⟨⟨n / 4294967296, by omega⟩, by omega, by omega⟩
  · exact ⟨⟨n / 4294967296 + 1, by omega⟩, by omega, by omega⟩

theorem long_eq {n : Int} (h : -2147483648 ≤ n) (h' : n < 2147483648) : long n = n := by
  obtain ⟨⟨q, hq⟩, hlo, hhi⟩ := long_cases n
  omega

/-- The count of a transfer that starts below the limit. -/
theorem ramCount_bounds {limit memPhys count : Int}
    (h : -2147483648 ≤ memPhys ∧ memPhys < 2147483648) (hlt : ¬memPhys ≥ limit) (hc : 0 ≤ count) :
    0 ≤ ramCount limit memPhys count ∧ ramCount limit memPhys count ≤ count := by
  obtain ⟨⟨q, hq⟩, hlo, hhi⟩ := long_cases (memPhys + count)
  unfold ramCount
  split
  · constructor <;> omega
  · exact ⟨hc, le_rfl⟩

theorem doMem_inside {ramOrigin ramLimit : Int → Int} {m : DevMess} {n : Int}
    {copies : List PhysCopy} (h : doMem ramOrigin ramLimit k m = some (n, copies))
    (hn : 0 ≤ m.count) (hn' : m.count < 32768) (hrp : procAddr m.procNr = some rp)
    (hk : Keeps (k.pMap rp) D (virBytes m.address)
      (virBytes (ramCount (ramLimit m.device) (ramAddr (ramOrigin m.device) m.position) m.count))) :
    ∀ c ∈ copies, Inside (k.pMap rp) D (if m.mType = DISK_READ then c.dst else c.src) c.bytes := by
  unfold doMem at h
  rw [hrp] at h
  split at h
  · cases h
    exact fun c hc => (nomatch hc)
  · split at h
    · cases h
      exact fun c hc => (nomatch hc)
    · split at h
      · cases h
        exact fun c hc => (nomatch hc)
      · dsimp only at h
        split at h
        · cases h
          exact fun c hc => (nomatch hc)
        · rename_i hend
          have hcount := ramCount_bounds (long_cases _).2 hend hn
          have h := Option.some.inj h
          dsimp only at h
          split at h
          · cases h
            exact fun c hc => (nomatch hc)
          · cases h
            intro c hc
            obtain rfl := List.mem_singleton.mp hc
            have hin := hk.inside ‹_› hcount.1 (hcount.2.trans_lt (by omega))
            split
            · exact hin
            · exact hin

/-- An address that `umap` returns starts a range in the memory of the process, where it belongs,
just when the range fits in there. So the tasks copy to and from users in their own memory, as long
as the ranges are such. -/
theorem umap_confinement (k : State) (rp : Slot) :
    (∀ map seg virAddr bytes, Words map → Contiguous map → virAddr < 65536 → 0 < bytes →
      bytes < 65536 → (Confined map seg virAddr bytes ↔
        Fits map seg virAddr bytes ∨ Refused map seg virAddr bytes)) ∧
    (∀ m n copies, doCopy k m = some (n, copies) → 0 ≤ m.copyBytes → m.copyBytes < 65536 →
      ∀ c ∈ copies,
        (m.srcProcNr ≠ ABS → procAddr m.srcProcNr = some rp →
          Keeps (k.pMap rp) m.srcSpace (virBytes m.srcBuffer) (virBytes m.copyBytes) →
          Inside (k.pMap rp) m.srcSpace c.src c.bytes) ∧
        (m.dstProcNr ≠ ABS → procAddr m.dstProcNr = some rp →
          Keeps (k.pMap rp) m.dstSpace (virBytes m.dstBuffer) (virBytes m.copyBytes) →
          Inside (k.pMap rp) m.dstSpace c.dst c.bytes)) ∧
    (∀ ttyBuf tp n copies tp', rdChars k ttyBuf tp = some (n, copies, tp') → 0 ≤ tp.inleft →
      tp.inleft < 65536 → procAddr tp.inproc = some rp →
      Keeps (k.pMap rp) D (virBytes tp.inVir) (virBytes tp.inleft) →
      ∀ c ∈ copies, Inside (k.pMap rp) D c.dst c.bytes) ∧
    (∀ m, 0 ≤ m.count → m.count < 32768 → procAddr m.procNr = some rp →
      Keeps (k.pMap rp) D (virBytes m.address) (virBytes m.count) → Below1M (k.pMap rp) →
      (∀ out rooms, ttyWrite k m = some out →
        ∀ a ∈ consoleFetches out rooms, Inside (k.pMap rp) D a 1) ∧
      ∀ prBusy phys, prWrite k prBusy m = some (OK, phys) →
        ∀ n : Nat, n ≤ m.count → ∀ a ∈ fetches phys n, Inside (k.pMap rp) D a 1) ∧
    ∀ ramOrigin ramLimit m n copies, doMem ramOrigin ramLimit k m = some (n, copies) →
      0 ≤ m.count → m.count < 32768 → procAddr m.procNr = some rp →
      Keeps (k.pMap rp) D (virBytes m.address)
        (virBytes (ramCount (ramLimit m.device) (ramAddr (ramOrigin m.device) m.position)
          m.count)) →
      ∀ c ∈ copies,
        Inside (k.pMap rp) D (if m.mType = DISK_READ then c.dst else c.src) c.bytes := by
  refine ⟨fun map seg virAddr bytes hw hc hva hb _ => confined_iff hw hc hva hb,
    fun m n copies h hn hn' => ?_, fun ttyBuf tp n copies tp' h hl hl' hrp hk =>
      rdChars_inside h hl hl' hrp hk, fun m hn hn' hrp hk hm => ⟨fun out rooms h =>
      ttyWrite_inside h hn hn' hrp hk hm rooms, fun prBusy phys h n hle =>
      prWrite_inside h hn' hrp hk hm hle⟩, fun ramOrigin ramLimit m n copies h hn hn' hrp hk =>
      doMem_inside h hn hn' hrp hk⟩
  obtain ⟨srcPhys, hsrc, h⟩ := Option.bind_eq_some_iff.mp h
  obtain ⟨dstPhys, hdst, h⟩ := Option.bind_eq_some_iff.mp h
  have h := Option.some.inj h
  split at h
  · cases h
    exact fun c hc => (nomatch hc)
  · rename_i hne
    cases h
    intro c hc
    obtain rfl := List.mem_singleton.mp hc
    obtain ⟨hsne, hdne⟩ := not_or.mp hne
    exact ⟨fun hp hrp hk => copyAddr_inside hsrc hsne hn hn' hp hrp hk,
      fun hp hrp hk => copyAddr_inside hdst hdne hn hn' hp hrp hk⟩

section Example

/-- A small process: 64 clicks of text, and 32 of data, a gap of 16 and 16 of stack. -/
def userMap : ProcMap := ⟨⟨0, 500, 64⟩, ⟨0, 564, 32⟩, ⟨48, 612, 16⟩⟩

theorem userMap_words : Words userMap := ⟨by decide, by decide, by decide⟩

theorem userMap_contiguous : Contiguous userMap := ⟨rfl, rfl, by decide⟩

/-- FS copies what reaches from the data into the gap. -/
theorem umap_confinement_example : Confined userMap D 480 200 ∧
    doCopy { exampleStart with pMap := fun _ => userMap } ⟨D, 2, 480, D, 1, 0, 200⟩ =
      some (OK, [⟨9504, 9024, 200⟩]) ∧ Inside userMap D 9504 200 := by
  have hfits : Fits userMap D 480 200 := by
    unfold Fits
    exact if_neg (by decide : ¬D = T) ▸ ⟨by decide, Or.inr (by decide)⟩
  refine ⟨((umap_confinement exampleStart 10).1 userMap D 480 200 userMap_words
    userMap_contiguous (by decide) (by decide) (by decide)).mpr (Or.inl hfits), by decide, ?_⟩
  exact ((umap_confinement { exampleStart with pMap := fun _ => userMap } 10).2.1
    ⟨D, 2, 480, D, 1, 0, 200⟩ OK [⟨9504, 9024, 200⟩] (by decide) (by decide) (by decide)
    ⟨9504, 9024, 200⟩ (List.mem_singleton.mpr rfl)).1 (by decide) (by decide)
    ⟨userMap_words, userMap_contiguous, Or.inl hfits⟩

/-- A buffer that starts in the data and ends beyond the stack is accepted. -/
theorem umap_confinement_overrun : ¬∀ map seg virAddr bytes, Words map → Contiguous map →
    virAddr < 65536 → 0 < bytes → bytes < 65536 → Confined map seg virAddr bytes := by
  intro h
  have hin := (h userMap D 480 4000 userMap_words userMap_contiguous (by decide) (by decide)
    (by decide) (by decide)).1
  unfold Inside at hin
  rw [if_neg (by decide)] at hin
  exact absurd hin.2 (by decide)

end Example

end Minix.Kernel
