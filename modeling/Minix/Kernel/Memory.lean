import Minix.Kernel.UserCopies

/-!
# The memory task

The RAM disk, `/dev/mem` and `/dev/kmem` are pieces of memory, each with an origin and a limit. A
position is added to the origin as a long, and `phys_copy` keeps 20 bits of an address.
-/

namespace Minix.Kernel

open Function

/-- memory size for /dev/mem -/
abbrev MEM_BYTES : Int := 655360

/-- minor device for /dev/ram -/
abbrev RAM_DEV : Int := 0

/-- minor device for /dev/mem -/
abbrev MEM_DEV : Int := 1

/-- minor device for /dev/kmem -/
abbrev KMEM_DEV : Int := 2

/-- fcn code to DISK (must equal TTY_WRITE) -/
abbrev DISK_WRITE : Int := 4

/-- fcn code for setting up RAM disk -/
abbrev DISK_IOCTL : Int := 5

/-- # bytes in a disk block -/
abbrev BLOCK_SIZE : Int := 1024

/-- Origin and limit of each RAM disk. -/
structure Rams where
  ramOrigin : Int → Int
  ramLimit : Int → Int

/-- How `mem_task` initializes itself, with the first click of the kernel, and the clicks of its
text and its data. Their sum is shifted as a word. -/
def memTask (base size0 size1 : Nat) : Rams where
  ramOrigin dev := if dev = KMEM_DEV then long (base * 16) else 0
  ramLimit dev :=
    if dev = KMEM_DEV then ((size0 + size1) * 16 % 65536 : Nat)
    else if dev = MEM_DEV then MEM_BYTES else 0

/-- Set parameters for one of the disk RAMs. -/
def doSetup (r : Rams) (m : DevMess) : Int × Rams :=
  if m.device < 0 ∨ m.device ≥ NR_RAMS then ( ENXIO, r)
  else ( OK, ⟨update r.ramOrigin m.device m.position,
    update r.ramLimit m.device (long (m.position + long (m.count * BLOCK_SIZE)))⟩)

/-- Carry out the work of a message. It depends on the opcode. -/
def memWork (k : State) (r : Rams) (m : DevMess) : Option ((Int × List PhysCopy) × Rams) :=
  if m.mType = DISK_READ ∨ m.mType = DISK_WRITE then
    (doMem r.ramOrigin r.ramLimit k m).map fun out => (out, r)
  else if m.mType = DISK_IOCTL then some (((doSetup r m).1, []), (doSetup r m).2)
  else some ((EINVAL, []), r)

/-- A physical address that `phys_copy` uses: a click in a segment register, and an offset. -/
def physByte (a i : Int) : Int := (a / 16 % 65536 * 16 + (a % 16 + i)) % 1048576

/-- The address on the device, of the two that are given to `phys_copy`. -/
def deviceSide (m : DevMess) (c : PhysCopy) : Int := if m.mType = DISK_READ then c.src else c.dst

theorem physByte_eq (a i : Int) : physByte a i = (a + i) % 1048576 := by
  unfold physByte
  omega

/-- A message has integers and longs in it. -/
structure Sized (m : DevMess) : Prop where
  position : -2147483648 ≤ m.position ∧ m.position < 2147483648

/-- Origins and limits that the memory task can get to. -/
inductive SetUp : Rams → Prop
  | start (base size0 size1 : Nat) : SetUp (memTask base size0 size1)
  | work {k : State} {r r' : Rams} {m : DevMess} {out : Int × List PhysCopy} :
      SetUp r → Sized m → memWork k r m = some (out, r') → SetUp r'

/-- The numbers are longs. -/
structure Longs (r : Rams) : Prop where
  origin : ∀ dev, -2147483648 ≤ r.ramOrigin dev ∧ r.ramOrigin dev < 2147483648
  limit : ∀ dev, -2147483648 ≤ r.ramLimit dev ∧ r.ramLimit dev < 2147483648

section Devices

variable {k : State} {r r' : Rams} {m : DevMess} {out : Int × List PhysCopy} {rp : Slot}

theorem memTask_longs (base size0 size1 : Nat) : Longs (memTask base size0 size1) := by
  constructor
  · intro dev
    unfold memTask
    dsimp only
    split
    · exact (long_cases _).2
    · decide
  · intro dev
    unfold memTask
    dsimp only
    split
    · omega
    · split <;> decide

theorem Longs.setup (h : Longs r) (hm : Sized m) : Longs (doSetup r m).2 := by
  unfold doSetup
  split
  · exact h
  · constructor
    · intro dev
      by_cases hd : dev = m.device
      · subst hd
        simpa only [update_self] using hm.position
      · simpa only [update_of_ne hd] using h.origin dev
    · intro dev
      by_cases hd : dev = m.device
      · subst hd
        simpa only [update_self] using (long_cases _).2
      · simpa only [update_of_ne hd] using h.limit dev

/-- What one message does to the origins and limits. -/
theorem memWork_rams (he : memWork k r m = some (out, r')) : r' = r ∨ r' = (doSetup r m).2 := by
  unfold memWork at he
  split at he
  · obtain ⟨_, -, h⟩ := Option.map_eq_some_iff.mp he
    exact Or.inl (Prod.mk.inj h).2.symm
  · split at he
    · exact Or.inr (Prod.mk.inj (Option.some.inj he)).2.symm
    · exact Or.inl (Prod.mk.inj (Option.some.inj he)).2.symm

theorem SetUp.longs (h : SetUp r) : Longs r := by
  induction h with
  | start base size0 size1 => exact memTask_longs base size0 size1
  | work _ hm he ih =>
    rcases memWork_rams he with rfl | rfl
    · exact ih
    · exact ih.setup hm

/-! ## One request -/

/-- The size of a device. -/
def ramSize (r : Rams) (m : DevMess) : Int := r.ramLimit m.device - r.ramOrigin m.device

/-- A request that is not for the null device: it moves some bytes from or to a position. -/
structure Request (m : DevMess) (rp : Slot) : Prop where
  opcode : m.mType = DISK_READ ∨ m.mType = DISK_WRITE
  device : 0 ≤ m.device ∧ m.device < NR_RAMS
  notNull : m.device ≠ NULL_DEV
  position : 0 ≤ m.position ∧ m.position ≤ 2147483647
  count : 0 < m.count ∧ m.count ≤ 32767
  user : procAddr m.procNr = some rp

/-- The bytes of a copy that are on the device lie between its origin and its limit. -/
def WithinDevice (r : Rams) (m : DevMess) (c : PhysCopy) : Prop :=
  ∀ i, 0 ≤ i → i < c.bytes → r.ramOrigin m.device ≤ physByte (deviceSide m c) i ∧
    physByte (deviceSide m c) i < r.ramLimit m.device

/-- As many bytes as there are, but not more than are asked for. -/
def ramBytes (r : Rams) (m : DevMess) : Int := min m.count (ramSize r m - m.position)

/-- A request is served from the device, and from nothing else. -/
structure DeviceServes (k : State) (r : Rams) (m : DevMess) : Prop where
  confined : ∀ n copies, doMem r.ramOrigin r.ramLimit k m = some (n, copies) →
    ∀ c ∈ copies, WithinDevice r m c
  moved : m.position < ramSize r m → ∃ c,
    doMem r.ramOrigin r.ramLimit k m = some (ramBytes r m, [c]) ∧ c.bytes = ramBytes r m ∧
      ∀ i, 0 ≤ i → i < c.bytes →
        physByte (deviceSide m c) i = r.ramOrigin m.device + m.position + i
  ended : ramSize r m ≤ m.position → doMem r.ramOrigin r.ramLimit k m = some (EOF, [])

/-- On the device, the bytes lie in the memory there is, and the buffer in that of the user. Beyond
it, the sum of origin and position is a long, or is one below the origin that is not below the
limit either. -/
def Addressable (map : ProcMap) (r : Rams) (m : DevMess) : Prop :=
  if m.position < ramSize r m then
    0 ≤ r.ramOrigin m.device + m.position ∧
      r.ramOrigin m.device + m.position + ramBytes r m ≤ 1048576 ∧
      umap map D (virBytes m.address) (virBytes (ramBytes r m)) ≠ 0
  else r.ramOrigin m.device + m.position < 2147483648 ∨
    r.ramLimit m.device ≤ r.ramOrigin m.device + m.position - 4294967296

/-- What is done for a request, with the count that `do_mem` arrives at. -/
theorem doMem_request (hm : Request m rp) : doMem r.ramOrigin r.ramLimit k m =
    let memPhys := ramAddr (r.ramOrigin m.device) m.position
    let count := ramCount (r.ramLimit m.device) memPhys m.count
    let userPhys := umap (k.pMap rp) D (virBytes m.address) (virBytes count)
    if memPhys ≥ r.ramLimit m.device then some (EOF, [])
    else if userPhys = 0 then some (E_BAD_ADDR, [])
    else some (count, [if m.mType = DISK_READ then ⟨memPhys, userPhys, count⟩
      else ⟨userPhys, memPhys, count⟩]) := by
  have hdev : ¬(m.device < 0 ∨ m.device ≥ NR_RAMS) :=
    not_or.mpr ⟨not_lt.mpr hm.device.1, not_le.mpr hm.device.2⟩
  unfold doMem
  rw [if_neg hdev, if_neg hm.notNull, if_neg (not_lt.mpr hm.position.1), hm.user]
  dsimp only
  split
  · rfl
  · rw [Option.map_some]
    split <;> rfl

variable (h : SetUp r) (hm : Request m rp)

include h hm

/-- On the device, the sum of origin and position is a long. -/
theorem ramAddr_inside (hin : m.position < ramSize r m) :
    ramAddr (r.ramOrigin m.device) m.position = r.ramOrigin m.device + m.position ∧
      ¬r.ramOrigin m.device + m.position ≥ r.ramLimit m.device := by
  have ho := h.longs.origin m.device
  have hl := h.longs.limit m.device
  have hp := hm.position
  unfold ramSize at hin
  exact ⟨long_eq (by omega) (by omega), by omega⟩

/-- Beyond the device, an address is at the limit or above, unless the sum has wrapped around. -/
theorem ramAddr_outside (hout : ramSize r m ≤ m.position) :
    ramAddr (r.ramOrigin m.device) m.position ≥ r.ramLimit m.device ↔
      r.ramOrigin m.device + m.position < 2147483648 ∨
        r.ramLimit m.device ≤ r.ramOrigin m.device + m.position - 4294967296 := by
  have ho := h.longs.origin m.device
  have hp := hm.position
  obtain ⟨⟨q, hq⟩, hlo, hhi⟩ := long_cases (r.ramOrigin m.device + m.position)
  unfold ramSize at hout
  unfold ramAddr
  omega

omit h in
/-- There is something to move on the device. -/
theorem ramBytes_pos (hin : m.position < ramSize r m) : 0 < ramBytes r m := by
  have hc := hm.count
  unfold ramBytes
  omega

/-- A transfer that ends below 2^31 is cut down to what is left of the device. -/
theorem ramCount_inside (hin : m.position < ramSize r m)
    (hend : r.ramOrigin m.device + m.position + ramBytes r m ≤ 1048576) :
    ramCount (r.ramLimit m.device) (r.ramOrigin m.device + m.position) m.count = ramBytes r m := by
  have ho := h.longs.origin m.device
  have hp := hm.position
  have hc := hm.count
  unfold ramSize at hin
  unfold ramBytes ramSize at hend ⊢
  unfold ramCount
  rw [long_eq (by omega) (by omega)]
  split <;> omega

/-- A request that is served lies in the memory there is. -/
theorem DeviceServes.addressable (hs : DeviceServes k r m) : Addressable (k.pMap rp) r m := by
  unfold Addressable
  split
  · rename_i hin
    obtain ⟨haddr, hbelow⟩ := ramAddr_inside h hm hin
    obtain ⟨c, he, hbytes, hphys⟩ := hs.moved hin
    have hpos := ramBytes_pos hm hin
    have hfirst := hphys 0 le_rfl (by omega)
    have hlast := hphys (ramBytes r m - 1) (by omega) (by omega)
    rw [physByte_eq] at hfirst hlast
    have hend : r.ramOrigin m.device + m.position + ramBytes r m ≤ 1048576 := by omega
    refine ⟨by omega, hend, fun hz => ?_⟩
    rw [doMem_request hm, haddr] at he
    dsimp only at he
    rw [if_neg hbelow, ramCount_inside h hm hin hend, if_pos hz] at he
    exact List.cons_ne_nil _ _ (Prod.mk.inj (Option.some.inj he)).2.symm
  · rename_i hout
    rw [← ramAddr_outside h hm (not_lt.mp hout)]
    by_contra hlow
    have he := hs.ended (not_lt.mp hout)
    rw [doMem_request hm] at he
    dsimp only at he
    rw [if_neg hlow] at he
    split at he
    · exact absurd he (by decide)
    · exact List.cons_ne_nil _ _ (Prod.mk.inj (Option.some.inj he)).2

/-- Such a request is served. -/
theorem DeviceServes.of_addressable (ha : Addressable (k.pMap rp) r m) : DeviceServes k r m := by
  unfold Addressable at ha
  split at ha
  · rename_i hin
    obtain ⟨hlo, hend, hne⟩ := ha
    obtain ⟨haddr, hbelow⟩ := ramAddr_inside h hm hin
    have he := doMem_request (k := k) (r := r) hm
    rw [haddr] at he
    dsimp only at he
    rw [if_neg hbelow, ramCount_inside h hm hin hend, if_neg hne] at he
    have hside : ∀ c ∈ [if m.mType = DISK_READ then
        (⟨r.ramOrigin m.device + m.position, umap (k.pMap rp) D (virBytes m.address)
          (virBytes (ramBytes r m)), ramBytes r m⟩ : PhysCopy)
        else ⟨umap (k.pMap rp) D (virBytes m.address) (virBytes (ramBytes r m)),
          r.ramOrigin m.device + m.position, ramBytes r m⟩],
        deviceSide m c = r.ramOrigin m.device + m.position ∧ c.bytes = ramBytes r m := by
      intro c hc
      obtain rfl := List.mem_singleton.mp hc
      unfold deviceSide
      split <;> exact ⟨rfl, rfl⟩
    have hplace : ∀ i, 0 ≤ i → i < ramBytes r m →
        physByte (r.ramOrigin m.device + m.position) i = r.ramOrigin m.device + m.position + i := by
      intro i hi hi'
      rw [physByte_eq]
      omega
    refine ⟨fun n copies hd c hc i hi hi' => ?_, fun _ => ⟨_, he, ?_⟩, fun hout => ?_⟩
    · obtain ⟨-, rfl⟩ := Prod.mk.inj (Option.some.inj (he.symm.trans hd))
      obtain ⟨hs, hb⟩ := hside c hc
      rw [hb] at hi'
      have hp := hm.position
      have hsize : ramBytes r m ≤ ramSize r m - m.position := min_le_right _ _
      unfold ramSize at hsize
      rw [hs, hplace i hi hi']
      omega
    · obtain ⟨hs, hb⟩ := hside _ (List.mem_singleton.mpr rfl)
      refine ⟨hb, fun i hi hi' => ?_⟩
      rw [hb] at hi'
      rw [hs, hplace i hi hi']
    · exact absurd hin (not_lt.mpr hout)
  · rename_i hout
    rw [← ramAddr_outside h hm (not_lt.mp hout)] at ha
    have he := doMem_request (k := k) (r := r) hm
    dsimp only at he
    rw [if_pos ha] at he
    refine ⟨fun n copies hd c hc => ?_, fun hin => absurd hin hout, fun _ => he⟩
    obtain ⟨-, rfl⟩ := Prod.mk.inj (Option.some.inj (he.symm.trans hd))
    cases hc

/-- The memory task serves a request from the bytes of the device just when they, or the sum of
origin and position, can be addressed. -/
theorem device_serves_iff : DeviceServes k r m ↔ Addressable (k.pMap rp) r m :=
  ⟨DeviceServes.addressable h hm, DeviceServes.of_addressable h hm⟩

end Devices

section Example

/-- A process with some data runs. -/
def userStart : State := { exampleStart with pMap := fun _ => userMap }

/-- FS asks for a RAM disk of 240 blocks from 128K on. -/
def ramSetup : DevMess := ⟨DISK_IOCTL, RAM_DEV, 1, 240, 131072, 0⟩

/-- The RAM disk has been set up. -/
def exampleRams : Rams := (doSetup (memTask 96 1000 1000) ramSetup).2

theorem exampleRams_setUp : SetUp exampleRams :=
  have he : memWork userStart (memTask 96 1000 1000) ramSetup = some ((OK, []), exampleRams) := rfl
  .work (.start 96 1000 1000) ⟨by decide⟩ he

/-- A block is read from a position of the RAM disk into the data of the process. -/
def ramRead (position : Int) : DevMess := ⟨DISK_READ, RAM_DEV, 2, 1024, position, 256⟩

theorem ramRead_request {position : Int} (h : 0 ≤ position ∧ position ≤ 2147483647) :
    Request (ramRead position) 10 :=
  ⟨Or.inl rfl, (by decide : 0 ≤ RAM_DEV ∧ RAM_DEV < NR_RAMS), (by decide : RAM_DEV ≠ NULL_DEV), h,
    (by decide : (0 : Int) < 1024 ∧ (1024 : Int) ≤ 32767), rfl⟩

/-- The last block of the RAM disk is read. -/
theorem device_serves_iff_last : DeviceServes userStart exampleRams (ramRead 244736) :=
  (device_serves_iff exampleRams_setUp (ramRead_request (by decide))).mpr (by
    unfold Addressable
    rw [if_pos (by decide)]
    decide)

/-- Far beyond the end, the sum of origin and position wraps around, and the interrupt vectors are
read. -/
theorem device_serves_wrapped :
    ¬∀ k r m rp, SetUp r → Request m rp → DeviceServes k r m := by
  intro h
  have ha := (device_serves_iff exampleRams_setUp (ramRead_request (by decide))).mp
    (h userStart exampleRams (ramRead 2147352576) 10 exampleRams_setUp
      (ramRead_request (by decide)))
  unfold Addressable at ha
  rw [if_neg (by decide)] at ha
  exact absurd ha (by decide)

end Example

end Minix.Kernel
