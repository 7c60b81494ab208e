import Minix.FS.Paths

/-!
# Who may access a file

What the mode of a file and the ids of a process allow, and what `forbidden` makes of it. It
takes the superuser from the effective uid also when the real ids are to be tested, so that the
answer of access(2) can depend on the effective uid.
-/

namespace Minix.FS.Inodes

/-- The ids against which a request is tested. -/
structure Ids where
  uid : Int
  gid : Int

/-- The real ids, or the effective ones. -/
def Fproc.ids (fp : Fproc) (realUid : Bool) : Ids :=
  if realUid then ⟨fp.fpRealuid, fp.fpRealgid⟩ else ⟨fp.fpEffuid, fp.fpEffgid⟩

/-- Who has permissions of their own in a mode. -/
inductive Class where
  | owner
  | group
  | other
  deriving DecidableEq

/-- Where in the mode the rwx bits of a class are. -/
def Class.shift : Class → Nat
  | .owner => 6
  | .group => 3
  | .other => 0

/-- The class that the ids belong to. -/
def Ids.classOf (c : Ids) (ip : Inode) : Class :=
  if c.uid = ip.iUid then .owner else if c.gid = ip.iGid then .group else .other

/-- The bits that the mode gives to the class of the ids contain all that is asked for. -/
def ByMode (c : Ids) (ip : Inode) (want : Nat) : Prop :=
  ∀ b < 3, want.testBit b → ip.iMode.testBit ((c.classOf ip).shift + b)

/-- If none of the x bits are on, not even the superuser can execute a file. -/
def Executable (ip : Inode) (want : Nat) : Prop :=
  want.testBit 0 → ∃ c : Class, ip.iMode.testBit c.shift

/-- Nobody writes on a file system that is mounted read only. -/
def Writable (rdOnly : Bool) (want : Nat) : Prop := want.testBit 1 → rdOnly = false

/-- What processes with the given ids may do with a file. -/
structure Allowed (c : Ids) (ip : Inode) (rdOnly : Bool) (want : Nat) : Prop where
  bits : c.uid = SU_UID ∨ ByMode c ip want
  executable : Executable ip want
  writable : Writable rdOnly want

variable {fp fp' : Fproc} {ip : Inode} {sup : SuperPtr → Super} {sp : SuperPtr} {want : Nat}
  {real : Bool}

/-- One number has all the bits of another. -/
theorem or_eq_left_iff (m n : Nat) : m ||| n = m ↔ ∀ b, n.testBit b → m.testBit b := by
  constructor
  · intro h b hb
    rw [← h, Nat.testBit_or, hb, Bool.or_true]
  · intro h
    refine Nat.eq_of_testBit_eq fun b => ?_
    rw [Nat.testBit_or]
    cases hb : n.testBit b with
    | false => exact Bool.or_false _
    | true => rw [h b hb, Bool.or_true]

/-- The three bits from a place on. -/
theorem testBit_rwx (m s b : Nat) :
    (m >>> s &&& 0o7).testBit b = (decide (b < 3) && m.testBit (s + b)) := by
  rw [show (0o7 : Nat) = 2 ^ 3 - 1 from rfl, Nat.and_two_pow_sub_one_eq_mod,
    Nat.testBit_mod_two_pow, Nat.testBit_shiftRight]

/-- The superuser has all bits, and another process those of its class. -/
theorem permBits_eq (fp : Fproc) (ip : Inode) (real : Bool) : permBits fp ip real =
    if fp.fpEffuid = SU_UID then 0o7
    else ip.iMode >>> ((fp.ids real).classOf ip).shift &&& 0o7 := by
  unfold permBits Fproc.superUser Ids.classOf Fproc.ids
  simp only [decide_eq_true_eq]
  split
  · rfl
  · cases real <;> simp only [Bool.false_eq_true, if_false, if_true] <;> split_ifs <;> rfl

theorem permBits_has_iff (hw : want < 8) : permBits fp ip real ||| want = permBits fp ip real ↔
    fp.fpEffuid = SU_UID ∨ ByMode (fp.ids real) ip want := by
  have hlow : ∀ b, want.testBit b → b < 3 := fun b hb => by
    by_contra hn
    have := Nat.ge_two_pow_of_testBit hb
    have : 2 ^ 3 ≤ 2 ^ b := Nat.pow_le_pow_right (by decide) (by omega)
    omega
  rw [or_eq_left_iff, permBits_eq]
  by_cases hsu : fp.fpEffuid = SU_UID
  · rw [if_pos hsu]
    refine iff_of_true (fun b hb => ?_) (Or.inl hsu)
    rw [show (0o7 : Nat) = 2 ^ 3 - 1 from rfl, Nat.testBit_two_pow_sub_one]
    exact decide_eq_true (hlow b hb)
  · rw [if_neg hsu, or_iff_right hsu]
    constructor
    · intro h b hb hbw
      have := h b hbw
      rw [testBit_rwx, decide_eq_true hb, Bool.true_and] at this
      exact this
    · intro h b hbw
      rw [testBit_rwx, decide_eq_true (hlow b hbw), Bool.true_and]
      exact h b (hlow b hbw) hbw

/-- A test of a mask fails when the number has none of its bits. -/
theorem and_eq_zero_iff (m n : Nat) : m &&& n = 0 ↔ ∀ b, n.testBit b → m.testBit b = false := by
  constructor
  · intro h b hb
    have := congrArg (Nat.testBit · b) h
    simpa only [Nat.testBit_and, hb, Bool.and_true, Nat.zero_testBit] using this
  · intro h
    refine Nat.eq_of_testBit_eq fun b => ?_
    rw [Nat.testBit_and, Nat.zero_testBit]
    cases hb : n.testBit b with
    | false => exact Bool.and_false _
    | true => rw [h b hb, Bool.false_and]

/-- A test of one bit. -/
theorem and_two_pow_ne (n k : Nat) : n &&& 2 ^ k ≠ 0 ↔ n.testBit k := by
  rw [Ne, and_eq_zero_iff]
  simp [Nat.testBit_two_pow]

/-- The x bits are those of the three classes. -/
theorem exec_bits (b : Nat) : Nat.testBit 0o111 b ↔ ∃ c : Class, b = c.shift := by
  constructor
  · intro hb
    have hlt : b < 7 := by
      by_contra hn
      have := Nat.ge_two_pow_of_testBit hb
      have : 2 ^ 7 ≤ 2 ^ b := Nat.pow_le_pow_right (by decide) (by omega)
      omega
    have hthree : ∀ b < 7, Nat.testBit 0o111 b → b = 0 ∨ b = 3 ∨ b = 6 := by decide
    rcases hthree b hlt hb with rfl | rfl | rfl
    · exact ⟨.other, rfl⟩
    · exact ⟨.group, rfl⟩
    · exact ⟨.owner, rfl⟩
  · rintro ⟨c, rfl⟩
    cases c <;> decide

/-- No class may execute. -/
theorem no_exec_iff (m : Nat) : m &&& 0o111 = 0 ↔ ¬∃ c : Class, m.testBit c.shift := by
  rw [and_eq_zero_iff]
  constructor
  · rintro h ⟨c, hc⟩
    exact Bool.false_ne_true ((h _ ((exec_bits _).mpr ⟨c, rfl⟩)).symm.trans hc)
  · intro h b hb
    obtain ⟨c, rfl⟩ := (exec_bits b).mp hb
    exact Bool.eq_false_iff.mpr fun hc => h ⟨c, hc⟩

/-- The superuser shortcut looks at the effective uid alone. -/
theorem forbidden_refused (hw : want < 8)
    (h : (fp.fpEffuid = SU_UID ∨ ByMode (fp.ids real) ip want) → ¬Executable ip want) :
    forbidden sup fp ip want real = some EACCES := by
  unfold forbidden
  by_cases hbits : permBits fp ip real ||| want = permBits fp ip real
  · have hex := h ((permBits_has_iff hw).mp hbits)
    rw [if_neg (not_not_intro hbits), if_pos]
    rw [show X_BIT = 2 ^ 0 from rfl, and_two_pow_ne, no_exec_iff]
    exact Classical.not_imp.mp hex
  · rw [if_pos hbits]

theorem forbidden_open (hw : want < 8)
    (h : fp.fpEffuid = SU_UID ∨ ByMode (fp.ids real) ip want) (hex : Executable ip want) :
    forbidden sup fp ip want real = if want.testBit 1 then readOnly sup ip else some OK := by
  unfold forbidden
  rw [if_neg (not_not_intro ((permBits_has_iff hw).mpr h)), if_neg]
  · exact if_congr (and_two_pow_ne want 1) rfl rfl
  · rw [show X_BIT = 2 ^ 0 from rfl, and_two_pow_ne, no_exec_iff, ← Classical.not_imp]
    exact not_not_intro hex

/-- The request is refused on a read-only file system only when something is to be written. -/
theorem readOnly_ok_iff (hsp : getSuper sup ip.iDev = some sp) :
    (if want.testBit 1 then readOnly sup ip else some OK) = some OK ↔
      Writable (sup sp).sRdOnly want := by
  unfold Writable readOnly
  rw [hsp]
  cases want.testBit 1 <;> cases h : (sup sp).sRdOnly <;> simp [h]

/-- Only a missing permission is answered with `EACCES`. -/
theorem readOnly_ne (sup : SuperPtr → Super) (ip : Inode) (b : Bool) :
    (if b then readOnly sup ip else some OK) ≠ some EACCES := by
  unfold readOnly
  cases b with
  | false => simp
  | true =>
    cases getSuper sup ip.iDev with
    | none => simp
    | some sp => cases h : (sup sp).sRdOnly <;> simp [h]

/-- When `forbidden` says yes. -/
theorem forbidden_ok_iff (hsp : getSuper sup ip.iDev = some sp) (hw : want < 8) :
    forbidden sup fp ip want real = some OK ↔
      (fp.fpEffuid = SU_UID ∨ ByMode (fp.ids real) ip want) ∧ Executable ip want ∧
        Writable (sup sp).sRdOnly want := by
  by_cases h : (fp.fpEffuid = SU_UID ∨ ByMode (fp.ids real) ip want) ∧ Executable ip want
  · rw [forbidden_open hw h.1 h.2, readOnly_ok_iff hsp, ← and_assoc, and_iff_right h]
  · rw [forbidden_refused hw (not_and.mp h), ← and_assoc]
    exact iff_of_false (by decide) fun hn => h hn.1

/-- What the ids allow, in one piece. -/
theorem allowed_iff {c : Ids} {rdOnly : Bool} : Allowed c ip rdOnly want ↔
    (c.uid = SU_UID ∨ ByMode c ip want) ∧ Executable ip want ∧ Writable rdOnly want :=
  ⟨fun h => ⟨h.bits, h.executable, h.writable⟩, fun h => ⟨h.1, h.2.1, h.2.2⟩⟩

/-- Two processes with the same real ids get the same answer about these unless one of them is the
superuser in effect and that decides. -/
theorem forbidden_real_iff (hw : want < 8) (hids : fp'.ids true = fp.ids true) :
    forbidden sup fp' ip want true = forbidden sup fp ip want true ↔
      (fp'.fpEffuid = SU_UID ↔ fp.fpEffuid = SU_UID) ∨ ByMode (fp.ids true) ip want ∨
        ¬Executable ip want := by
  have hopen : ∀ {fp₁ : Fproc}, fp₁.fpEffuid = SU_UID ∨ ByMode (fp₁.ids true) ip want →
      Executable ip want →
      forbidden sup fp₁ ip want true = if want.testBit 1 then readOnly sup ip else some OK :=
    fun h hex => forbidden_open hw h hex
  have hrefused : ∀ {fp₁ : Fproc}, ¬(fp₁.fpEffuid = SU_UID ∨ ByMode (fp₁.ids true) ip want) →
      forbidden sup fp₁ ip want true = some EACCES :=
    fun h => forbidden_refused hw fun h' => absurd h' h
  by_cases hex : Executable ip want
  · by_cases h : fp.fpEffuid = SU_UID ∨ ByMode (fp.ids true) ip want
    · by_cases h' : fp'.fpEffuid = SU_UID ∨ ByMode (fp'.ids true) ip want
      · rw [hopen h hex, hopen h' hex, hids] at *
        tauto
      · rw [hopen h hex, hrefused h']
        rw [hids] at h'
        exact iff_of_false (readOnly_ne sup ip _).symm (by tauto)
    · by_cases h' : fp'.fpEffuid = SU_UID ∨ ByMode (fp'.ids true) ip want
      · rw [hopen h' hex, hrefused h]
        rw [hids] at h'
        exact iff_of_false (readOnly_ne sup ip _) (by tauto)
      · rw [hrefused h, hrefused h']
        rw [hids] at h'
        exact iff_of_true rfl (by tauto)
  · rw [forbidden_refused hw fun _ => hex, forbidden_refused hw fun _ => hex]
    exact iff_of_true rfl (Or.inr (Or.inr hex))

/-- `forbidden` decides as the tested ids allow exactly when the effective uid is the superuser's
just as the tested one is, the mode alone grants the request, or nobody is granted it. And the
answer for the real ids is the same for two effective uids exactly when both or neither are the
superuser, the mode alone grants the request, or nobody may execute the file. -/
theorem forbidden_allowed_iff (hsp : getSuper sup ip.iDev = some sp) (hw : want < 8) (fp : Fproc)
    (real : Bool) :
    ((forbidden sup fp ip want real = some OK ↔
        Allowed (fp.ids real) ip (sup sp).sRdOnly want) ↔
      real = false ∨ (fp.fpEffuid = SU_UID ↔ fp.fpRealuid = SU_UID) ∨
        ByMode (fp.ids true) ip want ∨
        ¬(Executable ip want ∧ Writable (sup sp).sRdOnly want)) ∧
    ∀ fp' : Fproc, fp'.ids true = fp.ids true →
      (forbidden sup fp' ip want true = forbidden sup fp ip want true ↔
        (fp'.fpEffuid = SU_UID ↔ fp.fpEffuid = SU_UID) ∨ ByMode (fp.ids true) ip want ∨
          ¬Executable ip want) := by
  refine ⟨?_, fun fp' hids => forbidden_real_iff hw hids⟩
  rw [forbidden_ok_iff hsp hw, allowed_iff]
  cases real with
  | false => exact iff_of_true Iff.rfl (Or.inl rfl)
  | true =>
    rw [show (fp.ids true).uid = fp.fpRealuid from rfl]
    tauto

/-- A file of the superuser that nobody else may read or write. -/
def shadow : Inode :=
  { iMode := 0o100600
    iUid := SU_UID
    iSize := 0
    iModtime := 0
    iGid := 0
    iNlinks := 1
    iZone := fun _ => NO_ZONE
    iDev := 256
    iNum := 7
    iCount := 1
    iDirt := false
    iPipe := false
    iMount := false }

/-- Its file system, on every slot of the table. -/
def shadowSuper (_ : SuperPtr) : Super :=
  { sNinodes := 95
    sNzones := 360
    sImapBlocks := 1
    sZmapBlocks := 1
    sFirstdatazone := 8
    sLogZoneSize := 0
    sMaxSize := 1048576
    sMagic := 0x137F
    sImap := fun _ => .nil
    sZmap := fun _ => .nil
    sDev := 256
    sIsup := .nil
    sImount := .nil
    sRdOnly := false }

/-- User 5 in a program that is set-uid to the superuser. -/
def setuidRoot : Fproc :=
  { fpUmask := 0o777
    fpWorkdir := 0
    fpRootdir := 0
    fpRealuid := 5
    fpEffuid := SU_UID
    fpRealgid := 3
    fpEffgid := 3 }

/-- The same user in a program of its own. -/
def plainUser : Fproc := { setuidRoot with fpEffuid := 5 }

theorem not_byMode_shadow : ¬ByMode (setuidRoot.ids true) shadow W_BIT := fun h =>
  absurd (h 1 (by decide) (by decide)) (by decide)

/-- access(2) tells user 5 in a set-uid program that it may write the file of the superuser, and in
a program of its own that it may not. -/
theorem access_by_effective_uid :
    forbidden shadowSuper setuidRoot shadow W_BIT true = some OK ∧
      ¬Allowed (setuidRoot.ids true) shadow false W_BIT ∧
      plainUser.ids true = setuidRoot.ids true ∧
      forbidden shadowSuper plainUser shadow W_BIT true = some EACCES := by
  refine ⟨by rfl, fun h => ?_, rfl, by rfl⟩
  rcases h.bits with h | h
  · exact absurd h (by decide)
  · exact not_byMode_shadow h

theorem forbidden_allowed_iff_shadow :
    ¬(forbidden shadowSuper setuidRoot shadow W_BIT true = some OK ↔
      Allowed (setuidRoot.ids true) shadow false W_BIT) := by
  have hsp : getSuper shadowSuper shadow.iDev = some 0 := rfl
  have hw : W_BIT < 8 := by decide
  intro h
  rcases (forbidden_allowed_iff hsp hw setuidRoot true).1.mp h with h | h | h | h
  · exact absurd h (by decide)
  · exact absurd (h.mp rfl) (by decide)
  · exact not_byMode_shadow h
  · exact h ⟨fun hx => absurd hx (by decide), fun _ => rfl⟩

end Minix.FS.Inodes
