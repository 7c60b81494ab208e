import Mathlib.Data.Fintype.Card
import Mathlib.Data.Fintype.Prod
import Mathlib.Algebra.Order.BigOperators.Group.Finset
import Minix.Lib.Literals

/-!
# File descriptors

The descriptors of a process lead to slots of the `filp` table, which hold the mode, the
position and the inode, and may be shared. The count of a slot is the number of
descriptors that lead there.
-/

namespace Minix.FS

open Function

/-- number of slots in proc table -/
abbrev NR_PROCS : Nat := 16

/-- max file descriptors per process -/
abbrev NR_FDS : Nat := 20

/-- # slots in filp table -/
abbrev NR_FILPS : Nat := 64

/-- # slots in "in core" inode table -/
abbrev NR_INODES : Nat := 32

/-- A slot of `fproc`. -/
abbrev Proc : Type := Fin NR_PROCS

/-- A valid file descriptor. -/
abbrev Fd : Type := Fin NR_FDS

/-- A `struct filp *` that is not `NIL_FILP`. -/
abbrev FilpPtr : Type := Fin NR_FILPS

/-- A `struct inode *` that is not `NIL_INODE`. -/
abbrev InodePtr : Type := Fin NR_INODES

/-- bad file number -/
abbrev EBADF : Int := -9

/-- file table overflow -/
abbrev ENFILE : Int := -23

/-- too many open files -/
abbrev EMFILE : Int := -24

/-- How a file is opened: `R_BIT` and `W_BIT`. -/
structure Bits where
  r : Bool
  w : Bool
  deriving DecidableEq

/-- An intermediary between file descriptors and inodes. -/
structure Filp where
  /-- RW bits, telling how file is opened -/
  filpMode : Bits
  /-- how many file descriptors share this slot? -/
  filpCount : Nat
  /-- pointer to the inode -/
  filpIno : InodePtr
  /-- file position -/
  filpPos : Nat
  deriving DecidableEq

/-- The `filp` table, and the descriptor tables of the processes. -/
structure Files where
  filp : FilpPtr → Filp
  fpFilp : Proc → Fd → Option FilpPtr

/-- `fild` as an index, if it is a file descriptor. -/
def fdOf (fild : Int) : Option Fd :=
  if h : 0 ≤ fild ∧ fild < (NR_FDS : Nat) then some ⟨fild.toNat, by omega⟩ else none

/-- See if 'fild' refers to a valid file descr. If so, return its filp ptr. -/
def getFilp (t : Files) (fp : Proc) (fild : Int) : Option (Fd × FilpPtr) :=
  (fdOf fild).bind fun i => (t.fpFilp fp i).map fun f => (i, f)

/-- The mode word and the position of a slot that is not claimed yet. -/
def fillIn (t : Files) (f : FilpPtr) (bits : Bits) : Files :=
  { t with filp := update t.filp f { t.filp f with filpMode := bits, filpPos := 0 } }

/-- Look for a free file descriptor and a free filp slot. Fill in the mode word in the latter, but
don't claim either one yet. -/
def getFd (t : Files) (fp : Proc) (bits : Bits) : Except Int (Fd × FilpPtr × Files) :=
  match (List.finRange NR_FDS).find? fun i => (t.fpFilp fp i).isNone with
  | none => .error EMFILE
  | some k =>
    match (List.finRange NR_FILPS).find? fun f => (t.filp f).filpCount = 0 with
    | none => .error ENFILE
    | some f => .ok (k, f, fillIn t f bits)

/-- Find a filp slot that refers to the inode 'rip' in a way as described by the mode bit. -/
def findFilp (t : Files) (rip : InodePtr) (bit : Bits → Bool) : Option FilpPtr :=
  (List.finRange NR_FILPS).find? fun f =>
    (t.filp f).filpCount ≠ 0 ∧ (t.filp f).filpIno = rip ∧ bit (t.filp f).filpMode

/-- Claim the file descriptor and filp slot and fill them in. -/
def claim (t : Files) (fp : Proc) (k : Fd) (f : FilpPtr) (rip : InodePtr) : Files where
  filp := update t.filp f { t.filp f with filpCount := 1, filpIno := rip }
  fpFilp := update t.fpFilp fp (update (t.fpFilp fp) k (some f))

/-- Take a descriptor and a free slot for a file. -/
def openFiles (t : Files) (fp : Proc) (k : Fd) (f : FilpPtr) (bits : Bits) (rip : InodePtr) :
    Files :=
  claim (fillIn t f bits) fp k f rip

/-- Another descriptor for a slot. -/
def shareFilp (t : Files) (fp : Proc) (k : Fd) (f : FilpPtr) : Files where
  filp := update t.filp f { t.filp f with filpCount := (t.filp f).filpCount + 1 }
  fpFilp := update t.fpFilp fp (update (t.fpFilp fp) k (some f))

/-- One descriptor less for a slot. -/
def dropFd (t : Files) (fp : Proc) (k : Fd) (f : FilpPtr) : Files where
  filp := update t.filp f { t.filp f with filpCount := (t.filp f).filpCount - 1 }
  fpFilp := update t.fpFilp fp (update (t.fpFilp fp) k none)

/-- How many descriptors of a process lead to a slot. -/
def fdCount (d : Fd → Option FilpPtr) (f : FilpPtr) : Nat :=
  (Finset.univ.filter fun k => d k = some f).card

/-- The child gets the descriptors of its parent. -/
def forkFiles (t : Files) (parent child : Proc) : Files where
  filp f := { t.filp f with filpCount := (t.filp f).filpCount + fdCount (t.fpFilp parent) f }
  fpFilp := update t.fpFilp child (t.fpFilp parent)

/-- The slots in use that refer to an inode. -/
def users (t : Files) (rip : InodePtr) : Finset FilpPtr :=
  Finset.univ.filter fun f => (t.filp f).filpCount ≠ 0 ∧ (t.filp f).filpIno = rip

/-- The count of each slot is the number of descriptors that lead there. -/
def Counted (t : Files) : Prop :=
  ∀ f, (t.filp f).filpCount = ∑ p, fdCount (t.fpFilp p) f

section Counts

variable {t : Files} {p fp : Proc} {k : Fd} {f g : FilpPtr} {d : Fd → Option FilpPtr}

/-- A slot is counted when some descriptor names it. -/
theorem fdCount_pos : 0 < fdCount d f ↔ ∃ k, d k = some f := by
  unfold fdCount
  rw [Finset.card_pos, Finset.filter_nonempty_iff]
  simp

/-- A process without descriptors counts for no slot. -/
theorem fdCount_none (hd : ∀ k, d k = none) (f : FilpPtr) : fdCount d f = 0 := by
  by_contra h
  obtain ⟨k, hk⟩ := fdCount_pos.mp (Nat.pos_of_ne_zero h)
  rw [hd] at hk
  cases hk

/-- A new descriptor. -/
theorem fdCount_add (hk : d k = none) (f g : FilpPtr) :
    fdCount (update d k (some f)) g = fdCount d g + if g = f then 1 else 0 := by
  unfold fdCount
  by_cases he : g = f
  · subst he
    rw [if_pos rfl]
    have hset : (Finset.univ.filter fun i => update d k (some g) i = some g) =
        insert k (Finset.univ.filter fun i => d i = some g) := by
      ext i
      by_cases hi : i = k
      · subst hi
        simp
      · simp [hi]
    rw [hset, Finset.card_insert_of_notMem]
    simp [hk]
  · rw [if_neg he, Nat.add_zero]
    congr 1
    ext i
    by_cases hi : i = k
    · subst hi
      simp [hk, Ne.symm he]
    · simp [update_of_ne hi]

/-- A descriptor less. -/
theorem fdCount_drop (hk : d k = some f) (g : FilpPtr) :
    fdCount (update d k none) g + (if g = f then 1 else 0) = fdCount d g := by
  have h := fdCount_add (d := update d k none) (k := k) (update_self ..) f g
  rw [update_idem, ← hk, update_eq_self] at h
  exact h.symm

/-- The sum over a table, when one entry is different. -/
theorem sum_update {n : Nat} {α : Type} (x : Fin n → α) (i : Fin n) (a : α)
    (u : Fin n → α → Nat) :
    ∑ j, u j (update x i a j) + u i (x i) = ∑ j, u j (x j) + u i a := by
  rw [← Finset.add_sum_erase _ _ (Finset.mem_univ i),
    ← Finset.add_sum_erase (a := i) _ (fun j => u j (x j)) (Finset.mem_univ i), update_self]
  have hrest : ∑ j ∈ Finset.univ.erase i, u j (update x i a j) =
      ∑ j ∈ Finset.univ.erase i, u j (x j) := by
    refine Finset.sum_congr rfl fun j hj => ?_
    rw [update_of_ne (Finset.ne_of_mem_erase hj)]
  rw [hrest]
  omega

/-- The sum over the processes, when one of them is different. -/
theorem sum_fdCount_update (t : Proc → Fd → Option FilpPtr) (p : Proc) (d : Fd → Option FilpPtr)
    (g : FilpPtr) : ∑ q, fdCount (update t p d q) g + fdCount (t p) g =
      ∑ q, fdCount (t q) g + fdCount d g :=
  sum_update t p d fun _ d => fdCount d g

/-- A slot that a descriptor leads to is in use. -/
theorem Counted.pos (h : Counted t) (hk : t.fpFilp p k = some f) : 0 < (t.filp f).filpCount := by
  rw [h f]
  exact Nat.lt_of_lt_of_le (fdCount_pos.mpr ⟨k, hk⟩)
    (Finset.single_le_sum (f := fun q => fdCount (t.fpFilp q) f) (fun _ _ => Nat.zero_le _)
      (Finset.mem_univ p))

/-- A free slot has no descriptors. -/
theorem Counted.fdCount_zero (h : Counted t) (hf : (t.filp f).filpCount = 0) (p : Proc) :
    fdCount (t.fpFilp p) f = 0 := by
  by_contra hne
  obtain ⟨k, hk⟩ := fdCount_pos.mp (Nat.pos_of_ne_zero hne)
  exact Nat.ne_of_gt (h.pos hk) hf

/-- The counts are still right once the mode has been filled in. -/
theorem Counted.fillIn (h : Counted t) (f : FilpPtr) (bits : Bits) : Counted (fillIn t f bits) := by
  intro g
  refine Eq.trans ?_ (h g)
  unfold FS.fillIn
  dsimp only
  by_cases he : g = f
  · rw [he, update_self]
  · rw [update_of_ne he]

/-- They are right after a free slot has been claimed for a descriptor. -/
theorem Counted.claim (h : Counted t) (hk : t.fpFilp fp k = none) (hf : (t.filp f).filpCount = 0)
    (rip : InodePtr) : Counted (claim t fp k f rip) := by
  intro g
  have hsum := sum_fdCount_update t.fpFilp fp (update (t.fpFilp fp) k (some f)) g
  rw [fdCount_add hk, ← h g] at hsum
  have hcount : ((FS.claim t fp k f rip).filp g).filpCount =
      (t.filp g).filpCount + if g = f then 1 else 0 := by
    unfold FS.claim
    dsimp only
    by_cases he : g = f
    · rw [he, update_self, if_pos rfl, hf]
    · rw [update_of_ne he, if_neg he, Nat.add_zero]
  rw [hcount]
  change _ = ∑ q, fdCount (update t.fpFilp fp (update (t.fpFilp fp) k (some f)) q) g
  omega

/-- And after a second descriptor has been given the same slot. -/
theorem Counted.share (h : Counted t) (hk : t.fpFilp fp k = none) (f : FilpPtr) :
    Counted (shareFilp t fp k f) := by
  intro g
  have hsum := sum_fdCount_update t.fpFilp fp (update (t.fpFilp fp) k (some f)) g
  rw [fdCount_add hk, ← h g] at hsum
  have hcount : ((shareFilp t fp k f).filp g).filpCount =
      (t.filp g).filpCount + if g = f then 1 else 0 := by
    unfold shareFilp
    dsimp only
    by_cases he : g = f
    · rw [he, update_self, if_pos rfl]
    · rw [update_of_ne he, if_neg he, Nat.add_zero]
  rw [hcount]
  change _ = ∑ q, fdCount (update t.fpFilp fp (update (t.fpFilp fp) k (some f)) q) g
  omega

/-- And after a descriptor has been dropped. -/
theorem Counted.drop (h : Counted t) (hk : t.fpFilp fp k = some f) :
    Counted (dropFd t fp k f) := by
  intro g
  have hsum := sum_fdCount_update t.fpFilp fp (update (t.fpFilp fp) k none) g
  have hdrop := fdCount_drop hk g
  have hpos := h.pos hk
  rw [← h g] at hsum
  have hcount : ((dropFd t fp k f).filp g).filpCount + (if g = f then 1 else 0) =
      (t.filp g).filpCount := by
    unfold dropFd
    dsimp only
    by_cases he : g = f
    · rw [he, update_self, if_pos rfl]
      dsimp only
      omega
    · rw [update_of_ne he, if_neg he, Nat.add_zero]
  change _ = ∑ q, fdCount (update t.fpFilp fp (update (t.fpFilp fp) k none) q) g
  omega

/-- And after a fork, for a child without descriptors. -/
theorem Counted.fork (h : Counted t) (parent : Proc) {child : Proc}
    (hc : ∀ k, t.fpFilp child k = none) : Counted (forkFiles t parent child) := by
  intro g
  have hsum := sum_fdCount_update t.fpFilp child (t.fpFilp parent) g
  rw [fdCount_none hc, ← h g] at hsum
  change (t.filp g).filpCount + fdCount (t.fpFilp parent) g =
    ∑ q, fdCount (update t.fpFilp child (t.fpFilp parent) q) g
  omega

end Counts

section Users

variable {t t' : Files} {p fp : Proc} {k : Fd} {f g : FilpPtr} {rip ip : InodePtr}

/-- The users of an inode are the slots in use that name it. -/
theorem mem_users : f ∈ users t rip ↔ (t.filp f).filpCount ≠ 0 ∧ (t.filp f).filpIno = rip := by
  unfold users
  rw [Finset.mem_filter, and_iff_right (Finset.mem_univ f)]

/-- What a descriptor names is a user of its inode. -/
theorem Counted.mem_users (h : Counted t) (hk : t.fpFilp p k = some f) :
    f ∈ users t (t.filp f).filpIno :=
  FS.mem_users.mpr ⟨Nat.ne_of_gt (h.pos hk), rfl⟩

/-- The same slots are in use, for the same inodes. -/
theorem users_congr (hc : ∀ f, (t'.filp f).filpCount ≠ 0 ↔ (t.filp f).filpCount ≠ 0)
    (hi : ∀ f, (t.filp f).filpCount ≠ 0 → (t'.filp f).filpIno = (t.filp f).filpIno)
    (rip : InodePtr) : users t' rip = users t rip := by
  ext f
  rw [mem_users, mem_users, hc f]
  exact and_congr_right fun hf => by rw [hi f hf]

/-- A claim changes one slot. -/
theorem claim_filp (t : Files) (fp : Proc) (k : Fd) (f : FilpPtr) (rip : InodePtr) (hg : g ≠ f) :
    (claim t fp k f rip).filp g = t.filp g := update_of_ne hg ..

/-- It adds one user, to the inode claimed. -/
theorem users_claim (hf : (t.filp f).filpCount = 0) (fp : Proc) (k : Fd) (rip ip : InodePtr) :
    users (claim t fp k f rip) ip = if ip = rip then insert f (users t ip) else users t ip := by
  have hnot : f ∉ users t ip := fun h => (mem_users.mp h).1 hf
  have hself : (claim t fp k f rip).filp f = { t.filp f with filpCount := 1, filpIno := rip } :=
    update_self ..
  ext g
  by_cases hg : g = f
  · subst hg
    rw [mem_users, hself]
    by_cases he : ip = rip
    · simp [he]
    · simp [he, hnot, Ne.symm he]
  · rw [mem_users, claim_filp t fp k f rip hg]
    by_cases he : ip = rip
    · simp [he, hg, mem_users]
    · simp [he, mem_users]

/-- Filling in the mode of a free slot adds none. -/
theorem users_fillIn (hf : (t.filp f).filpCount = 0) (bits : Bits) (rip : InodePtr) :
    users (fillIn t f bits) rip = users t rip := by
  have hsame : ∀ g, ((fillIn t f bits).filp g).filpCount = (t.filp g).filpCount ∧
      ((fillIn t f bits).filp g).filpIno = (t.filp g).filpIno := by
    intro g
    unfold fillIn
    dsimp only
    by_cases hg : g = f
    · subst hg
      rw [update_self]
      exact ⟨rfl, rfl⟩
    · rw [update_of_ne hg]
      exact ⟨rfl, rfl⟩
  exact users_congr (fun g => by rw [(hsame g).1]) (fun g _ => (hsame g).2) rip

/-- A second descriptor for a slot adds none. -/
theorem users_share (hf : (t.filp f).filpCount ≠ 0) (fp : Proc) (k : Fd) (rip : InodePtr) :
    users (shareFilp t fp k f) rip = users t rip := by
  have hsame : ∀ g, (((shareFilp t fp k f).filp g).filpCount ≠ 0 ↔ (t.filp g).filpCount ≠ 0) ∧
      ((shareFilp t fp k f).filp g).filpIno = (t.filp g).filpIno := by
    intro g
    unfold shareFilp
    dsimp only
    by_cases hg : g = f
    · subst hg
      rw [update_self]
      exact ⟨iff_of_true (Nat.succ_ne_zero _) hf, rfl⟩
    · rw [update_of_ne hg]
      exact ⟨Iff.rfl, rfl⟩
  exact users_congr (fun g => (hsame g).1) (fun g _ => (hsame g).2) rip

/-- A fork adds none. -/
theorem Counted.users_fork (h : Counted t) (parent child : Proc) (rip : InodePtr) :
    users (forkFiles t parent child) rip = users t rip := by
  have hino : ∀ g, ((forkFiles t parent child).filp g).filpIno = (t.filp g).filpIno := fun _ => rfl
  refine users_congr (fun g => ?_) (fun g _ => hino g) rip
  change (t.filp g).filpCount + fdCount (t.fpFilp parent) g ≠ 0 ↔ (t.filp g).filpCount ≠ 0
  by_cases hg : (t.filp g).filpCount = 0
  · rw [hg, h.fdCount_zero hg]
  · exact iff_of_true (by omega) hg

/-- A slot that loses its last descriptor no longer uses the inode. -/
theorem users_drop (t : Files) (fp : Proc) (k : Fd) (f : FilpPtr) (rip : InodePtr) :
    users (dropFd t fp k f) rip =
      if (t.filp f).filpCount - 1 = 0 then (users t rip).erase f else users t rip := by
  have hself : (dropFd t fp k f).filp f =
    { t.filp f with filpCount := (t.filp f).filpCount - 1 } := update_self ..
  have hother : ∀ g, g ≠ f → (dropFd t fp k f).filp g = t.filp g := fun g hg => update_of_ne hg ..
  ext g
  by_cases hg : g = f
  · subst hg
    rw [mem_users, hself]
    by_cases hz : (t.filp g).filpCount - 1 = 0
    · simp [hz]
    · rw [if_neg hz, mem_users]
      exact and_congr_left fun _ => by dsimp only; omega
  · rw [mem_users, hother g hg]
    by_cases hz : (t.filp f).filpCount - 1 = 0
    · rw [if_pos hz, Finset.mem_erase, mem_users, and_iff_right hg]
    · rw [if_neg hz, mem_users]

/-- The slot that is opened, as `open` leaves it. -/
theorem openFiles_self (t : Files) (fp : Proc) (k : Fd) (f : FilpPtr) (bits : Bits)
    (rip : InodePtr) : (openFiles t fp k f bits rip).filp f = ⟨bits, 1, rip, 0⟩ := by
  unfold openFiles claim fillIn
  dsimp only
  rw [update_self, update_self]

/-- The other slots are as before. -/
theorem openFiles_ne (t : Files) (fp : Proc) (k : Fd) (bits : Bits) (rip : InodePtr) (hg : g ≠ f) :
    (openFiles t fp k f bits rip).filp g = t.filp g := by
  unfold openFiles claim fillIn
  dsimp only
  rw [update_of_ne hg, update_of_ne hg]

/-- One descriptor is set. -/
theorem openFiles_fd (t : Files) (fp : Proc) (k : Fd) (f : FilpPtr) (bits : Bits)
    (rip : InodePtr) : (openFiles t fp k f bits rip).fpFilp =
      update t.fpFilp fp (update (t.fpFilp fp) k (some f)) := rfl

/-- One user is added, to the inode that is opened. -/
theorem users_openFiles (hf : (t.filp f).filpCount = 0) (fp : Proc) (k : Fd) (bits : Bits)
    (rip ip : InodePtr) : users (openFiles t fp k f bits rip) ip =
      if ip = rip then insert f (users t ip) else users t ip := by
  have hfill : ((fillIn t f bits).filp f).filpCount = 0 := by
    unfold fillIn
    dsimp only
    rw [update_self, hf]
  unfold openFiles
  rw [users_claim hfill, users_fillIn hf]

/-- The counts are right after an open. -/
theorem Counted.openFiles (h : Counted t) (hk : t.fpFilp fp k = none)
    (hf : (t.filp f).filpCount = 0) (bits : Bits) (rip : InodePtr) :
    Counted (openFiles t fp k f bits rip) := by
  refine (h.fillIn f bits).claim hk ?_ rip
  unfold FS.fillIn
  dsimp only
  rw [update_self, hf]

end Users

section Find

variable {t : Files} {rip : InodePtr} {bit : Bits → Bool} {f : FilpPtr}

/-- What `find_filp` finds. -/
theorem findFilp_some (h : findFilp t rip bit = some f) : (t.filp f).filpCount ≠ 0 ∧
    (t.filp f).filpIno = rip ∧ bit (t.filp f).filpMode = true := by
  have := List.find?_some h
  rwa [decide_eq_true_eq] at this

/-- When it finds nothing, no slot in use for the inode has the mode bit. -/
theorem findFilp_none (h : findFilp t rip bit = none) (hc : (t.filp f).filpCount ≠ 0)
    (hi : (t.filp f).filpIno = rip) : bit (t.filp f).filpMode = false := by
  have := List.find?_eq_none.mp h f (List.mem_finRange f)
  rw [decide_eq_true_eq] at this
  rw [← Bool.not_eq_true]
  exact fun hb => this ⟨hc, hi, hb⟩

/-- What `get_filp` finds is what the descriptor names. -/
theorem getFilp_some {p : Proc} {fild : Int} {k : Fd} (h : getFilp t p fild = some (k, f)) :
    t.fpFilp p k = some f := by
  obtain ⟨i, -, h⟩ := Option.bind_eq_some_iff.mp h
  obtain ⟨g, hg, he⟩ := Option.map_eq_some_iff.mp h
  cases he
  exact hg

/-- A descriptor number in range is its own number. -/
theorem fdOf_some {fild : Int} {k : Fd} (h : fdOf fild = some k) : fild = k.val := by
  unfold fdOf at h
  split at h
  · cases h
    rename_i hb
    exact (Int.toNat_of_nonneg hb.1).symm
  · cases h

/-- And so is the one that `get_filp` accepts. -/
theorem getFilp_fd {p : Proc} {fild : Int} {k : Fd} (h : getFilp t p fild = some (k, f)) :
    fild = k.val := by
  obtain ⟨i, hi, h⟩ := Option.bind_eq_some_iff.mp h
  obtain ⟨g, -, he⟩ := Option.map_eq_some_iff.mp h
  cases he
  exact fdOf_some hi

/-- `get_filp` finds every descriptor that is open. -/
theorem getFilp_of {p : Proc} {k : Fd} (h : t.fpFilp p k = some f) :
    getFilp t p (k.val : Int) = some (k, f) := by
  have hfd : fdOf (k.val : Int) = some k := by
    unfold fdOf
    have hk := k.isLt
    rw [dif_pos ⟨by omega, by omega⟩]
    rfl
  unfold getFilp
  rw [hfd, Option.bind_some, h]
  rfl

/-- `get_fd` finds a free descriptor and a free slot. -/
theorem getFd_ok {fp : Proc} {bits : Bits} {k : Fd} {t' : Files}
    (h : getFd t fp bits = .ok (k, f, t')) :
    t.fpFilp fp k = none ∧ (t.filp f).filpCount = 0 ∧ t' = fillIn t f bits := by
  unfold getFd at h
  split at h
  · cases h
  · rename_i hfd
    split at h
    · cases h
    · rename_i hf
      cases h
      have hnone : (t.fpFilp fp k).isNone = true := List.find?_some
        (p := fun i => (t.fpFilp fp i).isNone) hfd
      refine ⟨Option.isNone_iff_eq_none.mp hnone, ?_, rfl⟩
      have := List.find?_some hf
      rwa [decide_eq_true_eq] at this

end Find

end Minix.FS
