import Minix.FS.NameCalls
import Minix.FS.PipeCalls
import Minix.Lib.Run

/-!
# Reference counts

After a call, a slot of the inode table has as many users as there are descriptor slots in use,
directories of live processes and super blocks that refer to it. LINK is the exception: when its
second name cannot be fetched, it keeps the inode of the first.
-/

namespace Minix.FS.Inodes

open Function Transition

/-- How often the directories of a process refer to an inode. -/
def dirUses (live : Bool) (fp : Fproc) (rip : InodePtr) : Nat :=
  if live then (if rip = fp.fpRootdir then 1 else 0) + (if rip = fp.fpWorkdir then 1 else 0) else 0

/-- How often a pointer leads to an inode. -/
def Link.uses (l : Link InodePtr) (rip : InodePtr) : Nat := if l = .of rip then 1 else 0

/-- How often a super block refers to an inode. A slot is free if its device is `NO_DEV`. -/
def Super.uses (x : Super) (rip : InodePtr) : Nat :=
  if x.sDev = NO_DEV then 0 else x.sIsup.uses rip + x.sImount.uses rip

/-- The references to an inode. -/
def Tables.refs (t : Tables) (rip : InodePtr) : Nat :=
  (users t.files rip).card + ∑ p, dirUses (t.live p) (t.fproc p) rip + ∑ sp, (t.super sp).uses rip

/-- The count of each descriptor slot is the number of descriptors of live processes that lead
there. -/
def Tables.FilpsCounted (t : Tables) : Prop :=
  ∀ f, (t.files.filp f).filpCount =
    ∑ p, if t.live p then fdCount (t.files.fpFilp p) f else 0

/-- The count of each inode is the number of references. -/
def InodesCounted (t : Tables) (c : Core σ) : Prop :=
  ∀ rip, (c.inode rip).iCount = t.refs rip

/-- Descriptors are counted, and only live processes have any. -/
structure Tables.Sound (t : Tables) : Prop where
  counted : Counted t.files
  idle : ∀ p, t.live p = false → ∀ k, t.files.fpFilp p k = none

/-- The tables are sound, and the inodes have the users that the tables know, and `held`. -/
def Settled (held : List InodePtr) (t : Tables) (c : Core σ) : Prop :=
  t.Sound ∧ Balanced t.refs held c

section Settled

variable {σ : Type} {t t' : Tables} {held held' : List InodePtr} {c : Core σ} {who p : Proc}
  {k : Fd} {f : FilpPtr} {rip : InodePtr}

/-- The counts of the slots are those of the descriptors. -/
theorem Tables.Sound.filpsCounted (h : t.Sound) : t.FilpsCounted := by
  intro f
  rw [h.counted f]
  refine Finset.sum_congr rfl fun p _ => ?_
  by_cases hp : t.live p = true
  · rw [if_pos hp]
  · rw [if_neg hp, fdCount_none (h.idle p (Bool.eq_false_iff.mpr hp))]

/-- With nothing held, the counts of the inodes are those of the tables. -/
theorem Settled.inodesCounted (h : Settled [] t c) : InodesCounted t c := fun rip => by
  have hb := h.2 rip
  rw [List.count_nil] at hb
  omega

/-- A computation that keeps the balance does not touch the tables. -/
theorem settled_of_balanced {α : Type} {m : M σ α} {held' : α → List InodePtr}
    (h : Triple (Balanced t.refs held) m fun r => Balanced t.refs (held' r)) :
    Triple (Settled held t) m fun r => Settled (held' r) t :=
  fun c hc r c' he => ⟨hc.1, h c hc.2 r c' he⟩

/-- Work that gives back and takes inodes, and leaves the tables. -/
theorem settled_of_kept {α : Type} {m : M σ α}
    (h : Triple (Balanced t.refs held) m fun _ => Balanced t.refs held') :
    Triple (Settled held t) m fun _ => Settled held' t := settled_of_balanced h

/-- References move between the tables and the call in progress. -/
theorem Settled.move (h : Settled held t c) (ht : t'.Sound)
    (hr : ∀ ip, t'.refs ip + held'.count ip = t.refs ip + held.count ip) :
    Settled held' t' c := by
  refine ⟨ht, fun ip => ?_⟩
  have hb := h.2 ip
  have hip := hr ip
  omega

/-- Only the descriptors are different. -/
theorem Settled.refile {files : Files} (h : Settled held t c)
    (ht : Tables.Sound { t with files := files })
    (hu : ∀ ip, (users files ip).card + held'.count ip =
      (users t.files ip).card + held.count ip) :
    Settled held' { t with files := files } c := by
  refine h.move ht fun ip => ?_
  have hip := hu ip
  unfold Tables.refs
  dsimp only
  omega

/-- Other descriptors for one live process. -/
theorem Tables.Sound.refile {files : Files} (h : t.Sound) (hc : Counted files)
    (hlive : t.live who = true) (hfd : ∀ p, p ≠ who → files.fpFilp p = t.files.fpFilp p) :
    Tables.Sound { t with files := files } := by
  refine ⟨hc, fun p hp k => ?_⟩
  have hne : p ≠ who := by
    rintro rfl
    exact absurd (hlive.symm.trans hp) Bool.noConfusion
  dsimp only
  rw [hfd p hne]
  exact h.idle p hp k

/-- One inode more that is held. -/
theorem count_cons_eq (rip ip : InodePtr) (held : List InodePtr) :
    (rip :: held).count ip = held.count ip + if ip = rip then 1 else 0 := by
  rw [List.count_cons]
  by_cases he : ip = rip
  · simp [he]
  · simp [he, Ne.symm he]

/-- A free slot may be filled in. -/
theorem Settled.fillIn (h : Settled held t c) (hf : (t.files.filp f).filpCount = 0)
    (bits : Bits) : Settled held { t with files := fillIn t.files f bits } c := by
  refine h.refile ⟨h.1.counted.fillIn f bits, h.1.idle⟩ fun ip => ?_
  rw [users_fillIn hf]

/-- A slot that is filled in is not counted before it is claimed. -/
theorem fillIn_count {files : Files} (hf : (files.filp f).filpCount = 0) (bits : Bits) :
    ((FS.fillIn files f bits).filp f).filpCount = 0 := by
  unfold FS.fillIn
  dsimp only
  rw [update_self, hf]

/-- The descriptor and the slot that were found are free. -/
theorem getFd_free {files files' : Files} {bits : Bits}
    (hfd : getFd files who bits = .ok (k, f, files')) :
    files'.fpFilp who k = none ∧ (files'.filp f).filpCount = 0 := by
  obtain ⟨hk, hf, rfl⟩ := getFd_ok hfd
  exact ⟨hk, fillIn_count hf bits⟩

/-- A free descriptor and slot are looked for. -/
theorem Settled.getFd {files : Files} {bits : Bits} (h : Settled held t c)
    (hfd : getFd t.files who bits = .ok (k, f, files)) :
    Settled held { t with files := files } c := by
  obtain ⟨-, hf, rfl⟩ := getFd_ok hfd
  exact h.fillIn hf bits

/-- What the call holds goes into a free slot. -/
theorem Settled.claim (h : Settled (rip :: held) t c) (hlive : t.live who = true)
    (hk : t.files.fpFilp who k = none) (hf : (t.files.filp f).filpCount = 0) :
    Settled held { t with files := claim t.files who k f rip } c := by
  refine h.refile (h.1.refile (h.1.counted.claim hk hf rip) hlive fun p hp => update_of_ne hp ..)
    fun ip => ?_
  rw [users_claim hf, count_cons_eq]
  by_cases he : ip = rip
  · rw [if_pos he, if_pos he, Finset.card_insert_of_notMem fun hm => (mem_users.mp hm).1 hf]
    omega
  · rw [if_neg he, if_neg he]
    omega

/-- Another descriptor for a slot in use. -/
theorem Settled.share (h : Settled held t c) (hlive : t.live who = true)
    (hk : t.files.fpFilp who k = none) (hf : (t.files.filp f).filpCount ≠ 0) :
    Settled held { t with files := shareFilp t.files who k f } c := by
  refine h.refile (h.1.refile (h.1.counted.share hk f) hlive fun p hp => update_of_ne hp ..)
    fun ip => ?_
  rw [users_share hf]

/-- A slot that loses its last descriptor gives up the inode. -/
theorem Settled.dropFd (h : Settled held t c) (hlive : t.live who = true)
    (hk : t.files.fpFilp who k = some f) :
    Settled ((if (t.files.filp f).filpCount - 1 = 0 then [(t.files.filp f).filpIno] else []) ++
      held) { t with files := dropFd t.files who k f } c := by
  refine h.refile (h.1.refile (h.1.counted.drop hk) hlive fun p hp => update_of_ne hp ..)
    fun ip => ?_
  rw [users_drop]
  split
  · rw [List.singleton_append, count_cons_eq]
    have hmem := h.1.counted.mem_users hk
    by_cases he : ip = (t.files.filp f).filpIno
    · rw [if_pos he, Finset.card_erase_of_mem (he ▸ hmem)]
      have := Finset.card_pos.mpr ⟨f, he ▸ hmem⟩
      omega
    · rw [if_neg he, Finset.erase_eq_of_notMem fun hm => he (mem_users.mp hm).2.symm]
      omega
  · rw [List.nil_append]

/-- Another working directory for a process. -/
theorem dirUses_setWorkdir (live : Bool) (fp : Fproc) (rip ip : InodePtr) :
    dirUses live { fp with fpWorkdir := rip } ip + (if live then if ip = fp.fpWorkdir then 1
      else 0 else 0) = dirUses live fp ip + if live then if ip = rip then 1 else 0 else 0 := by
  unfold dirUses
  cases live <;> simp
  omega

/-- Another root directory for a process. -/
theorem dirUses_setRootdir (live : Bool) (fp : Fproc) (rip ip : InodePtr) :
    dirUses live { fp with fpRootdir := rip } ip + (if live then if ip = fp.fpRootdir then 1
      else 0 else 0) = dirUses live fp ip + if live then if ip = rip then 1 else 0 else 0 := by
  unfold dirUses
  cases live <;> simp
  omega

/-- One process has other directories. -/
theorem Settled.redirect (h : Settled held t c) (p : Proc) (fp : Fproc)
    (hu : ∀ ip, dirUses (t.live p) fp ip + held'.count ip =
      dirUses (t.live p) (t.fproc p) ip + held.count ip) :
    Settled held' { t with fproc := update t.fproc p fp } c := by
  refine h.move ⟨h.1.counted, h.1.idle⟩ fun ip => ?_
  have hsum : ∑ q, dirUses (t.live q) (update t.fproc p fp q) ip +
      dirUses (t.live p) (t.fproc p) ip =
        ∑ q, dirUses (t.live q) (t.fproc q) ip + dirUses (t.live p) fp ip :=
    sum_update t.fproc p fp fun q y => dirUses (t.live q) y ip
  have hip := hu ip
  unfold Tables.refs
  dsimp only
  omega

/-- The old directory is in the hands of the call, and the new one no longer. -/
theorem Settled.setWorkdir (h : Settled (rip :: held) t c) (hlive : t.live p = true) :
    Settled ((t.fproc p).fpWorkdir :: held) (t.setWorkdir p rip) c := by
  refine h.redirect p _ fun ip => ?_
  have hdir := dirUses_setWorkdir (t.live p) (t.fproc p) rip ip
  rw [hlive, if_pos rfl, if_pos rfl] at hdir
  rw [count_cons_eq, count_cons_eq, hlive]
  dsimp only at hdir ⊢
  omega

/-- An inode that is held becomes the root directory, and the old one is held instead. -/
theorem Settled.setRootdir (h : Settled (rip :: held) t c) (hlive : t.live p = true) :
    Settled ((t.fproc p).fpRootdir :: held) (t.setRootdir p rip) c := by
  refine h.redirect p _ fun ip => ?_
  have hdir := dirUses_setRootdir (t.live p) (t.fproc p) rip ip
  rw [hlive, if_pos rfl, if_pos rfl] at hdir
  rw [count_cons_eq, count_cons_eq, hlive]
  dsimp only at hdir ⊢
  omega

/-- One super block is different. -/
theorem Settled.setSuper {sp : SuperPtr} {x : Super} (h : Settled held t c)
    (hu : ∀ ip, x.uses ip + held'.count ip = (t.super sp).uses ip + held.count ip) :
    Settled held' (t.setSuper sp x) c := by
  refine h.move ⟨h.1.counted, h.1.idle⟩ fun ip => ?_
  have hsum : ∑ q, (update t.super sp x q).uses ip + (t.super sp).uses ip =
      ∑ q, (t.super q).uses ip + x.uses ip := sum_update t.super sp x fun _ y => y.uses ip
  have hip := hu ip
  unfold Tables.refs Tables.setSuper
  dsimp only
  omega

/-- A process comes to life, or dies. -/
theorem Settled.setLive {b : Bool} (h : Settled held t c)
    (hidle : ∀ k, b = false → t.files.fpFilp p k = none)
    (hu : ∀ ip, dirUses b (t.fproc p) ip + held'.count ip =
      dirUses (t.live p) (t.fproc p) ip + held.count ip) :
    Settled held' { t with live := update t.live p b } c := by
  refine h.move ⟨h.1.counted, fun q hq k => ?_⟩ fun ip => ?_
  · dsimp only at hq
    by_cases he : q = p
    · subst he
      rw [update_self] at hq
      exact hidle k hq
    · rw [update_of_ne he] at hq
      exact h.1.idle q hq k
  · have hsum : ∑ q, dirUses (update t.live p b q) (t.fproc q) ip +
        dirUses (t.live p) (t.fproc p) ip =
          ∑ q, dirUses (t.live q) (t.fproc q) ip + dirUses b (t.fproc p) ip :=
      sum_update t.live p b fun q y => dirUses y (t.fproc q) ip
    have hip := hu ip
    unfold Tables.refs
    dsimp only
    omega

end Settled

/-! ## The calls -/

section Calls

variable {σ : Type} {d : Disk σ} {t : Tables} {held : List InodePtr} {who p : Proc}

/-- A path is fetched: only `user_path` is different afterwards. -/
theorem fetch_settled {α : Type} {a : PathArg} {flag : NameFlag} {f : Except Int Tables → M σ α}
    {Q : α → Core σ → Prop} (he : ∀ e, fetchName t a flag = some (.error e) → Triple (Settled held t) (f (.error e)) Q)
    (ho : ∀ t₁ : Tables, t₁.live = t.live → t₁.super = t.super →
      Triple (Settled held t₁) (f (.ok t₁)) Q) :
    Triple (Settled held t) (StateT.lift (fetchName t a flag) >>= f) Q := by
  refine .bind (.lift (Q := fun r c => Settled held t c ∧ fetchName t a flag = some r)
    fun c r hc hr => ⟨hc, hr⟩) fun r => .known fun hr => ?_
  cases r with
  | error e => exact he e hr
  | ok t' =>
    have hset : ∃ u, t' = { t with userPath := u } := by
      unfold fetchName at hr
      split at hr
      · split at hr
        · cases hr
        · cases hr
          exact ⟨_, rfl⟩
      · split at hr
        · cases hr
        · split at hr
          · cases hr
          · split at hr
            · cases hr
            · cases hr
              exact ⟨_, rfl⟩
    obtain ⟨u, rfl⟩ := hset
    refine Triple.pre (ho { t with userPath := u } rfl rfl) fun c hc => ?_
    exact ⟨⟨hc.1.counted, hc.1.idle⟩, hc.2⟩

/-- `put_inode` gives back an inode that is held. -/
theorem putInode_settled {sup : SuperPtr → Super} {rip : InodePtr} :
    Triple (Settled (rip :: held) t) (putInode d sup rip) fun _ => Settled held t :=
  settled_of_kept putInode_balanced

/-- An inode is looked at. -/
theorem inodeOf_settled {rip : InodePtr} :
    Triple (Settled (σ := σ) held t) (inodeOf rip) fun _ => Settled held t :=
  settled_of_kept inodeOf_balanced

/-- An inode is changed, but not its count. -/
theorem modifyInode_settled {rip : InodePtr} {f : Inode → Inode}
    (hf : ∀ ip, (f ip).iCount = ip.iCount) :
    Triple (Settled (σ := σ) held t) (modifyInode rip f) fun _ => Settled held t :=
  settled_of_kept (modifyInode_balanced hf)

/-- Work on the disk. -/
theorem inWorld_settled (f : σ → Option σ) :
    Triple (Settled held t) (inWorld f) fun _ => Settled held t :=
  settled_of_kept (inWorld_balanced f)

/-- A check of permissions. -/
theorem forbidden_settled {sup : SuperPtr → Super} {fp : Fproc} (ip : Inode) (mask : Nat)
    (real : Bool) : Triple (Settled (σ := σ) held t)
      (StateT.lift (forbidden sup fp ip mask real)) fun _ => Settled held t :=
  .lift fun _ _ h _ => h

/-- A path leads to an inode that is held then. -/
theorem eatPath_settled {sup : SuperPtr → Super} {fp : Fproc} (path : Path) :
    Triple (Settled held t) (eatPath d sup fp path) fun r => Settled (got r ++ held) t :=
  settled_of_balanced (eatPath_balanced path)

/-- SYNC writes inodes back. -/
theorem doSync_settled {sup : SuperPtr → Super} :
    Triple (Settled held t) (doSync d sup) fun _ => Settled held t :=
  settled_of_kept doSync_balanced

/-- A new node is held, unless there was an error other than that it exists. -/
theorem newNode_settled {fp : Fproc} (path : Path) (bits z0 : Nat) :
    Triple (Settled held t) (newNode d t.super fp path bits z0) fun r c =>
      Settled (r.2.toList ++ held) t c ∧ (r.2 = none ∨ r.1 = OK ∨ r.1 = EEXIST) :=
  fun c hc r c' he =>
    have h := newNode_balanced path bits z0 c hc.2 r c' he
    ⟨⟨hc.1, h.1⟩, h.2⟩

/-- CREAT. -/
theorem doCreat_settled (hlive : t.live who = true) (a : PathArg) (mode : Nat) (devOpen : Int) :
    Triple (Settled [] t) (doCreat d t who a mode devOpen) fun r => Settled [] r.2 := by
  refine fetch_settled (fun e _ => .pure fun _ => id) fun t₁ hl _ => ?_
  dsimp only
  cases hfd : getFd t₁.files who ⟨false, true⟩ with
  | error e => exact .pure fun _ => id
  | ok x =>
    obtain ⟨k, f, files⟩ := x
    obtain ⟨hk, hf⟩ := getFd_free hfd
    refine Triple.pre (.bind (newNode_settled (t := { t₁ with files := files }) _ _ _)
      fun r => .known fun hr => ?_) fun c h => h.getFd hfd
    obtain ⟨r, rip⟩ := r
    dsimp only at hr ⊢
    cases rip with
    | none => exact .ite (fun _ => .pure fun _ => id) fun _ => .fail
    | some rip =>
      refine .ite (fun hne => ?_) fun _ => ?_
      · rcases hr with hr | hr | hr
        · cases hr
        · exact absurd hr hne.1
        · exact absurd hr hne.2
      · refine .bind (settled_of_kept
          (creatNode_balanced r devOpen)) fun r => ?_
        refine .ite (fun _ => .bind putInode_settled fun _ => .pure fun _ => id) fun _ =>
          .pure fun c h => ?_
        exact h.claim (hl ▸ hlive) hk hf

/-- MKNOD. -/
theorem doMknod_settled (a : PathArg) (mode addr : Nat) :
    Triple (Settled [] t) (doMknod d t who a mode addr) fun r => Settled [] r.2 := by
  refine .ite (fun _ => .pure fun _ => id) fun _ => fetch_settled (fun e _ => .pure fun _ => id)
    fun t₁ _ _ => .bind (newNode_settled _ _ _) fun r => .known fun _ =>
      .bind (settled_of_kept (putInodeOpt_balanced r.2)) fun _ =>
        .pure fun _ => id

/-- OPEN. -/
theorem doOpen_settled (hlive : t.live who = true) (a : PathArg) (mode : Int) :
    Triple (Settled [] t) (doOpen d t who a mode) fun r => Settled [] r.2 := by
  unfold doOpen
  cases modeMap mode with
  | none => exact .pure fun _ => id
  | some bits =>
    refine fetch_settled (fun e _ => .pure fun _ => id) fun t₁ hl _ => ?_
    dsimp only
    cases hfd : getFd t₁.files who bits with
    | error e => exact .pure fun _ => id
    | ok x =>
      obtain ⟨k, f, files⟩ := x
      obtain ⟨hk, hf⟩ := getFd_free hfd
      refine Triple.pre (.bind (eatPath_settled (t := { t₁ with files := files }) _) fun r => ?_)
        fun c h => h.getFd hfd
      cases r with
      | error e => exact .pure fun _ => id
      | ok rip =>
        refine .bind inodeOf_settled fun ip => .bind (forbidden_settled ip _ _) fun r => .ite
          (fun _ => .bind putInode_settled fun _ => .pure fun _ => id) fun _ => .ite
            (fun _ => .bind putInode_settled fun _ => .pure fun _ => id) fun _ => .pure fun c h => ?_
        exact h.claim (hl ▸ hlive) hk hf

/-- The slot gives up its inode before the descriptor is closed. -/
theorem doClose_settled (hlive : t.live p = true) (fd : Int) :
    Triple (Settled held t) (doClose d t p fd) fun r c =>
      Settled held r.2 c ∧ r.2.live = t.live ∧ r.2.super = t.super ∧ r.2.fproc = t.fproc ∧
        r.2.files = match getFilp t.files p fd with
          | none => t.files
          | some (k, f) => dropFd t.files p k f := by
  unfold doClose
  cases hfilp : getFilp t.files p fd with
  | none => exact .pure fun c h => ⟨h, rfl, rfl, rfl, rfl⟩
  | some x =>
    obtain ⟨k, f⟩ := x
    have hk := getFilp_some hfilp
    refine .bind inodeOf_settled fun ip => .bind (.onlyIf fun _ => settled_of_kept (closeBlockSpecial_balanced _)) fun _ => ?_
    refine Triple.pre (.bind (Q := fun _ => Settled held { t with files := dropFd t.files p k f })
      ?_ fun _ => .pure fun c h => ⟨h, rfl, rfl, rfl, rfl⟩) fun c h => h.dropFd hlive hk
    by_cases hz : (t.files.filp f).filpCount - 1 = 0
    · rw [if_pos hz]
      exact .ite (fun _ => putInode_settled) fun hne => absurd hz hne
    · rw [if_neg hz]
      exact .ite (fun hne => absurd hne hz) fun _ => .pure fun _ => id

/-- Closing a descriptor leaves the others. -/
theorem close_fds {files : Files} {k k₂ : Fd} {f : FilpPtr} {fd2 : Int}
    (hk : files.fpFilp p k = some f) (hfd₂ : fdOf fd2 = some k₂) (hne : k ≠ k₂) :
    (match getFilp files p fd2 with
      | none => files
      | some (k, f) => dropFd files p k f).fpFilp p k = some f ∧
    (match getFilp files p fd2 with
      | none => files
      | some (k, f) => dropFd files p k f).fpFilp p k₂ = none := by
  unfold getFilp
  rw [hfd₂, Option.bind_some]
  cases hf₂ : files.fpFilp p k₂ with
  | none => exact ⟨hk, hf₂⟩
  | some f₂ =>
    change update files.fpFilp p (update (files.fpFilp p) k₂ none) p k = some f ∧
      update files.fpFilp p (update (files.fpFilp p) k₂ none) p k₂ = none
    rw [update_self, update_self, update_of_ne hne]
    exact ⟨hk, rfl⟩

/-- DUP. -/
theorem doDup_settled (hlive : t.live who = true) (fd fd2 : Int) :
    Triple (Settled [] t) (doDup d t who fd fd2) fun r => Settled [] r.2 := by
  unfold doDup
  generalize (if fd / 64 % 2 = 1 then fd - 64 else fd) = rfd
  dsimp only
  cases hfilp : getFilp t.files who rfd with
  | none => exact .pure fun _ => id
  | some x =>
    obtain ⟨k, f⟩ := x
    have hk := getFilp_some hfilp
    refine .ite (fun _ => ?_) fun _ => ?_
    · cases hfd : getFd t.files who ⟨false, false⟩ with
      | error e => exact .pure fun _ => id
      | ok x =>
        obtain ⟨k₂, f₂, files⟩ := x
        obtain ⟨hk₂, hf₂, rfl⟩ := getFd_ok hfd
        refine .pure fun c h => ?_
        have hfill := h.fillIn hf₂ ⟨false, false⟩
        exact hfill.share hlive hk₂ (Nat.ne_of_gt (hfill.1.counted.pos hk))
    · cases hfd₂ : fdOf fd2 with
      | none => exact .pure fun _ => id
      | some k₂ =>
        refine .ite (fun _ => .pure fun _ => id) fun hne => .bind (doClose_settled hlive fd2)
          fun r => .pure fun c h => ?_
        obtain ⟨h, hl, -, -, hfiles⟩ := h
        have hkeep : r.2.files.fpFilp who k = some f ∧ r.2.files.fpFilp who k₂ = none := by
          rw [hfiles]
          refine close_fds hk hfd₂ fun he => hne ?_
          rw [getFilp_fd hfilp, fdOf_some hfd₂, he]
        exact h.share (hl ▸ hlive) hkeep.2 (Nat.ne_of_gt (h.1.counted.pos hkeep.1))

/-- What the two claims for a pipe find, or that they are given back. -/
theorem getEnds_spec (files : Files) (who : Proc) :
    match getEnds files who with
    | (.error _, files') => files'.fpFilp = files.fpFilp ∧
        ∀ g, (files'.filp g).filpCount = (files.filp g).filpCount ∧
          ((files.filp g).filpCount ≠ 0 → files'.filp g = files.filp g)
    | (.ok (k₀, f₀, k₁, f₁), files') => files.fpFilp who k₀ = none ∧
        files.fpFilp who k₁ = none ∧ k₁ ≠ k₀ ∧ (files.filp f₀).filpCount = 0 ∧
        (files.filp f₁).filpCount = 0 ∧ f₁ ≠ f₀ ∧
        ∃ i₀ i₁, files' = Pipes.claimBoth files who k₀ f₀ i₀ k₁ f₁ i₁ := by
  unfold getEnds
  cases hfd₀ : getFd files who ⟨true, false⟩ with
  | error e => exact ⟨rfl, fun g => ⟨rfl, fun _ => rfl⟩⟩
  | ok x =>
    obtain ⟨k₀, f₀, files₀⟩ := x
    obtain ⟨hk₀, hf₀, rfl⟩ := getFd_ok hfd₀
    dsimp only
    generalize ((fillIn files f₀ ⟨true, false⟩).filp f₀).filpIno = i₀
    have hopen : claim (fillIn files f₀ ⟨true, false⟩) who k₀ f₀ i₀ =
        openFiles files who k₀ f₀ ⟨true, false⟩ i₀ := rfl
    rw [hopen]
    cases hfd₁ : getFd (openFiles files who k₀ f₀ ⟨true, false⟩ i₀) who ⟨false, true⟩ with
    | error e => exact Pipes.drop_claimFirst hk₀ hf₀ _ i₀
    | ok y =>
      obtain ⟨k₁, f₁, files₁⟩ := y
      obtain ⟨hk₁, hf₁, hk, hf, hclaim⟩ := Pipes.getFd_second hfd₁
      exact ⟨hk₀, hk₁, hk, hf₀, hf₁, hf, i₀, _, hclaim _⟩

/-- The same descriptors lead to the same slots. -/
theorem Settled.same {c : Core σ} {files : Files} (h : Settled held t c)
    (hfd : files.fpFilp = t.files.fpFilp)
    (hfilp : ∀ g, (files.filp g).filpCount = (t.files.filp g).filpCount ∧
      ((t.files.filp g).filpCount ≠ 0 → (files.filp g).filpIno = (t.files.filp g).filpIno)) :
    Settled held { t with files := files } c := by
  refine h.refile ⟨fun g => ?_, fun p hp k => ?_⟩ fun ip => ?_
  · rw [(hfilp g).1, hfd]
    exact h.1.counted g
  · rw [hfd]
    exact h.1.idle p hp k
  · have hu : users files ip = users t.files ip :=
      users_congr (fun g => by rw [(hfilp g).1]) (fun g hg => (hfilp g).2 hg) ip
    rw [hu]

/-- Both slots of a new pipe use its inode. -/
theorem doPipe_settled (hlive : t.live who = true) :
    Triple (Settled [] t) (doPipe d t who) fun r => Settled [] r.2 := by
  unfold doPipe
  have hends := getEnds_spec t.files who
  generalize getEnds t.files who = x at hends ⊢
  obtain ⟨r, files⟩ := x
  cases r with
  | error e => exact .pure fun c h => h.same hends.1 fun g => (hends.2 g).imp_right fun hg hn => by rw [hg hn]
  | ok y =>
    obtain ⟨k₀, f₀, k₁, f₁⟩ := y
    obtain ⟨hk₀, hk₁, hk, hf₀, hf₁, hf, i₀, i₁, rfl⟩ := hends
    refine .bind inodeOf_settled fun dir => .bind (settled_of_balanced
      (allocInode_balanced _ _ _ _)) fun r => ?_
    cases r with
    | error e =>
      have hdrop := Pipes.drop_claimBoth hk₀ hk₁ hk hf₀ hf₁ hf i₀ i₁
      exact .pure fun c h => h.same hdrop.1 fun g => (hdrop.2 g).imp_right fun hg hn => by
        rw [hg hn]
    | ok rip =>
      refine .bind (modifyInode_settled fun _ => rfl) fun _ => .bind
        (settled_of_kept dupInode_balanced) fun _ => .bind (settled_of_kept (rwInode_balanced _))
          fun _ => .pure fun c h => ?_
      rw [Pipes.setIno_claimBoth hf]
      -- one end after the other
      have h₀ : Settled [rip] { t with files := openFiles t.files who k₀ f₀ ⟨true, false⟩ rip } c :=
        (h.fillIn hf₀ ⟨true, false⟩).claim hlive hk₀ (fillIn_count hf₀ _)
      have hf₁' : ((openFiles t.files who k₀ f₀ ⟨true, false⟩ rip).filp f₁).filpCount = 0 := by
        rw [openFiles_ne _ _ _ _ _ hf]
        exact hf₁
      refine (h₀.fillIn hf₁' ⟨false, true⟩).claim hlive ?_ (fillIn_count hf₁' _)
      change (openFiles t.files who k₀ f₀ ⟨true, false⟩ rip).fpFilp who k₁ = none
      rw [openFiles_fd, update_self, update_of_ne hk]
      exact hk₁

/-- What a call that starts with a path has in hand. -/
def Begun (t : Tables) (r : Except Int InodePtr × Tables) (c : Core σ) : Prop :=
  Settled (got r.1) r.2 c ∧ r.2.live = t.live ∧ r.2.super = t.super

/-- The inode of the first name is in hand when it may be linked. -/
theorem linkable_settled (a : PathArg) :
    Triple (Settled [] t) (linkable d t who a) (Begun t) := by
  refine fetch_settled (fun e _ => .pure fun c h => ⟨h, rfl, rfl⟩) fun t₁ hl hs => ?_
  refine .bind (eatPath_settled _) fun r => ?_
  cases r with
  | error e => exact .pure fun c h => ⟨h, hl, hs⟩
  | ok rip =>
    exact .bind inodeOf_settled fun ip => .ite (fun _ => .bind putInode_settled fun _ =>
      .pure fun c h => ⟨h, hl, hs⟩) fun _ => .pure fun c h => ⟨h, hl, hs⟩

/-- The inode of a new directory is held when it may become one. -/
theorem change_settled (a : PathArg) :
    Triple (Settled [] t) (change d t who a) (Begun t) := by
  refine fetch_settled (fun e _ => .pure fun c h => ⟨h, rfl, rfl⟩) fun t₁ hl hs => ?_
  refine .bind (eatPath_settled _) fun r => ?_
  cases r with
  | error e => exact .pure fun c h => ⟨h, hl, hs⟩
  | ok rip =>
    exact .bind inodeOf_settled fun ip => .bind (.lift fun _ _ h _ => h) fun r => .ite
      (fun _ => .bind putInode_settled fun _ => .pure fun c h => ⟨h, hl, hs⟩)
        fun _ => .pure fun c h => ⟨h, hl, hs⟩

/-- The second name of LINK can be fetched. -/
def Fetchable (t : Tables) (a : PathArg) : Prop :=
  ∃ t', fetchName t a .M1 = some (.ok t')

/-- LINK gets its second name whenever it has found a file to link. -/
def LinkFetches (d : Disk σ) (t : Tables) (who : Proc) (a₁ a₂ : PathArg) (c : Core σ) : Prop :=
  ∀ rip t₁ c₁, linkable d t who a₁ c = some ((.ok rip, t₁), c₁) → Fetchable t₁ a₂

/-- LINK, when its names can be fetched or there is nothing to give back. -/
theorem doLink_settled (a₁ a₂ : PathArg) :
    Triple (fun c => Settled [] t c ∧ LinkFetches d t who a₁ a₂ c) (doLink d t who a₁ a₂)
      fun r => Settled [] r.2 := by
  refine .bind (Q := fun r c => Begun t r c ∧ ∀ rip, r.1 = .ok rip → Fetchable r.2 a₂)
    (fun c hc r c' he => ⟨linkable_settled a₁ c hc.1 r c' he,
      fun rip hr => hc.2 rip r.2 c' (hr ▸ he)⟩) fun r => .known fun hfetch => ?_
  obtain ⟨r, t₁⟩ := r
  cases r with
  | error e => exact .pure fun c h => h.1
  | ok rip =>
    obtain ⟨t', ht'⟩ := hfetch rip rfl
    refine Triple.pre (P := Settled [rip] t₁) (fetch_settled (fun e he => ?_)
      fun t₂ _ _ => ?_) fun c h => h.1
    · rw [ht'] at he
      cases he
    · refine .bind (settled_of_balanced (lastDir_balanced _)) fun r => ?_
      cases r with
      | error e => exact .bind putInode_settled fun _ => .pure fun _ => id
      | ok x =>
        obtain ⟨ldir, string⟩ := x
        refine .bind (settled_of_kept (enterLink_balanced string)) fun r => ?_
        refine .bind (.onlyIf fun _ => modifyInode_settled fun _ => rfl) fun _ => ?_
        refine .bind (Triple.pre putInode_settled fun c h => ⟨h.1, h.2.perm (.swap ..)⟩)
          fun _ => .bind putInode_settled fun _ => .pure fun _ => id

/-- UNLINK. -/
theorem doUnlink_settled (a : PathArg) :
    Triple (Settled [] t) (doUnlink d t who a) fun r => Settled [] r.2 := by
  refine fetch_settled (fun e _ => .pure fun _ => id) fun t₁ _ _ => ?_
  refine .bind (settled_of_balanced (lastDir_balanced _)) fun r => ?_
  cases r with
  | error e => exact .pure fun _ => id
  | ok x =>
    obtain ⟨ldir, string⟩ := x
    refine .bind (settled_of_balanced (advance_balanced _ _ _)) fun r => ?_
    cases r with
    | error e => exact .bind putInode_settled fun _ => .pure fun _ => id
    | ok rip =>
      exact .bind (settled_of_kept (deleteEntry_balanced string)) fun r =>
        .bind (.onlyIf fun _ => modifyInode_settled fun _ => rfl) fun _ =>
          .bind putInode_settled fun _ => .bind putInode_settled fun _ => .pure fun _ => id

/-- A live process uses its two directories. -/
theorem dirUses_true (fp : Fproc) (ip : InodePtr) :
    dirUses true fp ip = [fp.fpRootdir, fp.fpWorkdir].count ip := by
  rw [count_cons_eq, count_cons_eq, List.count_nil]
  unfold dirUses
  rw [if_pos rfl]
  omega

/-- The working directory of MM is put before the new one has another user. -/
theorem chdirMM_settled (hlive : t.live MM = true) (slot1 : Proc) (cdFlag : Bool) :
    Triple (Settled [] t) (chdirMM d t slot1 cdFlag) fun r => Settled [] r.2 := by
  intro c h r c' he
  have hone : ∀ ip, dirUses (t.live MM) (t.fproc MM) ip ≤ t.refs ip := by
    intro ip
    have := Finset.single_le_sum (f := fun p => dirUses (t.live p) (t.fproc p) ip)
      (fun _ _ => Nat.zero_le _) (Finset.mem_univ MM)
    unfold Tables.refs
    omega
  have hdir : ∀ ip, dirUses (t.live MM) (t.fproc MM) ip =
      [(t.fproc MM).fpRootdir, (t.fproc MM).fpWorkdir].count ip := by
    rw [hlive]
    exact dirUses_true _
  -- the references without the working directory of MM
  let rest : InodePtr → Nat := fun ip => t.refs ip - [(t.fproc MM).fpWorkdir].count ip
  have hrest : ∀ ip, rest ip + [(t.fproc MM).fpWorkdir].count ip = t.refs ip := by
    intro ip
    have h₁ := hone ip
    rw [hdir, count_cons_eq] at h₁
    change t.refs ip - _ + _ = t.refs ip
    omega
  have hb : Balanced rest [(t.fproc MM).fpWorkdir] c := fun ip => by
    have h₁ := h.2 ip
    have h₂ := hrest ip
    rw [List.count_nil] at h₁
    omega
  let fp : Fproc := { t.fproc MM with
    fpWorkdir := if cdFlag then (t.fproc MM).fpRootdir else (t.fproc slot1).fpWorkdir
    fpEffuid := if cdFlag then SU_UID else (t.fproc slot1).fpEffuid }
  have hrun : Triple (Balanced rest [(t.fproc MM).fpWorkdir]) (chdirMM d t slot1 cdFlag)
      fun r c => Balanced rest [fp.fpWorkdir] c ∧
        r.2 = { t with fproc := update t.fproc MM fp } :=
    .bind putInode_balanced fun _ => .bind dupInode_balanced fun _ => .pure fun _ h => ⟨h, rfl⟩
  obtain ⟨hc', ht⟩ := hrun c hb r c' he
  rw [ht]
  refine ⟨⟨h.1.counted, h.1.idle⟩, fun ip => ?_⟩
  have hsum : ∑ q, dirUses (t.live q) (update t.fproc MM fp q) ip +
      dirUses (t.live MM) (t.fproc MM) ip =
        ∑ q, dirUses (t.live q) (t.fproc q) ip + dirUses (t.live MM) fp ip :=
    sum_update t.fproc MM fp fun q y => dirUses (t.live q) y ip
  have hnew : dirUses (t.live MM) fp ip = [fp.fpRootdir, fp.fpWorkdir].count ip := by
    rw [hlive]
    exact dirUses_true _ _
  have hroot : fp.fpRootdir = (t.fproc MM).fpRootdir := rfl
  have h₁ := hc' ip
  have h₂ := hrest ip
  rw [hdir, hnew, hroot, count_cons_eq, count_cons_eq (t.fproc MM).fpRootdir] at hsum
  unfold Tables.refs at h₂ ⊢
  rw [List.count_nil]
  dsimp only
  omega

/-- The new directory takes the place of the old one. -/
theorem doChdir_settled (hlive : t.live who = true) (a : PathArg) (slot1 : Proc)
    (cdFlag : Bool) :
    Triple (Settled [] t) (doChdir d t who a slot1 cdFlag) fun r => Settled [] r.2 := by
  refine .ite (fun he => chdirMM_settled (he ▸ hlive) slot1 cdFlag) fun _ =>
    .bind (change_settled a) fun r => ?_
  obtain ⟨r, t₁⟩ := r
  cases r with
  | error e => exact .pure fun c h => h.1
  | ok rip =>
    refine Triple.pre (P := fun c => Settled [rip] t₁ c ∧ t₁.live = t.live) (.known fun hl => ?_)
      fun c h => ⟨h.1, h.2.1⟩
    exact Triple.pre (.bind (putInode_settled (t := t₁.setWorkdir who rip)) fun _ =>
      .pure fun _ => id) fun c h => h.setWorkdir (hl ▸ hlive)

/-- CHROOT. -/
theorem doChroot_settled (hlive : t.live who = true) (a : PathArg) :
    Triple (Settled [] t) (doChroot d t who a) fun r => Settled [] r.2 := by
  refine .ite (fun _ => .pure fun _ => id) fun _ => .bind (change_settled a) fun r => ?_
  obtain ⟨r, t₁⟩ := r
  cases r with
  | error e => exact .pure fun c h => h.1
  | ok rip =>
    refine Triple.pre (P := fun c => Settled [rip] t₁ c ∧ t₁.live = t.live) (.known fun hl => ?_)
      fun c h => ⟨h.1, h.2.1⟩
    exact Triple.pre (.bind (putInode_settled (t := t₁.setRootdir who rip)) fun _ =>
      .pure fun _ => id) fun c h => h.setRootdir (hl ▸ hlive)

/-- The calls that look up a file, do something to it and give it back. -/
theorem onFile_settled {f : (SuperPtr → Super) → Fproc → InodePtr → M σ Int}
    (hf : ∀ t₁ : Tables, ∀ fp rip, Triple (Settled [rip] t₁) (f t₁.super fp rip) fun _ =>
      Settled [rip] t₁) (a : PathArg) (flag : NameFlag) :
    Triple (Settled [] t) (onFile d t who a flag f) fun r => Settled [] r.2 := by
  refine fetch_settled (fun e _ => .pure fun _ => id) fun t₁ _ _ => ?_
  refine .bind (eatPath_settled _) fun r => ?_
  cases r with
  | error e => exact .pure fun _ => id
  | ok rip =>
    exact .bind (hf t₁ _ rip) fun r => .bind putInode_settled fun _ => .pure fun _ => id

/-- STAT. -/
theorem doStat_settled (a : PathArg) (copied : Int) :
    Triple (Settled [] t) (doStat d t who a copied) fun r => Settled [] r.2 := by
  refine onFile_settled (fun t₁ fp rip => ?_) a .M1
  exact .pure fun c h => h

/-- CHMOD. -/
theorem doChmod_settled (a : PathArg) (mode : Nat) :
    Triple (Settled [] t) (doChmod d t who a mode) fun r => Settled [] r.2 := by
  refine onFile_settled (fun t₁ fp rip => ?_) a .M3
  refine .bind inodeOf_settled fun ip => .bind (.lift fun _ _ h _ => h) fun r => ?_
  exact .bind (.onlyIf fun _ => modifyInode_settled fun _ => rfl) fun _ => .pure fun c h => h

/-- CHOWN. -/
theorem doChown_settled (a : PathArg) (owner group : Int) :
    Triple (Settled [] t) (doChown d t who a owner group) fun r => Settled [] r.2 := by
  refine .ite (fun _ => .pure fun _ => id) fun _ => onFile_settled (fun t₁ fp rip => ?_) a .M1
  refine .bind inodeOf_settled fun ip => .bind (.lift fun _ _ h _ => h) fun r => ?_
  exact .bind (.onlyIf fun _ => modifyInode_settled fun _ => rfl) fun _ => .pure fun c h => h

/-- ACCESS. -/
theorem doAccess_settled (a : PathArg) (mode : Nat) :
    Triple (Settled [] t) (doAccess d t who a mode) fun r => Settled [] r.2 := by
  refine onFile_settled (fun t₁ fp rip => ?_) a .M3
  exact .bind inodeOf_settled fun ip => .lift fun _ _ h _ => h

/-- UTIME. -/
theorem doUtime_settled (a : PathArg) (updateTime : Int) :
    Triple (Settled [] t) (doUtime d t who a updateTime) fun r => Settled [] r.2 := by
  refine onFile_settled (fun t₁ fp rip => ?_) a .M1
  refine .bind inodeOf_settled fun ip => .ite (fun _ => .pure fun c h => h) fun _ => ?_
  exact .bind (modifyInode_settled fun _ => rfl) fun _ => .pure fun c h => h

/-- A device that has a name is a device. -/
theorem nameToDev_settled : Triple (Settled held t) (nameToDev d t who) fun r c =>
    Settled held t c ∧ ∀ dev, r = .ok dev → dev ≠ NO_DEV := by
  refine .bind (eatPath_settled _) fun r => ?_
  cases r with
  | error e => exact .pure fun c h => ⟨h, fun _ hr => nomatch hr⟩
  | ok rip =>
    refine .bind inodeOf_settled fun ip => .bind putInode_settled fun _ => .ite
      (fun _ => .pure fun c h => ⟨h, fun _ hr => nomatch hr⟩) fun _ => .ite
        (fun _ => .pure fun c h => ⟨h, fun _ hr => nomatch hr⟩) fun hne => ?_
    refine .pure fun c h => ⟨h, fun dev hr => ?_⟩
    cases hr
    exact hne

/-- A slot without a device refers to no inode. -/
theorem uses_noDev (x : Super) (rip : InodePtr) : Super.uses { x with sDev := NO_DEV } rip = 0 :=
  if_pos rfl

/-- What the mount leaves in hand is what the super block then refers to. -/
theorem mountOn_settled {sp : SuperPtr} {x : Super} {rip : InodePtr} {rdOnly : Bool}
    (hdev : x.sDev ≠ NO_DEV) :
    Triple (Settled [rip] t) (mountOn d t.super sp x rip rdOnly) fun r c =>
      ∃ held, Settled held t c ∧ ∀ ip, r.2.uses ip = held.count ip := by
  refine .bind inodeOf_settled fun ip => .bind (settled_of_balanced (mountRoot_balanced _ _))
    fun root => ?_
  obtain ⟨r, root⟩ := root
  have hmaps : Triple (Settled (root.toList ++ [rip]) t) (mountMaps d x r) fun r c =>
      Settled (root.toList ++ [rip]) t c ∧ r.2.2.sDev = x.sDev := fun c hc r c' he =>
    have h := mountMaps_balanced x _ c hc.2 r c' he
    ⟨⟨hc.1, h.1⟩, h.2⟩
  refine .bind hmaps fun y => .known fun hy => ?_
  obtain ⟨r₁, loaded, x₁⟩ := y
  refine .bind (settled_of_kept (mountTypes_balanced _ _)) fun r₂ => .ite (fun _ => ?_) fun _ => ?_
  · have hperm : (root.toList ++ [rip]).Perm (rip :: (root.toList ++ [])) := by
      rw [List.append_nil]
      exact List.perm_append_comm
    refine .bind (Q := fun _ => Settled (root.toList ++ []) t)
      (Triple.pre putInode_settled fun c h => ⟨h.1, h.2.perm hperm⟩) fun _ => ?_
    refine .bind (Q := fun _ => Settled [] t) (settled_of_kept (putInodeOpt_balanced root))
      fun _ => ?_
    · refine .bind (.onlyIf fun _ => inWorld_settled _) fun _ => .bind doSync_settled fun _ =>
        .bind (inWorld_settled _) fun _ => .pure fun c h => ⟨[], h, fun ip => ?_⟩
      rw [uses_noDev, List.count_nil]
  · cases root with
    | none => exact .fail
    | some root =>
      refine .bind (modifyInode_settled fun _ => rfl) fun _ => .pure fun c h =>
        ⟨[root, rip], h, fun ip => ?_⟩
      have hdev₁ : x₁.sDev ≠ NO_DEV := hy ▸ hdev
      unfold Super.uses Link.uses
      rw [if_neg hdev₁, count_cons_eq, count_cons_eq, List.count_nil]
      simp only [Link.of.injEq, eq_comm]
      omega

/-- A free slot has no device. -/
theorem freeSuper_some {sup : SuperPtr → Super} {sp : SuperPtr} (h : freeSuper sup = some sp) :
    (sup sp).sDev = NO_DEV := by
  have := List.find?_some h
  rwa [decide_eq_true_eq] at this

/-- A free slot of the super block table may hold anything, as long as it is free. -/
theorem Settled.setFree {c : Core σ} {sp : SuperPtr} {x : Super} (h : Settled held t c)
    (hsp : (t.super sp).sDev = NO_DEV) (hx : x.sDev = NO_DEV) :
    Settled held (t.setSuper sp x) c := by
  refine h.setSuper fun ip => ?_
  unfold Super.uses
  rw [if_pos hsp, if_pos hx]

/-- MOUNT. -/
theorem doMount_settled (a₁ a₂ : PathArg) (rdOnly : Bool) :
    Triple (Settled [] t) (doMount d t who a₁ a₂ rdOnly) fun r => Settled [] r.2 := by
  refine .ite (fun _ => .pure fun c h => h) fun _ => fetch_settled (fun e _ => .pure fun c h => h)
    fun t₁ _ _ => .bind nameToDev_settled fun r => .known fun hdev => ?_
  cases r with
  | error e => exact .pure fun c h => h
  | ok dev =>
    refine .ite (fun _ => .pure fun c h => h) fun _ => ?_
    cases hfree : freeSuper t₁.super with
    | none => exact .pure fun c h => h
    | some sp =>
      have hsp := freeSuper_some hfree
      refine .bind (settled_of_kept (onWorld_balanced _)) fun x => .ite
        (fun _ => .pure fun c h => h.setFree hsp rfl) fun _ => fetch_settled
          (fun e _ => .pure fun c h => h.setFree hsp rfl) fun t₂ _ hs => ?_
      have hsp₂ : (t₂.super sp).sDev = NO_DEV := hs ▸ hsp
      refine .bind (eatPath_settled _) fun r => ?_
      cases r with
      | error e => exact .pure fun c h => h.setFree hsp₂ rfl
      | ok rip =>
        refine .bind (mountOn_settled (hdev dev rfl)) fun r => .pure fun c h => ?_
        obtain ⟨held, h, hu⟩ := h
        refine h.setSuper fun ip => ?_
        rw [hu ip, List.count_nil]
        unfold Super.uses
        rw [if_pos hsp₂]
        omega

/-- What a pointer refers to. -/
def Link.toList : Link InodePtr → List InodePtr
  | .of rip => [rip]
  | _ => []

/-- The uses of a pointer are counted like a list. -/
theorem Link.uses_eq (l : Link InodePtr) (rip : InodePtr) : l.uses rip = l.toList.count rip := by
  unfold Link.uses Link.toList
  cases l with
  | nil => rfl
  | of ip => simp [List.count_cons]
  | wild => rfl

/-- The inode behind a pointer is given back. -/
theorem putLink_settled {sup : SuperPtr → Super} (l : Link InodePtr) :
    Triple (Settled (l.toList ++ held) t) (putLink d sup l) fun _ => Settled held t := by
  cases l with
  | nil => exact .pure fun c h => h
  | of rip => exact putInode_settled
  | wild => exact .fail

/-- The inode that was mounted on loses its mark. -/
theorem unmountOn_settled (l : Link InodePtr) :
    Triple (Settled (σ := σ) held t) (unmountOn l) fun _ => Settled held t := by
  cases l with
  | nil => exact .fail
  | of rip => exact modifyInode_settled fun _ => rfl
  | wild => exact .fail

/-- UMOUNT. -/
theorem doUmount_settled (a : PathArg) :
    Triple (Settled [] t) (doUmount d t who a) fun r => Settled [] r.2 := by
  refine .ite (fun _ => .pure fun c h => h) fun _ => fetch_settled (fun e _ => .pure fun c h => h)
    fun t₁ _ _ => .bind nameToDev_settled fun r => .known fun hdev => ?_
  cases r with
  | error e => exact .pure fun c h => h
  | ok dev =>
    refine .bind (.get (Q := fun _ => Settled [] t₁) fun c h => h) fun c₀ => .ite
      (fun _ => .pure fun c h => h) fun _ => ?_
    refine .bind (settled_of_kept (unloadMaps_balanced _)) fun _ => .bind doSync_settled
      fun _ => .bind (inWorld_settled _) fun _ => ?_
    cases hslot : getSuper t₁.super dev with
    | none => exact .pure fun c h => h
    | some sp =>
      have hsp : (t₁.super sp).sDev = dev := by
        have := List.find?_some hslot
        rwa [decide_eq_true_eq] at this
      have hin : (t₁.super sp).sDev ≠ NO_DEV := hsp ▸ hdev dev rfl
      -- the references of the super block are in hand as soon as its slot is free
      refine Triple.pre (P := Settled ((t₁.super sp).sImount.toList ++
        ((t₁.super sp).sIsup.toList ++ [])) (t₁.setSuper sp { t₁.super sp with
          sImount := .nil, sDev := NO_DEV })) ?_ fun c h => h.setSuper fun ip => ?_
      · exact .bind (unmountOn_settled _) fun _ => .bind (putLink_settled _) fun _ =>
          .bind (putLink_settled _) fun _ => .pure fun c h => h
      · unfold Super.uses
        rw [if_pos rfl, if_neg hin, List.append_nil, List.count_append, List.count_nil,
          Link.uses_eq, Link.uses_eq]
        omega

/-- The child has its parent's descriptors and directories. -/
theorem doFork_settled {parent child : Proc} (hchild : t.live child = false) :
    Triple (Settled (σ := σ) [] t) (doFork t parent child) fun r => Settled [] r.2 := by
  have hdup : ∀ {held : List InodePtr} {rip : InodePtr}, Triple (Settled (σ := σ) held t)
      (dupInode rip) fun _ => Settled (rip :: held) t := settled_of_kept dupInode_balanced
  refine .bind hdup fun _ => .bind hdup fun _ => .pure fun c h => ?_
  have hfp : Settled [(t.fproc parent).fpWorkdir, (t.fproc parent).fpRootdir]
      { t with fproc := update t.fproc child (t.fproc parent) } c :=
    h.redirect child (t.fproc parent) fun ip => by rw [hchild]; rfl
  have hlive : Settled [] { t with
      fproc := update t.fproc child (t.fproc parent), live := update t.live child true } c := by
    refine hfp.setLive (fun k hb => nomatch hb) fun ip => ?_
    dsimp only
    rw [update_self, hchild, dirUses_true, List.count_nil,
      (List.Perm.swap (t.fproc parent).fpRootdir (t.fproc parent).fpWorkdir []).count_eq]
    unfold dirUses
    simp
  refine hlive.refile (Tables.Sound.refile hlive.1 (h.1.counted.fork parent (h.1.idle child hchild))
    (update_self ..) fun q hq => update_of_ne hq ..) fun ip => ?_
  rw [h.1.counted.users_fork parent child ip]

/-- A descriptor that is closed is free, and so is one that was free before. -/
theorem close_none {files : Files} {k fd : Fd} (hk : k = fd ∨ files.fpFilp p k = none) :
    (match getFilp files p fd.val with
      | none => files
      | some (k, f) => dropFd files p k f).fpFilp p k = none := by
  cases hfilp : getFilp files p fd.val with
  | none =>
    rcases hk with rfl | hk
    · cases hf : files.fpFilp p k with
      | none => rfl
      | some f => rw [getFilp_of hf] at hfilp; cases hfilp
    · exact hk
  | some x =>
    obtain ⟨j, f⟩ := x
    have hj : fd = j := Fin.ext (by exact_mod_cast getFilp_fd hfilp)
    subst hj
    change update files.fpFilp p (update (files.fpFilp p) fd none) p k = none
    rw [update_self]
    rcases hk with rfl | hk
    · rw [update_self]
    · by_cases he : k = fd
      · rw [he, update_self]
      · rw [update_of_ne he]
        exact hk

/-- The descriptors of a process are closed one by one, and none is left. -/
theorem closeAll_settled (hlive : t.live p = true) (l : List Fd) :
    Triple (Settled [] t) (closeAll d p l t) fun t₁ c =>
      Settled [] t₁ c ∧ (t₁.live = t.live ∧ t₁.fproc = t.fproc ∧
        ∀ k, (k ∈ l ∨ t.files.fpFilp p k = none) → t₁.files.fpFilp p k = none) := by
  induction l generalizing t with
  | nil => exact .pure fun c h => ⟨h, rfl, rfl, fun k hk => hk.resolve_left List.not_mem_nil⟩
  | cons fd l ih =>
    refine .bind (doClose_settled hlive fd.val) fun r => .known fun hr => ?_
    obtain ⟨hl, -, hfp, hfiles⟩ := hr
    refine (ih (hl ▸ hlive)).post fun t₁ c h => ⟨h.1, h.2.1.trans hl, h.2.2.1.trans hfp,
      fun k hk => h.2.2.2 k ?_⟩
    rw [hfiles]
    rcases hk with hk | hk
    · rcases List.mem_cons.mp hk with hk | hk
      · exact .inr (close_none (.inl hk))
      · exact .inl hk
    · exact .inr (close_none (.inr hk))

/-- Nothing of the process is left. -/
theorem doExit_settled (hlive : t.live p = true) :
    Triple (Settled [] t) (doExit d t p) fun r => Settled [] r.2 := by
  refine .bind (closeAll_settled hlive _) fun t₁ => .known fun ht => ?_
  obtain ⟨hl, -, hnone⟩ := ht
  refine Triple.pre (P := Settled [(t₁.fproc p).fpRootdir, (t₁.fproc p).fpWorkdir]
    { t₁ with live := update t₁.live p false }) ?_ fun c h => h.setLive
      (fun k _ => hnone k (.inl (List.mem_finRange k))) fun ip => ?_
  · exact .bind putInode_settled fun _ => .bind putInode_settled fun _ => .pure fun c h => h
  · rw [hl, hlive, dirUses_true]
    unfold dirUses
    simp

/-- Files and ids may change, but not who uses what. -/
theorem touch_settled (o : Effect σ) :
    Triple (Settled [] t) (touch t o) fun r => Settled [] r.2 := by
  refine .bind (Q := fun _ => Settled [] t) (.modify fun c h => ⟨h.1, h.2.congr fun _ => rfl⟩)
    fun _ => .pure fun c h => ?_
  have hfiles : Settled [] { t with files := { t.files with
      filp := fun f => { t.files.filp f with filpPos := o.pos f } } } c :=
    h.same rfl fun g => ⟨rfl, fun _ => rfl⟩
  exact ⟨⟨hfiles.1.counted, hfiles.1.idle⟩, hfiles.2⟩

end Calls

section Runs

variable {σ : Type} {d : Disk σ} {t : Tables} {s s' : State σ} {r : Request σ}

/-- The call is not a LINK that has found a file to link and cannot fetch its second name. -/
def Fetches (d : Disk σ) (s : State σ) : Request σ → Prop
  | .link who a₁ a₂ => LinkFetches d s.tabs who a₁ a₂ s.core
  | _ => True

/-- Every reference is counted, and nothing else. -/
def Exact (s : State σ) : Prop := s.tabs.FilpsCounted ∧ InodesCounted s.tabs s.core

/-- Every call leaves the counts as they should be. -/
theorem perform_settled (hr : AsIssued t r) :
    Triple (fun c => Settled [] t c ∧ Fetches d ⟨t, c⟩ r) (perform d t r) fun x =>
      Settled [] x.2 := by
  cases r with
  | creat who a mode devOpen => exact (doCreat_settled hr a mode devOpen).pre fun _ h => h.1
  | mknod who a mode addr => exact (doMknod_settled a mode addr).pre fun _ h => h.1
  | «open» who a mode => exact (doOpen_settled hr a mode).pre fun _ h => h.1
  | close who fd =>
    exact ((doClose_settled hr fd).post fun _ _ h => h.1).pre fun _ h => h.1
  | dup who fd fd2 => exact (doDup_settled hr fd fd2).pre fun _ h => h.1
  | pipe who => exact (doPipe_settled hr).pre fun _ h => h.1
  | link who a₁ a₂ => exact doLink_settled a₁ a₂
  | unlink who a => exact (doUnlink_settled a).pre fun _ h => h.1
  | chdir who a slot1 cdFlag => exact (doChdir_settled hr a slot1 cdFlag).pre fun _ h => h.1
  | chroot who a => exact (doChroot_settled hr a).pre fun _ h => h.1
  | stat who a copied => exact (doStat_settled a copied).pre fun _ h => h.1
  | chmod who a mode => exact (doChmod_settled a mode).pre fun _ h => h.1
  | chown who a owner group => exact (doChown_settled a owner group).pre fun _ h => h.1
  | access who a mode => exact (doAccess_settled a mode).pre fun _ h => h.1
  | utime who a updateTime => exact (doUtime_settled a updateTime).pre fun _ h => h.1
  | mount who a₁ a₂ rdOnly => exact (doMount_settled a₁ a₂ rdOnly).pre fun _ h => h.1
  | umount who a => exact (doUmount_settled a).pre fun _ h => h.1
  | sync who => exact .bind (doSync_settled.pre fun _ h => h.1) fun _ => .pure fun _ h => h
  | fork parent child => exact (doFork_settled hr.2).pre fun _ h => h.1
  | exit slot1 => exact (doExit_settled hr).pre fun _ h => h.1
  | other who o => exact (touch_settled o).pre fun _ h => h.1

/-- The root file system is mounted on its own root. -/
theorem loadSuper_settled :
    Triple (Settled [] blankTables) (loadSuper d blankTables) fun t c =>
      Settled [] t c ∧ t.live = blankTables.live := by
  refine .bind (settled_of_kept (onWorld_balanced _)) fun x => .bind
    (settled_of_balanced (getInode_balanced _ _)) fun r => ?_
  cases r with
  | error e => exact .fail
  | ok rip =>
    refine .bind inodeOf_settled fun ip => .ite (fun _ => .fail) fun _ => .bind
      (settled_of_kept dupInode_balanced) fun _ => .bind (settled_of_kept (onWorld_balanced _))
        fun y => .ite (fun _ => .fail) fun _ => .pure fun c h => ⟨h.setSuper fun ip => ?_, rfl⟩
    have hfree : (blankTables.super 0).uses ip = 0 := rfl
    have hdev : (ROOT_DEV : Nat) ≠ NO_DEV := by decide
    rw [hfree]
    unfold Super.uses
    rw [if_neg hdev, Link.uses_eq, List.count_nil]
    change [rip].count ip + [rip].count ip + 0 = 0 + [rip, rip].count ip
    rw [count_cons_eq, count_cons_eq, count_cons_eq, List.count_nil]
    omega

/-- A process of the boot image gets the root directory twice. -/
theorem initFproc_settled {p : Proc} (hp : t.live p = false) :
    Triple (Settled [] t) (initFproc d t p) fun t' c =>
      Settled [] t' c ∧ t'.live = update t.live p true := by
  refine .bind (settled_of_balanced (getInode_balanced _ _)) fun r => ?_
  cases r with
  | error e => exact .fail
  | ok rip =>
    refine .bind (settled_of_kept dupInode_balanced) fun _ => .pure fun c h => ⟨?_, rfl⟩
    have hfp : Settled [rip, rip]
        { t with fproc := update t.fproc p ⟨65535, rip, rip, SU_UID, SU_UID, 0, 0⟩ } c :=
      h.redirect p _ fun ip => by rw [hp]; rfl
    refine hfp.setLive (fun k hb => nomatch hb) fun ip => ?_
    dsimp only
    rw [update_self, hp, dirUses_true, List.count_nil]
    unfold dirUses
    simp

/-- The counts are right after the start. -/
theorem Started.settled (h : Started d s) : Settled [] s.tabs s.core := by
  obtain ⟨c, hfree, he⟩ := h
  have hblank : Settled [] blankTables c := by
    refine ⟨⟨fun f => ?_, fun p _ k => rfl⟩, fun ip => ?_⟩
    · change 0 = _
      symm
      exact Finset.sum_eq_zero fun p _ => fdCount_none (fun k => rfl) f
    · have husers : users blankTables.files ip = ∅ :=
        Finset.filter_eq_empty_iff.mpr fun f _ hf => hf.1 rfl
      rw [hfree ip]
      unfold Tables.refs
      rw [husers]
      simp [blankTables, dirUses, Super.uses]
  have hrun : Triple (Settled [] blankTables) (fsInit d) fun t => Settled [] t := by
    refine .bind loadSuper_settled fun t => .known fun hl => ?_
    refine .bind (initFproc_settled (hl ▸ rfl)) fun t₁ => .known fun hl₁ => ?_
    refine (initFproc_settled ?_).post fun _ _ h => h.1
    rw [hl₁, hl]
    rfl
  exact hrun c hblank _ _ he

/-- They are right after every message. -/
theorem serve_settled (h : Settled [] s.tabs s.core) (hr : AsIssued s.tabs r)
    (hf : Fetches d s r) (he : serve d s r = some s') : Settled [] s'.tabs s'.core := by
  obtain ⟨x, hx, rfl⟩ := Option.map_eq_some_iff.mp he
  exact perform_settled hr s.core ⟨h, hf⟩ x.1 x.2 hx

/-- What is kept says that the counts are exact. -/
theorem Settled.exact (h : Settled [] s.tabs s.core) : Exact s :=
  ⟨h.1.filpsCounted, h.inodesCounted⟩

/-- A LINK that has found a file to link and cannot fetch its second name keeps the inode. -/
theorem link_keeps {who : Proc} {a₁ a₂ : PathArg} (h : Settled [] s.tabs s.core)
    (hf : ¬LinkFetches d s.tabs who a₁ a₂ s.core)
    (he : serve d s (.link who a₁ a₂) = some s') : ¬InodesCounted s'.tabs s'.core := by
  obtain ⟨x, hx, rfl⟩ := Option.map_eq_some_iff.mp he
  unfold LinkFetches at hf
  push Not at hf
  obtain ⟨rip, t₁, c₁, hl, hnot⟩ := hf
  obtain ⟨y, hy, hx⟩ := Option.bind_eq_some_iff.mp hx
  cases hl.symm.trans hy
  obtain ⟨z, hz, hx⟩ := Option.bind_eq_some_iff.mp hx
  obtain ⟨n, hn, hz⟩ := Option.bind_eq_some_iff.mp hz
  cases Option.some.inj hz
  cases n with
  | ok t₂ => exact absurd ⟨t₂, hn⟩ hnot
  | error e =>
    cases Option.some.inj hx
    intro hexact
    have hheld := (linkable_settled a₁ _ h _ _ hl).1.2 rip
    have hcount : (got (Except.ok rip)).count rip = 1 := List.count_singleton_self
    have := hexact rip
    dsimp only at this hheld
    omega

/-- In every run in which each LINK that has found a file to link can fetch its second name, the
counts are exact after every call; a LINK that cannot makes them wrong. -/
theorem reference_counts :
    (∀ s, Reach (serve d) (fun s r => AsIssued s.tabs r ∧ Fetches d s r) (Started d) s → Exact s) ∧
    ∀ s r s', Reach (serve d) (fun s r => AsIssued s.tabs r ∧ Fetches d s r) (Started d) s →
      AsIssued s.tabs r → serve d s r = some s' → (Exact s' ↔ Fetches d s r) := by
  have hinv : ∀ s, Reach (serve d) (fun s r => AsIssued s.tabs r ∧ Fetches d s r) (Started d) s →
      Settled [] s.tabs s.core := fun s hs =>
    hs.invariant (fun s => Settled [] s.tabs s.core) (fun _ h => h.settled)
      fun _ _ _ h hg he => serve_settled h hg.1 hg.2 he
  refine ⟨fun s hs => (hinv s hs).exact, fun s r s' hs hr he => ⟨fun hexact => ?_, fun hf => ?_⟩⟩
  · cases r with
    | link who a₁ a₂ =>
      by_contra hf
      exact link_keeps (hinv s hs) hf he hexact.2
    | _ => trivial
  · exact (serve_settled (hinv s hs) hr hf he).exact

end Runs

section Example

/-- A disk on which every name in the root directory leads to one file. -/
def oneFile : Disk Unit where
  readInode _ numb w :=
    some (⟨if numb = ROOT_INODE then I_DIRECTORY ||| 0o755 else I_REGULAR ||| 0o644, 0, 64, 0, 0, 3,
      fun _ => 0⟩, w)
  writeInode _ _ _ w := some w
  truncate _ ip w := some (ip.toDInode, w)
  freeBit _ _ w := some w
  allocBit _ w := some (none, w)
  clockTime w := some (0, w)
  scan _ ip _ _ _ w := some (((OK, 2), ip.toDInode, ip.iDirt), w)
  readSuper _ w := some ({ blankTables.super 0 with sMagic := SUPER_MAGIC }, w)
  loadBitMaps _ w := some ((true, fun _ => .nil, fun _ => .nil), w)
  unloadBitMaps _ w := some w
  flush _ w := some w
  invalidate _ w := w
  nilMount := false
  staleErr := OK
  depth := 2

/-- An inode table that is cleared. -/
def blankCore : Core Unit :=
  ⟨fun _ => ⟨⟨0, 0, 0, 0, 0, 0, fun _ => 0⟩, 0, 0, 0, CLEAN, false, false⟩, ()⟩

/-- The file system on that disk, when it has been initialized. -/
def booted : State Unit :=
  ((fsInit oneFile blankCore).map fun x => ⟨x.1, x.2⟩).getD ⟨blankTables, blankCore⟩

/-- The example is a start. -/
theorem booted_started : Started oneFile booted := by
  refine ⟨blankCore, fun _ => rfl, ?_⟩
  have h : (fsInit oneFile blankCore).isSome = true := by decide +kernel
  obtain ⟨x, hx⟩ := Option.isSome_iff_exists.mp h
  unfold booted
  rw [hx]
  rfl

/-- A name that a copy from user space yields. -/
def nameA : PathArg := ⟨2, [], .ok [97, 0]⟩

/-- A name that is too long. -/
def longName : PathArg := ⟨129, [], .ok []⟩

/-- Its LINK comes to an end, and the first name leads to a file. -/
theorem booted_link : (serve oneFile booted (.link INIT nameA longName)).isSome = true ∧
    ∃ rip t₁ c₁, linkable oneFile booted.tabs INIT nameA booted.core =
      some ((.ok rip, t₁), c₁) := by
  have h : ((linkable oneFile booted.tabs INIT nameA booted.core).bind fun x =>
      x.1.1.toOption).isSome = true := by decide +kernel
  refine ⟨by decide +kernel, ?_⟩
  obtain ⟨rip, hrip⟩ := Option.isSome_iff_exists.mp h
  obtain ⟨⟨⟨r, t₁⟩, c₁⟩, hx, hr⟩ := Option.bind_eq_some_iff.mp hrip
  cases r with
  | error e => cases hr
  | ok ip => exact ⟨ip, t₁, c₁, hx⟩

/-- INIT links a file, under a name that is too long: the inode of the file keeps a user. -/
theorem link_counterexample :
    ∃ s : State Unit, Started oneFile booted ∧
      AsIssued booted.tabs (.link INIT nameA longName : Request Unit) ∧ serve oneFile booted
        (.link INIT nameA longName) = some s ∧ ¬Exact s := by
  obtain ⟨hserve, rip, t₁, c₁, hl⟩ := booted_link
  obtain ⟨s, hs⟩ := Option.isSome_iff_exists.mp hserve
  have hlive : booted.tabs.live INIT = true := by decide +kernel
  refine ⟨s, booted_started, hlive, hs, fun hexact => ?_⟩
  refine link_keeps booted_started.settled (fun hf => ?_) hs hexact.2
  obtain ⟨t', ht'⟩ := hf rip t₁ c₁ hl
  cases ht'

/-- The name of the file, short enough for a message. -/
def fileName : PathArg := ⟨2, [97, 0], .ok []⟩

/-- INIT opens the file and closes it: its inode gets a user, and loses it again. -/
theorem reference_counts_example : ∃ s₁ s₂ : State Unit,
    serve oneFile booted (.open INIT fileName 0) = some s₁ ∧
      serve oneFile s₁ (.close INIT 0) = some s₂ ∧
      (s₁.core.inode 30).iCount = 1 ∧ (s₂.core.inode 30).iCount = 0 ∧ Exact s₁ ∧ Exact s₂ := by
  have hrun : ((serve oneFile booted (.open INIT fileName 0)).bind fun s₁ =>
      (serve oneFile s₁ (.close INIT 0)).map fun s₂ =>
        decide (s₁.tabs.live INIT = true ∧ (s₁.core.inode 30).iCount = 1 ∧
          (s₂.core.inode 30).iCount = 0)) = some true := by
    decide +kernel
  obtain ⟨s₁, h₁, hrun⟩ := Option.bind_eq_some_iff.mp hrun
  obtain ⟨s₂, h₂, hrun⟩ := Option.map_eq_some_iff.mp hrun
  obtain ⟨hlive₁, hone, hzero⟩ := of_decide_eq_true hrun
  have hlive : booted.tabs.live INIT = true := by decide +kernel
  have hopen : AsIssued booted.tabs (.open INIT fileName 0 : Request Unit) := hlive
  have hclose : AsIssued s₁.tabs (.close INIT 0 : Request Unit) := hlive₁
  have hr₁ : Reach (serve oneFile) (fun s r => AsIssued s.tabs r ∧ Fetches oneFile s r)
      (Started oneFile) s₁ := .next (.init booted_started) ⟨hopen, trivial⟩ h₁
  have hr₂ := hr₁.next ⟨hclose, trivial⟩ h₂
  exact ⟨s₁, s₂, h₁, h₂, hone, hzero, reference_counts.1 s₁ hr₁, reference_counts.1 s₂ hr₂⟩

end Example

end Minix.FS.Inodes
