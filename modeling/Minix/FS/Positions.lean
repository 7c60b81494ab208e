import Minix.FS.MapBounds
import Minix.FS.MapBuffers
import Minix.Lib.Run

/-!
# Positions and read-ahead

A descriptor may be positioned anywhere. What the calls that read, write and search files make of
that position and of the size of the file, in runs that also load inodes and super blocks.
-/

namespace Minix.FS.ZoneMaps.Positions

open Function Inodes Transition

/-- no lseek on pipes -/
abbrev ESPIPE : Int := -29

/-- An intermediary between file descriptors and inodes, with a position that may be any long. -/
structure Filp where
  filpMode : Bits
  filpCount : Int
  filpIno : InodePtr
  filpPos : Int

/-- What decides where files are read and written. -/
structure Fs (σ : Type) where
  cache : Cache σ
  /-- temporary storage for error number -/
  errCode : Int
  /-- the super block table -/
  sup : SuperPtr → Super
  inode : InodePtr → Inode
  /-- set on LSEEK, cleared on READ/WRITE -/
  iSeek : InodePtr → Bool
  filp : FilpPtr → Filp
  /-- pointer to inode to read ahead -/
  rdahedInode : Option InodePtr
  /-- position to read ahead -/
  rdahedpos : Int

variable {σ : Type}

/-- Work on the blocks of an inode. -/
def onInode {α : Type} (rip : InodePtr) (m : (SuperPtr → Super) → B σ α) (s : Fs σ) :
    Except Halt (α × Fs σ) :=
  (m s.sup ⟨s.cache, s.inode rip, s.errCode⟩).map fun r => (r.1,
    { s with cache := r.2.cache, inode := update s.inode rip r.2.rip, errCode := r.2.errCode })

/-- Find a filp slot that refers to the inode 'rip' and is open for writing. -/
def findWriter (s : Fs σ) (rip : InodePtr) : Option FilpPtr :=
  (List.finRange NR_FILPS).find? fun f =>
    (s.filp f).filpCount ≠ 0 ∧ (s.filp f).filpIno = rip ∧ (s.filp f).filpMode.w

/-- A position of a descriptor. -/
def setPos (s : Fs σ) (f : FilpPtr) (position : Int) : Fs σ :=
  { s with filp := update s.filp f { s.filp f with filpPos := position } }

/-- On write, update file size. -/
def grown (ip : Inode) (position : Int) : Inode :=
  { ip with
    iDirt := DIRTY
    iSize := if ip.type ≠ I_CHAR_SPECIAL ∧ ip.type ≠ I_BLOCK_SPECIAL ∧ position > ip.iSize
      then position else ip.iSize }

/-- The pipe pointers are reset when no data is left. -/
def resetPipe (s : Fs σ) (rip : InodePtr) : Fs σ :=
  let s := { s with inode := update s.inode rip { s.inode rip with iSize := 0 } }
  match findWriter s rip with
  | none => s
  | some wf => setPos s wf 0

/-- The size of the file, and the position that the descriptor gets. -/
def settle (s : Fs σ) (rip : InodePtr) (rwFlag : RwFlag) (position : Int) : Fs σ × Int :=
  match rwFlag with
  | .WRITING => ({ s with inode := update s.inode rip (grown (s.inode rip) position) }, position)
  | .READING =>
    if (s.inode rip).iPipe ∧ position ≥ (s.inode rip).iSize then (resetPipe s rip, 0)
    else (s, position)

/-- Check to see if read-ahead is called for, and if so, set it up. -/
def setAhead (s : Fs σ) (rip : InodePtr) (rwFlag : RwFlag) (position : Int) : Fs σ :=
  let type := (s.inode rip).type
  let ahead := rwFlag = .READING ∧ s.iSeek rip = false ∧ position.tmod BLOCK_SIZE = 0 ∧
    (type = I_REGULAR ∨ type = I_DIRECTORY)
  { s with
    rdahedInode := if ahead then some rip else s.rdahedInode
    rdahedpos := if ahead then position else s.rdahedpos
    iSeek := if type = I_REGULAR then update s.iSeek rip false else s.iSeek }

/-- What a transfer returns, after disk errors have been checked for. -/
def resultOf (rdwtErr r : Int) (cumIo : Nat) : Int :=
  let r := if rdwtErr ≠ OK then rdwtErr else r
  let r := if rdwtErr = EOF then (cumIo : Int) else r
  if r = OK then cumIo else r

/-- Whether a file is open for a transfer. -/
def permits (fil : Filp) : RwFlag → Bool
  | .READING => fil.filpMode.r
  | .WRITING => fil.filpMode.w

/-- The end of a call: its result, unless an error ended it at once. -/
def finish (f : FilpPtr) (rip : InodePtr) (rwFlag : RwFlag) (s : Fs σ) :
    Except Int (Int × Int × Nat) → Int × Fs σ
  | .error r => (r, s)
  | .ok (r, position, cumIo) =>
    let (s, position) := settle s rip rwFlag position
    let s := setAhead (setPos s f position) rip rwFlag position
    (resultOf s.cache.rdwtErr r cumIo, s)

/-- Perform read or write through a descriptor. -/
def readWrite (io : DevIo σ) (s : Fs σ) (f : FilpPtr) (q : Request) :
    Except Halt (Int × Fs σ) :=
  let position := (s.filp f).filpPos
  let rip := (s.filp f).filpIno
  if q.nbytes = 0 then .ok (0, s)
  else if ¬q.fromMm ∧ q.nbytes < 0 then .ok (EINVAL, s) -- only MM > 32K
  else if ¬permits (s.filp f) q.rwFlag then .ok (EBADF, s)
  else if position < 0 then .ok (EINVAL, s)
  else
    (onInode rip (fun sup => transfer io sup q position) s).map fun r =>
      finish f rip q.rwFlag r.2 r.1

/-- Perform the lseek(ls_fd, offset, whence) system call. -/
def doLseek (s : Fs σ) (f : FilpPtr) (offset whence : Int) : Int × Fs σ :=
  let rip := (s.filp f).filpIno
  let moved (pos : Int) : Int × Fs σ :=
    if pos < 0 then (EINVAL, s)
    else (OK, { setPos s f pos with iSeek := update s.iSeek rip true }) -- inhibit read ahead
  if (s.inode rip).iPipe then (ESPIPE, s)
  else if whence = 0 then moved offset
  else if whence = 1 then moved (long ((s.filp f).filpPos + offset))
  else if whence = 2 then moved (long ((s.inode rip).iSize + offset))
  else (EINVAL, s)

/-- Read the block that a position is in into the cache. -/
def fetchAhead (io : DevIo σ) (position : Int) (sup : SuperPtr → Super) : B σ Unit := do
  let b ← readMap io sup position
  if b = NO_BLOCK then return -- at EOF
  else
    let bp ← ZoneMaps.getBlock io (← devOf) b .NORMAL
    ZoneMaps.putBlock io bp PARTIAL_DATA_BLOCK

/-- Read a block into the cache before it is needed. -/
def readAhead (io : DevIo σ) (s : Fs σ) : Except Halt (Fs σ) :=
  match s.rdahedInode with
  | none => .ok s
  | some rip =>
    (onInode rip (fetchAhead io s.rdahedpos) { s with rdahedInode := none }).map Prod.snd

/-- The inode is not in use any more. -/
def released (ip : Inode) : Inode := { ip with iMode := I_NOT_ALLOC, iPipe := false }

/-- The caller is no longer using this inode. Without users and links it is truncated. -/
def putInode (io : DevIo σ) (s : Fs σ) (rip : InodePtr) : Except Halt (Fs σ) :=
  let ip := { s.inode rip with iCount := (s.inode rip).iCount - 1 }
  let s := { s with inode := update s.inode rip ip }
  if ip.iCount = 0 ∧ ip.iNlinks = 0 then
    (onInode rip (truncate io) s).map fun r =>
      { r.2 with inode := update r.2.inode rip (released (r.2.inode rip)) }
  else .ok s

/-- What happens to files and to the tables behind them. -/
inductive Event (σ : Type) where
  | readWrite (f : FilpPtr) (q : Request)
  | lseek (f : FilpPtr) (offset whence : Int)
  | readAhead
  | searchDir (rip : InodePtr) (fp : Fproc) (string : Name) (numb : Nat) (flag : DirFlag)
  | truncate (rip : InodePtr)
  | putInode (rip : InodePtr)
  /-- an inode is loaded or allocated, gets another user, or changes in what does not depend on
  its blocks -/
  | setInode (rip : InodePtr) (ip : Inode) (seek : Bool)
  /-- a descriptor is opened, shared or closed -/
  | setFilp (f : FilpPtr) (fil : Filp)
  /-- a device is mounted or unmounted -/
  | setSuper (sup : SuperPtr → Super)
  /-- the cache is used for something else -/
  | useCache (c : Cache σ) (errCode : Int)

/-- A step of the file system, as far as blocks of files are concerned. -/
def step (io : DevIo σ) (s : Fs σ) : Event σ → Except Halt (Fs σ)
  | .readWrite f q => (readWrite io s f q).map Prod.snd
  | .lseek f offset whence => .ok (doLseek s f offset whence).2
  | .readAhead => readAhead io s
  | .searchDir rip fp string numb flag =>
    (onInode rip (fun sup => searchDir io sup fp string numb flag) s).map Prod.snd
  | .truncate rip => (onInode rip (truncate io) s).map Prod.snd
  | .putInode rip => putInode io s rip
  | .setInode rip ip seek =>
    .ok { s with inode := update s.inode rip ip, iSeek := update s.iSeek rip seek }
  | .setFilp f fil => .ok { s with filp := update s.filp f fil }
  | .setSuper sup => .ok { s with sup := sup }
  | .useCache c errCode => .ok { s with cache := c, errCode := errCode }

/-! ## What is asked of the steps -/

/-- An inode that somebody uses is on a device, and its size is one that zones can map. -/
structure Served (sup : SuperPtr → Super) (ip : Inode) : Prop extends Fits sup ip where
  dev : ip.iDev ≠ NO_DEV

/-- The largest file sizes of the devices are sizes that zones can map. -/
def Devices (sup : SuperPtr → Super) : Prop := ∀ p, (sup p).sDev ≠ NO_DEV → Sized (sup p)

/-- What is done to an inode is done by one of its users, sizes of files that are loaded can be
mapped, and the devices in use stay. -/
def Promised (s : Fs σ) : Event σ → Prop
  | .readWrite f _ => 0 < (s.inode (s.filp f).filpIno).iCount
  | .readAhead => ∀ rip, s.rdahedInode = some rip → 0 < (s.inode rip).iCount
  | .searchDir rip _ _ _ _ => 0 < (s.inode rip).iCount
  | .truncate rip => 0 < (s.inode rip).iCount
  | .putInode rip => 0 < (s.inode rip).iCount
  | .setInode _ ip _ => 0 < ip.iCount → Served s.sup ip
  | .setSuper sup => Devices sup ∧ ∀ rip, 0 < (s.inode rip).iCount → Served sup (s.inode rip)
  | _ => True

/-- The position of a read-ahead can be mapped, or the file has no double indirect block, and a
write of more than 32K to a file that is not special does not go beyond what can be mapped. -/
def Bounded (s : Fs σ) : Event σ → Prop
  | .readWrite f q => q.Limited s.sup (s.inode (s.filp f).filpIno) (s.filp f).filpPos
  | .readAhead => ∀ rip, s.rdahedInode = some rip → ∀ sp, SuperOf s.sup (s.inode rip) sp →
      s.rdahedpos < maxSize sp ∨ (s.inode rip).iZone 8 = NO_ZONE
  | _ => True

/-- Nobody uses an inode yet. -/
structure Boot (s : Fs σ) : Prop where
  devices : Devices s.sup
  unused : ∀ rip, (s.inode rip).iCount = 0
  ahead : s.rdahedInode = none

/-- What holds between the steps. -/
structure Good (s : Fs σ) : Prop where
  devices : Devices s.sup
  served : ∀ rip, 0 < (s.inode rip).iCount → Served s.sup (s.inode rip)
  ahead : ∀ rip, s.rdahedInode = some rip → 0 ≤ s.rdahedpos

/-- No index is outside its table, and what comes out has `Q`. -/
def Yields {α : Type} (Q : α → Prop) : Except Halt α → Prop
  | .ok a => Q a
  | .error e => e ≠ .bounds

variable {io : DevIo σ} {s : Fs σ} {rip : InodePtr} {ip : Inode} {f : FilpPtr}

section Rules

variable {α β : Type} {x : Except Halt α} {Q : α → Prop} {R : β → Prop}

theorem Yields.map {g : α → β} (h : Yields Q x) (hg : ∀ a, Q a → R (g a)) :
    Yields R (x.map g) := by
  cases x with
  | error e => exact h
  | ok a => exact hg a h

theorem Yields.bind {g : α → Except Halt β} (h : Yields Q x) (hg : ∀ a, Q a → Yields R (g a)) :
    Yields R (x >>= g) := by
  cases x with
  | error e => exact h
  | ok a => exact hg a h

theorem Yields.mono {Q' : α → Prop} (h : Yields Q x) (hq : ∀ a, Q a → Q' a) : Yields Q' x := by
  cases x with
  | error e => exact h
  | ok a => exact hq a h

end Rules

theorem Devices.sized (h : Devices s.sup) (hdev : ip.iDev ≠ NO_DEV) : SizedFor s.sup ip := by
  intro sp hsp
  obtain ⟨p, hp, rfl⟩ := Option.map_eq_some_iff.mp hsp
  have he : (s.sup p).sDev = ip.iDev := by simpa using List.find?_some hp
  exact h p (he ▸ hdev)

/-- Another inode, if it has users, is to be served as well. -/
theorem Good.update (h : Good s) (rip : InodePtr) (ip : Inode)
    (hip : 0 < ip.iCount → Served s.sup ip) (c : Cache σ) (err : Int) :
    Good { s with cache := c, errCode := err, inode := update s.inode rip ip } where
  devices := h.devices
  served r := by
    by_cases hr : r = rip
    · subst hr
      intro hc
      have he : Function.update s.inode r ip r = ip := update_self ..
      dsimp only at hc ⊢
      rw [he] at hc ⊢
      exact hip hc
    · intro hc
      have he : Function.update s.inode rip ip r = s.inode r := update_of_ne hr ..
      dsimp only at hc ⊢
      rw [he] at hc ⊢
      exact h.served r hc
  ahead := h.ahead

/-- Work on an inode leaves the rest of the tables alone. -/
theorem onInode_yields (s : Fs σ) (rip : InodePtr) {α : Type} {m : (SuperPtr → Super) → B σ α}
    {Q : α → Inode → Prop}
    (hm : Outcome (fun w => w.rip = s.inode rip) (m s.sup) (fun a w => Q a w.rip) (· ≠ .bounds)) :
    Yields (fun r => ∃ c ip err, Q r.1 ip ∧
      r.2 = { s with cache := c, errCode := err, inode := update s.inode rip ip })
      (onInode rip m s) := by
  have h := hm ⟨s.cache, s.inode rip, s.errCode⟩ rfl
  unfold onInode
  cases he : m s.sup ⟨s.cache, s.inode rip, s.errCode⟩ with
  | error e =>
    rw [he] at h
    exact h
  | ok r =>
    rw [he] at h
    exact ⟨_, _, _, h, rfl⟩

/-- Work that settles an inode keeps what holds between the steps. -/
theorem Good.settles {α : Type} {m : (SuperPtr → Super) → B σ α} (h : Good s)
    (hc : 0 < (s.inode rip).iCount) (hm : Settles s.sup (s.inode rip) (m s.sup)) :
    Yields Good ((onInode rip m s).map Prod.snd) := by
  refine (onInode_yields s rip (Q := fun _ ip => Fits s.sup ip ∧ ip.iDev = (s.inode rip).iDev ∧
    ip.iCount = (s.inode rip).iCount) (hm.pre fun _ => SameFile.of_eq)).map ?_
  rintro ⟨a, s'⟩ ⟨c, ip, err, ⟨hf, hdev, -⟩, rfl⟩
  exact h.update rip _ (fun _ => ⟨hf, hdev ▸ (h.served rip hc).dev⟩) c err

/-! ## The steps -/

theorem fetchAhead_looks {position : Int} (hsz : SizedFor s.sup ip)
    (h : Mapped s.sup ip position) : Looks ip (fetchAhead io position s.sup) := by
  refine (readMap_looks hsz h).bind fun b => .ite (fun _ => Outcome.pure fun _ hs => hs) fun _ => ?_
  exact devOf_looks ((looks_getBlock _ _ _).bind fun bp => looks_putBlock bp _)

theorem readAhead_good (h : Good s) (hp : Promised s .readAhead) (hb : Bounded s .readAhead) :
    Yields Good (readAhead io s) := by
  unfold readAhead
  split
  · exact h
  · rename_i rip hrip
    have hserved := h.served rip (hp rip hrip)
    have hlook : Looks (s.inode rip) (fetchAhead io s.rdahedpos s.sup) :=
      fetchAhead_looks (h.devices.sized hserved.dev) ⟨h.ahead rip hrip, hb rip hrip⟩
    have hoff : Good { s with rdahedInode := none } := ⟨h.devices, h.served, nofun⟩
    refine (onInode_yields { s with rdahedInode := none } rip (Q := fun _ ip => ip = s.inode rip)
      hlook).map ?_
    rintro ⟨a, s'⟩ ⟨c, ip, err, rfl, rfl⟩
    exact hoff.update rip _ (h.served rip) c err

/-- The size that a write leaves. -/
theorem grown_served {position : Int} (h : Served s.sup ip)
    (hends : Ends s.sup ip .WRITING position) : Served s.sup (grown ip position) := by
  unfold grown
  split
  · rename_i hgrows
    obtain ⟨hnn, hlong, hmax⟩ := hends.writing rfl hgrows.1 hgrows.2.1
    exact ⟨⟨hnn, hlong, hmax⟩, h.dev⟩
  · exact ⟨⟨h.nonneg, h.fits_long, h.max_size⟩, h.dev⟩

theorem empty_served (h : Served s.sup ip) : Served s.sup { ip with iSize := 0 } := by
  have hzero : (0 : Int) ≤ MAX_P_LONG := by decide
  exact ⟨⟨le_rfl, hzero, fun sp _ => maxSize_nonneg sp⟩, h.dev⟩

theorem resetPipe_good (h : Good s) (hc : 0 < (s.inode rip).iCount) : Good (resetPipe s rip) := by
  have hg := h.update rip _ (fun _ => empty_served (h.served rip hc)) s.cache s.errCode
  unfold resetPipe
  dsimp only
  split
  · exact hg
  · exact ⟨hg.devices, hg.served, hg.ahead⟩

/-- What a transfer leaves of tables and position. -/
theorem settle_good {rwFlag : RwFlag} {position : Int} (h : Good s)
    (hc : 0 < (s.inode rip).iCount) (hends : Ends s.sup (s.inode rip) rwFlag position) :
    Good (settle s rip rwFlag position).1 ∧
    (rwFlag = .READING → (s.inode rip).type ≠ I_CHAR_SPECIAL →
      0 ≤ (settle s rip rwFlag position).2) ∧
    ((settle s rip rwFlag position).1.inode rip).type = (s.inode rip).type := by
  cases rwFlag with
  | WRITING =>
    have hgrown := grown_served (h.served rip hc) hends
    refine ⟨h.update rip _ (fun _ => hgrown) s.cache s.errCode, nofun, ?_⟩
    change (Function.update s.inode rip _ rip).type = _
    rw [update_self]
    rfl
  | READING =>
    unfold settle
    dsimp only
    split
    · refine ⟨resetPipe_good h hc, fun _ _ => le_rfl, ?_⟩
      have he : ((resetPipe s rip).inode rip) = { s.inode rip with iSize := 0 } := by
        unfold resetPipe
        dsimp only
        split <;> exact update_self ..
      rw [he]
      rfl
    · exact ⟨h, hends.reading, rfl⟩

theorem setAhead_good {rwFlag : RwFlag} {position : Int} (h : Good s)
    (hpos : rwFlag = .READING → (s.inode rip).type ≠ I_CHAR_SPECIAL → 0 ≤ position) :
    Good (setAhead s rip rwFlag position) := by
  refine ⟨h.devices, h.served, fun r hr => ?_⟩
  unfold setAhead at hr ⊢
  dsimp only at hr ⊢
  split at hr
  · rename_i hahead
    rw [if_pos hahead]
    refine hpos hahead.1 fun hchar => ?_
    rw [hchar] at hahead
    exact absurd hahead.2.2.2 (by decide)
  · rename_i hahead
    rw [if_neg hahead]
    exact h.ahead r hr

theorem finish_good {rwFlag : RwFlag} {res : Except Int (Int × Int × Nat)} (h : Good s)
    (hc : 0 < (s.inode rip).iCount)
    (hends : ∀ r, res = .ok r → Ends s.sup (s.inode rip) rwFlag r.2.1) :
    Good (finish f rip rwFlag s res).2 := by
  cases res with
  | error r => exact h
  | ok r =>
    obtain ⟨hg, hpos, htype⟩ := settle_good h hc (hends r rfl)
    refine setAhead_good ⟨hg.devices, hg.served, hg.ahead⟩ fun hr hne => hpos hr ?_
    exact htype ▸ hne

theorem readWrite_good {q : Request} (h : Good s) (hp : Promised s (.readWrite f q))
    (hb : Bounded s (.readWrite f q)) : Yields Good ((readWrite io s f q).map Prod.snd) := by
  unfold readWrite
  dsimp only
  split
  · exact h
  · split
    · exact h
    · split
      · exact h
      · split
        · exact h
        · rename_i hpos
          have hserved := h.served _ hp
          have hyields := onInode_yields s (s.filp f).filpIno (m := fun sup =>
            transfer io sup q (s.filp f).filpPos) (Q := fun r ip =>
            (∀ res, r = .ok res → Ends s.sup (s.inode (s.filp f).filpIno) q.rwFlag res.2.1) ∧
              SameFile (s.inode (s.filp f).filpIno) ip)
            ((transfer_keeps (h.devices.sized hserved.dev) hserved.toFits (Int.not_lt.mp hpos)
              hb).pre fun _ => SameFile.of_eq)
          refine (hyields.map (R := fun r => Good r.2) ?_).map fun _ h => h
          rintro ⟨res, s'⟩ ⟨c, ip, err, ⟨hends, hs⟩, rfl⟩
          have hserved' : Served s.sup ip := ⟨hs.fits hserved.toFits, hs.iDev ▸ hserved.dev⟩
          refine finish_good (h.update _ _ (fun _ => hserved') c err) ?_ ?_
          · change 0 < (Function.update s.inode _ ip _).iCount
            rw [update_self, hs.iCount]
            exact hp
          · intro r hr
            change Ends s.sup (Function.update s.inode _ ip _) q.rwFlag r.2.1
            rw [update_self]
            exact hs.ends (hends r hr)

theorem doLseek_good (h : Good s) (offset whence : Int) : Good (doLseek s f offset whence).2 := by
  have hmoved : ∀ pos : Int, Good (if pos < 0 then (EINVAL, s)
      else (OK, { setPos s f pos with iSeek := update s.iSeek (s.filp f).filpIno true })).2 := by
    intro pos
    split
    · exact h
    · exact ⟨h.devices, h.served, h.ahead⟩
  unfold doLseek
  dsimp only
  split
  · exact h
  · split
    · exact hmoved _
    · split
      · exact hmoved _
      · split
        · exact hmoved _
        · exact h

theorem putInode_good (h : Good s) (hc : 0 < (s.inode rip).iCount) :
    Yields Good (putInode io s rip) := by
  have hserved := h.served rip hc
  let ip : Inode := { s.inode rip with iCount := (s.inode rip).iCount - 1 }
  have hfits : Fits s.sup ip := ⟨hserved.nonneg, hserved.fits_long, hserved.max_size⟩
  have hput := h.update rip ip (fun _ => ⟨hfits, hserved.dev⟩) s.cache s.errCode
  unfold putInode
  dsimp only
  split
  · rename_i hfree
    have hsz : SizedFor s.sup ip := h.devices.sized hserved.dev
    have he : Function.update s.inode rip ip rip = ip := update_self ..
    have hm : Outcome (fun w => w.rip = Function.update s.inode rip ip rip) (truncate io s.sup)
        (fun _ w => w.rip.iCount = 0) (· ≠ .bounds) := by
      rw [he]
      refine ((truncate_settles hsz hfits).pre fun _ => SameFile.of_eq).post fun _ w hw => ?_
      rw [hw.2.2]
      exact hfree.1
    refine (onInode_yields { s with inode := Function.update s.inode rip ip } rip
      (m := truncate io) (Q := fun _ ip => ip.iCount = 0) hm).map ?_
    rintro ⟨a, s'⟩ ⟨c, ip', err, hzero, rfl⟩
    have hgone : ∀ ip : Inode, ip.iCount = 0 → 0 < ip.iCount → Served s.sup ip := fun ip h₀ h => by
      omega
    have hg := (hput.update rip ip' (hgone ip' hzero) c err).update rip (released ip')
      (hgone (released ip') hzero) c err
    have he' : Function.update (Function.update s.inode rip ip) rip ip' rip = ip' := update_self ..
    dsimp only
    rw [he']
    exact hg
  · exact hput

/-- A step that meets the condition keeps its indices inside the tables, and the next one can rely
on the same. -/
theorem step_good {e : Event σ} (h : Good s) (hp : Promised s e) (hb : Bounded s e) :
    Yields Good (step io s e) := by
  cases e with
  | readWrite f q => exact readWrite_good h hp hb
  | lseek f offset whence => exact doLseek_good h offset whence
  | readAhead => exact readAhead_good h hp hb
  | searchDir rip fp string numb flag =>
    have hserved := h.served rip hp
    exact h.settles hp (searchDir_settles (h.devices.sized hserved.dev) hserved.toFits _ _ _ _)
  | truncate rip =>
    have hserved := h.served rip hp
    exact h.settles hp (truncate_settles (h.devices.sized hserved.dev) hserved.toFits)
  | putInode rip => exact putInode_good h hp
  | setInode rip ip seek =>
    have hg := h.update rip ip hp s.cache s.errCode
    exact ⟨hg.devices, hg.served, hg.ahead⟩
  | setFilp f fil => exact ⟨h.devices, h.served, h.ahead⟩
  | setSuper sup => exact ⟨hp.1, hp.2, h.ahead⟩
  | useCache c errCode => exact ⟨h.devices, h.served, h.ahead⟩

/-- A state that a run gets to whose steps all meet the condition. -/
abbrev Reached (io : DevIo σ) (s : Fs σ) : Prop :=
  Reach (fun s e => (step io s e).toOption) (fun s e => Promised s e ∧ Bounded s e) Boot s

theorem Reached.good (h : Reached io s) : Good s := by
  refine Reach.invariant Good (fun s hs => ⟨hs.devices, fun rip hc => ?_, ?_⟩) ?_ h
  · rw [hs.unused rip] at hc
    omega
  · intro rip hrip
    rw [hs.ahead] at hrip
    cases hrip
  · intro s e s' hg he hstep
    have hy : Yields Good (step io s e) := step_good hg he.1 he.2
    cases hr : step io s e with
    | error _ =>
      rw [hr] at hstep
      cases hstep
    | ok s₁ =>
      rw [hr] at hy hstep
      obtain rfl : s₁ = s' := Option.some.inj hstep
      exact hy

/-- Along every run whose read-aheads have a position that the zones can map, or a file without a
double indirect block, and whose writes of more than 32K end where zones can map them, no index
leaves `i_zone` or an indirect block. -/
theorem indices_inside (h : Reached io s) {e : Event σ} (hp : Promised s e) (hb : Bounded s e) :
    step io s e ≠ .error .bounds := by
  have hy : Yields Good (step io s e) := step_good h.good hp hb
  intro he
  rw [he] at hy
  exact hy rfl

section Example

/-- A device that always succeeds and changes nothing. -/
private def stillDevice : DevIo Unit := fun _ _ _ data w => some (BLOCK_SIZE, data, w)

/-- A file of 600 blocks, with single and double indirect zones. -/
def bigFile : Inode where
  iMode := I_REGULAR
  iUid := 0
  iSize := 614400
  iModtime := 0
  iGid := 0
  iNlinks := 1
  iZone i := 10 + i.val
  iDev := 256
  iNum := 2
  iCount := 1
  iDirt := false
  iPipe := false
  iMount := false

/-- Nothing has been mounted or opened. -/
def exampleBoot : Fs Unit where
  cache := bufPool 0 (unpooled (fun _ _ => 0) ())
  errCode := 0
  sup _ := { exampleSuper with sDev := NO_DEV }
  inode _ := { bigFile with iCount := 0 }
  iSeek _ := false
  filp _ := ⟨⟨false, false⟩, 0, 0, 0⟩
  rdahedInode := none
  rdahedpos := 0

/-- A user reads one byte. -/
def readOne : Request where
  rwFlag := .READING
  fromMm := false
  buffer := 0
  nbytes := 1
  isInt := by decide
  user := ⟨fun _ _ => none, fun _ _ => true⟩
  devIo := 0
  pipeCheck := 0

theorem exampleBoot_boot : Boot exampleBoot where
  devices _ hp := absurd rfl hp
  unused _ := rfl
  ahead := rfl

theorem exampleSuper_sized : Sized exampleSuper := by
  have hmax : maxSize exampleSuper = 268966912 := by decide
  exact ⟨by decide, hmax ▸ le_rfl, hmax ▸ (by decide : (268966912 : Int) ≤ MAX_P_LONG)⟩

theorem exampleSuper_devices : Devices (update exampleBoot.sup 0 exampleSuper) := by
  intro p hp
  by_cases h0 : p = 0
  · rw [h0, update_self]
    exact exampleSuper_sized
  · rw [update_of_ne h0] at hp
    exact absurd rfl hp

theorem bigFile_served : Served (update exampleBoot.sup 0 exampleSuper) bigFile := by
  refine ⟨⟨by decide, by decide, fun sp hsp => ?_⟩, by decide⟩
  have hsup : SuperOf (update exampleBoot.sup 0 exampleSuper) bigFile exampleSuper := rfl
  obtain rfl : exampleSuper = sp := Option.some.inj (hsup.symm.trans hsp)
  decide

/-- A run of steps that are as promised. -/
private abbrev Run (s : Fs Unit) : Prop :=
  Reach (fun s e => (step stillDevice s e).toOption) Promised Boot s

private theorem Run.then {s s' : Fs Unit} (h : Run s) (e : Event Unit) (hp : Promised s e)
    (he : step stillDevice s e = .ok s') : Run s' :=
  h.next hp (congrArg Except.toOption he)

/-- A read past the end of a file that was positioned far beyond it sets up a read-ahead there,
since the read before has turned read-ahead on again. -/
theorem read_ahead_out_of_bounds : ∃ s : Fs Unit,
    Reach (fun s e => (step stillDevice s e).toOption) Promised Boot s ∧
      Promised s .readAhead ∧ step stillDevice s .readAhead = .error .bounds := by
  have h₀ : Run exampleBoot := .init exampleBoot_boot
  have h₁ := h₀.then (.setSuper (update exampleBoot.sup 0 exampleSuper))
    ⟨exampleSuper_devices, fun _ hc => absurd hc (by decide : ¬(0 : Int) < 0)⟩ rfl
  have h₂ := h₁.then (.setInode 0 bigFile false) (fun _ => bigFile_served) rfl
  have h₃ := h₂.then (.setFilp 0 ⟨⟨true, false⟩, 1, 0, 0⟩) trivial rfl
  have h₄ := h₃.then (.lseek 0 2147482624 0) trivial rfl
  have h₅ := h₄.then (.readWrite 0 readOne) (by decide : (0 : Int) < 1) rfl
  have h₆ := h₅.then (.readWrite 0 readOne) (by decide : (0 : Int) < 1) rfl
  refine ⟨_, h₆, fun rip hrip => ?_, ?_⟩
  · obtain rfl : (0 : InodePtr) = rip := Option.some.inj hrip
    exact (by decide : (0 : Int) < 1)
  · rfl

/-- A read at the end of the file sets up a read-ahead that is harmless. -/
theorem indices_inside_example : ∃ s : Fs Unit, Reached stillDevice s ∧ s.rdahedInode = some 0 ∧
    step stillDevice s .readAhead ≠ .error .bounds := by
  have hsup : SuperOf (update exampleBoot.sup 0 exampleSuper) bigFile exampleSuper := rfl
  have h₀ : Reached stillDevice exampleBoot := .init exampleBoot_boot
  have h₁ : Reached stillDevice _ := h₀.next
    (i := .setSuper (update exampleBoot.sup 0 exampleSuper)) ⟨⟨exampleSuper_devices,
      fun _ hc => absurd hc (by decide : ¬(0 : Int) < 0)⟩, trivial⟩ rfl
  have h₂ : Reached stillDevice _ := h₁.next (i := .setInode 0 bigFile false)
    ⟨fun _ => bigFile_served, trivial⟩ rfl
  have h₃ : Reached stillDevice _ := h₂.next (i := .setFilp 0 ⟨⟨true, false⟩, 1, 0, 614400⟩)
    ⟨trivial, trivial⟩ rfl
  have h₄ : Reached stillDevice _ := h₃.next (i := .readWrite 0 readOne)
    ⟨(by decide : (0 : Int) < 1), nofun⟩ rfl
  refine ⟨_, h₄, rfl, indices_inside h₄ (fun rip hrip => ?_) fun rip hrip sp hsp => Or.inl ?_⟩
  · obtain rfl : (0 : InodePtr) = rip := Option.some.inj hrip
    exact (by decide : (0 : Int) < 1)
  · obtain rfl : (0 : InodePtr) = rip := Option.some.inj hrip
    obtain rfl : exampleSuper = sp := Option.some.inj (hsup.symm.trans hsp)
    exact (by decide : (614400 : Int) < maxSize exampleSuper)

end Example

end Minix.FS.ZoneMaps.Positions
