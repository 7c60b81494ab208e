import Minix.MM.Main

/-!
# What the memory manager tells the kernel

The messages to the system task and to the clock task in the course of a call, in their order,
beside what the call does to the process table. Only those are kept that change the memory map
or the alarm of a process.
-/

namespace Minix.MM

/-- A message to the kernel, with the segments of the slot for a new map; `sigProc` is none, it
marks that `sig_proc` takes up a signal. -/
inductive Tell where
  | sysFork (parent child : Proc)
  | sysNewmap (p : Proc) (m : Mproc)
  | sysExec (p : Proc)
  | sysXit (p : Proc)
  | setAlarm (p : Proc) (sec : Nat)
  | sigProc (p : Proc) (sigNr : Nat)

/-- FORK tells the kernel when it has succeeded. -/
def forkTells (s : State) (who : Proc) : List Tell :=
  match doFork s who, freeSlot s with
  | some (r, s'), some child =>
    if r < 0 then [] else [.sysFork who child, .sysNewmap child (s'.mproc child)]
  | _, _ => []

/-- EXEC reports the new map, and that it is done. -/
def execTells (s : State) (who : Proc) (a : ExecCall) : List Tell :=
  match doExec s who a with
  | some (r, s') => if r = OK then [.sysNewmap who (s'.mproc who), .sysExec who] else []
  | none => []

/-- `adjust` reports the map when a segment has changed. -/
def adjustTells (m : Mproc) (p : Proc) (dataClicks sp : Nat) : List Tell :=
  let r := adjust m dataClicks sp
  if r.1 = OK ∧ (dataClicks ≠ m.segD.memLen ∨ sp / 16 < m.segS.memVir) then [.sysNewmap p r.2]
  else []

/-- `mm_exit` kills a timer that is pending, and reports that the process is gone. -/
def mmExitTells (s : State) (rmp : Proc) : List Tell :=
  (if (s.mproc rmp).alarmOn then [.setAlarm rmp 0] else []) ++ [.sysXit rmp]

/-- What `sig_proc` tells. -/
def sigProcTells (s : State) (rmp : Proc) (sigNr : Nat) (ans : Answers) : List Tell :=
  .sigProc rmp sigNr ::
    if ¬(s.mproc rmp).inUse then []
    else if (s.mproc rmp).mpCatch &&& sigMask sigNr ≠ 0 then
      adjustTells { s.mproc rmp with mpCatch := (s.mproc rmp).mpCatch &&& ~~~sigMask sigNr } rmp
        (s.mproc rmp).segD.memLen (subClicks (ans.sp sigNr rmp) 8) ++
      if (catchSig s rmp sigNr (ans.sp sigNr rmp)).1 = OK then []
      else mmExitTells (catchSig s rmp sigNr (ans.sp sigNr rmp)).2 rmp
    else mmExitTells s rmp

/-- What the search for processes to signal tells. -/
def signalAllTells (c : SigCall) (ans : Answers) : List Proc → State → List Tell
  | [], _ => []
  | rmp :: l, s =>
    if ¬(s.mproc rmp).inUse then signalAllTells c ans l s
    else if c.sigNr = SIGALRM ∧ ¬(s.mproc rmp).alarmOn then signalAllTells c ans l s
    else if ¬c.sends s rmp then signalAllTells c ans l (timerOff s c rmp)
    else
      sigProcTells (timerOff s c rmp) rmp c.sigNr ans ++
        match sigProc (timerOff s c rmp) rmp c.sigNr ans with
        | some s' => if 0 < c.procId then [] else signalAllTells c ans l (unpause s' rmp)
        | none => []

/-- What `check_sig` tells. -/
def checkSigTells (s : State) (c : SigCall) (ans : Answers) : List Tell :=
  if c.sigNr < 1 ∨ NR_SIGS < c.sigNr then [] else signalAllTells c ans aboveInit s

/-- What a stack fault tells. -/
def stackFaultTells (s : State) (procNr : Proc) (ans : Answers) : List Tell :=
  let sp := ans.sp STACK_FAULT procNr
  let r := adjust (s.mproc procNr) (s.mproc procNr).segD.memLen sp
  adjustTells (s.mproc procNr) procNr (s.mproc procNr).segD.memLen sp ++
    if r.1 = OK then []
    else sigProcTells ((s.modify procNr fun _ => r.2).modify procNr fun m => { m with mpCatch := 0 })
      procNr SIGSEGV ans

/-- What the loop over the bit map of a kernel signal tells. -/
def ksigTells (sigMap : BitVec 16) (procId : Nat) (ans : Answers) : List Nat → State → List Tell
  | [], _ => []
  | i :: l, s =>
    (if sigMap.getLsbD i then checkSigTells s (ksigCall procId i) ans else []) ++
      match ksigBit sigMap procId ans s i with
      | some s' => ksigTells sigMap procId ans l s'
      | none => []

/-- What a signal from the kernel or from the file system tells. -/
def doKsigTells (s : State) (who : Option Proc) (procNr : Proc) (sigMap : BitVec 16)
    (ans : Answers) : List Tell :=
  if who ≠ none ∧ who ≠ some FS_PROC_NR then []
  else if ¬(s.mproc procNr).inUse ∨ (s.mproc procNr).hanging then []
  else
    let procId := (s.mproc procNr).mpPid
    let s := { s with mp := MM_PROC_NR }
    if sigMap = sigMask STACK_FAULT then stackFaultTells s procNr ans
    else ksigTells sigMap procId ans (List.range NR_SIGS) s

/-- What a call tells. -/
def performTells (s : State) (who : Proc) : MMCall → List Tell
  | .fork => forkTells s who
  | .exec a => execTells s who a
  | .brk addr sp => adjustTells (s.mproc who) who ((addr % 65536 + 15) / 16) sp
  | .exit _ => mmExitTells s who
  | .kill pid killSig ans => checkSigTells s ⟨pid, killSig, (s.mproc s.mp).mpEffuid⟩ ans
  | .alarm sec _ => [.setAlarm who sec]
  | .ksig procNr sigMap ans => doKsigTells s (some who) procNr sigMap ans
  | _ => []

/-- What a turn of the main loop tells. -/
def serveTells (s : State) : Request → List Tell
  | .call who c =>
    let s := { s with mp := who, dontReply := false }
    performTells (if who = FS_PROC_NR then s else s.setOwed who true) who c
  | .hardware procNr sigMap ans _ => doKsigTells { s with dontReply := false } none procNr sigMap ans

/-- A message that neither makes a process nor sets an alarm. Taking up SIGALRM is allowed for `A`
only. -/
def Plain (A : Prop) : Tell → Prop
  | .sysFork .. => False
  | .setAlarm _ sec => sec = 0
  | .sigProc _ sigNr => sigNr = SIGALRM → A
  | _ => True

section Plain

variable {A : Prop} {s : State} {p : Proc} {sigNr : Nat} {ans : Answers} {x : Tell}

theorem adjustTells_plain {m : Mproc} {d sp : Nat} (hx : x ∈ adjustTells m p d sp) : Plain A x := by
  unfold adjustTells at hx
  dsimp only at hx
  split at hx
  · obtain rfl := List.mem_singleton.mp hx
    trivial
  · cases hx

theorem mmExitTells_plain (hx : x ∈ mmExitTells s p) : Plain A x := by
  unfold mmExitTells at hx
  rcases List.mem_append.mp hx with hx | hx
  · split at hx
    · obtain rfl := List.mem_singleton.mp hx
      exact rfl
    · cases hx
  · obtain rfl := List.mem_singleton.mp hx
    trivial

theorem sigProcTells_plain (ha : sigNr = SIGALRM → A) (hx : x ∈ sigProcTells s p sigNr ans) :
    Plain A x := by
  unfold sigProcTells at hx
  rcases List.mem_cons.mp hx with rfl | hx
  · exact ha
  · split at hx
    · cases hx
    · split at hx
      · rcases List.mem_append.mp hx with hx | hx
        · exact adjustTells_plain hx
        · split at hx
          · cases hx
          · exact mmExitTells_plain hx
      · exact mmExitTells_plain hx

theorem signalAllTells_plain {c : SigCall} {l : List Proc} (ha : c.sigNr = SIGALRM → A)
    (hx : x ∈ signalAllTells c ans l s) : Plain A x := by
  induction l generalizing s with
  | nil => cases hx
  | cons p l ih =>
    unfold signalAllTells at hx
    split at hx
    · exact ih hx
    · split at hx
      · exact ih hx
      · split at hx
        · exact ih hx
        · rcases List.mem_append.mp hx with hx | hx
          · exact sigProcTells_plain ha hx
          · split at hx
            · split at hx
              · cases hx
              · exact ih hx
            · cases hx

theorem checkSigTells_plain {c : SigCall} (ha : c.sigNr = SIGALRM → A)
    (hx : x ∈ checkSigTells s c ans) : Plain A x := by
  unfold checkSigTells at hx
  split at hx
  · cases hx
  · exact signalAllTells_plain ha hx

theorem ksigTells_plain {sigMap : BitVec 16} {procId : Nat} {l : List Nat}
    (ha : sigMap.getLsbD 13 = true → A) (hx : x ∈ ksigTells sigMap procId ans l s) : Plain A x := by
  induction l generalizing s with
  | nil => cases hx
  | cons i l ih =>
    unfold ksigTells at hx
    rcases List.mem_append.mp hx with hx | hx
    · split at hx
      · rename_i hbit
        refine checkSigTells_plain (fun hi => ha ?_) hx
        have hi : i + 1 = 14 := hi
        obtain rfl : i = 13 := by omega
        exact hbit
      · cases hx
    · split at hx
      · exact ih hx
      · cases hx

theorem doKsigTells_plain {who : Option Proc} {sigMap : BitVec 16}
    (ha : sigMap.getLsbD 13 = true → A) (hx : x ∈ doKsigTells s who p sigMap ans) : Plain A x := by
  unfold doKsigTells at hx
  split at hx
  · cases hx
  · split at hx
    · cases hx
    · dsimp only at hx
      split at hx
      · unfold stackFaultTells at hx
        rcases List.mem_append.mp hx with hx | hx
        · exact adjustTells_plain hx
        · split at hx
          · cases hx
          · exact sigProcTells_plain (fun h => by cases h) hx
      · exact ksigTells_plain ha hx

/-- Only FORK makes a process, for who calls it, and only ALARM sets an alarm. -/
theorem performTells_plain {who : Proc} {c : MMCall} (hx : x ∈ performTells s who c) :
    Plain True x ∨ (∃ child, c = .fork ∧ x = .sysFork who child) ∨
      ∃ sec left, c = .alarm sec left ∧ x = .setAlarm who sec := by
  cases c with
  | fork =>
    change x ∈ forkTells s who at hx
    unfold forkTells at hx
    split at hx
    · split at hx
      · cases hx
      · rcases List.mem_cons.mp hx with rfl | hx
        · exact Or.inr (Or.inl ⟨_, rfl, rfl⟩)
        · obtain rfl := List.mem_singleton.mp hx
          exact Or.inl trivial
    · cases hx
  | exec a =>
    change x ∈ execTells s who a at hx
    unfold execTells at hx
    split at hx
    · split at hx
      · rcases List.mem_cons.mp hx with rfl | hx
        · exact Or.inl trivial
        · obtain rfl := List.mem_singleton.mp hx
          exact Or.inl trivial
      · cases hx
    · cases hx
  | brk addr sp => exact Or.inl (adjustTells_plain hx)
  | exit status => exact Or.inl (mmExitTells_plain hx)
  | kill pid killSig ans => exact Or.inl (checkSigTells_plain (fun _ => trivial) hx)
  | alarm sec left =>
    obtain rfl := List.mem_singleton.mp hx
    exact Or.inr (Or.inr ⟨sec, left, rfl, rfl⟩)
  | ksig procNr sigMap ans => exact Or.inl (doKsigTells_plain (fun _ => trivial) hx)
  | wait => cases hx
  | signal sig f => cases hx
  | pause => cases hx
  | getset c => cases hx
  | other nr => cases hx

end Plain

end Minix.MM
