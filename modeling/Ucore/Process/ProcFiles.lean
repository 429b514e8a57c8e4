import Ucore.Fs.FileRuns

/-!
# Files of processes that fork, exec and exit

In `kern/process/proc.c`, `do_exit` gives a process's `files_struct` back only where it
gives back its address space. A process without one is a kernel thread, or a process whose
`do_execve` has dropped the old address space and failed to load the new one.

`do_execve` is cut at its calls of `sysfile_open` and `load_icode`; between its parts the
process makes the calls of `Ucore.Fs` that these make.
-/

namespace Ucore.ProcFiles

open Fs Tally Transition

universe u
variable {T F N : Type u} [DecidableEq T] [DecidableEq F] [DecidableEq N]

/-- Where a process is in `do_execve`. -/
inductive Phase where
  | running
  | opening
  | loading
deriving DecidableEq

/-- The files, the processes whose `mm` is not NULL, and where each process is in
`do_execve`. -/
structure ExecSystem (T F N : Type u) where
  fs : FileSystem T F N
  mm : T → Bool
  phase : T → Phase

/-- The calls on files, `do_fork` with the outcome of `copy_mm`, the parts of `do_execve`
with the outcomes of its tests of the arguments, of `sysfile_open` and of `load_icode`, and
`do_exit`. -/
inductive ExecOperation (T F N : Type u) where
  | file (operation : FileOperation T F N)
  | fork (process child : T) (copy : Option F) (copied : Bool)
  | execBegin (process : T) (accepted : Bool)
  | execOpened (process : T) (opened : Bool)
  | execLoaded (process : T) (loaded : Bool)
  | exit (process : T)

variable (idleproc initproc : T)

/-- `do_exit` up to the switch to another process. -/
def doExit (process : T) (system : ExecSystem T F N) : Option (ExecSystem T F N) :=
  if process = idleproc ∨ process = initproc then none
  else (fileStep system.fs (.exit process (system.mm process))).map fun fs =>
    { fs := fs
      mm := Function.update system.mm process false
      phase := Function.update system.phase process .running }

/-- `do_fork` after `alloc_proc` and `setup_kstack`: `copy_files`, and `put_files` where
`copy_mm` fails. -/
def doFork (process child : T) (copy : Option F) (copied : Bool) (system : ExecSystem T F N) :
    Option (ExecSystem T F N) := do
  let fs ← fileStep system.fs (.fork process child copy)
  if copied then
    some { fs := fs
           mm := Function.update system.mm child (system.mm process)
           phase := Function.update system.phase child .running }
  else (fileStep fs (.exit child true)).map fun fs => { system with fs := fs }

/-- One operation; `none` is a failed assertion or a panic. -/
def execStep (system : ExecSystem T F N) : ExecOperation T F N → Option (ExecSystem T F N)
  | .file operation => (fileStep system.fs operation).map fun fs => { system with fs := fs }
  | .fork process child copy copied => doFork process child copy copied system
  | .execBegin process accepted =>
      if accepted then (fileStep system.fs (.closeall process)).map fun fs =>
        { system with
          fs := fs
          phase := Function.update system.phase process .opening }
      else some system
  | .execOpened process opened =>
      if opened then some { system with
        mm := Function.update system.mm process false
        phase := Function.update system.phase process .loading }
      else doExit idleproc initproc process system
  | .execLoaded process loaded =>
      if loaded then some { system with
        mm := Function.update system.mm process true
        phase := Function.update system.phase process .running }
      else doExit idleproc initproc process system
  | .exit process => doExit idleproc initproc process system

/-- The operation is a call on files that a process makes or the rest of the kernel. -/
def OnFiles : FileOperation T F N → Prop
  | .fork _ _ _ | .exit _ _ => False
  | _ => True

/-- A process outside any call, at a point of `do_execve`; the first two processes do not
exit. -/
def ExecLegal (system : ExecSystem T F N) : ExecOperation T F N → Prop
  | .file operation => OnFiles operation ∧ FileLegal system.fs operation
  | .fork process child copy _ => FileLegal system.fs (.fork process child copy) ∧ system.phase process = .running
  | .execBegin process _ => FileLegal system.fs (.closeall process) ∧ system.phase process = .running
  | .execOpened process _ => FileLegal system.fs (.closeall process) ∧ system.phase process = .opening ∧
      process ≠ idleproc ∧ process ≠ initproc
  | .execLoaded process _ => FileLegal system.fs (.closeall process) ∧ system.phase process = .loading ∧
      process ≠ idleproc ∧ process ≠ initproc
  | .exit process => FileLegal system.fs (.closeall process) ∧ system.phase process = .running ∧
      process ≠ idleproc ∧ process ≠ initproc

instance : ∀ operation : FileOperation T F N, Decidable (OnFiles operation)
  | .fork _ _ _ | .exit _ _ => isFalse id
  | .openBegin _ _ | .openEnd _ _ _ | .close _ _ | .readBegin _ _ | .writeBegin _ _ | .seekBegin _ _ _ _ _
  | .fsyncBegin _ _ | .callEnd _ _ _ | .dup _ _ _ | .closeall _ | .chdir _ _ _ | .refInc _ | .refDec _ => isTrue trivial

instance (system : ExecSystem T F N) : ∀ operation, Decidable (ExecLegal idleproc initproc system operation)
  | .file operation => inferInstanceAs (Decidable (OnFiles operation ∧ FileLegal system.fs operation))
  | .fork process child copy _ =>
      inferInstanceAs (Decidable (FileLegal system.fs (.fork process child copy) ∧ _ = _))
  | .execBegin process _ => inferInstanceAs (Decidable (FileLegal system.fs (.closeall process) ∧ _ = _))
  | .execOpened process _ | .execLoaded process _ | .exit process =>
      inferInstanceAs (Decidable (FileLegal system.fs (.closeall process) ∧ _ = _ ∧ _ ≠ _ ∧ _ ≠ _))

/-- A process that comes to `do_exit` still has its address space. -/
def ExitsWithMm (system : ExecSystem T F N) : ExecOperation T F N → Prop
  | .execOpened process opened => opened = false → system.mm process = true
  | .execLoaded process loaded => loaded = false → system.mm process = true
  | .exit process => system.mm process = true
  | _ => True

instance (system : ExecSystem T F N) : ∀ operation, Decidable (ExitsWithMm system operation)
  | .execOpened process opened => inferInstanceAs (Decidable (opened = false → system.mm process = true))
  | .execLoaded process loaded => inferInstanceAs (Decidable (loaded = false → system.mm process = true))
  | .exit process => inferInstanceAs (Decidable (system.mm process = true))
  | .file _ | .fork _ _ _ _ | .execBegin _ _ => isTrue trivial

/-- The processes that name a table and have not passed the release in `do_exit`. -/
def ExecSystem.users (system : ExecSystem T F N) (files : F) : Nat :=
  tally system.fs.processes system.fs.filesp files

/-- Every table there is counts the processes that name it; there is no other table that a
process names. -/
structure FilesExact (system : ExecSystem T F N) : Prop where
  counted : ∀ files ∈ system.fs.live, (system.fs.state.files files).filesCount = system.users files
  used : ∀ files, files ∈ system.fs.live ↔ 0 < system.users files

/-! ## One step -/

/-- The counts of the files are exact, and no table counts a user too many. -/
structure ExecInvariant (system : ExecSystem T F N) : Prop where
  files : FileInvariant system.fs
  exact : ∀ files ∈ system.fs.live, system.fs.excess files = 0

variable {idleproc initproc} {system : ExecSystem T F N}

omit [DecidableEq T] in
/-- A table that is there is one that a process names. -/
theorem ExecInvariant.filesExact (invariant : ExecInvariant system) : FilesExact system := by
  have counted : ∀ files ∈ system.fs.live,
      (system.fs.state.files files).filesCount = system.users files := by
    intro files live
    have zero := invariant.exact files live
    simp only [FileSystem.excess] at zero
    simp only [ExecSystem.users]
    omega
  refine ⟨counted, ?_⟩
  intro files
  constructor
  · intro live
    have positive := (invariant.files.counts files live).1
    have := counted files live
    omega
  · intro positive
    by_contra gone
    have none : system.users files = 0 := by
      apply tally_eq_zero.mpr
      intro process member names
      obtain ⟨table, live, own⟩ := invariant.files.tables process member
      obtain rfl := Option.some.inj (names.symm.trans own)
      exact gone live
    omega

/-- A step on the files that releases a table where a process leaves it. -/
theorem ExecInvariant.step (invariant : ExecInvariant system) {operation : FileOperation T F N}
    (legal : FileLegal system.fs operation) (releases : Releases operation) :
    ∃ fs, fileStep system.fs operation = some fs ∧ FileInvariant fs ∧
      ∀ files ∈ fs.live, fs.excess files = 0 := by
  obtain ⟨fs, taken, kept, balances⟩ := fileStep_exact invariant.files operation legal
  refine ⟨fs, taken, kept, ?_⟩
  intro files live
  rw [balances releases files live]
  split
  case isTrue old => exact invariant.exact files old
  case isFalse => rfl

/-- `do_exit` of a process with an address space. -/
theorem doExit_exact (invariant : ExecInvariant system) {process : T}
    (legal : FileLegal system.fs (.closeall process)) (notIdle : process ≠ idleproc)
    (notInit : process ≠ initproc) (hasMm : system.mm process = true) :
    ∃ next, doExit idleproc initproc process system = some next ∧ ExecInvariant next := by
  have leaves : FileLegal system.fs (.exit process (system.mm process)) := legal
  obtain ⟨fs, taken, kept, exact⟩ := invariant.step leaves hasMm
  have notFirst : ¬(process = idleproc ∨ process = initproc) := by tauto
  exact ⟨_, by simp only [doExit, notFirst, if_false, taken]; rfl, kept, exact⟩

/-- A new process is in no call. -/
theorem fork_child {system fs : FileSystem T F N} {process child : T} {copy : Option F}
    (taken : fileStep system (.fork process child copy) = some fs) :
    child ∈ fs.processes ∧ fs.doing child = none := by
  obtain ⟨source, _, copied⟩ := Option.bind_eq_some_iff.mp taken
  obtain ⟨⟨files, state⟩, _, made⟩ := Option.bind_eq_some_iff.mp copied
  obtain rfl := Option.some.inj made
  simp [FileSystem.sleep]

/-- `do_fork`, with and without an address space for the child. -/
theorem doFork_exact (invariant : ExecInvariant system) {process child : T} {copy : Option F} (copied : Bool)
    (legal : FileLegal system.fs (.fork process child copy)) :
    ∃ next, doFork process child copy copied system = some next ∧ ExecInvariant next := by
  obtain ⟨fs, taken, kept, exact⟩ := invariant.step legal trivial
  cases copied with
  | true => exact ⟨_, by simp only [doFork, taken]; rfl, kept, exact⟩
  | false =>
    let forked : ExecSystem T F N := { system with fs := fs }
    have leaves : FileLegal forked.fs (.exit child true) := fork_child taken
    have forkedInvariant : ExecInvariant forked := ⟨kept, exact⟩
    obtain ⟨after, put, keptAfter, exactAfter⟩ := forkedInvariant.step leaves rfl
    have released : fileStep fs (.exit child true) = some after := put
    exact ⟨{ system with fs := after }, by simp [doFork, taken, released], keptAfter, exactAfter⟩

/-- Every operation finds its assertions true and keeps the counts exact, if a process that
comes to `do_exit` still has its address space. -/
theorem execStep_exact (invariant : ExecInvariant system) {operation : ExecOperation T F N}
    (legal : ExecLegal idleproc initproc system operation) (hasMm : ExitsWithMm system operation) :
    ∃ next, execStep idleproc initproc system operation = some next ∧ ExecInvariant next := by
  cases operation with
  | file operation =>
    obtain ⟨onFiles, legal⟩ := legal
    have releases : Releases operation := by
      cases operation with
      | fork process child copy => exact onFiles.elim
      | exit process mm => exact onFiles.elim
      | _ => trivial
    obtain ⟨fs, taken, kept, exact⟩ := invariant.step legal releases
    exact ⟨{ system with fs := fs }, by simp [execStep, taken], kept, exact⟩
  | fork process child copy copied => exact doFork_exact invariant copied legal.1
  | execBegin process accepted =>
    cases accepted with
    | false => exact ⟨system, rfl, invariant⟩
    | true =>
      obtain ⟨fs, taken, kept, exact⟩ := invariant.step legal.1 trivial
      exact ⟨_, by simp only [execStep, taken]; rfl, kept, exact⟩
  | execOpened process opened =>
    obtain ⟨idle, _, notIdle, notInit⟩ := legal
    cases opened with
    | false => exact doExit_exact invariant idle notIdle notInit (hasMm rfl)
    | true => exact ⟨_, rfl, invariant.files, invariant.exact⟩
  | execLoaded process loaded =>
    obtain ⟨idle, _, notIdle, notInit⟩ := legal
    cases loaded with
    | false => exact doExit_exact invariant idle notIdle notInit (hasMm rfl)
    | true => exact ⟨_, rfl, invariant.files, invariant.exact⟩
  | exit process =>
    obtain ⟨idle, _, notIdle, notInit⟩ := legal
    exact doExit_exact invariant idle notIdle notInit hasMm

/-! ## Whole runs -/

/-- `proc_init`: the first process has a table and no address space. -/
def bootExec (memory : F → FilesStruct N) (held : N → Nat) (idleproc : T) (files : F) : ExecSystem T F N where
  fs := bootFiles memory held idleproc files
  mm _ := false
  phase _ := .running

omit [DecidableEq T] in
theorem bootExec_exact (memory : F → FilesStruct N) (held : N → Nat) (idleproc : T) (files : F) :
    ExecInvariant (bootExec memory held idleproc files) where
  files := bootFiles_exact memory held idleproc files
  exact := by
    intro table live
    obtain rfl := Finset.mem_singleton.mp live
    simp [bootExec, bootFiles, FileSystem.excess, tally, filesCountInc, filesCreate, FileState.setFiles]

/-- In every run in which processes exit with their address space, a table counts the
processes that name it, no assertion fails, and a table is destroyed by the step in which
the last of these processes leaves it. -/
theorem files_count_exact (memory : F → FilesStruct N) (held : N → Nat) (idleproc initproc : T) (files : F)
    (system : ExecSystem T F N)
    (reached : Reaches (execStep idleproc initproc) (fun system operation =>
      ExecLegal idleproc initproc system operation ∧ ExitsWithMm system operation)
      (bootExec memory held idleproc files) system) :
    FilesExact system ∧ ∀ operation, ExecLegal idleproc initproc system operation →
      ExitsWithMm system operation → ∃ next, execStep idleproc initproc system operation = some next ∧
        ∀ table, (table ∈ system.fs.live ∧ table ∉ next.fs.live) ↔
          (0 < system.users table ∧ next.users table = 0) := by
  have invariant : ExecInvariant system := by
    refine reached.invariant (bootExec_exact memory held idleproc files) ?_
    intro state operation next keeps admitted taken
    obtain ⟨after, isAfter, kept⟩ := execStep_exact keeps admitted.1 admitted.2
    exact Option.some.inj (isAfter.symm.trans taken) ▸ kept
  refine ⟨invariant.filesExact, ?_⟩
  intro operation legal hasMm
  obtain ⟨next, taken, kept⟩ := execStep_exact invariant legal hasMm
  refine ⟨next, taken, ?_⟩
  intro table
  have before := invariant.filesExact.used table
  have after := kept.filesExact.used table
  rw [before, after]
  omega

/-- The first process, with table 0 in an empty memory. -/
def firstProcess : ExecSystem Nat Nat Nat :=
  bootExec (fun _ => { pwd := none, fdArray := fdArrayInit, filesCount := 0 }) (fun _ => 0) 0 0

/-- The kernel threads 1 and 2 are made, and 2 loads a program; it forks 3, which copies its
table. -/
def userProcess : List (ExecOperation Nat Nat Nat) :=
  [.fork 0 1 (some 1) true, .fork 1 2 (some 2) true, .execBegin 2 true, .execOpened 2 true, .execLoaded 2 true,
    .fork 2 3 (some 3) true]

/-- A user process shares its table with a second one, and both exit: the table goes with
the second. -/
theorem files_count_exact_shared :
    ∃ system, Reaches (execStep 0 1) (fun system operation =>
        ExecLegal 0 1 system operation ∧ ExitsWithMm system operation) firstProcess system ∧
      system.fs.live = {0, 1} ∧ FilesExact system := by
  have completed : (run (guarded (execStep 0 1) fun system operation =>
      decide (ExecLegal 0 1 system operation ∧ ExitsWithMm system operation))
      (userProcess ++ [.fork 3 4 none true, .exit 3, .exit 2, .execBegin 4 true, .execOpened 4 false])
      firstProcess).map (fun system => system.fs.live) = some {0, 1} := by
    decide +kernel
  obtain ⟨system, last, live⟩ := Option.map_eq_some_iff.mp completed
  have reached := guarded_reaches (fun _ _ => of_decide_eq_true) _ _ _ last
  exact ⟨system, reached, live, (files_count_exact _ _ _ _ _ system reached).1⟩

/-- A process whose `load_icode` fails exits without its address space, and leaves its
table behind with a user that does not exist. -/
theorem leaked_after_exec :
    ∃ system, Reaches (execStep 0 1) (ExecLegal 0 1) firstProcess system ∧
      3 ∈ system.fs.live ∧ system.users 3 = 0 ∧ ¬FilesExact system := by
  have completed : (run (guarded (execStep 0 1) fun system operation => decide (ExecLegal 0 1 system operation))
      (userProcess ++ [.execBegin 3 true, .execOpened 3 true, .execLoaded 3 false])
      firstProcess).map (fun system => decide (3 ∈ system.fs.live ∧ system.users 3 = 0)) = some true := by
    decide +kernel
  obtain ⟨system, last, leaked⟩ := Option.map_eq_some_iff.mp completed
  have reached := guarded_reaches (fun _ _ => of_decide_eq_true) _ _ _ last
  obtain ⟨live, unused⟩ := of_decide_eq_true leaked
  refine ⟨system, reached, live, unused, ?_⟩
  intro exact
  have used := (exact.used 3).mp live
  omega

end Ucore.ProcFiles
