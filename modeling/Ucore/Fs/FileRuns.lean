import Ucore.Fs.FileTables
import Ucore.Library.Transition

/-!
# Runs over open files

Processes with their own or shared tables open, use, close and duplicate files, fork
and exit in any order. A call that uses a file may sleep between its two halves, as
may `file_open` before `vfs_open`.
-/

namespace Ucore.Fs

open Tally Transition

universe u
variable {T F N : Type u} [DecidableEq T] [DecidableEq F] [DecidableEq N]

/-- The calls that use a file; a seek has computed its target. -/
inductive Call where
  | read
  | write
  | seek (target : Except Int Int)
  | fsync

/-- What a process sleeps in. -/
inductive Activity (F : Type u) where
  | opening (slot : Slot F) (openFlags : BitVec 32)
  | using (slot : Slot F) (call : Call)

def Activity.slotOpening : Activity F → Option (Slot F)
  | .opening slot _ => some slot
  | .using _ _ => none

def Activity.slotUsing : Activity F → Option (Slot F)
  | .opening _ _ => none
  | .using slot _ => some slot

/-- The tables and inodes, the processes with their tables and what they sleep in, the
live tables, and the references to inodes held by other parts of the kernel. -/
structure FileSystem (T F N : Type u) where
  state : FileState F N
  processes : Finset T
  filesp : T → Option F
  doing : T → Option (Activity F)
  live : Finset F
  held : N → Nat

/-- The operations of a process, and the references of other parts of the kernel. The
results of the file systems are arguments. -/
inductive FileOperation (T F N : Type u) where
  | openBegin (process : T) (openFlags : BitVec 32)
  | openEnd (process : T) (opened : Except Int N) (fstat : Except Int Int)
  | close (process : T) (fd : Int)
  | readBegin (process : T) (fd : Int)
  | writeBegin (process : T) (fd : Int)
  | seekBegin (process : T) (fd pos whence : Int) (fstat : Except Int Int)
  | fsyncBegin (process : T) (fd : Int)
  | callEnd (process : T) (copied : Nat) (tryseek : Int)
  | dup (process : T) (fd1 fd2 : Int)
  | closeall (process : T)
  | fork (process child : T) (copy : Option F)
  | exit (process : T) (mm : Bool)
  | chdir (process : T) (dir : Option N) (ret : Int)
  | refInc (node : N)
  | refDec (node : N)

def FileSystem.sleep (system : FileSystem T F N) (process : T) (activity : Option (Activity F)) :
    FileSystem T F N :=
  { system with doing := Function.update system.doing process activity }

/-- The first half of a call leaves the process asleep in it, unless it is refused. -/
def FileSystem.enter (system : FileSystem T F N) (process : T)
    (result : Option (Except Int (Slot F) × FileState F N)) (activity : FileState F N → Slot F → Activity F) :
    Option (FileSystem T F N) := do
  let (ret, state) ← result
  match ret with
  | .error _ => some { system with state }
  | .ok slot => some ({ system with state }.sleep process (some (activity state slot)))

/-- The second half of a call. -/
def callEnd (state : FileState F N) (slot : Slot F) (copied : Nat) (tryseek : Int) :
    Call → Option (FileState F N)
  | .read => fileReadEnd state slot copied
  | .write => fileWriteEnd state slot copied
  | .seek target => fileSeekEnd state slot target tryseek
  | .fsync => fileFsyncEnd state slot

/-- One operation; `none` is a failed assertion. -/
def fileStep (system : FileSystem T F N) : FileOperation T F N → Option (FileSystem T F N)
  | .openBegin process openFlags =>
      system.enter process (fileOpenBegin system.state (system.filesp process) openFlags)
        fun _ slot => .opening slot openFlags
  | .openEnd process opened fstat =>
      match system.doing process with
      | some (.opening slot openFlags) => do
          let (_, state) ← fileOpenEnd system.state slot openFlags opened fstat
          some ({ system with state }.sleep process none)
      | _ => none
  | .close process fd => do
      let (_, state) ← fileClose system.state (system.filesp process) fd
      some { system with state }
  | .readBegin process fd =>
      system.enter process (fileReadBegin system.state (system.filesp process) fd) fun _ slot => .using slot .read
  | .writeBegin process fd =>
      system.enter process (fileWriteBegin system.state (system.filesp process) fd)
        fun _ slot => .using slot .write
  | .seekBegin process fd pos whence fstat =>
      system.enter process (fileSeekBegin system.state (system.filesp process) fd) fun state slot =>
        .using slot (.seek (seekTarget (state.file slot) pos whence fstat))
  | .fsyncBegin process fd =>
      system.enter process (fileFsyncBegin system.state (system.filesp process) fd)
        fun _ slot => .using slot .fsync
  | .callEnd process copied tryseek =>
      match system.doing process with
      | some (.using slot call) => do
          let state ← callEnd system.state slot copied tryseek call
          some ({ system with state }.sleep process none)
      | _ => none
  | .dup process fd1 fd2 => do
      let (_, state) ← fileDup system.state (system.filesp process) fd1 fd2
      some { system with state }
  | .closeall process => do
      let files ← system.filesp process
      let state ← filesCloseall system.state files
      some { system with state }
  | .fork process child copy => do
      let source ← system.filesp process
      let (files, state) ← copyFiles system.state source copy
      some ({ system with
        state
        processes := insert child system.processes
        filesp := Function.update system.filesp child (some files)
        live := insert files system.live }.sleep child none)
  | .exit process mm =>
      let processes := system.processes.erase process
      if mm then do
        let files ← system.filesp process
        let state ← putFiles system.state (some files)
        let last := (system.state.files files).filesCount - 1 = 0
        some { system with state, processes, live := if last then system.live.erase files else system.live }
      else some { system with processes }
  | .chdir process dir ret => do
      let files ← system.filesp process
      let (_, state) ← vfsSetCurdir system.state files dir ret
      some { system with state }
  | .refInc node =>
      some { system with
        state := inodeRefInc system.state node
        held := Function.update system.held node (system.held node + 1) }
  | .refDec node => do
      let state ← inodeRefDec system.state node
      some { system with state, held := Function.update system.held node (system.held node - 1) }

/-- A process makes one call at a time; a new process and a new table are in memory
that is not in use; a reference is dropped by the one who holds it. -/
def FileLegal (system : FileSystem T F N) : FileOperation T F N → Prop
  | .openBegin process _ | .close process _ | .readBegin process _ | .writeBegin process _
  | .seekBegin process _ _ _ _ | .fsyncBegin process _ | .dup process _ _ | .closeall process
  | .exit process _ => process ∈ system.processes ∧ system.doing process = none
  | .openEnd process _ _ => process ∈ system.processes ∧
      ∃ slot openFlags, system.doing process = some (.opening slot openFlags)
  | .callEnd process _ _ => process ∈ system.processes ∧
      ∃ slot call, system.doing process = some (.using slot call)
  | .fork process child copy => process ∈ system.processes ∧ system.doing process = none ∧
      child ∉ system.processes ∧ ∀ files ∈ copy, files ∉ system.live
  | .chdir process dir _ => process ∈ system.processes ∧ system.doing process = none ∧
      ∀ node ∈ dir, 0 < system.held node
  | .refInc _ => True
  | .refDec node => 0 < system.held node

instance (doing : Option (Activity F)) : Decidable (∃ slot openFlags, doing = some (.opening slot openFlags)) :=
  match doing with
  | some (.opening slot openFlags) => isTrue ⟨slot, openFlags, rfl⟩
  | some (.using _ _) => isFalse fun ⟨_, _, same⟩ => by cases same
  | none => isFalse fun ⟨_, _, same⟩ => by cases same

instance (doing : Option (Activity F)) : Decidable (∃ slot call, doing = some (.using slot call)) :=
  match doing with
  | some (.using slot call) => isTrue ⟨slot, call, rfl⟩
  | some (.opening _ _) => isFalse fun ⟨_, _, same⟩ => by cases same
  | none => isFalse fun ⟨_, _, same⟩ => by cases same

instance (doing : Option (Activity F)) : Decidable (doing = none) :=
  decidable_of_iff (doing.isNone = true) Option.isNone_iff_eq_none

instance (system : FileSystem T F N) : ∀ operation, Decidable (FileLegal system operation)
  | .openBegin _ _ | .close _ _ | .readBegin _ _ | .writeBegin _ _ | .seekBegin _ _ _ _ _ | .fsyncBegin _ _
  | .dup _ _ _ | .closeall _ | .exit _ _ => inferInstanceAs (Decidable (_ ∧ _ = none))
  | .openEnd process _ _ =>
      inferInstanceAs (Decidable (_ ∧ ∃ slot openFlags, system.doing process = some (.opening slot openFlags)))
  | .callEnd process _ _ =>
      inferInstanceAs (Decidable (_ ∧ ∃ slot call, system.doing process = some (.using slot call)))
  | .fork _ _ copy => inferInstanceAs (Decidable (_ ∧ _ = none ∧ _ ∧ ∀ files ∈ copy, _))
  | .chdir _ dir _ => inferInstanceAs (Decidable (_ ∧ _ = none ∧ ∀ node ∈ dir, _))
  | .refInc _ => inferInstanceAs (Decidable True)
  | .refDec _ => inferInstanceAs (Decidable (_ < _))

/-- The slot a process uses, and the one it fills. -/
def slotUsed (doing : T → Option (Activity F)) (process : T) : Option (Slot F) :=
  (doing process).bind Activity.slotUsing

def slotFilled (doing : T → Option (Activity F)) (process : T) : Option (Slot F) :=
  (doing process).bind Activity.slotOpening

def pwds (state : FileState F N) (files : F) : Option N := (state.files files).pwd

/-- The counts of slots are those of the processes asleep in a call; the references that
no slot accounts for are those of working directories and of the rest of the kernel. -/
structure FileInvariant (system : FileSystem T F N) : Prop where
  consistent : Consistent system.state system.live (tally system.processes (slotUsed system.doing))
    (tally system.processes (slotFilled system.doing))
    fun node => tally system.live (pwds system.state) node + system.held node
  tables : ∀ process ∈ system.processes, ∃ files ∈ system.live, system.filesp process = some files
  counts : ∀ files ∈ system.live, 0 < (system.state.files files).filesCount ∧
    (tally system.processes system.filesp files : Int) ≤ (system.state.files files).filesCount
  busy : ∀ process ∈ system.processes, ∀ slot,
    slotUsed system.doing process = some slot ∨ slotFilled system.doing process = some slot →
      system.filesp process = some slot.1 ∧ slot ∈ slots system.live

variable {system : FileSystem T F N} {next : FileState F N} {process : T} {slot : Slot F}

omit [DecidableEq T] [DecidableEq F] [DecidableEq N] in
theorem SameTables.pwds (same : SameTables system.state next) : pwds next = pwds system.state := by
  funext files
  exact (same files).1

/-- A step that concerns one process and the slots of its table. -/
theorem FileInvariant.sleep (invariant : FileInvariant system) (activity : Option (Activity F))
    (same : SameTables system.state next)
    (kept : Consistent next system.live
      (tally system.processes (slotUsed (Function.update system.doing process activity)))
      (tally system.processes (slotFilled (Function.update system.doing process activity)))
      fun node => tally system.live (pwds system.state) node + system.held node)
    (inside : ∀ slot, activity.bind Activity.slotUsing = some slot ∨ activity.bind Activity.slotOpening = some slot →
      system.filesp process = some slot.1 ∧ slot ∈ slots system.live) :
    FileInvariant ({ system with state := next }.sleep process activity) where
  consistent := by
    have pwds := same.pwds
    simpa only [FileSystem.sleep, pwds] using kept
  tables := invariant.tables
  counts := by
    intro files live
    simp only [FileSystem.sleep, (same files).2]
    exact invariant.counts files live
  busy := by
    intro other member slot uses
    by_cases here : other = process
    · subst here
      simp only [FileSystem.sleep, slotUsed, slotFilled, Function.update_self] at uses
      exact inside slot uses
    · simp only [FileSystem.sleep, slotUsed, slotFilled, Function.update_of_ne here] at uses
      exact invariant.busy other member slot uses

section Activities

variable {doing : T → Option (Activity F)} {activity : Option (Activity F)}

omit [DecidableEq F] in
theorem slotUsed_elsewhere {other : T} (different : other ≠ process) :
    slotUsed (Function.update doing process activity) other = slotUsed doing other := by
  simp [slotUsed, different]

omit [DecidableEq F] in
theorem slotFilled_elsewhere {other : T} (different : other ≠ process) :
    slotFilled (Function.update doing process activity) other = slotFilled doing other := by
  simp [slotFilled, different]

omit [DecidableEq F] in
/-- A change of activity that concerns no use. -/
theorem slotUsed_same (same : activity.bind Activity.slotUsing = (doing process).bind Activity.slotUsing) :
    slotUsed (Function.update doing process activity) = slotUsed doing := by
  funext other
  by_cases here : other = process
  · simp [slotUsed, here, same]
  · exact slotUsed_elsewhere here

omit [DecidableEq F] in
/-- A change of activity that concerns no `file_open`. -/
theorem slotFilled_same (same : activity.bind Activity.slotOpening = (doing process).bind Activity.slotOpening) :
    slotFilled (Function.update doing process activity) = slotFilled doing := by
  funext other
  by_cases here : other = process
  · simp [slotFilled, here, same]
  · exact slotFilled_elsewhere here

end Activities

/-- A process begins to use a slot. -/
theorem FileInvariant.startUsing (invariant : FileInvariant system) (member : process ∈ system.processes)
    (idle : system.doing process = none) (call : Call) (same : SameTables system.state next)
    (kept : Consistent next system.live (Function.update (tally system.processes (slotUsed system.doing)) slot
        (tally system.processes (slotUsed system.doing) slot + 1))
      (tally system.processes (slotFilled system.doing))
      fun node => tally system.live (pwds system.state) node + system.held node)
    (owner : system.filesp process = some slot.1) (inside : slot ∈ slots system.live) :
    FileInvariant ({ system with state := next }.sleep process (some (.using slot call))) := by
  apply invariant.sleep _ same
  · rw [slotFilled_same (by simp [idle, Activity.slotOpening])]
    rw [tally_start slot member (fun _ => slotUsed_elsewhere) (by simp [slotUsed, idle])
      (by simp [slotUsed, Activity.slotUsing])]
    exact kept
  · intro other uses
    obtain rfl : slot = other := by simpa [Activity.slotUsing, Activity.slotOpening] using uses
    exact ⟨owner, inside⟩

/-- A process ends its use of a slot. -/
theorem FileInvariant.stopUsing (invariant : FileInvariant system) (member : process ∈ system.processes)
    {call : Call} (busy : system.doing process = some (.using slot call)) (same : SameTables system.state next)
    (kept : Consistent next system.live (Function.update (tally system.processes (slotUsed system.doing)) slot
        (tally system.processes (slotUsed system.doing) slot - 1))
      (tally system.processes (slotFilled system.doing))
      fun node => tally system.live (pwds system.state) node + system.held node) :
    FileInvariant ({ system with state := next }.sleep process none) := by
  apply invariant.sleep _ same
  · rw [slotFilled_same (by simp [busy, Activity.slotOpening])]
    rw [tally_stop slot member (fun _ => slotUsed_elsewhere) (by simp [slotUsed, busy, Activity.slotUsing])
      (by simp [slotUsed])]
    exact kept
  · intro other uses
    simp at uses

/-- A process begins to fill a slot. -/
theorem FileInvariant.startOpening (invariant : FileInvariant system) (member : process ∈ system.processes)
    (idle : system.doing process = none) (openFlags : BitVec 32) (same : SameTables system.state next)
    (kept : Consistent next system.live (tally system.processes (slotUsed system.doing))
      (Function.update (tally system.processes (slotFilled system.doing)) slot
        (tally system.processes (slotFilled system.doing) slot + 1))
      fun node => tally system.live (pwds system.state) node + system.held node)
    (owner : system.filesp process = some slot.1) (inside : slot ∈ slots system.live) :
    FileInvariant ({ system with state := next }.sleep process (some (.opening slot openFlags))) := by
  apply invariant.sleep _ same
  · rw [slotUsed_same (by simp [idle, Activity.slotUsing])]
    rw [tally_start slot member (fun _ => slotFilled_elsewhere) (by simp [slotFilled, idle])
      (by simp [slotFilled, Activity.slotOpening])]
    exact kept
  · intro other uses
    obtain rfl : slot = other := by simpa [Activity.slotUsing, Activity.slotOpening] using uses
    exact ⟨owner, inside⟩

/-- A process ends its `file_open`. -/
theorem FileInvariant.stopOpening (invariant : FileInvariant system) (member : process ∈ system.processes)
    {openFlags : BitVec 32} (busy : system.doing process = some (.opening slot openFlags))
    (same : SameTables system.state next)
    (kept : Consistent next system.live (tally system.processes (slotUsed system.doing))
      (Function.update (tally system.processes (slotFilled system.doing)) slot
        (tally system.processes (slotFilled system.doing) slot - 1))
      fun node => tally system.live (pwds system.state) node + system.held node) :
    FileInvariant ({ system with state := next }.sleep process none) := by
  apply invariant.sleep _ same
  · rw [slotUsed_same (by simp [busy, Activity.slotUsing])]
    rw [tally_stop slot member (fun _ => slotFilled_elsewhere)
      (by simp [slotFilled, busy, Activity.slotOpening]) (by simp [slotFilled])]
    exact kept
  · intro other uses
    simp at uses

omit [DecidableEq T] in
/-- A step within the table of one process. -/
theorem FileInvariant.within (invariant : FileInvariant system) (same : SameTables system.state next)
    (kept : Consistent next system.live (tally system.processes (slotUsed system.doing))
      (tally system.processes (slotFilled system.doing))
      fun node => tally system.live (pwds system.state) node + system.held node) :
    FileInvariant { system with state := next } where
  consistent := by
    have pwds := same.pwds
    simpa only [pwds] using kept
  tables := invariant.tables
  counts := by
    intro files live
    simp only [(same files).2]
    exact invariant.counts files live
  busy := invariant.busy

omit [DecidableEq T] in
/-- A process has a live table in use. -/
theorem FileInvariant.table (invariant : FileInvariant system) (member : process ∈ system.processes) :
    ∃ files ∈ system.live, system.filesp process = some files ∧ 0 < (system.state.files files).filesCount := by
  obtain ⟨files, live, own⟩ := invariant.tables process member
  exact ⟨files, live, own, (invariant.counts files live).1⟩

/-- The users that a table counts beyond the processes that have it. -/
def FileSystem.excess (system : FileSystem T F N) (files : F) : Int :=
  (system.state.files files).filesCount - tally system.processes system.filesp files

/-- A new table counts exactly its process, and the other ones no user more or less. -/
def Balances (system after : FileSystem T F N) : Prop :=
  ∀ files ∈ after.live, after.excess files = if files ∈ system.live then system.excess files else 0

omit [DecidableEq T] [DecidableEq N] in
/-- A step that leaves the processes, their tables and the counts. -/
theorem balances_same {after : FileSystem T F N} (processes : after.processes = system.processes)
    (filesp : after.filesp = system.filesp) (live : after.live = system.live)
    (counts : ∀ files, (after.state.files files).filesCount = (system.state.files files).filesCount) :
    Balances system after := by
  intro files inside
  rw [live] at inside
  simp [FileSystem.excess, inside, processes, filesp, counts]

/-- The first half of a call that uses a file. -/
theorem FileInvariant.enter_exact (invariant : FileInvariant system) (member : process ∈ system.processes)
    (idle : system.doing process = none) (fd : Int) (permitted : File N → Bool)
    (call : FileState F N → Slot F → Call) :
    ∃ after, system.enter process (acquireFd system.state (system.filesp process) fd permitted)
        (fun state slot => .using slot (call state slot)) = some after ∧ FileInvariant after ∧
      Balances system after := by
  obtain ⟨files, live, own, counted⟩ := invariant.table member
  rcases invariant.consistent.acquireFd_exact live counted fd permitted with
    ⟨ret, refused⟩ | ⟨slot, inside, next, isFiles, acquired, same, kept⟩
  · rw [own, refused]
    exact ⟨system, rfl, invariant, balances_same rfl rfl rfl fun _ => rfl⟩
  · rw [own, acquired]
    refine ⟨_, rfl, invariant.startUsing member idle _ same kept ?_ inside,
      balances_same rfl rfl rfl fun files => (same files).2⟩
    rw [own, isFiles]

/-! ## The operations -/

theorem openBegin_exact (invariant : FileInvariant system) {openFlags : BitVec 32}
    (legal : FileLegal system (.openBegin process openFlags)) :
    ∃ after, fileStep system (.openBegin process openFlags) = some after ∧ FileInvariant after ∧
      Balances system after := by
  obtain ⟨member, idle⟩ := legal
  obtain ⟨files, live, own, counted⟩ := invariant.table member
  simp only [fileStep, own, fileOpenBegin]
  split
  · rcases invariant.consistent.alloc_exact live counted noFd with
      ⟨ret, refused⟩ | ⟨slot, inside, next, isFiles, free, allocated, touches, kept, _⟩
    · rw [refused]
      exact ⟨system, rfl, invariant, balances_same rfl rfl rfl fun _ => rfl⟩
    · rw [allocated]
      have unopened : tally system.processes (slotFilled system.doing) slot = 0 := by
        simp [(invariant.consistent.slot slot inside).opening, free]
      refine ⟨_, rfl, invariant.startOpening member idle openFlags touches.tables ?_ ?_ inside,
        balances_same rfl rfl rfl fun files => (touches.tables files).2⟩
      · rw [unopened]
        exact kept
      · rw [own, isFiles]
  · exact ⟨system, rfl, invariant, balances_same rfl rfl rfl fun _ => rfl⟩

theorem openEnd_exact (invariant : FileInvariant system) {opened : Except Int N} {fstat : Except Int Int}
    (legal : FileLegal system (.openEnd process opened fstat)) :
    ∃ after, fileStep system (.openEnd process opened fstat) = some after ∧ FileInvariant after ∧
      Balances system after := by
  obtain ⟨member, slot, openFlags, busy⟩ := legal
  have fills : slotFilled system.doing process = some slot := by simp [slotFilled, busy, Activity.slotOpening]
  have inside := (invariant.busy process member slot (Or.inr fills)).2
  have positive : 0 < tally system.processes (slotFilled system.doing) slot := tally_pos member fills
  have opening := (invariant.consistent.slot slot inside).opening
  have filling : (system.state.file slot).status = .init := by
    by_contra other
    simp only [other, if_false] at opening
    omega
  simp only [filling, if_true] at opening
  obtain ⟨ret, next, ends, touches, kept⟩ :=
    invariant.consistent.openEnd_exact inside filling openFlags opened fstat
  simp only [fileStep, busy, ends, Option.bind_eq_bind, Option.bind_some]
  refine ⟨_, rfl, invariant.stopOpening member busy touches.tables ?_,
    balances_same rfl rfl rfl fun files => (touches.tables files).2⟩
  rw [opening]
  exact kept

theorem close_exact (invariant : FileInvariant system) {fd : Int} (legal : FileLegal system (.close process fd)) :
    ∃ after, fileStep system (.close process fd) = some after ∧ FileInvariant after ∧
      Balances system after := by
  obtain ⟨member, idle⟩ := legal
  obtain ⟨files, live, own, counted⟩ := invariant.table member
  obtain ⟨ret, next, closed, same, kept⟩ := invariant.consistent.fileClose_exact live counted fd
  simp only [fileStep, own, closed, Option.bind_eq_bind, Option.bind_some]
  exact ⟨_, rfl, invariant.within same kept, balances_same rfl rfl rfl fun files => (same files).2⟩

theorem callEnd_exact (invariant : FileInvariant system) {copied : Nat} {tryseek : Int}
    (legal : FileLegal system (.callEnd process copied tryseek)) :
    ∃ after, fileStep system (.callEnd process copied tryseek) = some after ∧ FileInvariant after ∧
      Balances system after := by
  obtain ⟨member, slot, call, busy⟩ := legal
  have uses : slotUsed system.doing process = some slot := by simp [slotUsed, busy, Activity.slotUsing]
  have inside := (invariant.busy process member slot (Or.inl uses)).2
  have inUse : 0 < tally system.processes (slotUsed system.doing) slot := tally_pos member uses
  have ends : ∃ next, callEnd system.state slot copied tryseek call = some next ∧
      SameTables system.state next ∧ Consistent next system.live
        (Function.update (tally system.processes (slotUsed system.doing)) slot
          (tally system.processes (slotUsed system.doing) slot - 1))
        (tally system.processes (slotFilled system.doing))
        fun node => tally system.live (pwds system.state) node + system.held node := by
    cases call with
    | read => exact invariant.consistent.advance_exact inside inUse copied
    | write => exact invariant.consistent.advance_exact inside inUse copied
    | seek target => exact invariant.consistent.seekEnd_exact inside inUse target tryseek
    | fsync =>
      obtain ⟨next, released, touches, kept⟩ := invariant.consistent.release_exact inside inUse
      exact ⟨next, released, touches.tables, kept⟩
  obtain ⟨next, called, same, kept⟩ := ends
  simp only [fileStep, busy, called, Option.bind_eq_bind, Option.bind_some]
  exact ⟨_, rfl, invariant.stopUsing member busy same kept,
    balances_same rfl rfl rfl fun files => (same files).2⟩

theorem dup_exact (invariant : FileInvariant system) {fd1 fd2 : Int}
    (legal : FileLegal system (.dup process fd1 fd2)) :
    ∃ after, fileStep system (.dup process fd1 fd2) = some after ∧ FileInvariant after ∧
      Balances system after := by
  obtain ⟨member, idle⟩ := legal
  obtain ⟨files, live, own, counted⟩ := invariant.table member
  obtain ⟨ret, next, duplicated, same, kept⟩ := invariant.consistent.fileDup_exact live counted fd1 fd2
  simp only [fileStep, own, duplicated, Option.bind_eq_bind, Option.bind_some]
  exact ⟨_, rfl, invariant.within same kept, balances_same rfl rfl rfl fun files => (same files).2⟩

theorem closeall_exact (invariant : FileInvariant system) (legal : FileLegal system (.closeall process)) :
    ∃ after, fileStep system (.closeall process) = some after ∧ FileInvariant after ∧
      Balances system after := by
  obtain ⟨member, idle⟩ := legal
  obtain ⟨files, live, own, counted⟩ := invariant.table member
  obtain ⟨next, closed, same, kept⟩ := invariant.consistent.closeall_exact live counted
  simp only [fileStep, own, closed, Option.bind_eq_bind, Option.bind_some]
  exact ⟨_, rfl, invariant.within same kept, balances_same rfl rfl rfl fun files => (same files).2⟩

theorem refInc_exact (invariant : FileInvariant system) (node : N) :
    ∃ after, fileStep system (.refInc node) = some after ∧ FileInvariant after ∧
      Balances system after := by
  have more : (fun other => tally system.live (pwds system.state) other +
        Function.update system.held node (system.held node + 1) other) =
      plusPwd (some node) fun other => tally system.live (pwds system.state) other + system.held other := by
    funext other
    by_cases same : other = node
    · simp [plusPwd, same, Nat.add_assoc]
    · simp [plusPwd, same, Ne.symm same]
  refine ⟨_, rfl, { invariant with consistent := ?_ }, balances_same rfl rfl rfl fun _ => rfl⟩
  exact more ▸ (invariant.consistent.takePwd_exact (some node)).2

theorem refDec_exact (invariant : FileInvariant system) {node : N} (legal : FileLegal system (.refDec node)) :
    ∃ after, fileStep system (.refDec node) = some after ∧ FileInvariant after ∧
      Balances system after := by
  have held : 0 < system.held node := legal
  have fewer : (fun other => tally system.live (pwds system.state) other + system.held other) =
      plusPwd (some node) fun other => tally system.live (pwds system.state) other +
        Function.update system.held node (system.held node - 1) other := by
    funext other
    by_cases same : other = node
    · subst same
      simp [plusPwd]
      omega
    · simp [plusPwd, same, Ne.symm same]
  have consistent := invariant.consistent
  rw [fewer] at consistent
  obtain ⟨next, dropped, files, kept⟩ := consistent.dropPwd_exact
  have isDropped : inodeRefDec system.state node = some next := dropped
  simp only [fileStep, isDropped, Option.bind_eq_bind, Option.bind_some]
  refine ⟨_, rfl, { invariant with consistent := ?_, counts := ?_ },
    balances_same rfl rfl rfl fun table => by simp [files]⟩
  · have samePwds : pwds next = pwds system.state := by
      funext table
      simp only [pwds, files]
    simpa only [samePwds] using kept
  · simpa only [files] using invariant.counts

theorem chdir_exact (invariant : FileInvariant system) {dir : Option N} {ret : Int}
    (legal : FileLegal system (.chdir process dir ret)) :
    ∃ after, fileStep system (.chdir process dir ret) = some after ∧ FileInvariant after ∧
      Balances system after := by
  obtain ⟨member, _, _⟩ := legal
  obtain ⟨files, live, own, _⟩ := invariant.table member
  simp only [fileStep, own, Option.bind_eq_bind, Option.bind_some, vfsSetCurdir]
  split
  · exact ⟨system, rfl, invariant, balances_same rfl rfl rfl fun _ => rfl⟩
  · split
    · exact ⟨system, rfl, invariant, balances_same rfl rfl rfl fun _ => rfl⟩
    · obtain ⟨takenFiles, taken⟩ := invariant.consistent.takePwd_exact dir
      let taken' := takePwd system.state dir
      let moved := taken'.setFiles files { taken'.files files with pwd := dir }
      have isMoved : Consistent moved system.live _ _ _ := taken.setFiles files _ fun _ => rfl
      have movedPwds : ∀ other, other ≠ files → pwds moved other = pwds system.state other := by
        intro other different
        simp [pwds, moved, FileState.setFiles, different, taken', takenFiles]
      have here : pwds moved files = dir := by simp [pwds, moved, FileState.setFiles]
      have exchanged : (plusPwd dir fun node => tally system.live (pwds system.state) node + system.held node) =
          plusPwd (system.state.files files).pwd fun node => tally system.live (pwds moved) node + system.held node := by
        funext node
        have changed : _ + _ = tally system.live (pwds system.state) node + _ := tally_change live movedPwds
        rw [here] at changed
        simp only [plusPwd, pwds] at changed ⊢
        omega
      rw [exchanged] at isMoved
      obtain ⟨next, dropped, sameFiles, kept⟩ := isMoved.dropPwd_exact
      have isDropped : dropPwd moved (system.state.files files).pwd = some next := dropped
      have sameCount : ∀ table, (next.files table).filesCount = (system.state.files table).filesCount := by
        intro table
        rw [sameFiles]
        by_cases same : table = files
        · simp [moved, FileState.setFiles, same, taken', takenFiles]
        · simp [moved, FileState.setFiles, same, taken', takenFiles]
      refine ⟨{ system with state := next }, ?_, { invariant with consistent := ?_, counts := ?_ },
        balances_same rfl rfl rfl sameCount⟩
      · simp only [moved, taken'] at isDropped
        simp [isDropped]
      · have samePwds : pwds next = pwds moved := by
          funext table
          simp only [pwds, sameFiles]
        simpa only [samePwds] using kept
      · intro table inside
        simpa only [sameCount] using invariant.counts table inside

omit [DecidableEq T] in
/-- No call uses or fills a slot of a table that no process has. -/
theorem FileInvariant.quiet {processes : Finset T} {files : F} (invariant : FileInvariant system)
    (subset : processes ⊆ system.processes)
    (unowned : ∀ process ∈ processes, system.filesp process ≠ some files) (fd : Nat) :
    tally processes (slotUsed system.doing) (files, fd) = 0 ∧
      tally processes (slotFilled system.doing) (files, fd) = 0 := by
  constructor
  · apply tally_eq_zero.mpr
    intro process member uses
    exact unowned process member (invariant.busy process (subset member) _ (Or.inl uses)).1
  · apply tally_eq_zero.mpr
    intro process member fills
    exact unowned process member (invariant.busy process (subset member) _ (Or.inr fills)).1

omit [DecidableEq N] in
/-- A new process sleeps in nothing. -/
theorem FileInvariant.child_quiet {child : T} (fresh : child ∉ system.processes) :
    tally (insert child system.processes) (slotUsed (Function.update system.doing child none)) =
        tally system.processes (slotUsed system.doing) ∧
      tally (insert child system.processes) (slotFilled (Function.update system.doing child none)) =
        tally system.processes (slotFilled system.doing) := by
  have different : ∀ process ∈ system.processes, process ≠ child := fun process member same =>
    fresh (same ▸ member)
  constructor
  · funext slot
    rw [tally_insert fresh]
    have silent : slotUsed (Function.update system.doing child none) child = none := by simp [slotUsed]
    rw [silent, hit_none, Nat.add_zero]
    exact tally_congr fun process member => slotUsed_elsewhere (different process member)
  · funext slot
    rw [tally_insert fresh]
    have silent : slotFilled (Function.update system.doing child none) child = none := by simp [slotFilled]
    rw [silent, hit_none, Nat.add_zero]
    exact tally_congr fun process member => slotFilled_elsewhere (different process member)

omit [DecidableEq N] in
/-- A new process adds one to the processes of its table. -/
theorem tally_child {child : T} {files : F} (fresh : child ∉ system.processes) (table : F) :
    tally (insert child system.processes) (Function.update system.filesp child (some files)) table =
      tally system.processes system.filesp table + hit (some files) table := by
  rw [tally_insert fresh, Function.update_self]
  congr 1
  refine tally_congr fun process member => Function.update_of_ne ?_ _ _
  rintro rfl
  exact fresh member

omit [DecidableEq N] in
/-- A new process whose table counts it. -/
theorem balances_forked {child : T} {files : F} {live : Finset F} (fresh : child ∉ system.processes)
    (counts : ∀ table ∈ live, (next.files table).filesCount = (if table ∈ system.live then
      (system.state.files table).filesCount else tally system.processes system.filesp table) + hit (some files) table) :
    Balances system ({ system with
      state := next
      processes := insert child system.processes
      filesp := Function.update system.filesp child (some files)
      live }.sleep child none) := by
  intro table inside
  have counted := counts table inside
  have added : tally (insert child system.processes) (Function.update system.filesp child (some files)) table = _ :=
    tally_child fresh table
  simp only [FileSystem.excess, FileSystem.sleep, added]
  split at counted
  case isTrue old =>
    simp only [old, if_true]
    push_cast
    omega
  case isFalse new =>
    simp only [new, if_false]
    push_cast
    omega

/-- A new process with a table. Its table counts it; the other tables have the
processes they had. -/
theorem FileInvariant.forked (invariant : FileInvariant system) {child : T} {files : F} {live : Finset F}
    (fresh : child ∉ system.processes) (subset : system.live ⊆ live) (inside : files ∈ live)
    (kept : Consistent next live (tally system.processes (slotUsed system.doing))
      (tally system.processes (slotFilled system.doing)) fun node => tally live (pwds next) node + system.held node)
    (counts : ∀ table ∈ live, 0 < (next.files table).filesCount ∧
      (tally system.processes system.filesp table + hit (some files) table : Int) ≤ (next.files table).filesCount) :
    FileInvariant ({ system with
      state := next
      processes := insert child system.processes
      filesp := Function.update system.filesp child (some files)
      live }.sleep child none) := by
  have different : ∀ process ∈ system.processes, process ≠ child := fun process member same =>
    fresh (same ▸ member)
  obtain ⟨used, filled⟩ := FileInvariant.child_quiet fresh
  constructor
  · simpa only [FileSystem.sleep, used, filled] using kept
  · intro process member
    rcases Finset.mem_insert.mp member with rfl | old
    · exact ⟨files, inside, by simp [FileSystem.sleep]⟩
    · obtain ⟨table, live, own⟩ := invariant.tables process old
      exact ⟨table, subset live, by simpa [FileSystem.sleep, different process old] using own⟩
  · intro table live
    obtain ⟨positive, bound⟩ := counts table live
    refine ⟨positive, ?_⟩
    simp only [FileSystem.sleep, tally_child fresh]
    omega
  · intro process member slot uses
    rcases Finset.mem_insert.mp member with rfl | old
    · simp [FileSystem.sleep, slotUsed, slotFilled] at uses
    · have notChild := different process old
      simp only [FileSystem.sleep, slotUsed_elsewhere notChild, slotFilled_elsewhere notChild] at uses
      obtain ⟨own, inSlots⟩ := invariant.busy process old slot uses
      obtain ⟨inLive, small⟩ := mem_slots.mp inSlots
      exact ⟨by simpa [FileSystem.sleep, notChild] using own, mem_slots.mpr ⟨subset inLive, small⟩⟩

theorem fork_exact (invariant : FileInvariant system) {child : T} {copy : Option F}
    (legal : FileLegal system (.fork process child copy)) :
    ∃ after, fileStep system (.fork process child copy) = some after ∧ FileInvariant after ∧
      Balances system after := by
  obtain ⟨member, _, fresh, freshTable⟩ := legal
  obtain ⟨source, live, own, counted⟩ := invariant.table member
  cases copy with
  | none =>
    have inserted : insert source system.live = system.live := Finset.insert_eq_of_mem live
    simp only [fileStep, own, copyFiles, Option.bind_eq_bind, Option.bind_some, inserted]
    refine ⟨_, rfl, invariant.forked fresh subset_rfl live ?_ ?_, balances_forked fresh ?_⟩
    · have samePwds : pwds (filesCountInc system.state source) = pwds system.state := by
        funext table
        by_cases same : table = source
        · simp [pwds, filesCountInc, FileState.setFiles, same]
        · simp [pwds, filesCountInc, FileState.setFiles, same]
      rw [samePwds]
      exact invariant.consistent.setFiles source _ fun _ => rfl
    · intro table inside
      obtain ⟨positive, bound⟩ := invariant.counts table inside
      by_cases same : table = source
      · subst same
        simp [filesCountInc, FileState.setFiles]
        omega
      · simp [filesCountInc, FileState.setFiles, same, Ne.symm same]
        omega
    · intro table inside
      by_cases same : table = source
      · simp [filesCountInc, FileState.setFiles, same, live]
      · simp [filesCountInc, FileState.setFiles, same, Ne.symm same, inside]
  | some files =>
    have new := freshTable files rfl
    have unowned : ∀ process ∈ system.processes, system.filesp process ≠ some files := by
      intro other inside names
      obtain ⟨table, inLive, isTable⟩ := invariant.tables other inside
      exact new (Option.some.inj (names.symm.trans isTable) ▸ inLive)
    obtain ⟨next, copied, kept, pwd, count, elsewhere⟩ := invariant.consistent.copy_exact live counted new
      fun fd _ => invariant.quiet subset_rfl unowned fd
    simp only [fileStep, own, copied, Option.bind_eq_bind, Option.bind_some]
    refine ⟨_, rfl, invariant.forked fresh (Finset.subset_insert _ _) (Finset.mem_insert_self _ _) ?_ ?_,
      balances_forked fresh ?_⟩
    · have others : (fun node => tally (insert files system.live) (pwds next) node + system.held node) =
          plusPwd (system.state.files source).pwd
            fun node => tally system.live (pwds system.state) node + system.held node := by
        funext node
        have old : tally system.live (pwds next) node = tally system.live (pwds system.state) node :=
          tally_congr fun table inLive => (elsewhere table fun same => new (same ▸ inLive)).1
        rw [tally_insert new, old]
        simp only [plusPwd, pwds, pwd]
        omega
      rw [others]
      exact kept
    · intro table inside
      rcases Finset.mem_insert.mp inside with rfl | old
      · rw [count, tally_eq_zero.mpr unowned]
        simp
      · have notNew : table ≠ files := fun same => new (same ▸ old)
        obtain ⟨positive, bound⟩ := invariant.counts table old
        rw [(elsewhere table notNew).2]
        simp [Ne.symm notNew]
        omega
    · intro table inside
      rcases Finset.mem_insert.mp inside with rfl | old
      · simp [count, new, tally_eq_zero.mpr unowned]
      · have notNew : table ≠ files := fun same => new (same ▸ old)
        simp [(elsewhere table notNew).2, old, Ne.symm notNew]

omit [DecidableEq N] in
/-- A process that sleeps in nothing may go. -/
theorem leaver_quiet (member : process ∈ system.processes) (idle : system.doing process = none) :
    tally (system.processes.erase process) (slotUsed system.doing) =
        tally system.processes (slotUsed system.doing) ∧
      tally (system.processes.erase process) (slotFilled system.doing) =
        tally system.processes (slotFilled system.doing) := by
  constructor
  · funext slot
    have erased : _ = tally system.processes (slotUsed system.doing) slot := tally_erase member
    simpa [slotUsed, idle] using erased
  · funext slot
    have erased : _ = tally system.processes (slotFilled system.doing) slot := tally_erase member
    simpa [slotFilled, idle] using erased

/-- A process goes, and with it perhaps a table that no other process has. -/
theorem FileInvariant.exited (invariant : FileInvariant system) {live : Finset F}
    (member : process ∈ system.processes) (idle : system.doing process = none)
    (owners : ∀ other ∈ system.processes.erase process, ∀ files, system.filesp other = some files → files ∈ live)
    (kept : Consistent next live (tally system.processes (slotUsed system.doing))
      (tally system.processes (slotFilled system.doing)) fun node => tally live (pwds next) node + system.held node)
    (counts : ∀ table ∈ live, 0 < (next.files table).filesCount ∧
      (tally (system.processes.erase process) system.filesp table : Int) ≤ (next.files table).filesCount) :
    FileInvariant { system with state := next, processes := system.processes.erase process, live } := by
  obtain ⟨used, filled⟩ := leaver_quiet member idle
  constructor
  · simpa only [used, filled] using kept
  · intro other remaining
    obtain ⟨files, _, own⟩ := invariant.tables other (Finset.mem_of_mem_erase remaining)
    exact ⟨files, owners other remaining files own, own⟩
  · exact counts
  · intro other remaining slot uses
    obtain ⟨own, inSlots⟩ := invariant.busy other (Finset.mem_of_mem_erase remaining) slot uses
    exact ⟨own, mem_slots.mpr ⟨owners other remaining _ own, (mem_slots.mp inSlots).2⟩⟩

theorem exit_exact (invariant : FileInvariant system) {mm : Bool} (legal : FileLegal system (.exit process mm)) :
    ∃ after, fileStep system (.exit process mm) = some after ∧ FileInvariant after ∧
      (mm = true → Balances system after) := by
  obtain ⟨member, idle⟩ := legal
  obtain ⟨files, live, own, counted⟩ := invariant.table member
  have stillLive : ∀ other ∈ system.processes.erase process, ∀ table, system.filesp other = some table →
      table ∈ system.live := by
    intro other remaining table names
    obtain ⟨isTable, inLive, isOwn⟩ := invariant.tables other (Finset.mem_of_mem_erase remaining)
    exact Option.some.inj (isOwn.symm.trans names) ▸ inLive
  have erased : ∀ table, tally (system.processes.erase process) system.filesp table + hit (some files) table =
      tally system.processes system.filesp table := fun table => own ▸ tally_erase member
  cases mm with
  | false =>
    refine ⟨_, rfl, invariant.exited member idle stillLive invariant.consistent ?_, by simp⟩
    intro table inside
    obtain ⟨positive, bound⟩ := invariant.counts table inside
    have fewer := erased table
    exact ⟨positive, by omega⟩
  | true =>
    let dropped := system.state.setFiles files
      { system.state.files files with filesCount := (system.state.files files).filesCount - 1 }
    have isDropped := invariant.consistent.setFiles files
      { system.state.files files with filesCount := (system.state.files files).filesCount - 1 } fun _ => rfl
    have droppedFiles : ∀ table, (dropped.files table).pwd = (system.state.files table).pwd ∧
        (dropped.files table).filesCount = (system.state.files table).filesCount - hit (some files) table := by
      intro table
      by_cases same : table = files
      · simp [dropped, FileState.setFiles, same]
      · simp [dropped, FileState.setFiles, same, Ne.symm same]
    have droppedPwds : pwds dropped = pwds system.state := by
      funext table
      exact (droppedFiles table).1
    have balanced : ∀ (next : FileState F N) (live : Finset F), live ⊆ system.live →
        (∀ table, (next.files table).filesCount = (dropped.files table).filesCount) →
        Balances system { system with state := next, processes := system.processes.erase process, live } := by
      intro next live fewer counts table inside
      have others := erased table
      simp only [FileSystem.excess, fewer inside, if_true, counts, (droppedFiles table).2]
      omega
    rw [← droppedPwds] at isDropped
    by_cases last : (system.state.files files).filesCount - 1 = 0
    · have unowned : tally (system.processes.erase process) system.filesp files = 0 := by
        have fewer := erased files
        have bound := (invariant.counts files live).2
        simp only [hit_some, if_true] at fewer
        omega
      have foreign : ∀ other ∈ system.processes.erase process, system.filesp other ≠ some files :=
        tally_eq_zero.mp unowned
      have quiet := invariant.quiet (Finset.erase_subset _ _) foreign
      obtain ⟨used, filled⟩ := leaver_quiet member idle
      simp only [used, filled] at quiet
      have split : (fun node => tally system.live (pwds dropped) node + system.held node) =
          plusPwd (dropped.files files).pwd
            fun node => tally (system.live.erase files) (pwds dropped) node + system.held node := by
        funext node
        have fewer : _ = tally system.live (pwds dropped) node := tally_erase live
        simp only [plusPwd, pwds] at fewer ⊢
        omega
      rw [split] at isDropped
      have unused : (dropped.files files).filesCount = 0 := by
        simp [(droppedFiles files).2, last]
      obtain ⟨next, destroyed, same, kept⟩ := isDropped.destroy_exact live unused fun fd _ => quiet fd
      refine ⟨{ system with
        state := next, processes := system.processes.erase process, live := system.live.erase files }, ?_, ?_,
        fun _ => balanced _ _ (Finset.erase_subset _ _) fun table => (same table).2⟩
      · have put : putFiles system.state (some files) = some next := (if_pos last).trans destroyed
        simp [fileStep, own, put, last]
      · apply invariant.exited member idle
        · intro other remaining table names
          apply Finset.mem_erase.mpr
          constructor
          · rintro rfl
            exact foreign other remaining names
          · exact stillLive other remaining table names
        · have samePwds : pwds next = pwds dropped := by
            funext table
            exact (same table).1
          rw [samePwds]
          exact kept
        · intro table inside
          obtain ⟨different, inLive⟩ := Finset.mem_erase.mp inside
          obtain ⟨positive, bound⟩ := invariant.counts table inLive
          have fewer := erased table
          rw [(same table).2, (droppedFiles table).2]
          simp only [hit_some, Ne.symm different, if_false] at fewer ⊢
          omega
    · refine ⟨{ system with state := dropped, processes := system.processes.erase process }, ?_, ?_,
        fun _ => balanced _ _ subset_rfl fun _ => rfl⟩
      · have put : putFiles system.state (some files) = some dropped := if_neg last
        simp [fileStep, own, put, last]
      · apply invariant.exited member idle stillLive isDropped
        intro table inside
        obtain ⟨positive, bound⟩ := invariant.counts table inside
        have fewer := erased table
        rw [(droppedFiles table).2]
        refine ⟨?_, by omega⟩
        by_cases same : table = files
        · subst same
          simp
          omega
        · simp [Ne.symm same]
          omega

/-- The operation is not the exit of a process without an address space, which keeps its
table. -/
def Releases : FileOperation T F N → Prop
  | .exit _ mm => mm = true
  | _ => True

/-- The release of a result that balances in any case. -/
theorem always_balances {operation : FileOperation T F N}
    (result : ∃ after, fileStep system operation = some after ∧ FileInvariant after ∧ Balances system after) :
    ∃ after, fileStep system operation = some after ∧ FileInvariant after ∧
      (Releases operation → Balances system after) := by
  obtain ⟨after, taken, kept, balances⟩ := result
  exact ⟨after, taken, kept, fun _ => balances⟩

/-- Every operation finds its assertions true and keeps the counts. -/
theorem fileStep_exact (invariant : FileInvariant system) (operation : FileOperation T F N)
    (legal : FileLegal system operation) :
    ∃ after, fileStep system operation = some after ∧ FileInvariant after ∧
      (Releases operation → Balances system after) := by
  cases operation with
  | openBegin process openFlags => exact always_balances (openBegin_exact invariant legal)
  | openEnd process opened fstat => exact always_balances (openEnd_exact invariant legal)
  | close process fd => exact always_balances (close_exact invariant legal)
  | readBegin process fd => exact always_balances (invariant.enter_exact legal.1 legal.2 fd _ fun _ _ => .read)
  | writeBegin process fd => exact always_balances (invariant.enter_exact legal.1 legal.2 fd _ fun _ _ => .write)
  | seekBegin process fd pos whence fstat =>
    exact always_balances (invariant.enter_exact legal.1 legal.2 fd _ fun state slot =>
      .seek (seekTarget (state.file slot) pos whence fstat))
  | fsyncBegin process fd => exact always_balances (invariant.enter_exact legal.1 legal.2 fd _ fun _ _ => .fsync)
  | callEnd process copied tryseek => exact always_balances (callEnd_exact invariant legal)
  | dup process fd1 fd2 => exact always_balances (dup_exact invariant legal)
  | closeall process => exact always_balances (closeall_exact invariant legal)
  | fork process child copy => exact always_balances (fork_exact invariant legal)
  | exit process mm => exact exit_exact invariant legal
  | chdir process dir ret => exact always_balances (chdir_exact invariant legal)
  | refInc node => exact always_balances (refInc_exact invariant node)
  | refDec node => exact always_balances (refDec_exact invariant legal)

/-- `proc_init` makes the table of the first process; no file is open, and the rest of
the kernel holds the references there are. -/
def bootFiles (memory : F → FilesStruct N) (held : N → Nat) (idleproc : T) (files : F) : FileSystem T F N where
  state := filesCountInc (filesCreate
    { files := memory
      inodes := fun node => { refCount := held node, openCount := 0 }
      opened := 0
      ended := [] } files) files
  processes := {idleproc}
  filesp := fun _ => some files
  doing := fun _ => none
  live := {files}
  held := held

omit [DecidableEq T] in
theorem bootFiles_exact (memory : F → FilesStruct N) (held : N → Nat) (idleproc : T) (files : F) :
    FileInvariant (bootFiles memory held idleproc files) := by
  let before : FileState F N :=
    { files := memory, inodes := fun node => { refCount := held node, openCount := 0 }, opened := 0, ended := [] }
  have nothing : Consistent before ∅ (fun _ => 0) (fun _ => 0) held := by
    constructor
    · intro slot member
      simp [slots] at member
    · simp [slots, tally, before]
    · simp [slots, tally, before]
    · simp [slots, tally, before, issued]
  have created : Consistent (filesCreate before files) {files} (fun _ => 0) (fun _ => 0) held :=
    (nothing.setFiles files _ fun inside => absurd inside (Finset.notMem_empty _)).withNew
      (fun fd _ => by simp [FileState.file, FileState.setFiles]) fun _ _ => ⟨rfl, rfl⟩
  have counted := created.setFiles files
    { (filesCreate before files).files files with filesCount := 1 } fun _ => rfl
  constructor
  · have used : tally {idleproc} (slotUsed fun _ : T => (none : Option (Activity F))) = fun _ => 0 := by
      funext slot
      simp [tally, slotUsed]
    have filled : tally {idleproc} (slotFilled fun _ : T => (none : Option (Activity F))) = fun _ => 0 := by
      funext slot
      simp [tally, slotFilled]
    have others : (fun node => tally {files} (pwds (bootFiles memory held idleproc files).state) node + held node) =
        held := by
      funext node
      simp [tally, pwds, bootFiles, filesCountInc, filesCreate, FileState.setFiles]
    simp only [bootFiles] at others ⊢
    rw [used, filled, others]
    simpa [filesCountInc, filesCreate, FileState.setFiles, before] using counted
  · exact fun _ _ => ⟨files, Finset.mem_singleton_self _, rfl⟩
  · intro table member
    obtain rfl := Finset.mem_singleton.mp member
    simp [bootFiles, tally, filesCountInc, filesCreate, FileState.setFiles]
  · intro process _ slot uses
    simp [bootFiles, slotUsed, slotFilled] at uses

/-- What the counts of a state say. `FD_NONE` is the status of slots without a user, and
what `vfs_close` has not ended is in exactly one slot. -/
structure FileCounts (system : FileSystem T F N) : Prop where
  opens : ∀ node, (system.state.inodes node).openCount = tally (slots system.live) system.state.names node
  refs : ∀ node, (system.state.inodes node).openCount ≤ (system.state.inodes node).refCount
  holders : ∀ slot ∈ slots system.live, (system.state.file slot).openCount =
    (if (system.state.file slot).status = .opened then 1 else 0) +
      tally system.processes (slotUsed system.doing) slot
  used : ∀ slot ∈ slots system.live, 0 < (system.state.file slot).openCount ↔
    (system.state.file slot).status = .opened ∨ (system.state.file slot).status = .closed
  once : ∀ opening < system.state.opened,
    system.state.ended.count opening + tally (slots system.live) system.state.holds opening = 1
  ended : ∀ opening ∈ system.state.ended, opening < system.state.opened

omit [DecidableEq T] in
theorem FileInvariant.fileCounts (invariant : FileInvariant system) : FileCounts system where
  opens := invariant.consistent.opens
  refs := by
    intro node
    have opens := invariant.consistent.opens node
    have refs := invariant.consistent.refs node
    omega
  holders := fun slot member => (invariant.consistent.slot slot member).count
  used := by
    intro slot member
    have ok := invariant.consistent.slot slot member
    have count := ok.count
    constructor
    · intro positive
      by_cases opened : (system.state.file slot).status = .opened
      · exact Or.inl opened
      · simp only [opened, if_false] at count
        exact ok.used (by omega)
    · rintro (opened | closed)
      · simp only [opened, if_true] at count
        omega
      · have users := ok.closing closed
        omega
  once := by
    intro opening begun
    have history := invariant.consistent.history opening
    simp only [issued, begun, if_true] at history
    omega
  ended := by
    intro opening member
    have history := invariant.consistent.history opening
    have positive := List.count_pos_iff.mpr member
    by_contra late
    simp only [issued, late, if_false] at history
    omega

/-- In every run the counts of open files are exact, and no assertion fails. -/
theorem file_counts_exact (memory : F → FilesStruct N) (held : N → Nat) (idleproc : T) (files : F)
    (system : FileSystem T F N)
    (reached : Reaches fileStep FileLegal (bootFiles memory held idleproc files) system) :
    FileCounts system ∧ ∀ operation, FileLegal system operation →
      ∃ after, fileStep system operation = some after ∧ FileCounts after := by
  have invariant : FileInvariant system := by
    refine reached.invariant (bootFiles_exact memory held idleproc files) ?_
    intro state operation next keeps legal taken
    obtain ⟨after, isAfter, kept, _⟩ := fileStep_exact keeps operation legal
    exact Option.some.inj (isAfter.symm.trans taken) ▸ kept
  refine ⟨invariant.fileCounts, ?_⟩
  intro operation legal
  obtain ⟨after, taken, kept, _⟩ := fileStep_exact invariant operation legal
  exact ⟨after, taken, kept.fileCounts⟩

/-- Process 0 opens inode 7, process 1 copies its table and process 2 shares it. The
descriptor is closed while process 0 reads, process 1 duplicates its copy, and process
2 exits. -/
def closeDuringRead : List (FileOperation Nat Nat Nat) :=
  [.openBegin 0 oRdwr, .openEnd 0 (.ok 7) (.ok 0), .fork 0 1 (some 1), .fork 0 2 none, .readBegin 0 0,
    .close 2 0, .dup 1 0 noFd, .exit 2 true, .callEnd 0 512 0]

/-- The inode stays open twice after that run, for the two descriptors of process 1. -/
theorem file_counts_exact_close_during_read :
    ∃ system, Reaches fileStep FileLegal
        (bootFiles (fun _ => { pwd := none, fdArray := fdArrayInit, filesCount := 0 }) (fun _ => 0) 0 0) system ∧
      system.state.inodes 7 = { refCount := 2, openCount := 2 } ∧ system.state.ended = [0] ∧
      FileCounts system := by
  have completed : (run (guarded fileStep fun system operation => decide (FileLegal system operation))
      closeDuringRead (bootFiles (fun _ => { pwd := none, fdArray := fdArrayInit, filesCount := 0 })
        (fun _ => 0) 0 0)).map (fun system => (system.state.inodes 7, system.state.ended)) =
      some ({ refCount := 2, openCount := 2 }, [0]) := by
    decide +kernel
  obtain ⟨system, last, counts⟩ := Option.map_eq_some_iff.mp completed
  obtain ⟨inode, ended⟩ := Prod.mk.inj counts
  have reached := guarded_reaches (fun _ _ => of_decide_eq_true) _ _ _ last
  exact ⟨system, reached, inode, ended, (file_counts_exact _ _ _ _ system reached).1⟩

end Ucore.Fs
