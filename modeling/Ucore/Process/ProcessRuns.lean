import Ucore.Library.Transition
import Ucore.Process.ProcessTree
import Ucore.Schedule.DefaultSched

/-!
# Runs of the process table

Processes fork, exit and reap their children in any order; the scheduler and the
sleeping primitives do anything in between that neither kills nor revives a
process. A process is unreaped from its fork until a `do_wait` removes it, and
exited from the loop of its `do_exit` on.
-/

namespace Ucore.Process

open CircularList EmbeddedList SiblingChain Schedule Transition

universe u
variable {P Q : Type u} [DecidableEq P]

/-- All operations but the last one are calls by the running process. -/
inductive ProcOperation (P Q : Type u) where
  | fork (child : P) (fields : Proc)
  | exit
  | wait (target : WaitTarget P)
  | elsewhere (kernel : Kernel P Q)

/-- The table, the processes forked and not reaped, and those of them that exited. -/
structure ProcSystem (P Q : Type u) where
  table : ProcTable P Q
  unreaped : Finset P
  exited : Finset P

variable (schedClass : SchedClass P Q) (idleproc initproc : P)

/-- The relation links when `proc_init` creates `initproc`: `idleproc` runs, has no
relatives and is not in the list, but counts as a process. -/
def idleTable (memory : ProcTable P Q) : ProcTable P Q where
  kernel := { memory.kernel.setProc idleproc { memory.kernel.procs idleproc with state := .runnable } with
    current := some idleproc }
  parent := Function.update memory.parent idleproc none
  cptr := Function.update memory.cptr idleproc none
  yptr := Function.update memory.yptr idleproc none
  optr := Function.update memory.optr idleproc none
  links := listInit memory.links .head
  nrProcess := 1

/-- `proc_init` on an arbitrary memory. -/
def procInit (memory : ProcTable P Q) (fields : Proc) : Option (ProcSystem P Q) := do
  let (_, table) ← doFork (idleTable idleproc memory) initproc fields
  some { table, unreaped := {initproc, idleproc}, exited := ∅ }

/-- One operation; `none` is a panic, or a failed assertion of the class. -/
def procStep (system : ProcSystem P Q) : ProcOperation P Q → Option (ProcSystem P Q)
  | .fork child fields => do
      let (created, table) ← doFork system.table child fields
      match created with
      | some child => some { system with table, unreaped := insert child system.unreaped }
      | none => some { system with table }
  | .exit => do
      let current ← system.table.kernel.current
      let table ← doExit schedClass idleproc initproc system.table
      some { system with table, exited := insert current system.exited }
  | .wait target => do
      let (result, table) ← doWait idleproc initproc system.table target
      match result with
      | .reaped proc =>
          some { table, unreaped := system.unreaped.erase proc, exited := system.exited.erase proc }
      | _ => some { system with table }
  | .elsewhere kernel => some { system with table := { system.table with kernel } }

/-- The running process is one that has not exited. -/
def ProcSystem.Running (system : ProcSystem P Q) : Prop :=
  ∃ current ∈ system.unreaped, system.table.kernel.current = some current ∧ current ∉ system.exited

/-- A new process is in memory that no unreaped one uses and is not made a zombie;
`find_proc` finds unreaped processes only. An exited process does not run again. -/
def ProcLegal (system : ProcSystem P Q) : ProcOperation P Q → Prop
  | .fork child fields => system.Running ∧ child ∉ system.unreaped ∧ fields.state ≠ .zombie
  | .exit => system.Running
  | .wait target => system.Running ∧ target.Known system.unreaped
  | .elsewhere kernel =>
      ∀ proc ∈ system.unreaped, isZombie kernel proc ↔ isZombie system.table.kernel proc

instance (system : ProcSystem P Q) : Decidable system.Running :=
  inferInstanceAs (Decidable (∃ current ∈ system.unreaped, _ ∧ _))

instance (system : ProcSystem P Q) : ∀ operation, Decidable (ProcLegal system operation)
  | .fork _ _ => inferInstanceAs (Decidable (_ ∧ _ ∧ _))
  | .exit => inferInstanceAs (Decidable system.Running)
  | .wait _ => inferInstanceAs (Decidable (_ ∧ _))
  | .elsewhere _ => inferInstanceAs (Decidable (∀ proc ∈ system.unreaped, _))

/-- The tree and the list of the unreaped processes. -/
structure TreeInvariant (system : ProcSystem P Q) (procList : List P) (children : P → List P) : Prop where
  kinship : Kinship system.table system.unreaped system.unreaped (fun _ => none) children
  ring : Ring system.table.links .head (procList.map .link)
  listed : ∀ proc, proc ∈ procList ↔ proc ∈ system.unreaped ∧ proc ≠ idleproc
  distinct : procList.Nodup
  count : system.table.nrProcess = procList.length + 1
  parents : ∀ proc ∈ system.unreaped, proc ≠ idleproc →
    ∃ parent ∈ system.unreaped, system.table.parent proc = some parent ∧ parent ∉ system.exited
  root : system.table.parent idleproc = none
  kept : ∀ proc, proc = idleproc ∨ proc = initproc → proc ∈ system.unreaped ∧ proc ∉ system.exited
  subset : system.exited ⊆ system.unreaped
  zombies : ∀ proc ∈ system.unreaped, isZombie system.table.kernel proc ↔ proc ∈ system.exited

variable {schedClass idleproc initproc}
variable {system next : ProcSystem P Q} {procList : List P} {children : P → List P}

/-- No unreaped process names an exited one as its parent. -/
theorem TreeInvariant.parent_alive (tree : TreeInvariant idleproc initproc system procList children)
    {proc parent : P} (member : proc ∈ system.unreaped) (own : system.table.parent proc = some parent) :
    parent ∈ system.unreaped ∧ parent ∉ system.exited := by
  by_cases same : proc = idleproc
  · rw [same, tree.root] at own
    cases own
  · obtain ⟨alive, inside, named, running⟩ := tree.parents proc member same
    obtain rfl := Option.some.inj (named.symm.trans own)
    exact ⟨inside, running⟩

/-- The tree after a new process has been linked behind a live one. -/
theorem TreeInvariant.forked (tree : TreeInvariant idleproc initproc system procList children)
    {table : ProcTable P Q} {child current : P} {fields : Proc} {grown : P → List P}
    (inside : current ∈ system.unreaped) (alive : current ∉ system.exited) (fresh : child ∉ system.unreaped)
    (notExited : child ∉ system.exited) (live : fields.state ≠ .zombie)
    (kinship : Kinship table (insert child system.unreaped) (insert child system.unreaped) (fun _ => none) grown)
    (ring : Ring table.links .head ((child :: procList).map .link))
    (count : table.nrProcess = system.table.nrProcess + 1)
    (kernel : table.kernel = system.table.kernel.setProc child fields)
    (parents : table.parent = Function.update system.table.parent child (some current)) :
    TreeInvariant idleproc initproc { system with table, unreaped := insert child system.unreaped }
      (child :: procList) grown := by
  have different : ∀ proc ∈ system.unreaped, proc ≠ child := fun proc member same => fresh (same ▸ member)
  have notIdle : child ≠ idleproc := (different idleproc (tree.kept idleproc (Or.inl rfl)).1).symm
  exact {
    kinship
    ring
    listed := by
      intro proc
      rw [List.mem_cons, tree.listed proc, Finset.mem_insert]
      constructor
      · rintro (rfl | ⟨member, other⟩)
        · exact ⟨Or.inl rfl, notIdle⟩
        · exact ⟨Or.inr member, other⟩
      · rintro ⟨rfl | member, other⟩
        · exact Or.inl rfl
        · exact Or.inr ⟨member, other⟩
    distinct := List.nodup_cons.mpr ⟨fun member => fresh ((tree.listed child).mp member).1, tree.distinct⟩
    count := by
      rw [count, tree.count]
      simp
    parents := by
      intro proc member other
      simp only [parents]
      rcases Finset.mem_insert.mp member with rfl | old
      · exact ⟨current, Finset.mem_insert_of_mem inside, by simp, alive⟩
      · obtain ⟨parent, parentInside, own, running⟩ := tree.parents proc old other
        refine ⟨parent, Finset.mem_insert_of_mem parentInside, ?_, running⟩
        rw [Function.update_of_ne (different proc old), own]
    root := by simpa only [parents, Function.update_of_ne notIdle.symm] using tree.root
    kept := fun proc isKept => ⟨Finset.mem_insert_of_mem (tree.kept proc isKept).1, (tree.kept proc isKept).2⟩
    subset := fun proc member => Finset.mem_insert_of_mem (tree.subset member)
    zombies := by
      intro proc member
      simp only [kernel, isZombie, Kernel.setProc_procs]
      rcases Finset.mem_insert.mp member with rfl | old
      · simp [live, notExited]
      · rw [if_neg (different proc old)]
        exact tree.zombies proc old }

/-- Fork keeps the tree. -/
theorem fork_keeps {child : P} {fields : Proc} (tree : TreeInvariant idleproc initproc system procList children)
    (legal : ProcLegal system (.fork child fields))
    (taken : procStep schedClass idleproc initproc system (.fork child fields) = some next) :
    ∃ procList children, TreeInvariant idleproc initproc next procList children := by
  obtain ⟨⟨current, inside, running, alive⟩, fresh, live⟩ := legal
  obtain ⟨⟨created, table⟩, forked, finished⟩ := Option.bind_eq_some_iff.mp taken
  have outside : child ∉ procList := fun member => fresh ((tree.listed child).mp member).1
  have unowned : ∀ proc ∈ system.unreaped, system.table.parent proc ≠ some child :=
    fun proc member own => fresh (tree.parent_alive member own).1
  rcases doFork_exact tree.kinship tree.ring running inside fresh outside unowned forked with
    ⟨_, rfl, rfl⟩ | ⟨rfl, ⟨grown, kinship⟩, ring, count, kernel, parents⟩
  · obtain rfl := Option.some.inj finished
    exact ⟨procList, children, tree⟩
  · obtain rfl := Option.some.inj finished
    have notExited : child ∉ system.exited := fun member => fresh (tree.subset member)
    exact ⟨_, grown, tree.forked inside alive fresh notExited live kinship ring count kernel parents⟩

omit [DecidableEq P] in
/-- A process has fewer children than the bound on the rounds of a walk. -/
theorem TreeInvariant.children_short (tree : TreeInvariant idleproc initproc system procList children)
    {proc : P} (member : proc ∈ system.unreaped) :
    (children proc).length < system.table.nrProcess.toNat + 1 := by
  have inside : (children proc) ⊆ procList := by
    intro child isChild
    obtain ⟨listed, own⟩ := (tree.kinship.owned proc member child).mp isChild
    refine (tree.listed child).mpr ⟨listed, ?_⟩
    rintro rfl
    exact absurd (own.symm.trans tree.root) (by simp)
  have bound := (List.subperm_of_subset (tree.kinship.distinct proc member) inside).length_le
  have count := tree.count
  omega

/-- Exit keeps the tree: no child of the exited process is left with it. -/
theorem exit_keeps (keeps : schedClass.Keeps)
    (tree : TreeInvariant idleproc initproc system procList children) (legal : ProcLegal system .exit)
    (taken : procStep schedClass idleproc initproc system .exit = some next) :
    ∃ children, TreeInvariant idleproc initproc next procList children := by
  obtain ⟨current, inside, running, alive⟩ := legal
  simp only [procStep, running, Option.bind_eq_bind, Option.bind_some] at taken
  obtain ⟨table, exited, finished⟩ := Option.bind_eq_some_iff.mp taken
  obtain rfl := Option.some.inj finished
  obtain ⟨⟨notIdle, notInit⟩, ⟨left, kinship, childless⟩, links, count, zombies, parents⟩ :=
    doExit_exact keeps tree.kinship running inside (tree.kept initproc (Or.inr rfl)).1
      (tree.children_short inside) exited
  exact ⟨left, {
    kinship
    ring := by simpa only [links] using tree.ring
    listed := tree.listed
    distinct := tree.distinct
    count := by rw [count, tree.count]
    parents := by
      intro proc member other
      obtain ⟨parent, parentInside, own, parentAlive⟩ := tree.parents proc member other
      rcases parents proc with same | ⟨_, adopted⟩
      · refine ⟨parent, parentInside, same.trans own, ?_⟩
        have notCurrent : parent ≠ current := by
          rintro rfl
          have isChild := (kinship.owned parent inside proc).mpr ⟨member, same.trans own⟩
          simp [childless] at isChild
        simp [notCurrent, parentAlive]
      · obtain ⟨initInside, initAlive⟩ := tree.kept initproc (Or.inr rfl)
        exact ⟨initproc, initInside, adopted, by simp [Ne.symm notInit, initAlive]⟩
    root := by
      rcases parents idleproc with same | ⟨wrong, _⟩
      · exact same.trans tree.root
      · exact absurd (wrong.symm.trans tree.root) (by simp)
    kept := by
      intro proc isKept
      obtain ⟨member, running⟩ := tree.kept proc isKept
      have notCurrent : proc ≠ current := by
        rcases isKept with rfl | rfl
        · exact Ne.symm notIdle
        · exact Ne.symm notInit
      exact ⟨member, by simp [notCurrent, running]⟩
    subset := Finset.insert_subset inside tree.subset
    zombies := by
      intro proc member
      rw [zombies proc, Finset.mem_insert, tree.zombies proc member] }⟩

/-- Reaping keeps the tree: the process is a leaf. -/
theorem TreeInvariant.reaped (tree : TreeInvariant idleproc initproc system procList children)
    {table : ProcTable P Q} {proc parent : P} (member : proc ∈ system.unreaped) (gone : proc ∈ system.exited)
    (inside : parent ∈ system.unreaped) (own : system.table.parent proc = some parent)
    (removed : removeLinks system.table proc = some table) :
    ∃ procList children, TreeInvariant idleproc initproc
      { table, unreaped := system.unreaped.erase proc, exited := system.exited.erase proc } procList children := by
  have notKept : ∀ other, other = idleproc ∨ other = initproc → other ≠ proc := by
    rintro other isKept rfl
    exact (tree.kept other isKept).2 gone
  have entry : proc ∈ procList := (tree.listed proc).mpr ⟨member, Ne.symm (notKept idleproc (Or.inl rfl))⟩
  obtain ⟨kinship, ring, count, kernel, parents⟩ :=
    removeLinks_exact tree.kinship tree.ring inside own member entry removed
  refine ⟨procList.erase proc, _, {
    kinship := Family.restrict kinship (Finset.erase_subset _ _)
    ring
    listed := ?_
    distinct := tree.distinct.erase proc
    count := ?_
    parents := ?_
    root := by simpa only [parents] using tree.root
    kept := ?_
    subset := Finset.erase_subset_erase _ tree.subset
    zombies := ?_ }⟩
  · intro other
    rw [tree.distinct.mem_erase_iff, tree.listed other, Finset.mem_erase, and_assoc]
  · have length := List.length_erase_of_mem entry
    have positive := List.length_pos_of_mem entry
    rw [count, tree.count]
    omega
  · intro other remaining notIdle
    obtain ⟨_, old⟩ := Finset.mem_erase.mp remaining
    obtain ⟨ancestor, ancestorInside, named, alive⟩ := tree.parents other old notIdle
    have different : ancestor ≠ proc := fun same => alive (same ▸ gone)
    refine ⟨ancestor, Finset.mem_erase.mpr ⟨different, ancestorInside⟩, ?_, ?_⟩
    · simpa only [parents] using named
    · exact fun inside => alive (Finset.mem_of_mem_erase inside)
  · intro other isKept
    obtain ⟨old, alive⟩ := tree.kept other isKept
    exact ⟨Finset.mem_erase.mpr ⟨notKept other isKept, old⟩, fun inside => alive (Finset.mem_of_mem_erase inside)⟩
  · intro other remaining
    obtain ⟨different, old⟩ := Finset.mem_erase.mp remaining
    simp only [kernel]
    rw [tree.zombies other old, Finset.mem_erase]
    simp [different]

omit [DecidableEq P] in
/-- A change of the kernel that neither kills nor revives a process keeps the tree. -/
theorem TreeInvariant.rescheduled (tree : TreeInvariant idleproc initproc system procList children)
    {kernel : Kernel P Q}
    (same : ∀ proc ∈ system.unreaped, isZombie kernel proc ↔ isZombie system.table.kernel proc) :
    TreeInvariant idleproc initproc { system with table := { system.table with kernel } } procList children :=
  { tree with
    kinship := tree.kinship
    zombies := fun proc member => (same proc member).trans (tree.zombies proc member) }

/-- `do_wait` keeps the tree, whether it reaps a child, blocks or finds none. -/
theorem wait_keeps {target : WaitTarget P} (tree : TreeInvariant idleproc initproc system procList children)
    (legal : ProcLegal system (.wait target))
    (taken : procStep schedClass idleproc initproc system (.wait target) = some next) :
    ∃ procList children, TreeInvariant idleproc initproc next procList children := by
  obtain ⟨⟨current, inside, running, alive⟩, known⟩ := legal
  obtain ⟨⟨result, table⟩, waited, finished⟩ := Option.bind_eq_some_iff.mp taken
  simp only [doWait, running, Option.bind_eq_bind, Option.bind_some] at waited
  split at waited
  · rename_i haskid proc search
    obtain ⟨member, own, zombie⟩ := waitSearch_sound tree.kinship inside known search
    split at waited
    · cases waited
    · obtain ⟨removedTable, removed, ends⟩ := Option.bind_eq_some_iff.mp waited
      obtain ⟨rfl, rfl⟩ : WaitResult.reaped proc = result ∧ removedTable = table := by simpa using ends
      obtain rfl := Option.some.inj finished
      exact tree.reaped member ((tree.zombies proc member).mp zombie) inside own removed
  · obtain ⟨rfl, rfl⟩ : WaitResult.blocked = result ∧ _ = table := by simpa using waited
    obtain rfl := Option.some.inj finished
    refine ⟨procList, children, tree.rescheduled ?_⟩
    intro proc member
    simp only [isZombie, Kernel.setProc_procs]
    by_cases same : proc = current
    · have living := (tree.zombies current inside).not.mpr alive
      simpa [same, isZombie] using living
    · simp [same]
  · obtain ⟨rfl, rfl⟩ : WaitResult.badProc = result ∧ system.table = table := by simpa using waited
    obtain rfl := Option.some.inj finished
    exact ⟨procList, children, tree⟩

/-- Every legal operation keeps the tree. -/
theorem procStep_keeps (keeps : schedClass.Keeps) (system : ProcSystem P Q) (operation : ProcOperation P Q)
    (next : ProcSystem P Q)
    (invariant : ∃ procList children, TreeInvariant idleproc initproc system procList children)
    (legal : ProcLegal system operation)
    (taken : procStep schedClass idleproc initproc system operation = some next) :
    ∃ procList children, TreeInvariant idleproc initproc next procList children := by
  obtain ⟨procList, children, tree⟩ := invariant
  cases operation with
  | fork child fields => exact fork_keeps tree legal taken
  | exit => exact ⟨procList, exit_keeps keeps tree legal taken⟩
  | wait target => exact wait_keeps tree legal taken
  | elsewhere kernel =>
    obtain rfl := Option.some.inj taken
    exact ⟨procList, children, tree.rescheduled legal⟩

/-- `proc_init` leaves `idleproc` with the single child `initproc`. -/
theorem procInit_tree {memory : ProcTable P Q} {fields : Proc} {start : ProcSystem P Q}
    (apart : initproc ≠ idleproc) (live : fields.state ≠ .zombie)
    (booted : procInit idleproc initproc memory fields = some start) :
    ∃ procList children, TreeInvariant idleproc initproc start procList children := by
  obtain ⟨⟨created, table⟩, forked, finished⟩ := Option.bind_eq_some_iff.mp booted
  have alone : TreeInvariant idleproc idleproc
      { table := idleTable idleproc memory, unreaped := {idleproc}, exited := ∅ } [] fun _ => [] := {
    kinship := {
      chain := by simp [idleTable, Chain]
      distinct := by simp
      owned := by simp [idleTable] }
    ring := listInit_ring _ _
    listed := by simp
    distinct := List.nodup_nil
    count := rfl
    parents := by simp
    root := by simp [idleTable]
    kept := by simp
    subset := by simp
    zombies := by simp [idleTable, isZombie, Kernel.setProc_procs] }
  obtain rfl := Option.some.inj finished
  rcases doFork_exact alone.kinship alone.ring rfl (by simp) (by simpa using apart) (by simp)
    (by simp [idleTable]) forked with ⟨full, _, _⟩ | ⟨_, ⟨grown, kinship⟩, ring, count, kernel, parents⟩
  · have room : ¬ (maxProcess : Int) ≤ 1 := by decide
    exact absurd full room
  · have forked := alone.forked (by simp) (by simp) (by simpa using apart) (by simp) live kinship ring count
      kernel parents
    exact ⟨_, grown, { forked with
      kinship := forked.kinship
      ring := forked.ring
      kept := by
        rintro proc (rfl | rfl)
        · simp
        · simp }⟩

/-- The list and the tree of the unreaped processes, as `proc.c` relies on them: the
chain from `cptr` along `optr` ends and meets each child once, `yptr` leads back
along it and is `NULL` at its head. -/
structure ProcessTree (idleproc : P) (system : ProcSystem P Q) (procList : List P)
    (children : P → List P) : Prop where
  chain : ∀ proc ∈ system.unreaped,
    Chain system.table.optr system.table.yptr none (system.table.cptr proc) (children proc)
  distinct : ∀ proc ∈ system.unreaped, (children proc).Nodup
  complete : ∀ proc ∈ system.unreaped, ∀ child,
    child ∈ children proc ↔ child ∈ system.unreaped ∧ system.table.parent child = some proc
  list : Ring system.table.links .head (procList.map .link)
  listed : ∀ proc, proc ∈ procList ↔ proc ∈ system.unreaped ∧ proc ≠ idleproc
  count : system.table.nrProcess = procList.length + 1
  parents : ∀ proc ∈ system.unreaped, ∀ parent, system.table.parent proc = some parent →
    parent ∈ system.unreaped ∧ parent ∉ system.exited

/-- In every run from `proc_init` the process table is a tree of unreaped processes
under parents that have not exited. -/
theorem process_tree (schedClass : SchedClass P Q) (keeps : schedClass.Keeps) (idleproc initproc : P)
    (apart : initproc ≠ idleproc) (memory : ProcTable P Q) (fields : Proc) (live : fields.state ≠ .zombie)
    (start system : ProcSystem P Q) (booted : procInit idleproc initproc memory fields = some start)
    (reached : Reaches (procStep schedClass idleproc initproc) ProcLegal start system) :
    ∃ procList children, ProcessTree idleproc system procList children := by
  have invariant : ∃ procList children, TreeInvariant idleproc initproc system procList children := by
    refine reached.invariant ?_ (procStep_keeps keeps)
    exact procInit_tree apart live booted
  obtain ⟨procList, children, tree⟩ := invariant
  exact ⟨procList, children, {
    chain := tree.kinship.chain
    distinct := tree.kinship.distinct
    complete := tree.kinship.owned
    list := tree.ring
    listed := tree.listed
    count := tree.count
    parents := fun proc member parent own => tree.parent_alive member own }⟩

/-- A kernel in which `current` runs and the listed processes are zombies. -/
def schedulerState (current : Nat) (zombies : List Nat) : Kernel Nat (RunQueue Nat) where
  procs proc := ⟨if proc ∈ zombies then .zombie else .runnable, 0, false, 0, 0⟩
  queue := { links := { prev := id, next := id }, procNum := 0, maxTimeSlice := 0, rq := fun _ => false }
  current := some current
  enqueued := []
  picked := []

/-- Before `proc_init`; process 0 is to be `idleproc` and process 1 `initproc`. -/
def beforeProcInit : ProcTable Nat (RunQueue Nat) where
  kernel := schedulerState 0 []
  parent _ := none
  cptr _ := none
  yptr _ := none
  optr _ := none
  links := { prev := id, next := id }
  nrProcess := 0

/-- Process 1 has the child 2 with children 3, 4 and 5. Process 4 exits, then 2 exits
and leaves the rest to process 1, which reaps 4 from the middle of its chain. -/
def orphanRun : List (ProcOperation Nat (RunQueue Nat)) :=
  let fresh : Proc := ⟨.uninit, 0, false, 0, 0⟩
  [.elsewhere (schedulerState 1 []), .fork 2 fresh, .elsewhere (schedulerState 2 []), .fork 3 fresh,
    .fork 4 fresh, .fork 5 fresh, .elsewhere (schedulerState 4 []), .exit,
    .elsewhere (schedulerState 2 [4]), .exit, .elsewhere (schedulerState 1 [2, 4]),
    .wait (.pid (some 4))]

/-- The tree of the five processes left by that run. -/
theorem process_tree_orphans :
    ∃ start system, procInit 0 1 beforeProcInit ⟨.uninit, 0, false, 0, 0⟩ = some start ∧
      Reaches (procStep defaultSchedClass 0 1) ProcLegal start system ∧
      system.unreaped = {0, 1, 2, 3, 5} ∧
      ∃ procList children, ProcessTree 0 system procList children := by
  have completed : (((procInit 0 1 beforeProcInit ⟨.uninit, 0, false, 0, 0⟩).bind fun start =>
      (run (guarded (procStep defaultSchedClass 0 1) fun system operation =>
        decide (ProcLegal system operation)) orphanRun start).map fun system =>
      (start, system)).map fun both => both.2.unreaped) = some {0, 1, 2, 3, 5} := by
    decide +kernel
  obtain ⟨⟨start, system⟩, both, unreaped⟩ := Option.map_eq_some_iff.mp completed
  obtain ⟨booted, isBooted, ran⟩ := Option.bind_eq_some_iff.mp both
  obtain ⟨last, isLast, same⟩ := Option.map_eq_some_iff.mp ran
  obtain ⟨rfl, rfl⟩ := Prod.mk.inj same
  have reached := guarded_reaches (fun _ _ => of_decide_eq_true) _ _ _ isLast
  exact ⟨booted, last, isBooted, reached, unreaped,
    process_tree defaultSchedClass defaultSchedClass_keeps 0 1 (by decide) beforeProcInit _ (by decide)
      booted last isBooted reached⟩

end Ucore.Process
