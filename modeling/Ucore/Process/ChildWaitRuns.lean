import Ucore.Process.ChildWakeups

/-!
# No lost wakeup of a waiting parent

A process whose `wait_state` is `WT_CHILD` sleeps, and no child that it waits for has
exited: it looked before it went to sleep, and a child that exits, or comes to
`initproc` when it has exited, wakes it. The pids of the processes in the hash table
are distinct, so that the search for a pid misses no child that has it.
-/

namespace Ucore.Process

open CircularList EmbeddedList SiblingChain Schedule Transition

universe u
variable {P : Type u} [DecidableEq P] {idleproc initproc : P}

/-- No exited child is one that a `do_wait` with the argument `pid` waits for. -/
def NoneExited (system : WaitSystem P) (proc : P) (pid : Int) : Prop :=
  ∀ child ∈ system.procs.unreaped, system.procs.table.parent child = some proc → isZombie system.kernel child →
    pid ≠ 0 ∧ system.pid child ≠ pid

/-- A process that waits for a child sleeps, in a `do_wait` that has missed nothing. -/
def QuietWait (system : WaitSystem P) (proc : P) : Prop :=
  (system.kernel.procs proc).waitState = wtChild →
    (system.kernel.procs proc).state = .sleeping ∧ ∃ pid, system.waiting proc = some pid ∧ NoneExited system proc pid

/-- The hash table has the processes that `do_fork` created, each under a pid of its own. -/
structure HashedPids (idleproc : P) (system : WaitSystem P) : Prop where
  once : system.hashList.Nodup
  hashed : ∀ proc, proc ∈ system.hashList ↔ proc ∈ system.procs.unreaped ∧ proc ≠ idleproc
  distinct : ∀ proc ∈ system.hashList, ∀ other ∈ system.hashList, system.pid proc = system.pid other → proc = other

/-- Each fork has a number, and what has been reaped is not a process any more. -/
structure ReapHistory (system : WaitSystem P) : Prop where
  numbered : ∀ proc ∈ system.procs.unreaped, system.serial proc < system.forks
  distinct : ∀ proc ∈ system.procs.unreaped, ∀ other ∈ system.procs.unreaped,
    system.serial proc = system.serial other → proc = other
  past : ∀ number ∈ system.reaps.map Prod.snd,
    number < system.forks ∧ ∀ proc ∈ system.procs.unreaped, system.serial proc ≠ number
  once : (system.reaps.map Prod.snd).Nodup

/-- What every operation keeps up to its `schedule`. -/
structure WaitInvariant (idleproc initproc : P) (system : WaitSystem P) : Prop where
  tree : ∃ procList children, TreeInvariant idleproc initproc system.procs procList children
  queued : ∃ waiting, Queued idleproc ⟨system.kernel, system.procs.unreaped⟩ waiting
  idle : (system.kernel.procs idleproc).state = .runnable
  quiet : ∀ proc ∈ system.procs.unreaped, proc ≠ idleproc → QuietWait system proc
  free : system.waiting idleproc = none
  pids : HashedPids idleproc system
  history : ReapHistory system

/-- The running process is runnable, as it is whenever `schedule` has returned. -/
def WaitSystem.Ready (system : WaitSystem P) : Prop :=
  ∀ current ∈ system.kernel.current, (system.kernel.procs current).state = .runnable

omit [DecidableEq P] in
/-- `find_proc` finds processes that exist, by their pids. -/
theorem findProc_unreaped {system : WaitSystem P} {pid : Int} {proc : P} (pids : HashedPids idleproc system)
    (found : findProc system pid = some proc) : proc ∈ system.procs.unreaped := by
  unfold findProc at found
  split at found
  · exact ((pids.hashed proc).mp (List.mem_of_find?_eq_some found)).1
  · cases found

/-- A search of `do_wait` that finds a child, but no zombie, has missed none that it looks for. -/
theorem waitSearch_none {system : WaitSystem P} {procList : List P} {children : P → List P} {current : P} {pid : Int}
    (tree : TreeInvariant idleproc initproc system.procs procList children) (pids : HashedPids idleproc system)
    (inside : current ∈ system.procs.unreaped)
    (search : waitSearch system.procs.table current (waitTarget system pid) = (true, none)) :
    NoneExited system current pid := by
  intro child member own zombie
  by_cases any : pid = 0
  · -- the walk along the children passes over no zombie
    exfalso
    rw [waitTarget, if_neg (not_not.mpr any)] at search
    have isChild := (tree.kinship.owned current inside child).mpr ⟨member, own⟩
    exact findZombie_none (tree.kinship.chain current inside) (tree.children_short inside) search child isChild zombie
  · refine ⟨any, ?_⟩
    rintro rfl
    rw [waitTarget, if_pos any] at search
    cases found : findProc system (system.pid child) with
    | none => simp [found, waitSearch] at search
    | some proc =>
      have named : proc ∈ system.hashList ∧ system.pid proc = system.pid child := by
        unfold findProc at found
        split at found
        · exact ⟨List.mem_of_find?_eq_some found, by simpa using List.find?_some found⟩
        · cases found
      have hashed : child ∈ system.hashList := by
        refine (pids.hashed child).mpr ⟨member, ?_⟩
        rintro rfl
        cases own.symm.trans tree.root
      obtain rfl := pids.distinct proc named.1 child hashed named.2
      simp [found, waitSearch, own, zombie] at search

/-! ## Wakeups and `schedule` -/

section Steps

variable {system next : WaitSystem P} {kernel : Kernel P (RunQueue P)} {current proc : P}

omit [DecidableEq P] in
/-- A sleeping parent stays quiet while processes are woken. -/
theorem QuietWait.roused (quiet : QuietWait system proc) (rouses : Rouses system.kernel kernel) :
    QuietWait (system.withKernel kernel) proc := by
  intro waits
  obtain ⟨state, waited⟩ := rouses.waits waits
  obtain ⟨sleeps, pid, argument, none⟩ := quiet waited
  refine ⟨state.trans sleeps, pid, argument, fun child member own zombie => ?_⟩
  exact none child member own ((rouses.zombie_iff child).mp zombie)

omit [DecidableEq P] in
/-- Wakeups keep the invariant. -/
theorem WaitInvariant.roused (invariant : WaitInvariant idleproc initproc system)
    (rouses : Rouses system.kernel kernel)
    (queued : ∃ waiting, Queued idleproc ⟨kernel, system.procs.unreaped⟩ waiting) :
    WaitInvariant idleproc initproc (system.withKernel kernel) where
  tree := by
    obtain ⟨procList, children, tree⟩ := invariant.tree
    exact ⟨procList, children, tree.rescheduled fun proc _ => rouses.zombie_iff proc⟩
  queued := queued
  idle := rouses.runnable invariant.idle
  quiet := fun proc member other => (invariant.quiet proc member other).roused rouses
  free := invariant.free
  pids := ⟨invariant.pids.once, invariant.pids.hashed, invariant.pids.distinct⟩
  history := ⟨invariant.history.numbered, invariant.history.distinct, invariant.history.past, invariant.history.once⟩

/-- `schedule` keeps the invariant, and what runs then is runnable. -/
theorem reschedule_keeps (invariant : WaitInvariant idleproc initproc system)
    (taken : reschedule idleproc system = some next) :
    WaitInvariant idleproc initproc next ∧ next.Ready := by
  obtain ⟨kernel, returned, rfl⟩ := Option.map_eq_some_iff.mp taken
  obtain ⟨waiting, queued⟩ := invariant.queued
  obtain ⟨rouses, kept, ready⟩ := schedule_runs queued invariant.idle returned
  exact ⟨invariant.roused rouses kept, ready⟩

/-- A wakeup of a process that exists keeps the invariant. -/
theorem wakeup_keeps (invariant : WaitInvariant idleproc initproc system) (ready : system.Ready)
    (member : proc ∈ system.procs.unreaped)
    (woken : wakeupProc defaultSchedClass idleproc system.kernel proc = some kernel) :
    WaitInvariant idleproc initproc (system.withKernel kernel) ∧ (system.withKernel kernel).Ready := by
  have rouses := (wakeupProc_rouses defaultSchedClass_keeps woken).1
  have stays := (wakeupProc_frame defaultSchedClass_keeps woken).1
  refine ⟨invariant.roused rouses (wakeupProc_keepsQueue invariant.queued member woken), fun current isCurrent => ?_⟩
  exact rouses.runnable (ready current (stays ▸ isCurrent))

/-- A tick changes neither a `state` nor a `wait_state`. -/
theorem tick_keeps (invariant : WaitInvariant idleproc initproc system) (ready : system.Ready)
    (ticked : schedClassProcTick defaultSchedClass idleproc system.kernel proc = some kernel) :
    WaitInvariant idleproc initproc (system.withKernel kernel) ∧ (system.withKernel kernel).Ready := by
  have untouched : ∀ fields : Proc, fields.state = (system.kernel.procs proc).state →
      fields.waitState = (system.kernel.procs proc).waitState → Rouses system.kernel (system.kernel.setProc proc fields) := by
    intro fields state waitState other
    rw [Kernel.setProc_procs]
    split
    · rename_i same
      exact Or.inl ⟨same ▸ state, same ▸ waitState⟩
    · exact Or.inl ⟨rfl, rfl⟩
  have written : Rouses system.kernel kernel ∧ kernel.current = system.kernel.current := by
    unfold schedClassProcTick at ticked
    split at ticked
    · obtain rfl := Option.some.inj ticked
      refine ⟨untouched _ ?_ ?_, rfl⟩
      · split <;> split <;> rfl
      · split <;> split <;> rfl
    · obtain rfl := Option.some.inj ticked
      exact ⟨untouched _ rfl rfl, rfl⟩
  obtain ⟨rouses, stays⟩ := written
  obtain ⟨waiting, queued⟩ := invariant.queued
  obtain ⟨result, returned, kept⟩ := procTick_queued proc queued
  obtain rfl := Option.some.inj (returned.symm.trans ticked)
  refine ⟨invariant.roused rouses ⟨waiting, kept⟩, fun current isCurrent => ?_⟩
  exact rouses.runnable (ready current (stays ▸ isCurrent))

/-- `do_kill` wakes a process of the hash table, or none. -/
theorem doKill_keeps {pid : Int} {answer : Int} (invariant : WaitInvariant idleproc initproc system) (ready : system.Ready)
    (taken : doKill idleproc system pid = some (answer, next)) :
    WaitInvariant idleproc initproc next ∧ next.Ready := by
  unfold doKill at taken
  cases found : findProc system pid with
  | none =>
    simp only [found, Option.some.injEq, Prod.mk.injEq] at taken
    obtain ⟨_, rfl⟩ := taken
    exact ⟨invariant, ready⟩
  | some proc =>
    have marked : WaitInvariant idleproc initproc { system with exiting := Function.update system.exiting proc true } :=
      ⟨invariant.tree, invariant.queued, invariant.idle, invariant.quiet, invariant.free,
        ⟨invariant.pids.once, invariant.pids.hashed, invariant.pids.distinct⟩,
        ⟨invariant.history.numbered, invariant.history.distinct, invariant.history.past, invariant.history.once⟩⟩
    simp only [found] at taken
    split at taken
    · obtain ⟨_, rfl⟩ := Prod.mk.inj (Option.some.inj taken)
      exact ⟨invariant, ready⟩
    · split at taken
      · obtain ⟨kernel, woken, result⟩ := Option.map_eq_some_iff.mp taken
        obtain ⟨_, rfl⟩ := Prod.mk.inj result
        have member : proc ∈ system.procs.unreaped := findProc_unreaped invariant.pids found
        exact wakeup_keeps marked ready member woken
      · obtain ⟨_, rfl⟩ := Prod.mk.inj (Option.some.inj taken)
        exact ⟨marked, ready⟩

/-! ## Falling asleep -/

/-- The running process, `idleproc` excepted, goes to sleep. A parent that waits for a child has found none that
has exited. -/
theorem WaitInvariant.fallsAsleep (invariant : WaitInvariant idleproc initproc system) (ready : system.Ready)
    (running : system.kernel.current = some current) (notIdle : current ≠ idleproc) {waitState : BitVec 32}
    {waiting : P → Option Int} (others : ∀ other, other ≠ current → waiting other = system.waiting other)
    (looked : waitState = wtChild → ∃ pid, waiting current = some pid ∧ NoneExited system current pid) :
    WaitInvariant idleproc initproc { system.withKernel (system.kernel.setProc current
      { system.kernel.procs current with state := .sleeping, waitState }) with waiting } := by
  have alive : ¬ isZombie system.kernel current := by
    rw [isZombie, ready current running]
    decide
  have zombies : ∀ other, isZombie (system.kernel.setProc current
      { system.kernel.procs current with state := .sleeping, waitState }) other ↔ isZombie system.kernel other := by
    intro other
    rw [isZombie, Kernel.setProc_procs]
    split
    · rename_i same
      subst same
      simp [alive]
    · rfl
  refine ⟨?_, ?_, ?_, ?_, (others idleproc notIdle.symm).trans invariant.free,
    ⟨invariant.pids.once, invariant.pids.hashed, invariant.pids.distinct⟩,
    ⟨invariant.history.numbered, invariant.history.distinct, invariant.history.past, invariant.history.once⟩⟩
  · obtain ⟨procList, children, tree⟩ := invariant.tree
    exact ⟨procList, children, tree.rescheduled fun proc _ => zombies proc⟩
  · obtain ⟨queue, queued⟩ := invariant.queued
    obtain ⟨written, wrote, kept⟩ :=
      setCurrent_queued (fun fields => { fields with state := .sleeping, waitState }) queued
    simp only [setCurrent, running, Option.map_some, Option.some.injEq] at wrote
    exact ⟨queue, wrote ▸ kept⟩
  · exact (congrArg Proc.state (Function.update_of_ne notIdle.symm _ _)).trans invariant.idle
  · intro proc member other waits
    by_cases same : proc = current
    · subst same
      have now : waitState = wtChild := by
        simpa [WaitSystem.kernel, WaitSystem.withKernel, Kernel.setProc_procs] using waits
      obtain ⟨pid, argument, none⟩ := looked now
      have written : ((system.kernel.setProc proc
          { system.kernel.procs proc with state := .sleeping, waitState }).procs proc).state = .sleeping := by
        rw [Kernel.setProc_procs, if_pos rfl]
      refine ⟨written, pid, argument, fun child inside own zombie => ?_⟩
      exact none child inside own ((zombies child).mp zombie)
    · have kept : (system.withKernel (system.kernel.setProc current
          { system.kernel.procs current with state := .sleeping, waitState })).kernel.procs proc = system.kernel.procs proc :=
        Function.update_of_ne same _ _
      obtain ⟨sleeps, pid, argument, none⟩ := invariant.quiet proc member other ((congrArg Proc.waitState kept).symm.trans waits)
      refine ⟨(congrArg Proc.state kept).trans sleeps, pid, (others proc same).trans argument, fun child inside own zombie => ?_⟩
      exact none child inside own ((zombies child).mp zombie)

/-- A sleep outside `do_wait`. -/
theorem sleep_keeps {waitState : BitVec 32} (invariant : WaitInvariant idleproc initproc system) (ready : system.Ready)
    (elsewhere : waitState ≠ wtChild) (notIdle : system.kernel.current ≠ some idleproc)
    (taken : waitStep idleproc initproc system (.sleep waitState) = some next) :
    WaitInvariant idleproc initproc next ∧ next.Ready := by
  obtain ⟨kernel, wrote, scheduled⟩ := Option.bind_eq_some_iff.mp taken
  obtain ⟨current, running, rfl⟩ := Option.map_eq_some_iff.mp wrote
  have other : current ≠ idleproc := fun same => notIdle (same ▸ running)
  have asleep := invariant.fallsAsleep ready running other (fun _ _ => rfl)
    fun child => absurd child elsewhere
  exact reschedule_keeps asleep scheduled

/-! ## `do_exit` -/

omit [DecidableEq P] in
/-- The running process exists and has not exited. -/
theorem WaitInvariant.running (invariant : WaitInvariant idleproc initproc system) (ready : system.Ready) :
    ∃ current ∈ system.procs.unreaped, system.kernel.current = some current ∧ current ∉ system.procs.exited := by
  obtain ⟨procList, children, tree⟩ := invariant.tree
  obtain ⟨waiting, queued⟩ := invariant.queued
  obtain ⟨current, member, running⟩ := queued.running
  refine ⟨current, member, running, fun exited => ?_⟩
  have zombie : (system.kernel.procs current).state = .zombie := (tree.zombies current member).mpr exited
  cases (ready current running).symm.trans zombie

/-- The exit of the running process leaves no parent asleep that waits for what has exited. -/
theorem exitProcess_keeps (invariant : WaitInvariant idleproc initproc system) (ready : system.Ready)
    (taken : exitProcess idleproc initproc system = some next) :
    WaitInvariant idleproc initproc next ∧ next.Ready := by
  obtain ⟨procs, stepped, scheduled⟩ := Option.bind_eq_some_iff.mp taken
  obtain ⟨current, member, running, alive⟩ := invariant.running ready
  obtain ⟨procList, children, tree⟩ := invariant.tree
  obtain ⟨left, kept⟩ := exit_keeps defaultSchedClass_keeps tree ⟨current, member, running, alive⟩ stepped
  simp only [procStep, running, Option.bind_eq_bind, Option.bind_some] at stepped
  obtain ⟨table, exited, finished⟩ := Option.bind_eq_some_iff.mp stepped
  obtain rfl := Option.some.inj finished
  have adopter := (tree.kept initproc (Or.inr rfl)).1
  have rouses := doExit_rouses defaultSchedClass_keeps running exited
  have notIdle := (doExit_exact defaultSchedClass_keeps tree.kinship running member adopter
    (tree.children_short member) exited).1.1
  refine reschedule_keeps ?_ scheduled
  refine ⟨⟨procList, left, kept⟩, ?_, ?_, ?_, invariant.free,
    ⟨invariant.pids.once, invariant.pids.hashed, invariant.pids.distinct⟩,
    ⟨invariant.history.numbered, invariant.history.distinct, invariant.history.past, invariant.history.once⟩⟩
  · exact doExit_keepsQueue running invariant.queued adopter (fun parent own => (tree.parent_alive member own).1) exited
  · refine rouses.runnable ?_
    rw [Kernel.setProc_procs, if_neg notIdle.symm]
    exact invariant.idle
  · intro proc inside other waits
    have asleep : ∀ other, other ∈ system.procs.unreaped → other ≠ idleproc → AsleepInWait system.kernel other := by
      intro other isMember apart waited runs
      cases (invariant.quiet other isMember apart waited).1.symm.trans runs
    obtain ⟨state, waited, none⟩ := doExit_waits defaultSchedClass_keeps tree.kinship running member adopter
      (tree.children_short member) (ready current running)
      (by
        rintro which (rfl | rfl)
        · exact asleep which member notIdle
        · exact asleep which inside other)
      exited waits
    obtain ⟨sleeps, pid, argument, before⟩ := invariant.quiet proc inside other waited
    refine ⟨state.trans sleeps, pid, argument, fun child isMember own zombie => ?_⟩
    obtain ⟨ownBefore, zombieBefore⟩ := none child isMember own zombie
    exact before child isMember ownBefore zombieBefore

/-! ## `do_wait` -/

/-- The running process returns from `do_wait`; it was awake. -/
theorem WaitInvariant.returns (invariant : WaitInvariant idleproc initproc system) (ready : system.Ready)
    (running : system.kernel.current = some current) :
    WaitInvariant idleproc initproc { system with waiting := Function.update system.waiting current none } where
  tree := invariant.tree
  queued := invariant.queued
  idle := invariant.idle
  quiet := by
    intro proc member other waits
    obtain ⟨sleeps, pid, argument, none⟩ := invariant.quiet proc member other waits
    have different : proc ≠ current := by
      rintro rfl
      cases (ready proc running).symm.trans sleeps
    exact ⟨sleeps, pid, (Function.update_of_ne different _ _).trans argument, none⟩
  free := by
    by_cases same : idleproc = current
    · exact same ▸ Function.update_self _ _ _
    · exact (Function.update_of_ne same _ _).trans invariant.free
  pids := ⟨invariant.pids.once, invariant.pids.hashed, invariant.pids.distinct⟩
  history := ⟨invariant.history.numbered, invariant.history.distinct, invariant.history.past, invariant.history.once⟩

/-- The hash table without a process that has been removed. -/
theorem HashedPids.removed (pids : HashedPids idleproc system) {table : ProcTable P (RunQueue P)} {exited : Finset P}
    {reaps : List (P × Nat)} :
    HashedPids idleproc { system with
      procs := { table, unreaped := system.procs.unreaped.erase proc, exited }
      hashList := system.hashList.erase proc
      reaps } where
  once := pids.once.erase proc
  hashed := by
    intro other
    simp only [pids.once.mem_erase_iff, pids.hashed, Finset.mem_erase, and_assoc]
  distinct := by
    intro first inside second member same
    exact pids.distinct first (List.mem_of_mem_erase inside) second (List.mem_of_mem_erase member) same

/-- The number of a process enters the history when it is removed. -/
theorem ReapHistory.removed (history : ReapHistory system) (member : proc ∈ system.procs.unreaped)
    {table : ProcTable P (RunQueue P)} {exited : Finset P} {hashList : List P} :
    ReapHistory { system with
      procs := { table, unreaped := system.procs.unreaped.erase proc, exited }
      hashList
      reaps := (current, system.serial proc) :: system.reaps } where
  numbered := fun other remains => history.numbered other (Finset.mem_of_mem_erase remains)
  distinct := fun first inside second remains =>
    history.distinct first (Finset.mem_of_mem_erase inside) second (Finset.mem_of_mem_erase remains)
  past := by
    intro number entry
    rcases List.mem_cons.mp entry with rfl | old
    · refine ⟨history.numbered proc member, fun other remains same => ?_⟩
      obtain ⟨different, inside⟩ := Finset.mem_erase.mp remains
      exact different (history.distinct other inside proc member same)
    · obtain ⟨below, gone⟩ := history.past number old
      exact ⟨below, fun other remains => gone other (Finset.mem_of_mem_erase remains)⟩
  once := List.nodup_cons.mpr ⟨fun again => (history.past _ again).2 proc member rfl, history.once⟩

/-- An exited child is removed; nothing else changes. -/
theorem WaitInvariant.reaped (invariant : WaitInvariant idleproc initproc system) (ready : system.Ready)
    {table : ProcTable P (RunQueue P)} (member : proc ∈ system.procs.unreaped) (inside : current ∈ system.procs.unreaped)
    (own : system.procs.table.parent proc = some current) (zombie : isZombie system.kernel proc)
    (removed : removeLinks system.procs.table proc = some table) :
    WaitInvariant idleproc initproc { system with
      procs := {
        table
        unreaped := system.procs.unreaped.erase proc
        exited := system.procs.exited.erase proc }
      hashList := system.hashList.erase proc
      reaps := (current, system.serial proc) :: system.reaps } := by
  obtain ⟨procList, children, tree⟩ := invariant.tree
  have notIdle : proc ≠ idleproc := by
    rintro rfl
    cases own.symm.trans tree.root
  have entry : proc ∈ procList := (tree.listed proc).mpr ⟨member, notIdle⟩
  obtain ⟨_, _, _, kernel, parents⟩ := removeLinks_exact tree.kinship tree.ring inside own member entry removed
  refine ⟨?_, ?_, ?_, ?_, invariant.free, invariant.pids.removed, invariant.history.removed member⟩
  · exact tree.reaped member ((tree.zombies proc member).mp zombie) inside own removed
  · obtain ⟨waiting, queued⟩ := invariant.queued
    refine ⟨waiting, ?_⟩
    have kept := reap_queued queued ⟨notIdle, zombie, fun running => by cases (ready proc running).symm.trans zombie⟩
    simpa only [WaitSystem.kernel, kernel] using kept
  · simp only [WaitSystem.kernel, kernel]
    exact invariant.idle
  · intro other remains apart waits
    simp only [WaitSystem.kernel, kernel] at waits
    obtain ⟨_, old⟩ := Finset.mem_erase.mp remains
    obtain ⟨sleeps, pid, argument, none⟩ := invariant.quiet other old apart waits
    refine ⟨by simpa only [WaitSystem.kernel, kernel] using sleeps, pid, argument, fun child left isChild exited => ?_⟩
    simp only [WaitSystem.kernel, kernel, parents] at isChild exited
    exact none child (Finset.mem_of_mem_erase left) isChild exited

omit [DecidableEq P] in
/-- What `do_wait` looks up exists. -/
theorem waitTarget_known (pids : HashedPids idleproc system) (pid : Int) :
    (waitTarget system pid).Known system.procs.unreaped := by
  unfold waitTarget
  split
  · cases found : findProc system pid with
    | none => trivial
    | some proc => exact findProc_unreaped pids found
  · trivial

/-- One pass of `do_wait` reaps a child, falls asleep with none exited, or fails. -/
theorem waitProcess_keeps {pid answer : Int} (invariant : WaitInvariant idleproc initproc system) (ready : system.Ready)
    (notIdle : system.kernel.current ≠ some idleproc)
    (taken : waitProcess idleproc initproc system pid = some (answer, next)) :
    WaitInvariant idleproc initproc next ∧ next.Ready := by
  obtain ⟨current, inside, running, alive⟩ := invariant.running ready
  have other : current ≠ idleproc := fun same => notIdle (same ▸ running)
  obtain ⟨procList, children, tree⟩ := invariant.tree
  simp only [waitProcess, running, Option.bind_eq_bind, Option.bind_some] at taken
  obtain ⟨⟨result, table⟩, waited, finished⟩ := Option.bind_eq_some_iff.mp taken
  simp only [doWait, running, Option.bind_eq_bind, Option.bind_some] at waited
  split at waited
  · rename_i haskid proc search
    obtain ⟨member, own, zombie⟩ := waitSearch_sound tree.kinship inside (waitTarget_known invariant.pids pid) search
    split at waited
    · cases waited
    · obtain ⟨removedTable, removed, ends⟩ := Option.bind_eq_some_iff.mp waited
      obtain ⟨rfl, rfl⟩ : WaitResult.reaped proc = result ∧ removedTable = table := by simpa using ends
      obtain ⟨_, rfl⟩ := Prod.mk.inj (Option.some.inj finished)
      have kernel := (removeLinks_exact tree.kinship tree.ring inside own member
        ((tree.listed proc).mpr ⟨member, by rintro rfl; cases own.symm.trans tree.root⟩) removed).2.2.2.1
      refine ⟨(invariant.returns ready running).reaped ready member inside own zombie removed, ?_⟩
      intro runner isCurrent
      simp only [WaitSystem.kernel, kernel] at isCurrent ⊢
      exact ready runner isCurrent
  · rename_i search
    obtain ⟨rfl, rfl⟩ : WaitResult.blocked = result ∧ _ = table := by simpa using waited
    obtain ⟨last, scheduled, ends⟩ := Option.bind_eq_some_iff.mp finished
    obtain ⟨_, rfl⟩ := Prod.mk.inj (Option.some.inj ends)
    have asleep := invariant.fallsAsleep ready running other
      (fun process apart => Function.update_of_ne apart _ _)
      (fun _ : wtChild = wtChild => ⟨pid, Function.update_self _ _ _, waitSearch_none tree invariant.pids inside search⟩)
    exact reschedule_keeps asleep scheduled
  · obtain ⟨rfl, rfl⟩ : WaitResult.badProc = result ∧ system.procs.table = table := by simpa using waited
    obtain ⟨_, rfl⟩ := Prod.mk.inj (Option.some.inj finished)
    exact ⟨invariant.returns ready running, ready⟩

/-- A process that runs on in `do_wait` returns when it has been killed, and looks again otherwise. -/
theorem resumeWait_keeps {answer : Int} (invariant : WaitInvariant idleproc initproc system) (ready : system.Ready)
    (taken : resumeWait idleproc initproc system = some (answer, next)) :
    WaitInvariant idleproc initproc next ∧ next.Ready := by
  obtain ⟨current, inside, running, alive⟩ := invariant.running ready
  simp only [resumeWait, running, Option.bind_eq_bind, Option.bind_some] at taken
  split at taken
  · cases taken
  · rename_i pid argument
    split at taken
    · obtain ⟨_, rfl⟩ := Prod.mk.inj (Option.some.inj taken)
      exact ⟨invariant.returns ready running, ready⟩
    · refine waitProcess_keeps invariant ready ?_ taken
      rintro idle
      obtain rfl := Option.some.inj (running.symm.trans idle)
      cases argument.symm.trans invariant.free

/-! ## `do_fork` -/

/-- The hash table with a new process, under a pid that no other one has. -/
theorem HashedPids.created (pids : HashedPids idleproc system) {child : P} {pid : Int}
    {procs : ProcSystem P (RunQueue P)} {exiting : P → Bool} {waiting : P → Option Int} {forks : Nat} {serial : P → Nat}
    (idle : idleproc ∈ system.procs.unreaped) (fresh : child ∉ system.procs.unreaped)
    (freshPid : FreshPid idleproc system pid) (grown : procs.unreaped = insert child system.procs.unreaped) :
    HashedPids idleproc {
      procs, pid := Function.update system.pid child pid, hashList := child :: system.hashList, exiting, waiting
      forks, serial, reaps := system.reaps } where
  once := List.nodup_cons.mpr ⟨fun listed => fresh ((pids.hashed child).mp listed).1, pids.once⟩
  hashed := by
    intro proc
    have apart : child ≠ idleproc := fun same => fresh (same ▸ idle)
    simp only [List.mem_cons, pids.hashed, grown, Finset.mem_insert]
    constructor
    · rintro (rfl | ⟨member, other⟩)
      · exact ⟨Or.inl rfl, apart⟩
      · exact ⟨Or.inr member, other⟩
    · rintro ⟨rfl | member, other⟩
      · exact Or.inl rfl
      · exact Or.inr ⟨member, other⟩
  distinct := by
    have old : ∀ proc ∈ system.hashList, Function.update system.pid child pid proc = system.pid proc ∧ system.pid proc ≠ pid := by
      intro proc listed
      obtain ⟨member, other⟩ := (pids.hashed proc).mp listed
      have apart : proc ≠ child := by
        rintro rfl
        exact fresh member
      exact ⟨Function.update_of_ne apart _ _, freshPid.2.2 proc member other⟩
    intro first inside second member same
    rcases List.mem_cons.mp inside with rfl | listed
    · rcases List.mem_cons.mp member with rfl | listed
      · rfl
      · simp only [Function.update_self, (old second listed).1] at same
        exact absurd same.symm (old second listed).2
    · rcases List.mem_cons.mp member with rfl | listed'
      · simp only [Function.update_self, (old first listed).1] at same
        exact absurd same (old first listed).2
      · simp only [(old first listed).1, (old second listed').1] at same
        exact pids.distinct first listed second listed' same

/-- A new process gets the next number. -/
theorem ReapHistory.created (history : ReapHistory system) {child : P} {procs : ProcSystem P (RunQueue P)} {pid : P → Int}
    {hashList : List P} {exiting : P → Bool} {waiting : P → Option Int} (fresh : child ∉ system.procs.unreaped)
    (grown : procs.unreaped = insert child system.procs.unreaped) :
    ReapHistory {
      procs, pid, hashList, exiting, waiting, forks := system.forks + 1
      serial := Function.update system.serial child system.forks, reaps := system.reaps } := by
  have old : ∀ proc ∈ system.procs.unreaped,
      Function.update system.serial child system.forks proc = system.serial proc := by
    intro proc member
    have apart : proc ≠ child := by
      rintro rfl
      exact fresh member
    exact Function.update_of_ne apart _ _
  refine ⟨?_, ?_, ?_, history.once⟩
  · intro proc member
    simp only [grown, Finset.mem_insert] at member
    rcases member with rfl | inside
    · simp only [Function.update_self]
      omega
    · have below := history.numbered proc inside
      simp only [old proc inside]
      omega
  · intro first inside second member same
    simp only [grown, Finset.mem_insert] at inside member
    rcases inside with rfl | inside
    · rcases member with rfl | member
      · rfl
      · have below := history.numbered second member
        simp only [Function.update_self, old second member] at same
        omega
    · rcases member with rfl | member
      · have below := history.numbered first inside
        simp only [Function.update_self, old first inside] at same
        omega
      · simp only [old first inside, old second member] at same
        exact history.distinct first inside second member same
  · intro number entry
    obtain ⟨below, gone⟩ := history.past number entry
    refine ⟨Nat.lt_succ_of_lt below, fun proc member => ?_⟩
    simp only [grown, Finset.mem_insert] at member
    rcases member with rfl | inside
    · simp only [Function.update_self]
      omega
    · simp only [old proc inside]
      exact gone proc inside

/-- `nr_process` counts the processes. -/
theorem TreeInvariant.card {procs : ProcSystem P (RunQueue P)} {procList : List P} {children : P → List P}
    (tree : TreeInvariant idleproc initproc procs procList children) :
    (procs.unreaped.card : Int) = procs.table.nrProcess := by
  have members : procs.unreaped = insert idleproc procList.toFinset := by
    ext proc
    simp only [Finset.mem_insert, List.mem_toFinset, tree.listed]
    by_cases same : proc = idleproc
    · simp [same, (tree.kept idleproc (Or.inl rfl)).1]
    · simp [same]
  have outside : idleproc ∉ procList.toFinset := by
    simp [tree.listed]
  rw [members, Finset.card_insert_of_notMem outside, List.toFinset_card_of_nodup tree.distinct, tree.count]
  simp

theorem allocProc_procs (kernel : Kernel P (RunQueue P)) (proc other : P) (fields : Proc) :
    (allocProc kernel proc fields).procs other = if other = proc then fields else kernel.procs other :=
  Function.update_apply _ _ _ _

/-- A new process is awake and has no children. -/
theorem forkProcess_keeps {child : P} {fields : Proc} {pid : Int} (invariant : WaitInvariant idleproc initproc system)
    (ready : system.Ready) (fresh : child ∉ system.procs.unreaped) (uninit : fields.state = .uninit)
    (freshPid : FreshPid idleproc system pid) (taken : forkProcess idleproc system child fields pid = some next) :
    WaitInvariant idleproc initproc next ∧ next.Ready := by
  obtain ⟨⟨created, table⟩, forked, finished⟩ := Option.bind_eq_some_iff.mp taken
  obtain ⟨current, inside, running, alive⟩ := invariant.running ready
  obtain ⟨procList, children, tree⟩ := invariant.tree
  by_cases full : (maxProcess : Int) ≤ system.procs.table.nrProcess
  · rw [doFork, if_pos full] at forked
    obtain ⟨rfl, rfl⟩ : none = created ∧ system.procs.table = table := by simpa using forked
    obtain rfl := Option.some.inj finished
    exact ⟨invariant, ready⟩
  have outside : child ∉ procList := fun member => fresh ((tree.listed child).mp member).1
  have unowned : ∀ proc ∈ system.procs.unreaped, system.procs.table.parent proc ≠ some child :=
    fun proc member own => fresh (tree.parent_alive member own).1
  obtain ⟨rfl, ⟨grown, kinship⟩, ring, count, kernel, parents⟩ :=
    (doFork_exact tree.kinship tree.ring running inside fresh outside unowned forked).resolve_left
      fun refused => full refused.1
  obtain ⟨after, woken, ends⟩ := Option.bind_eq_some_iff.mp finished
  obtain rfl := Option.some.inj ends
  have idle := (tree.kept idleproc (Or.inl rfl)).1
  have apart : ∀ proc ∈ system.procs.unreaped, proc ≠ child := by
    rintro proc member rfl
    exact fresh member
  have written : allocProc table.kernel child fields = allocProc system.kernel child fields := by
    simp only [kernel, allocProc, Kernel.setProc, Function.update_idem]
  rw [written] at woken
  obtain ⟨rouses, awake⟩ := wakeupProc_rouses defaultSchedClass_keeps woken
  have asleepBefore : ((allocProc system.kernel child fields).procs child).state ≠ .runnable := by
    rw [allocProc_procs, if_pos rfl, uninit]
    decide
  have untouched : ∀ proc ∈ system.procs.unreaped,
      (allocProc system.kernel child fields).procs proc = system.kernel.procs proc := by
    intro proc member
    rw [allocProc_procs, if_neg (apart proc member)]
  have zombies : ∀ proc ∈ system.procs.unreaped, isZombie after proc ↔ isZombie system.kernel proc := by
    intro proc member
    rw [rouses.zombie_iff, isZombie, isZombie, untouched proc member]
  have notZombie : ¬ isZombie after child := by
    rw [isZombie, (wakeupProc_runnable defaultSchedClass_keeps woken).2]
    decide
  refine ⟨⟨⟨child :: procList, grown, ?_⟩, ?_, ?_, ?_, ?_, invariant.pids.created idle fresh freshPid rfl,
    invariant.history.created fresh rfl⟩, ?_⟩
  · -- the tree, with the state that `wakeup_proc` leaves
    have linked := tree.forked inside alive fresh (fun exited => fresh (tree.subset exited))
      (by rw [uninit]; decide) kinship ring count kernel parents
    refine linked.rescheduled fun proc member => ?_
    rw [isZombie, isZombie, kernel, Kernel.setProc_procs]
    rcases Finset.mem_insert.mp member with rfl | old
    · simp [(wakeupProc_runnable defaultSchedClass_keeps woken).2, uninit]
    · rw [if_neg (apart proc old)]
      exact zombies proc old
  · obtain ⟨waiting, queued⟩ := invariant.queued
    have room : system.procs.unreaped.card < maxProcess := by
      have card := tree.card
      omega
    exact wakeupProc_keepsQueue ⟨waiting, create_queued queued ⟨fresh, room, uninit⟩⟩ (Finset.mem_insert_self _ _) woken
  · refine rouses.runnable ?_
    rw [untouched idleproc idle]
    exact invariant.idle
  · intro proc member other waits
    rcases Finset.mem_insert.mp member with rfl | old
    · cases waits.symm.trans (awake asleepBefore)
    · obtain ⟨state, waited⟩ := rouses.waits waits
      rw [untouched proc old] at state waited
      obtain ⟨sleeps, argument, named, none⟩ := invariant.quiet proc old other waited
      refine ⟨state.trans sleeps, argument, (Function.update_of_ne (apart proc old) _ _).trans named, ?_⟩
      intro kid isKid own zombie
      rcases Finset.mem_insert.mp isKid with rfl | oldKid
      · exact absurd zombie notZombie
      · simp only [parents, Function.update_of_ne (apart kid oldKid)] at own ⊢
        exact none kid oldKid own ((zombies kid oldKid).mp zombie)
  · exact (Function.update_of_ne (apart idleproc idle) _ _).trans invariant.free
  · intro runner isCurrent
    have stays := (wakeupProc_frame defaultSchedClass_keeps woken).1
    obtain rfl : current = runner := Option.some.inj (running.symm.trans (stays.symm.trans isCurrent))
    refine rouses.runnable ?_
    rw [untouched current inside]
    exact ready current running

/-! ## Runs -/

/-- Every legal operation keeps the invariant. -/
theorem waitStep_keeps (system : WaitSystem P) (operation : WaitOperation P) (next : WaitSystem P)
    (invariant : WaitInvariant idleproc initproc system ∧ system.Ready) (legal : WaitLegal idleproc system operation)
    (taken : waitStep idleproc initproc system operation = some next) :
    WaitInvariant idleproc initproc next ∧ next.Ready := by
  obtain ⟨invariant, ready⟩ := invariant
  cases operation with
  | fork child fields pid =>
    obtain ⟨_, fresh, uninit, freshPid⟩ := legal
    exact forkProcess_keeps invariant ready fresh uninit freshPid taken
  | exit => exact exitProcess_keeps invariant ready taken
  | wait pid =>
    obtain ⟨⟨answer, after⟩, waited, rfl⟩ := Option.map_eq_some_iff.mp taken
    exact waitProcess_keeps invariant ready legal.2 waited
  | resume =>
    obtain ⟨⟨answer, after⟩, resumed, rfl⟩ := Option.map_eq_some_iff.mp taken
    exact resumeWait_keeps invariant ready resumed
  | kill pid =>
    obtain ⟨⟨answer, after⟩, killed, rfl⟩ := Option.map_eq_some_iff.mp taken
    exact doKill_keeps invariant ready killed
  | schedule => exact reschedule_keeps invariant taken
  | sleep waitState => exact sleep_keeps invariant ready legal.2.1 legal.2.2 taken
  | wakeup proc =>
    obtain ⟨kernel, woken, rfl⟩ := Option.map_eq_some_iff.mp taken
    exact wakeup_keeps invariant ready legal woken
  | tick proc =>
    obtain ⟨kernel, ticked, rfl⟩ := Option.map_eq_some_iff.mp taken
    exact tick_keeps invariant ready ticked

/-- Before the first fork `idleproc` is the only process. -/
theorem idleSystem_invariant (memory : ProcTable P (RunQueue P)) (pid : P → Int) :
    WaitInvariant idleproc idleproc (idleSystem idleproc memory pid) ∧ (idleSystem idleproc memory pid).Ready := by
  have runs : ((idleSystem idleproc memory pid).kernel.procs idleproc).state = .runnable := by
    simp [idleSystem, WaitSystem.kernel, boot]
  refine ⟨⟨⟨[], fun _ => [], ?_⟩, ⟨[], boot_queued memory.kernel.procs memory.kernel.queue⟩, runs, ?_, rfl, ?_, ?_⟩, ?_⟩
  · exact {
      kinship := {
        chain := by simp [idleSystem, idleTable, Chain]
        distinct := by simp
        owned := by simp [idleSystem, idleTable] }
      ring := listInit_ring _ _
      listed := by simp [idleSystem]
      distinct := List.nodup_nil
      count := rfl
      parents := by simp [idleSystem]
      root := by simp [idleSystem, idleTable]
      kept := by simp [idleSystem]
      subset := by simp [idleSystem]
      zombies := by
        intro proc member
        obtain rfl := Finset.mem_singleton.mp member
        rw [isZombie, runs]
        simp [idleSystem] }
  · intro proc member other
    exact absurd (Finset.mem_singleton.mp member) other
  · exact ⟨List.nodup_nil, by simp [idleSystem], by simp [idleSystem]⟩
  · exact ⟨by simp [idleSystem], by simp [idleSystem], by simp [idleSystem], List.nodup_nil⟩
  · intro current isCurrent
    obtain rfl : idleproc = current := Option.some.inj isCurrent
    exact runs

/-- `proc_init` leaves `idleproc` and `initproc`. -/
theorem waitInit_members {memory : ProcTable P (RunQueue P)} {pid : P → Int} {fields : Proc} {initPid : Int}
    {start : WaitSystem P} (booted : waitInit idleproc initproc memory pid fields initPid = some start) :
    start.procs.unreaped = {initproc, idleproc} ∧ start.procs.exited = ∅ := by
  obtain ⟨⟨created, table⟩, forked, finished⟩ := Option.bind_eq_some_iff.mp booted
  have room : ¬ (maxProcess : Int) ≤ (idleSystem idleproc memory pid).procs.table.nrProcess := by
    simp only [idleSystem, idleTable, maxProcess]
    omega
  rw [doFork, if_neg room] at forked
  obtain ⟨current, _, forked⟩ := Option.bind_eq_some_iff.mp forked
  obtain ⟨linked, _, ends⟩ := Option.bind_eq_some_iff.mp forked
  obtain ⟨rfl, rfl⟩ : some initproc = created ∧ linked = table := by simpa using ends
  obtain ⟨kernel, _, finished⟩ := Option.bind_eq_some_iff.mp finished
  obtain rfl := Option.some.inj finished
  exact ⟨rfl, rfl⟩

theorem waitInit_invariant {memory : ProcTable P (RunQueue P)} {pid : P → Int} {fields : Proc} {initPid : Int}
    {start : WaitSystem P} (apart : initproc ≠ idleproc) (uninit : fields.state = .uninit)
    (inRange : 0 < initPid ∧ initPid < maxPid)
    (booted : waitInit idleproc initproc memory pid fields initPid = some start) :
    WaitInvariant idleproc initproc start ∧ start.Ready := by
  obtain ⟨alone, runs⟩ := @idleSystem_invariant P _ idleproc memory pid
  have freshPid : FreshPid idleproc (idleSystem idleproc memory pid) initPid :=
    ⟨inRange.1, inRange.2, fun proc member other => absurd (Finset.mem_singleton.mp member) other⟩
  obtain ⟨invariant, ready⟩ := forkProcess_keeps alone runs (by simpa [idleSystem] using apart) uninit freshPid booted
  obtain ⟨members, exited⟩ := waitInit_members booted
  obtain ⟨procList, children, tree⟩ := invariant.tree
  have adopts : TreeInvariant idleproc initproc start.procs procList children := { tree with
    kinship := tree.kinship
    kept := by
      intro proc isKept
      rw [members, exited]
      rcases isKept with rfl | rfl
      · simp
      · simp }
  exact ⟨⟨⟨procList, children, adopts⟩, invariant.queued, invariant.idle, invariant.quiet, invariant.free,
    invariant.pids, invariant.history⟩, ready⟩

/-- In every run from `proc_init` a process that sleeps for a child is in a `do_wait` for which no child has
exited, and no fork is reaped twice. -/
theorem no_lost_child_wakeup (idleproc initproc : P) (apart : initproc ≠ idleproc)
    (memory : ProcTable P (RunQueue P)) (pid : P → Int) (fields : Proc) (uninit : fields.state = .uninit) (initPid : Int)
    (inRange : 0 < initPid ∧ initPid < maxPid) (start system : WaitSystem P)
    (booted : waitInit idleproc initproc memory pid fields initPid = some start)
    (reached : Reaches (waitStep idleproc initproc) (WaitLegal idleproc) start system) :
    (∀ proc ∈ system.procs.unreaped, (system.kernel.procs proc).waitState = wtChild →
      (system.kernel.procs proc).state ≠ .runnable →
        ∃ argument, system.waiting proc = some argument ∧ NoneExited system proc argument) ∧
      (system.reaps.map Prod.snd).Nodup := by
  have held : WaitInvariant idleproc initproc system ∧ system.Ready := by
    refine reached.invariant ?_ waitStep_keeps
    exact waitInit_invariant apart uninit inRange booted
  obtain ⟨invariant, _⟩ := held
  refine ⟨fun proc member waits asleep => ?_, invariant.history.once⟩
  have other : proc ≠ idleproc := by
    rintro rfl
    exact asleep invariant.idle
  exact (invariant.quiet proc member other waits).2

/-- Process 2 has the children 3 and 4 and waits for 3; process 1 waits for any child. Process 4 exits and
wakes 2, which looks again and goes back to sleep. -/
def waitRun : List (WaitOperation Nat) :=
  let fresh : Proc := ⟨.uninit, 0, false, 0, 0⟩
  [.schedule, .fork 2 fresh 2, .wait 0, .fork 3 fresh 3, .fork 4 fresh 4, .wait 3, .schedule, .exit, .schedule, .resume]

/-- The two sleeping parents after that run; process 4 is a zombie. -/
theorem no_lost_child_wakeup_two_parents :
    ∃ start system : WaitSystem Nat,
      waitInit 0 1 beforeProcInit (fun _ => 0) ⟨.uninit, 0, false, 0, 0⟩ 1 = some start ∧
      Reaches (waitStep 0 1) (WaitLegal 0) start system ∧
      (system.kernel.procs 2).waitState = wtChild ∧ isZombie system.kernel 4 ∧
      ((∀ proc ∈ system.procs.unreaped, (system.kernel.procs proc).waitState = wtChild →
        (system.kernel.procs proc).state ≠ .runnable →
          ∃ argument, system.waiting proc = some argument ∧ NoneExited system proc argument) ∧
        (system.reaps.map Prod.snd).Nodup) := by
  have completed : (((waitInit 0 1 beforeProcInit (fun _ => 0) ⟨.uninit, 0, false, 0, 0⟩ 1).bind fun start =>
      (run (guarded (waitStep 0 1) fun system operation => decide (WaitLegal 0 system operation)) waitRun start).map
        fun system => (start, system)).map fun both =>
      ((both.2.kernel.procs 2).waitState, (both.2.kernel.procs 4).state)) = some (wtChild, .zombie) := by
    decide +kernel
  obtain ⟨⟨start, system⟩, both, states⟩ := Option.map_eq_some_iff.mp completed
  obtain ⟨booted, isBooted, ran⟩ := Option.bind_eq_some_iff.mp both
  obtain ⟨last, isLast, same⟩ := Option.map_eq_some_iff.mp ran
  obtain ⟨rfl, rfl⟩ := Prod.mk.inj same
  obtain ⟨waits, zombie⟩ := Prod.mk.inj states
  have reached := guarded_reaches (fun _ _ => of_decide_eq_true) _ _ _ isLast
  exact ⟨booted, last, isBooted, reached, waits, zombie,
    no_lost_child_wakeup 0 1 (by decide) beforeProcInit _ _ rfl 1 (by decide) booted last isBooted reached⟩

end Steps

end Ucore.Process
