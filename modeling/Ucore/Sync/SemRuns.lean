import Mathlib.Algebra.Ring.Int.Defs
import Ucore.Sync.Sem
import Ucore.Schedule.DefaultSched
import Ucore.Library.Transition

/-!
# Runs of a semaphore

Threads call `down`, `try_down` and `up` in any order; `do_kill` may hit any
thread at any time, and the rest of the kernel does anything that does not touch
the threads inside `down`. A grant goes to the first waiter without a change of
the value, so the balance counts the threads inside `down` that have left the
queue.
-/

namespace Ucore.Sync

open CircularList EmbeddedList Schedule Transition

universe u
variable {P Q : Type u} [DecidableEq P]

/-- The thread is the one that calls; for `kill` it is the target. -/
inductive SemOperation (P Q : Type u) where
  | down (thread : P)
  | resume (thread : P)
  | tryDown (thread : P)
  | up (thread : P)
  | kill (thread : P)
  | elsewhere (kernel : Kernel P Q)

/-- The semaphore in memory, the `PF_EXITING` flags, the threads between the two
halves of `down`, and the history: completed calls, threads in the order in which
they began to wait and in which they were granted, and the downs not yet matched. -/
structure SemSystem (P Q : Type u) where
  state : SemState P Q
  exiting : P → Bool
  inside : Finset P
  ups : Nat
  downs : Nat
  tryDowns : Nat
  arrived : List P
  granted : List P
  holding : List P

/-- The state after `sem_init` on an arbitrary memory. -/
def bootSem (value : Nat) (state : SemState P Q) (exiting : P → Bool) : SemSystem P Q where
  state := semInit value state
  exiting := exiting
  inside := ∅
  ups := 0
  downs := 0
  tryDowns := 0
  arrived := []
  granted := []
  holding := []

variable (schedClass : SchedClass P Q) (idleproc : P)

/-- `do_kill` of a process that exists. -/
def doKill (thread : P) (system : SemSystem P Q) : Option (SemSystem P Q) :=
  if system.exiting thread then some system
  else
    let system := { system with exiting := Function.update system.exiting thread true }
    if (system.state.kernel.procs thread).waitState &&& wtInterrupted ≠ 0 then
      (wakeupProc schedClass idleproc system.state.kernel thread).map fun kernel =>
        { system with state := { system.state with kernel := kernel } }
    else some system

/-- One operation; `none` is a failed assertion, such as the one of `down` on the
value of `__down`. -/
def semStep (system : SemSystem P Q) : SemOperation P Q → Option (SemSystem P Q)
  | .down thread => (downStart thread wtKsem system.state).map fun result =>
      if result.2 then
        { system with
          state := result.1
          downs := system.downs + 1
          holding := thread :: system.holding }
      else
        { system with
          state := result.1
          inside := insert thread system.inside
          arrived := system.arrived ++ [thread] }
  | .resume thread => do
      let (state, flags) ← downFinish thread wtKsem system.state
      if flags = 0 then
        some { system with
          state := state
          inside := system.inside.erase thread
          downs := system.downs + 1
          holding := thread :: system.holding }
      else none
  | .tryDown thread =>
      let (state, ret) := tryDown system.state
      if ret then
        some { system with
          state := state
          tryDowns := system.tryDowns + 1
          holding := thread :: system.holding }
      else some { system with state := state }
  | .up thread => (up schedClass idleproc system.state).map fun state =>
      { system with
        state := state
        ups := system.ups + 1
        granted := system.granted ++ (waitQueueFirst system.state).toList
        holding := system.holding.erase thread }
  | .kill thread => doKill schedClass idleproc thread system
  | .elsewhere kernel => some { system with state := { system.state with kernel := kernel } }

/-- A thread calls `down` while it runs and is not inside one already, and goes on
with it once it is runnable and scheduled again. An `up` that overflows the `int`
has no defined result. The rest of the kernel leaves threads inside `down` alone:
the other callers of `wakeup_proc` test for another wait state first or take the
process from another queue. -/
def SemLegal (system : SemSystem P Q) : SemOperation P Q → Prop
  | .down thread => system.state.kernel.current = some thread ∧ thread ∉ system.inside
  | .resume thread => system.state.kernel.current = some thread ∧ thread ∈ system.inside ∧
      (system.state.kernel.procs thread).state = .runnable
  | .tryDown _ => True
  | .up _ => system.state.value + 1 < 2 ^ 31
  | .kill _ => True
  | .elsewhere kernel => ∀ thread ∈ system.inside,
      (kernel.procs thread).state = (system.state.kernel.procs thread).state ∧
        (kernel.procs thread).waitState = (system.state.kernel.procs thread).waitState

instance (system : SemSystem P Q) : ∀ operation, Decidable (SemLegal system operation)
  | .down _ => inferInstanceAs (Decidable (_ ∧ _))
  | .resume _ => inferInstanceAs (Decidable (_ ∧ _ ∧ _))
  | .tryDown _ => inferInstanceAs (Decidable True)
  | .up _ => inferInstanceAs (Decidable (_ < _))
  | .kill _ => inferInstanceAs (Decidable True)
  | .elsewhere _ => inferInstanceAs (Decidable (∀ thread ∈ _, _))

/-- A thread calls `up` only after a `down` of its own. -/
def SemPaired (system : SemSystem P Q) (operation : SemOperation P Q) : Prop :=
  SemLegal system operation ∧ ∀ thread, operation = .up thread → thread ∈ system.holding

/-- The queue, the value and the history agree. -/
structure Balanced (value : Nat) (system : SemSystem P Q) (waiting : List P) : Prop where
  queues : system.state.Queues waiting
  members : ∀ thread ∈ waiting, thread ∈ system.inside
  flying : ∀ thread ∈ system.inside, thread ∉ waiting → system.state.Granted thread
  idle : 0 < system.state.value → waiting = []
  nonneg : 0 ≤ system.state.value
  balance : (value + system.ups + waiting.length : Int) =
    system.state.value + system.downs + system.tryDowns + system.inside.card
  fifo : system.arrived = system.granted ++ waiting

variable {schedClass} {idleproc} {value : Nat} {system : SemSystem P Q} {waiting : List P}

omit [DecidableEq P] in
theorem wtKsem_not_interrupted : wtKsem &&& wtInterrupted = 0 := by decide

/-- The first half of `down` keeps the balance. -/
theorem down_balanced {thread : P} {next : SemSystem P Q} (balanced : Balanced value system waiting)
    (legal : SemLegal system (.down thread))
    (taken : semStep schedClass idleproc system (.down thread) = some next) :
    ∃ waiting, Balanced value next waiting := by
  obtain ⟨running, outside⟩ := legal
  have absent : thread ∉ waiting := fun member => outside (balanced.members thread member)
  by_cases free : 0 < system.state.value
  · obtain rfl : waiting = [] := balanced.idle free
    simp only [semStep, downStart, free, if_true, Option.map_some, Option.some.injEq] at taken
    subst taken
    refine ⟨[], ⟨balanced.queues.ring, by simp⟩, by simp, ?_, by simp, ?_, ?_, balanced.fifo⟩
    · intro other member notListed
      exact ⟨(balanced.flying other member notListed).detached, (balanced.flying other member notListed).flags⟩
    · change 0 ≤ system.state.value - 1
      omega
    · have balance := balanced.balance
      simp only [List.length_nil] at balance ⊢
      omega
  · obtain ⟨state, returned, queues, same, granted, frame⟩ :=
      waitCurrentSet_exact balanced.queues running absent
    simp only [semStep, downStart, free, if_false, returned, Option.map_some, Option.some.injEq,
      Bool.false_eq_true] at taken
    subst taken
    refine ⟨waiting ++ [thread], queues, ?_, ?_, ?_, same ▸ balanced.nonneg, ?_, ?_⟩
    · intro other member
      rcases List.mem_append.mp member with old | new
      · exact Finset.mem_insert_of_mem (balanced.members other old)
      · exact Finset.mem_insert.mpr (Or.inl (List.mem_singleton.mp new))
    · intro other member notListed
      simp only [List.mem_append, List.mem_singleton, not_or] at notListed
      have old := Finset.mem_of_mem_insert_of_ne member notListed.2
      exact granted other notListed.2 notListed.1 (balanced.flying other old notListed.1)
    · intro positive
      exact absurd (same ▸ positive) free
    · have card := Finset.card_insert_of_notMem outside
      have balance := balanced.balance
      simp only [List.length_append, List.length_singleton, card, same]
      omega
    · simp [balanced.fifo]

/-- A thread that goes on with `down` has been granted the semaphore, so `__down`
returns 0 and the assertion of `down` holds. -/
theorem resume_balanced {thread : P} (balanced : Balanced value system waiting)
    (legal : SemLegal system (.resume thread)) :
    ∃ next, semStep schedClass idleproc system (.resume thread) = some next ∧
      Balanced value next waiting := by
  obtain ⟨running, member, runnable⟩ := legal
  have absent : thread ∉ waiting := by
    intro listed
    have asleep := (balanced.queues.asleep thread listed).2.2.1
    rw [runnable] at asleep
    cases asleep
  have granted := balanced.flying thread member absent
  refine ⟨{ system with
    inside := system.inside.erase thread
    downs := system.downs + 1
    holding := thread :: system.holding }, by simp [semStep, downFinish_granted granted],
    ⟨balanced.queues, ?_, ?_, balanced.idle, balanced.nonneg, ?_, balanced.fifo⟩⟩
  · intro other listed
    have different : other ≠ thread := fun same => absent (same ▸ listed)
    exact Finset.mem_erase.mpr ⟨different, balanced.members other listed⟩
  · exact fun other inErased => balanced.flying other (Finset.mem_of_mem_erase inErased)
  · have card := Finset.card_erase_add_one member
    have balance := balanced.balance
    dsimp only
    omega

/-- A `try_down` keeps the balance. -/
theorem tryDown_balanced {thread : P} {next : SemSystem P Q} (balanced : Balanced value system waiting)
    (taken : semStep schedClass idleproc system (.tryDown thread) = some next) :
    ∃ waiting, Balanced value next waiting := by
  by_cases free : 0 < system.state.value
  · obtain rfl : waiting = [] := balanced.idle free
    simp only [semStep, tryDown, free, if_true, Option.some.injEq] at taken
    subst taken
    refine ⟨[], ⟨balanced.queues.ring, by simp⟩, by simp, ?_, by simp, ?_, ?_, balanced.fifo⟩
    · intro other member notListed
      have granted := balanced.flying other member notListed
      exact ⟨granted.detached, granted.flags⟩
    · change 0 ≤ system.state.value - 1
      omega
    · have balance := balanced.balance
      simp only [List.length_nil] at balance ⊢
      omega
  · simp only [semStep, tryDown, free, if_false, Option.some.injEq, Bool.false_eq_true] at taken
    exact ⟨waiting, taken ▸ balanced⟩

/-- An `up` adds to the value or hands the semaphore to the first waiter. -/
theorem up_balanced {thread : P} {next : SemSystem P Q} (keeps : schedClass.Keeps)
    (balanced : Balanced value system waiting)
    (taken : semStep schedClass idleproc system (.up thread) = some next) :
    ∃ waiting, Balanced value next waiting := by
  obtain ⟨state, returned, rfl⟩ := Option.map_eq_some_iff.mp taken
  have first := waitQueueFirst_exact balanced.queues
  have balance := balanced.balance
  have nonneg := balanced.nonneg
  cases waiting with
  | nil =>
    rw [up_empty balanced.queues] at returned
    obtain rfl := Option.some.inj returned
    refine ⟨[], ⟨balanced.queues.ring, by simp⟩, by simp, ?_, fun _ => rfl, ?_, ?_, ?_⟩
    · intro other member notListed
      have granted := balanced.flying other member notListed
      exact ⟨granted.detached, granted.flags⟩
    · change 0 ≤ system.state.value + 1
      omega
    · simp only [List.length_nil] at balance ⊢
      omega
    · simpa [first] using balanced.fifo
  | cons waiter rest =>
    obtain ⟨queues, granted, same, frame⟩ := up_waiting keeps balanced.queues returned
    have notFree : ¬ 0 < system.state.value := fun free => absurd (balanced.idle free) (by simp)
    refine ⟨rest, queues, ?_, ?_, fun free => absurd (same ▸ free) notFree, same ▸ nonneg, ?_, ?_⟩
    · exact fun other member => balanced.members other (List.mem_cons_of_mem _ member)
    · intro other member notListed
      by_cases isWaiter : other = waiter
      · exact isWaiter ▸ granted
      · have absent : other ∉ waiter :: rest := by simp [isWaiter, notListed]
        exact frame other absent (balanced.flying other member absent)
    · simp only [List.length_cons, same] at balance ⊢
      omega
    · simp [first, balanced.fifo]

omit [DecidableEq P] in
/-- Changes of the kernel that leave the threads inside `down` alone keep the balance. -/
theorem Balanced.of_kernel {kernel : Kernel P Q} {exiting : P → Bool}
    (balanced : Balanced value system waiting)
    (same : ∀ thread ∈ waiting,
      (kernel.procs thread).state = (system.state.kernel.procs thread).state ∧
        (kernel.procs thread).waitState = (system.state.kernel.procs thread).waitState) :
    Balanced value { system with state := { system.state with kernel := kernel }, exiting := exiting }
      waiting := by
  refine ⟨⟨balanced.queues.ring, ?_⟩, balanced.members, ?_, balanced.idle, balanced.nonneg,
    balanced.balance, balanced.fifo⟩
  · intro thread member
    obtain ⟨state, waitState⟩ := same thread member
    simp only [state, waitState]
    exact balanced.queues.asleep thread member
  · intro thread member absent
    have granted := balanced.flying thread member absent
    exact ⟨granted.detached, granted.flags⟩

/-- A kill wakes no thread of the queue: `WT_KSEM` is not interruptible. -/
theorem kill_balanced {thread : P} {next : SemSystem P Q} (keeps : schedClass.Keeps)
    (balanced : Balanced value system waiting)
    (taken : semStep schedClass idleproc system (.kill thread) = some next) :
    Balanced value next waiting := by
  simp only [semStep, doKill] at taken
  split at taken
  · exact Option.some.inj taken ▸ balanced
  · split at taken
    · rename_i interruptible
      obtain ⟨kernel, woken, rfl⟩ := Option.map_eq_some_iff.mp taken
      have absent : thread ∉ waiting := by
        intro listed
        rw [(balanced.queues.asleep thread listed).2.2.2] at interruptible
        exact interruptible wtKsem_not_interrupted
      refine balanced.of_kernel fun other member => ?_
      exact (wakeupProc_frame keeps woken).2 other fun same => absent (same ▸ member)
    · obtain rfl := Option.some.inj taken
      exact balanced.of_kernel fun _ _ => ⟨rfl, rfl⟩

theorem semStep_balanced (keeps : schedClass.Keeps) (system : SemSystem P Q)
    (operation : SemOperation P Q) (next : SemSystem P Q)
    (balanced : ∃ waiting, Balanced value system waiting) (legal : SemLegal system operation)
    (taken : semStep schedClass idleproc system operation = some next) :
    ∃ waiting, Balanced value next waiting := by
  obtain ⟨waiting, balanced⟩ := balanced
  cases operation with
  | down thread => exact down_balanced balanced legal taken
  | resume thread =>
    obtain ⟨result, returned, kept⟩ := resume_balanced balanced legal
    obtain rfl : result = next := Option.some.inj (returned.symm.trans taken)
    exact ⟨waiting, kept⟩
  | tryDown thread => exact tryDown_balanced balanced taken
  | up thread => exact up_balanced keeps balanced taken
  | kill thread => exact ⟨waiting, kill_balanced keeps balanced taken⟩
  | elsewhere kernel =>
    obtain rfl := Option.some.inj taken
    exact ⟨waiting, balanced.of_kernel fun thread member => legal thread (balanced.members thread member)⟩

theorem bootSem_balanced (state : SemState P Q) (exiting : P → Bool) :
    Balanced value (bootSem value state exiting) [] where
  queues := ⟨listInit_ring _ _, by simp⟩
  members := by simp
  flying := by simp [bootSem]
  idle _ := rfl
  nonneg := Int.natCast_nonneg value
  balance := by simp [bootSem, semInit, waitQueueInit]
  fifo := rfl

theorem reached_balanced (keeps : schedClass.Keeps) {start : SemState P Q} {exiting : P → Bool}
    (reached : Reaches (semStep schedClass idleproc) SemLegal (bootSem value start exiting) system) :
    ∃ waiting, Balanced value system waiting :=
  reached.invariant ⟨[], bootSem_balanced start exiting⟩ (semStep_balanced keeps)

/-- The wakeups granted but not yet returned. -/
def SemSystem.inFlight (system : SemSystem P Q) : Nat :=
  (system.inside.filter fun thread => listEmpty system.state.links (.link thread) = true).card

/-- The threads inside `down` are those in the queue and those granted. -/
theorem Balanced.inside_card (balanced : Balanced value system waiting) :
    system.inside.card = waiting.length + system.inFlight := by
  have queued : (system.inside.filter fun thread =>
      ¬ listEmpty system.state.links (.link thread) = true) = waiting.toFinset := by
    ext thread
    simp only [Finset.mem_filter, List.mem_toFinset]
    constructor
    · rintro ⟨member, notEmpty⟩
      by_contra absent
      exact notEmpty ((listEmpty_iff (balanced.flying thread member absent).detached).mpr rfl)
    · intro listed
      have inRing : Entry.link thread ∈ waiting.map Entry.link := List.mem_map.mpr ⟨thread, listed, rfl⟩
      exact ⟨balanced.members thread listed, by simp [listEmpty_node balanced.queues.ring inRing]⟩
  have parts := Finset.card_filter_add_card_filter_not (s := system.inside)
    (fun thread => listEmpty system.state.links (.link thread) = true)
  rw [queued, List.toFinset_card_of_nodup balanced.queues.nodup] at parts
  unfold SemSystem.inFlight
  omega

variable (schedClass) (idleproc) (value) (system) (waiting) in
/-- The promises of a semaphore whose queue holds `waiting`. -/
structure SemExact : Prop where
  ring : Ring system.state.links .head (waiting.map Entry.link)
  nonneg : 0 ≤ system.state.value
  idle : 0 < system.state.value → waiting = []
  balance : (value + system.ups : Int) =
    system.state.value + system.downs + system.tryDowns + system.inFlight
  fifo : system.arrived = system.granted ++ waiting
  upAsserts : ∀ wait, waitQueueFirst system.state = some wait →
    ∃ proc, (system.state.waits wait).proc = some proc ∧
      (system.state.kernel.procs proc).waitState = wtKsem
  downAsserts : ∀ thread, (SemLegal system (.down thread) →
      ∃ next, semStep schedClass idleproc system (.down thread) = some next) ∧
    (SemLegal system (.resume thread) →
      ∃ next, semStep schedClass idleproc system (.resume thread) = some next)

theorem Balanced.exact (balanced : Balanced value system waiting) :
    SemExact schedClass idleproc value system waiting := by
  refine ⟨balanced.queues.ring, balanced.nonneg, balanced.idle, ?_, balanced.fifo, ?_, ?_⟩
  · have balance := balanced.balance
    have card := balanced.inside_card
    omega
  · intro wait first
    rw [waitQueueFirst_exact balanced.queues] at first
    have member := List.mem_of_mem_head? first
    obtain ⟨proc, _, _, waitState⟩ := balanced.queues.asleep wait member
    exact ⟨wait, proc, waitState⟩
  · intro thread
    constructor
    · rintro ⟨running, outside⟩
      by_cases free : 0 < system.state.value
      · exact ⟨_, by simp only [semStep, downStart, free, if_true, Option.map_some]; rfl⟩
      · obtain ⟨state, returned, _⟩ := waitCurrentSet_exact balanced.queues running
          fun member => outside (balanced.members thread member)
        exact ⟨_, by simp only [semStep, downStart, free, if_false, returned, Option.map_some]; rfl⟩
    · intro legal
      obtain ⟨next, returned, _⟩ := resume_balanced balanced legal
      exact ⟨next, returned⟩

/-- In a paired run, the downs not yet matched by an `up` are those of the threads
between `down` and `up`. -/
def Matched (system : SemSystem P Q) : Prop :=
  system.holding.length + system.ups = system.downs + system.tryDowns

theorem semStep_matched (system : SemSystem P Q) (operation : SemOperation P Q) (next : SemSystem P Q)
    (matched : Matched system) (paired : SemPaired system operation)
    (taken : semStep schedClass idleproc system operation = some next) : Matched next := by
  unfold Matched at matched ⊢
  cases operation with
  | down thread =>
    obtain ⟨⟨state, atOnce⟩, _, rfl⟩ := Option.map_eq_some_iff.mp taken
    cases atOnce
    · exact matched
    · simp only [if_true, List.length_cons]
      omega
  | resume thread =>
    obtain ⟨⟨state, flags⟩, _, finished⟩ := Option.bind_eq_some_iff.mp taken
    simp only at finished
    split at finished
    · obtain rfl := Option.some.inj finished
      simp only [List.length_cons]
      omega
    · cases finished
  | tryDown thread =>
    simp only [semStep] at taken
    split at taken
    · obtain rfl := Option.some.inj taken
      simp only [List.length_cons]
      omega
    · obtain rfl := Option.some.inj taken
      exact matched
  | up thread =>
    obtain ⟨state, _, rfl⟩ := Option.map_eq_some_iff.mp taken
    have member := paired.2 thread rfl
    have positive := List.length_pos_of_mem member
    simp only [List.length_erase_of_mem member]
    omega
  | kill thread =>
    simp only [semStep, doKill] at taken
    split at taken
    · exact Option.some.inj taken ▸ matched
    · split at taken
      · obtain ⟨kernel, _, rfl⟩ := Option.map_eq_some_iff.mp taken
        exact matched
      · obtain rfl := Option.some.inj taken
        exact matched
  | elsewhere kernel =>
    obtain rfl := Option.some.inj taken
    exact matched

/-- In every run a semaphore keeps its promises; a semaphore of value 1 whose users
call `up` only after a `down` of their own has at most one user at a time. -/
theorem semaphore_correct (schedClass : SchedClass P Q) (keeps : schedClass.Keeps) (idleproc : P)
    (value : Nat) (start : SemState P Q) (exiting : P → Bool) :
    (∀ system, Reaches (semStep schedClass idleproc) SemLegal (bootSem value start exiting) system →
      ∃ waiting, SemExact schedClass idleproc value system waiting) ∧
    (value = 1 → ∀ system,
      Reaches (semStep schedClass idleproc) SemPaired (bootSem value start exiting) system →
        system.holding.length + system.inFlight ≤ 1) := by
  refine ⟨?_, ?_⟩
  · intro system reached
    obtain ⟨waiting, balanced⟩ := reached_balanced keeps reached
    exact ⟨waiting, balanced.exact⟩
  · rintro rfl system reached
    have legal := reached.mono fun _ _ paired => paired.1
    obtain ⟨waiting, balanced⟩ := reached_balanced keeps legal
    have matched : Matched system := reached.invariant (by simp [Matched, bootSem]) semStep_matched
    have balance := balanced.balance
    have card := balanced.inside_card
    have nonneg := balanced.nonneg
    unfold Matched at matched
    omega

/-- A kernel in which every thread is runnable and `current` runs. -/
def allRunnable (current : Nat) : Kernel Nat (RunQueue Nat) where
  procs _ := ⟨.runnable, 0, false, 0, 0⟩
  queue := { links := { prev := id, next := id }, procNum := 0, maxTimeSlice := 0, rq := fun _ => false }
  current := some current
  enqueued := []
  picked := []

/-- A memory before `sem_init`, with thread 1 running. -/
def beforeSem : SemState Nat (RunQueue Nat) where
  kernel := allRunnable 1
  value := 0
  links := { prev := id, next := id }
  waits _ := ⟨none, 0, false⟩

/-- `SemPaired`, tested. -/
def semPaired (system : SemSystem Nat (RunQueue Nat)) : SemOperation Nat (RunQueue Nat) → Bool
  | .up thread => decide (SemLegal system (.up thread)) && decide (thread ∈ system.holding)
  | operation => decide (SemLegal system operation)

theorem semPaired_sound (system : SemSystem Nat (RunQueue Nat))
    (operation : SemOperation Nat (RunQueue Nat)) (tested : semPaired system operation = true) :
    SemPaired system operation := by
  cases operation with
  | up thread =>
    obtain ⟨legal, member⟩ := Bool.and_eq_true_iff.mp tested
    refine ⟨of_decide_eq_true legal, ?_⟩
    rintro other same
    obtain rfl := SemOperation.up.inj same
    exact of_decide_eq_true member
  | down thread => exact ⟨of_decide_eq_true tested, by simp⟩
  | resume thread => exact ⟨of_decide_eq_true tested, by simp⟩
  | tryDown thread => exact ⟨of_decide_eq_true tested, by simp⟩
  | kill thread => exact ⟨of_decide_eq_true tested, by simp⟩
  | elsewhere kernel => exact ⟨of_decide_eq_true tested, by simp⟩

/-- Thread 2 waits for thread 1, survives a kill and gets the semaphore. -/
theorem semaphore_correct_two_threads :
    ∃ system, Reaches (semStep defaultSchedClass 0) SemPaired
        (bootSem 1 beforeSem fun _ => false) system ∧
      system.holding = [2] ∧ (∃ waiting, SemExact defaultSchedClass 0 1 system waiting) ∧
      system.holding.length + system.inFlight ≤ 1 := by
  have completed : (run (guarded (semStep defaultSchedClass 0) semPaired)
      [.down 1, .elsewhere (allRunnable 2), .down 2, .kill 2, .up 1, .elsewhere (allRunnable 2),
        .resume 2] (bootSem 1 beforeSem fun _ => false)).map SemSystem.holding = some [2] := by
    decide +kernel
  obtain ⟨system, last, holding⟩ := Option.map_eq_some_iff.mp completed
  have paired := guarded_reaches semPaired_sound _ _ _ last
  have legal := paired.mono fun _ _ both => both.1
  obtain ⟨exact, exclusive⟩ :=
    semaphore_correct defaultSchedClass defaultSchedClass_keeps 0 1 beforeSem fun _ => false
  exact ⟨system, paired, holding, exact system legal, exclusive rfl system paired⟩

end Ucore.Sync
