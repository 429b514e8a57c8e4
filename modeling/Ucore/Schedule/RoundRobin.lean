import Ucore.Schedule.DefaultSched
import Ucore.Library.Transition

/-!
# Runs of the round-robin scheduler

A run starts with `idleproc` alone and continues with process creation,
`wakeup_proc`, `schedule`, ticks, state changes of the running process and the
removal of zombies. The run list always holds the runnable processes that wait
for the processor, in the order of their arrival, and no assertion of the class
fails.
-/

namespace Ucore.Schedule

open CircularList EmbeddedList Transition

universe u
variable {P : Type u} [DecidableEq P] (idleproc : P)

/-- What happens to the run queue between two scheduling decisions. `create` is
`alloc_proc` with the guard of `do_fork`; `sleep` and `exit` are the writes to
`current->state` in the functions that then call `schedule`. -/
inductive Operation (P : Type u) where
  | create (proc : P) (fields : Proc)
  | wakeupProc (proc : P)
  | schedule
  | procTick (proc : P)
  | sleep (waitState : BitVec 32)
  | exit
  | reap (proc : P)

/-- The kernel state and the processes that exist. -/
structure System (P : Type u) where
  kernel : Kernel P (RunQueue P)
  members : Finset P

/-- A write to the fields of the running process. -/
def setCurrent (kernel : Kernel P (RunQueue P)) (change : Proc → Proc) :
    Option (Kernel P (RunQueue P)) :=
  kernel.current.map fun current => kernel.setProc current (change (kernel.procs current))

/-- `alloc_proc` for the scheduler: the fields of the new process and an empty `run_link`. -/
def allocProc (kernel : Kernel P (RunQueue P)) (proc : P) (fields : Proc) : Kernel P (RunQueue P) :=
  { kernel.setProc proc fields with queue := { kernel.queue with
      links := listInit kernel.queue.links (.link proc)
      rq := Function.update kernel.queue.rq proc false } }

/-- The state after `sched_init` and the first lines of `proc_init`. -/
def boot (procs : P → Proc) (queue : RunQueue P) : System P where
  kernel :=
    { procs := Function.update procs idleproc
        { procs idleproc with state := .runnable, needResched := true }
      queue := schedInit { queue with links := listInit queue.links (.link idleproc) }
      current := some idleproc
      enqueued := []
      picked := [] }
  members := {idleproc}

/-- One operation; `none` is a failed assertion. -/
def step (system : System P) : Operation P → Option (System P)
  | .create proc fields =>
      some { kernel := allocProc system.kernel proc fields, members := insert proc system.members }
  | .wakeupProc proc =>
      (wakeupProc defaultSchedClass idleproc system.kernel proc).map fun kernel =>
        { system with kernel := kernel }
  | .schedule =>
      (schedule defaultSchedClass idleproc system.kernel).map fun kernel =>
        { system with kernel := kernel }
  | .procTick proc =>
      (schedClassProcTick defaultSchedClass idleproc system.kernel proc).map fun kernel =>
        { system with kernel := kernel }
  | .sleep waitState =>
      (setCurrent system.kernel fun fields =>
        { fields with state := .sleeping, waitState := waitState }).map fun kernel =>
          { system with kernel := kernel }
  | .exit =>
      (setCurrent system.kernel fun fields => { fields with state := .zombie }).map fun kernel =>
        { system with kernel := kernel }
  | .reap proc => some { system with members := system.members.erase proc }

/-- A new process is outside the system and within `MAX_PROCESS`; wakeups are for
existing processes that are not zombies; only zombies that do not run are removed. -/
def Legal (system : System P) : Operation P → Prop
  | .create proc fields =>
      proc ∉ system.members ∧ system.members.card < maxProcess ∧ fields.state = .uninit
  | .wakeupProc proc => proc ∈ system.members ∧ (system.kernel.procs proc).state ≠ .zombie
  | .schedule => True
  | .procTick proc => proc ∈ system.members
  | .sleep _ => True
  | .exit => True
  | .reap proc => proc ≠ idleproc ∧ (system.kernel.procs proc).state = .zombie ∧
      system.kernel.current ≠ some proc

instance (system : System P) : ∀ operation, Decidable (Legal idleproc system operation)
  | .create _ _ => inferInstanceAs (Decidable (_ ∧ _ ∧ _))
  | .wakeupProc _ => inferInstanceAs (Decidable (_ ∧ _))
  | .schedule => inferInstanceAs (Decidable True)
  | .procTick _ => inferInstanceAs (Decidable (_ ∈ _))
  | .sleep _ => inferInstanceAs (Decidable True)
  | .exit => inferInstanceAs (Decidable True)
  | .reap _ => inferInstanceAs (Decidable (_ ∧ _ ∧ _))

/-- A process that waits for the processor. -/
def Waits (system : System P) (proc : P) : Prop :=
  proc ∈ system.members ∧ (system.kernel.procs proc).state = .runnable ∧
    system.kernel.current ≠ some proc ∧ proc ≠ idleproc

/-- The run queue holds exactly the waiting processes, in order of arrival. -/
structure Queued (system : System P) (waiting : List P) : Prop where
  holds : system.kernel.queue.Represents (· ∈ system.members) waiting
  exact : ∀ proc, proc ∈ waiting ↔ Waits idleproc system proc
  fifo : system.kernel.enqueued = system.kernel.picked ++ waiting
  running : ∃ current ∈ system.members, system.kernel.current = some current
  idle : idleproc ∈ system.members
  few : system.members.card ≤ maxProcess

variable {idleproc} {system : System P} {waiting : List P}

/-- The counter has room for one more process. -/
theorem Queued.room (queued : Queued idleproc system waiting) : waiting.length + 1 < 2 ^ 32 := by
  have bound : waiting.toFinset.card ≤ system.members.card := by
    refine Finset.card_le_card fun proc member => ?_
    exact ((queued.exact proc).mp (List.mem_toFinset.mp member)).1
  rw [List.toFinset_card_of_nodup queued.holds.nodup] at bound
  have few := queued.few
  simp only [maxProcess] at few
  omega

/-- The processes that a call of `sched_class_enqueue` adds. -/
def added (idleproc proc : P) : List P := if proc = idleproc then [] else [proc]

/-- `sched_class_enqueue` puts a process outside the queue last, `idleproc` excepted. -/
theorem schedClassEnqueue_exact {kernel : Kernel P (RunQueue P)} {known : P → Prop} {proc : P}
    (rep : kernel.queue.Represents known waiting) (isKnown : known proc) (absent : proc ∉ waiting)
    (room : waiting.length + 1 < 2 ^ 32) :
    ∃ after, schedClassEnqueue defaultSchedClass idleproc kernel proc = some after ∧
      after.queue.Represents known (waiting ++ added idleproc proc) ∧
      after.current = kernel.current ∧
      after.enqueued = kernel.enqueued ++ added idleproc proc ∧ after.picked = kernel.picked ∧
      ∀ other, (after.procs other).state = (kernel.procs other).state := by
  by_cases idle : proc = idleproc
  · refine ⟨kernel, by simp [schedClassEnqueue, idle], ?_, rfl, ?_, rfl, fun _ => rfl⟩
    · simpa [added, idle] using rep
    · simp [added, idle]
  · obtain ⟨after, returned, kept, current, enqueued, picked, states⟩ :=
      rep.rrEnqueue_exact isKnown absent room
    refine ⟨{ after with enqueued := after.enqueued ++ [proc] }, ?_, ?_, current, ?_, picked, states⟩
    · simp [schedClassEnqueue, idle, defaultSchedClass, returned]
    · simpa [added, idle] using kept
    · simp [added, idle, enqueued]

/-- A creation adds a process that does not wait yet. -/
theorem create_queued {proc : P} {fields : Proc} (queued : Queued idleproc system waiting)
    (legal : Legal idleproc system (.create proc fields)) :
    Queued idleproc
      { kernel := allocProc system.kernel proc fields, members := insert proc system.members }
      waiting := by
  obtain ⟨fresh, below, uninit⟩ := legal
  have absent : proc ∉ waiting := fun member => fresh ((queued.exact proc).mp member).1
  refine ⟨⟨?_, queued.holds.counted, ?_, ?_⟩, ?_, queued.fifo, ?_, ?_, ?_⟩
  · exact listInit_frame queued.holds.ring (by simpa using absent)
  · intro other member
    have different : other ≠ proc := fun same => absent (same ▸ member)
    simpa [allocProc, Function.update_of_ne different] using queued.holds.owned other member
  · intro other known notListed
    by_cases same : other = proc
    · subst same
      exact listInit_ring _ _
    · have member : other ∈ system.members := Finset.mem_of_mem_insert_of_ne known same
      exact listInit_frame (queued.holds.detached other member notListed) (by simpa using Ne.symm same)
  · intro other
    rw [queued.exact other]
    by_cases same : other = proc
    · subst same
      simp [Waits, allocProc, Kernel.setProc_procs, fresh, uninit]
    · simp [Waits, allocProc, Kernel.setProc_procs, same]
  · obtain ⟨current, member, running⟩ := queued.running
    exact ⟨current, Finset.mem_insert_of_mem member, running⟩
  · exact Finset.mem_insert_of_mem queued.idle
  · have card := Finset.card_insert_of_notMem fresh
    simp only [card]
    omega

omit [DecidableEq P] in
/-- Writes to fields other than the states of the waiting processes keep the queue. -/
theorem Queued.of_states {kernel : Kernel P (RunQueue P)} (queued : Queued idleproc system waiting)
    (sameQueue : kernel.queue = system.kernel.queue)
    (sameCurrent : kernel.current = system.kernel.current)
    (sameEnqueued : kernel.enqueued = system.kernel.enqueued)
    (samePicked : kernel.picked = system.kernel.picked)
    (states : ∀ proc, system.kernel.current ≠ some proc → proc ≠ idleproc →
      (kernel.procs proc).state = (system.kernel.procs proc).state) :
    Queued idleproc { system with kernel := kernel } waiting := by
  refine ⟨sameQueue ▸ queued.holds, ?_, ?_, sameCurrent ▸ queued.running, queued.idle, queued.few⟩
  · intro proc
    rw [queued.exact proc]
    simp only [Waits, sameCurrent]
    constructor
    · rintro ⟨member, runnable, waits, notIdle⟩
      exact ⟨member, (states proc waits notIdle).trans runnable, waits, notIdle⟩
    · rintro ⟨member, runnable, waits, notIdle⟩
      exact ⟨member, (states proc waits notIdle).symm.trans runnable, waits, notIdle⟩
  · rw [sameEnqueued, samePicked, queued.fifo]

/-- A wakeup enqueues a process exactly when it starts to wait. -/
theorem wakeupProc_queued {proc : P} (queued : Queued idleproc system waiting)
    (legal : Legal idleproc system (.wakeupProc proc)) :
    ∃ kernel waiting, wakeupProc defaultSchedClass idleproc system.kernel proc = some kernel ∧
      Queued idleproc { system with kernel := kernel } waiting := by
  obtain ⟨member, alive⟩ := legal
  by_cases runnable : (system.kernel.procs proc).state = .runnable
  · exact ⟨system.kernel, waiting, by simp [wakeupProc, runnable], queued⟩
  have absent : proc ∉ waiting := fun listed => runnable ((queued.exact proc).mp listed).2.1
  have woken : ∀ other, other ≠ proc →
      ((makeRunnable system.kernel proc).procs other).state = (system.kernel.procs other).state := by
    intro other different
    simp [makeRunnable, Kernel.setProc_procs, different]
  by_cases self : system.kernel.current = some proc
  · refine ⟨makeRunnable system.kernel proc, waiting, ?_, ?_⟩
    · simp [wakeupProc, alive, runnable, makeRunnable, self]
    · refine queued.of_states rfl rfl rfl rfl fun other waits _ => woken other ?_
      rintro rfl
      exact waits self
  · have held : (makeRunnable system.kernel proc).queue.Represents (· ∈ system.members) waiting :=
      queued.holds
    obtain ⟨after, returned, kept, current, enqueued, picked, states⟩ :=
      schedClassEnqueue_exact held member absent queued.room
    refine ⟨after, waiting ++ added idleproc proc, ?_, ⟨kept, ?_, ?_, ?_, queued.idle, queued.few⟩⟩
    · have other : (makeRunnable system.kernel proc).current ≠ some proc := self
      simp [wakeupProc, alive, runnable, other, returned]
    · intro other
      have currentKept : after.current = system.kernel.current := current
      simp only [List.mem_append, queued.exact other, Waits, states, currentKept]
      by_cases same : other = proc
      · subst same
        by_cases idle : other = idleproc
        · simp [added, idle]
        · simp [added, idle, member, self, makeRunnable, Kernel.setProc_procs, runnable]
      · have notAdded : other ∉ added idleproc proc := by
          unfold added
          split <;> simp [same]
        simp [notAdded, woken other same]
    · change after.enqueued = after.picked ++ (waiting ++ added idleproc proc)
      rw [enqueued, picked, ← List.append_assoc]
      exact congrArg (· ++ added idleproc proc) queued.fifo
    · exact current ▸ queued.running

/-- The processes that compete for the processor when the running one may go on. -/
def candidates (idleproc : P) (system : System P) (current : P) (waiting : List P) : List P :=
  waiting ++ if (system.kernel.procs current).state = .runnable then added idleproc current else []

/-- The candidates are the runnable processes, `idleproc` excepted. -/
theorem mem_candidates {current : P} (queued : Queued idleproc system waiting)
    (member : current ∈ system.members) (running : system.kernel.current = some current) (proc : P) :
    proc ∈ candidates idleproc system current waiting ↔
      proc ∈ system.members ∧ (system.kernel.procs proc).state = .runnable ∧ proc ≠ idleproc := by
  simp only [candidates, List.mem_append, queued.exact proc, Waits, running]
  by_cases same : proc = current
  · subst same
    by_cases runnable : (system.kernel.procs proc).state = .runnable
    · by_cases idle : proc = idleproc
      · simp [added, idle]
      · simp [added, idle, runnable, member]
    · simp [runnable]
  · have other : some current ≠ some proc := fun equal => same (Option.some.inj equal).symm
    have notAdded : proc ∉ (if (system.kernel.procs current).state = .runnable then
        added idleproc current else []) := by
      unfold added
      split
      · split <;> simp [same]
      · simp
    simp [other, notAdded]

/-- The running process joins the queue if it may go on. -/
theorem scheduleOut_exact {current : P} (queued : Queued idleproc system waiting)
    (member : current ∈ system.members) (running : system.kernel.current = some current) :
    ∃ after, scheduleOut defaultSchedClass idleproc system.kernel current = some after ∧
      after.queue.Represents (· ∈ system.members) (candidates idleproc system current waiting) ∧
      after.current = some current ∧
      after.enqueued = after.picked ++ candidates idleproc system current waiting ∧
      ∀ other, (after.procs other).state = (system.kernel.procs other).state := by
  have absent : current ∉ waiting := fun listed => ((queued.exact current).mp listed).2.2.1 running
  let kernel := system.kernel.setProc current { system.kernel.procs current with needResched := false }
  have states : ∀ other, (kernel.procs other).state = (system.kernel.procs other).state := by
    intro other
    by_cases same : other = current
    · subst same
      simp [kernel, Kernel.setProc_procs]
    · simp [kernel, Kernel.setProc_procs, same]
  have held : kernel.queue.Represents (· ∈ system.members) waiting := queued.holds
  by_cases runnable : (system.kernel.procs current).state = .runnable
  · obtain ⟨after, returned, kept, stays, enqueued, picked, same⟩ :=
      schedClassEnqueue_exact held member absent queued.room
    have all : candidates idleproc system current waiting = waiting ++ added idleproc current := by
      simp [candidates, runnable]
    rw [all]
    refine ⟨after, ?_, kept, stays.trans running, ?_, fun other => (same other).trans (states other)⟩
    · simp only [scheduleOut]
      rw [if_pos ((states current).trans runnable)]
      exact returned
    · rw [enqueued, picked, ← List.append_assoc]
      exact congrArg (· ++ added idleproc current) queued.fifo
  · have all : candidates idleproc system current waiting = waiting := by
      simp [candidates, runnable]
    rw [all]
    refine ⟨kernel, ?_, held, running, queued.fifo, states⟩
    simp only [scheduleOut]
    exact if_neg fun still => runnable ((states current).symm.trans still)

/-- The first candidate leaves the queue. -/
theorem chooseNext_exact {kernel : Kernel P (RunQueue P)} {known : P → Prop}
    (held : kernel.queue.Represents known waiting)
    (fifo : kernel.enqueued = kernel.picked ++ waiting) (small : waiting.length < 2 ^ 32) :
    ∃ after, chooseNext defaultSchedClass kernel = some (waiting.head?, after) ∧
      after.queue.Represents known waiting.tail ∧ after.current = kernel.current ∧
      after.enqueued = after.picked ++ waiting.tail ∧ after.procs = kernel.procs := by
  have pick : schedClassPickNext defaultSchedClass kernel =
      (waiting.head?, { kernel with picked := kernel.picked ++ waiting.head?.toList }) := by
    simp [schedClassPickNext, defaultSchedClass, held.rrPickNext_exact]
  cases waiting with
  | nil =>
    refine ⟨{ kernel with picked := kernel.picked ++ [] }, ?_, held, rfl, by simpa using fifo, rfl⟩
    simp only [chooseNext, pick, List.head?_nil, Option.toList_none]
  | cons next rest =>
    have heldNow : ({ kernel with picked := kernel.picked ++ [next] } :
        Kernel P (RunQueue P)).queue.Represents known (next :: rest) := held
    obtain ⟨after, returned, kept, procs, stays, enqueued, picked⟩ :=
      heldNow.rrDequeue_exact (by simpa using small)
    refine ⟨after, ?_, kept, stays, ?_, procs⟩
    · have dequeue : schedClassDequeue defaultSchedClass
          { kernel with picked := kernel.picked ++ [next] } next = some after := returned
      simp only [chooseNext, pick, List.head?_cons, Option.toList_some, dequeue, Option.map_some]
    · rw [enqueued, picked, List.append_assoc]
      exact fifo

/-- There are fewer candidates than `proc_num` can count. -/
theorem Queued.small {competing : List P} (queued : Queued idleproc system waiting) (once : competing.Nodup)
    (inside : ∀ proc ∈ competing, proc ∈ system.members) : competing.length < 2 ^ 32 := by
  have bound : competing.toFinset.card ≤ system.members.card :=
    Finset.card_le_card fun proc listed => inside proc (List.mem_toFinset.mp listed)
  rw [List.toFinset_card_of_nodup once] at bound
  have few := queued.few
  simp only [maxProcess] at few
  omega

/-- `schedule` runs the first candidate, or `idleproc` when there is none. -/
theorem schedule_queued (queued : Queued idleproc system waiting) :
    ∃ kernel waiting, schedule defaultSchedClass idleproc system.kernel = some kernel ∧
      Queued idleproc { system with kernel := kernel } waiting := by
  obtain ⟨current, member, running⟩ := queued.running
  obtain ⟨left, out, held, stays, fifo, states⟩ := scheduleOut_exact queued member running
  have competes := mem_candidates queued member running
  generalize candidates idleproc system current waiting = competing at held fifo competes
  have small := queued.small held.nodup fun proc listed => ((competes proc).mp listed).1
  obtain ⟨chosen, choice, rest, same, order, procs⟩ := chooseNext_exact held fifo small
  obtain ⟨runs, sameQueue, sameEnqueued, samePicked, sameStates⟩ :=
    scheduleIn_exact idleproc chosen current competing.head? (same.trans stays)
  refine ⟨scheduleIn idleproc chosen current competing.head?, competing.tail, ?_,
    ⟨sameQueue ▸ rest, ?_, ?_, ?_, queued.idle, queued.few⟩⟩
  · simp [schedule, running, out, choice]
  · intro proc
    have state : ((scheduleIn idleproc chosen current competing.head?).procs proc).state =
        (system.kernel.procs proc).state := by rw [sameStates, procs, states]
    simp only [Waits, state, runs]
    cases competing with
    | nil =>
      have none_left := competes proc
      simp only [List.not_mem_nil, false_iff, not_and] at none_left
      simp only [List.tail_nil, List.not_mem_nil, false_iff, not_and]
      intro known runnable _
      exact none_left known runnable
    | cons next remaining =>
      have nodup := List.nodup_cons.mp held.nodup
      have competesHere := competes proc
      simp only [List.mem_cons] at competesHere
      simp only [List.tail_cons, List.head?_cons, Option.getD_some, ne_eq, Option.some.injEq]
      constructor
      · intro listed
        obtain ⟨known, runnable, notIdle⟩ := competesHere.mp (Or.inr listed)
        exact ⟨known, runnable, fun first => nodup.1 (first ▸ listed), notIdle⟩
      · rintro ⟨known, runnable, notFirst, notIdle⟩
        rcases competesHere.mpr ⟨known, runnable, notIdle⟩ with first | listed
        · exact absurd first.symm notFirst
        · exact listed
  · rw [sameEnqueued, samePicked, order]
  · refine ⟨competing.head?.getD idleproc, ?_, runs⟩
    cases competing with
    | nil => exact queued.idle
    | cons next remaining => exact ((competes next).mp List.mem_cons_self).1

/-- A tick changes no state. -/
theorem procTick_queued (proc : P) (queued : Queued idleproc system waiting) :
    ∃ kernel, schedClassProcTick defaultSchedClass idleproc system.kernel proc = some kernel ∧
      Queued idleproc { system with kernel := kernel } waiting := by
  have kept : ∀ fields : Proc, fields.state = (system.kernel.procs proc).state →
      Queued idleproc { system with kernel := system.kernel.setProc proc fields } waiting := by
    intro fields sameState
    refine queued.of_states rfl rfl rfl rfl fun other _ _ => ?_
    by_cases same : other = proc
    · subst same
      simpa [Kernel.setProc_procs] using sameState
    · simp [Kernel.setProc_procs, same]
  by_cases idle : proc = idleproc
  · refine ⟨system.kernel.setProc proc { system.kernel.procs proc with needResched := true }, ?_,
      kept _ rfl⟩
    simp [schedClassProcTick, idle]
  · have ticked : schedClassProcTick defaultSchedClass idleproc system.kernel proc =
        rrProcTick system.kernel proc := by simp [schedClassProcTick, idle, defaultSchedClass]
    rw [ticked]
    refine ⟨_, rfl, kept _ ?_⟩
    split <;> split <;> rfl

/-- A write to the running process keeps the queue: the process does not wait. -/
theorem setCurrent_queued (change : Proc → Proc) (queued : Queued idleproc system waiting) :
    ∃ kernel, setCurrent system.kernel change = some kernel ∧
      Queued idleproc { system with kernel := kernel } waiting := by
  obtain ⟨current, member, running⟩ := queued.running
  refine ⟨system.kernel.setProc current (change (system.kernel.procs current)),
    by simp [setCurrent, running], ?_⟩
  refine queued.of_states rfl rfl rfl rfl fun other waits _ => ?_
  have different : other ≠ current := fun same => waits (same ▸ running)
  simp [Kernel.setProc_procs, different]

/-- The removal of a zombie removes no waiting process. -/
theorem reap_queued {proc : P} (queued : Queued idleproc system waiting)
    (legal : Legal idleproc system (.reap proc)) :
    Queued idleproc { system with members := system.members.erase proc } waiting := by
  obtain ⟨notIdle, zombie, notRunning⟩ := legal
  refine ⟨⟨queued.holds.ring, queued.holds.counted, queued.holds.owned, ?_⟩, ?_, queued.fifo, ?_, ?_, ?_⟩
  · exact fun other known absent => queued.holds.detached other (Finset.mem_of_mem_erase known) absent
  · intro other
    rw [queued.exact other]
    by_cases same : other = proc
    · subst same
      simp [Waits, zombie]
    · simp [Waits, same]
  · obtain ⟨current, member, running⟩ := queued.running
    have different : current ≠ proc := fun same => notRunning (same ▸ running)
    exact ⟨current, Finset.mem_erase.mpr ⟨different, member⟩, running⟩
  · exact Finset.mem_erase.mpr ⟨notIdle.symm, queued.idle⟩
  · exact (Finset.card_le_card (Finset.erase_subset _ _)).trans queued.few

/-- Every legal operation is accepted and leaves a queue of waiting processes. -/
theorem step_queued (operation : Operation P) (queued : Queued idleproc system waiting)
    (legal : Legal idleproc system operation) :
    ∃ next waiting, step idleproc system operation = some next ∧ Queued idleproc next waiting := by
  cases operation with
  | create proc fields => exact ⟨_, waiting, rfl, create_queued queued legal⟩
  | wakeupProc proc =>
    obtain ⟨kernel, waiting, returned, kept⟩ := wakeupProc_queued queued legal
    exact ⟨_, waiting, by simp [step, returned], kept⟩
  | schedule =>
    obtain ⟨kernel, waiting, returned, kept⟩ := schedule_queued queued
    exact ⟨_, waiting, by simp [step, returned], kept⟩
  | procTick proc =>
    obtain ⟨kernel, returned, kept⟩ := procTick_queued proc queued
    exact ⟨_, waiting, by simp [step, returned], kept⟩
  | sleep waitState =>
    obtain ⟨kernel, returned, kept⟩ := setCurrent_queued
      (fun fields => { fields with state := .sleeping, waitState := waitState }) queued
    exact ⟨_, waiting, by simp [step, returned], kept⟩
  | exit =>
    obtain ⟨kernel, returned, kept⟩ := setCurrent_queued
      (fun fields => { fields with state := .zombie }) queued
    exact ⟨_, waiting, by simp [step, returned], kept⟩
  | reap proc => exact ⟨_, waiting, rfl, reap_queued queued legal⟩

theorem boot_queued (procs : P → Proc) (queue : RunQueue P) :
    Queued idleproc (boot idleproc procs queue) [] := by
  refine ⟨RunQueue.Represents.schedInit_exact _ _ ?_, ?_, rfl, ⟨idleproc, ?_, rfl⟩, ?_, ?_⟩
  · intro proc known
    obtain rfl : proc = idleproc := by simpa [boot] using known
    exact listInit_ring _ _
  · intro proc
    simp only [List.not_mem_nil, Waits, boot, Finset.mem_singleton, false_iff, not_and]
    rintro rfl _ running
    exact absurd rfl running
  · simp [boot]
  · simp [boot]
  · simp [boot, maxProcess]

/-- A legal operation that is taken keeps some queue of waiting processes. -/
theorem step_keeps (system : System P) (operation : Operation P) (next : System P)
    (queued : ∃ waiting, Queued idleproc system waiting) (legal : Legal idleproc system operation)
    (taken : step idleproc system operation = some next) : ∃ waiting, Queued idleproc next waiting := by
  obtain ⟨waiting, queued⟩ := queued
  obtain ⟨result, after, returned, kept⟩ := step_queued operation queued legal
  obtain rfl : result = next := Option.some.inj (returned.symm.trans taken)
  exact ⟨after, kept⟩

/-- Every state of a run of legal operations has a queue of waiting processes. -/
theorem reached_queued {procs : P → Proc} {queue : RunQueue P}
    (reached : Reaches (step idleproc) (Legal idleproc) (boot idleproc procs queue) system) :
    ∃ waiting, Queued idleproc system waiting :=
  reached.invariant ⟨[], boot_queued procs queue⟩ step_keeps

/-- The run list, walked from its header, is `waiting`: every runnable process other
than the running one and `idleproc`, once, in the order of arrival. -/
structure RunListExact (idleproc : P) (system : System P) (waiting : List P) : Prop where
  ring : Ring system.kernel.queue.links .head (waiting.map Entry.link)
  once : waiting.Nodup
  exact : ∀ proc, proc ∈ waiting ↔ Waits idleproc system proc
  counted : system.kernel.queue.procNum = waiting.length
  fifo : system.kernel.enqueued = system.kernel.picked ++ waiting

/-- In every run of legal operations the run list is exact and the next legal
operation fails no assertion. -/
theorem round_robin_queue (idleproc : P) (procs : P → Proc) (queue : RunQueue P) (system : System P)
    (reached : Reaches (step idleproc) (Legal idleproc) (boot idleproc procs queue) system) :
    (∃ waiting, RunListExact idleproc system waiting) ∧
      ∀ operation, Legal idleproc system operation → ∃ next, step idleproc system operation = some next := by
  obtain ⟨waiting, queued⟩ := reached_queued reached
  refine ⟨⟨waiting, queued.holds.ring, queued.holds.nodup, queued.exact, queued.holds.counted,
    queued.fifo⟩, ?_⟩
  intro operation legal
  obtain ⟨next, _, returned, _⟩ := step_queued operation queued legal
  exact ⟨next, returned⟩

/-- Two new processes are woken; the first one runs and is preempted by the second. -/
theorem round_robin_queue_two_processes :
    ∃ (procs : Nat → Proc) (queue : RunQueue Nat) (system : System Nat),
      Reaches (step 0) (Legal 0) (boot 0 procs queue) system ∧
      system.kernel.current = some 2 ∧ (∃ waiting, RunListExact 0 system waiting) ∧
      ∀ operation, Legal 0 system operation → ∃ next, step 0 system operation = some next := by
  let fields : Proc := { state := .uninit, waitState := 0, needResched := false, runs := 0, timeSlice := 0 }
  let queue : RunQueue Nat :=
    { links := { prev := id, next := id }, procNum := 0, maxTimeSlice := 0, rq := fun _ => false }
  have completed : (run (guarded (step 0) fun system operation => decide (Legal 0 system operation))
      [.create 1 fields, .create 2 fields, .wakeupProc 1, .wakeupProc 2, .schedule, .procTick 1,
        .schedule] (boot 0 (fun _ => fields) queue)).map (fun system => system.kernel.current) =
          some (some 2) := by decide +kernel
  obtain ⟨system, last, current⟩ := Option.map_eq_some_iff.mp completed
  have reached := guarded_reaches (fun _ _ => of_decide_eq_true) _ _ _ last
  exact ⟨fun _ => fields, queue, system, reached, current,
    round_robin_queue 0 (fun _ => fields) queue system reached⟩

end Ucore.Schedule
