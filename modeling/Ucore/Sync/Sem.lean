import Ucore.Schedule.Sched

/-!
# Wait queues and semaphores

`kern/sync/wait.c` queues threads through `wait_t` records on their stacks, and
`kern/sync/sem.c` builds counting semaphores from such a queue. A thread waits
in at most one `__down` at a time, so its record is named by the thread.

`__down` is cut at its call of `schedule`: `downStart` runs before it and
`downFinish` after it. `none` is a failed assertion.
-/

namespace Ucore.Sync

open CircularList EmbeddedList Schedule

universe u
variable {P Q : Type u} [DecidableEq P]

/-- `wait_t` without its link; `queued` tells whether `wait_queue` names the queue. -/
structure Wait (P : Type u) where
  proc : Option P
  wakeupFlags : BitVec 32
  queued : Bool

/-- A semaphore with its wait queue, and the kernel around it. -/
structure SemState (P Q : Type u) where
  kernel : Kernel P Q
  value : Int
  links : Links (Entry P)
  waits : P → Wait P

def waitInit (wait proc : P) (state : SemState P Q) : SemState P Q :=
  { state with
    waits := Function.update state.waits wait
      { state.waits wait with proc := some proc, wakeupFlags := wtInterrupted }
    links := listInit state.links (.link wait) }

def waitQueueInit (state : SemState P Q) : SemState P Q :=
  { state with links := listInit state.links .head }

def waitQueueAdd (wait : P) (state : SemState P Q) : Option (SemState P Q) :=
  if listEmpty state.links (.link wait) && (state.waits wait).proc.isSome then
    some { state with
      waits := Function.update state.waits wait { state.waits wait with queued := true }
      links := listAddBefore state.links .head (.link wait) }
  else none

def waitQueueDel (wait : P) (state : SemState P Q) : Option (SemState P Q) :=
  if !listEmpty state.links (.link wait) && (state.waits wait).queued then
    some { state with links := listDelInit state.links (.link wait) }
  else none

def waitQueueFirst (state : SemState P Q) : Option P :=
  match listNext state.links .head with
  | .head => none
  | .link wait => some wait

def waitInQueue (wait : P) (state : SemState P Q) : Bool := !listEmpty state.links (.link wait)

variable (schedClass : SchedClass P Q) (idleproc : P)

def wakeupWait (wait : P) (wakeupFlags : BitVec 32) (del : Bool) (state : SemState P Q) :
    Option (SemState P Q) := do
  let state ← if del then waitQueueDel wait state else some state
  let state := { state with
    waits := Function.update state.waits wait { state.waits wait with wakeupFlags := wakeupFlags } }
  let proc ← (state.waits wait).proc
  let kernel ← wakeupProc schedClass idleproc state.kernel proc
  some { state with kernel := kernel }

def waitCurrentSet (wait : P) (waitState : BitVec 32) (state : SemState P Q) : Option (SemState P Q) := do
  let current ← state.kernel.current
  let state := waitInit wait current state
  let fields := state.kernel.procs current
  let state := { state with
    kernel := state.kernel.setProc current { fields with state := .sleeping, waitState := waitState } }
  waitQueueAdd wait state

def waitCurrentDel (wait : P) (state : SemState P Q) : Option (SemState P Q) :=
  if waitInQueue wait state then waitQueueDel wait state else some state

def semInit (value : Int) (state : SemState P Q) : SemState P Q :=
  waitQueueInit { state with value := value }

/-- `__up` -/
def upWith (waitState : BitVec 32) (state : SemState P Q) : Option (SemState P Q) :=
  match waitQueueFirst state with
  | none => some { state with value := state.value + 1 }
  | some wait => do
      let proc ← (state.waits wait).proc
      if (state.kernel.procs proc).waitState = waitState then
        wakeupWait schedClass idleproc wait waitState true state
      else none

def up (state : SemState P Q) : Option (SemState P Q) := upWith schedClass idleproc wtKsem state

/-- `__down` before `schedule`; the second component tells whether it returns at once. -/
def downStart (wait : P) (waitState : BitVec 32) (state : SemState P Q) : Option (SemState P Q × Bool) :=
  if 0 < state.value then some ({ state with value := state.value - 1 }, true)
  else (waitCurrentSet wait waitState state).map fun state => (state, false)

/-- `__down` after `schedule`, with the value returned. -/
def downFinish (wait : P) (waitState : BitVec 32) (state : SemState P Q) :
    Option (SemState P Q × BitVec 32) :=
  (waitCurrentDel wait state).map fun state =>
    (state, if (state.waits wait).wakeupFlags ≠ waitState then (state.waits wait).wakeupFlags else 0)

def tryDown (state : SemState P Q) : SemState P Q × Bool :=
  if 0 < state.value then ({ state with value := state.value - 1 }, true) else (state, false)

/-! ## The wait queue as a list of threads -/

/-- The queue holds exactly `waiting`, in order, each thread asleep in `__down`. -/
structure SemState.Queues (state : SemState P Q) (waiting : List P) : Prop where
  ring : Ring state.links .head (waiting.map Entry.link)
  asleep : ∀ thread ∈ waiting, (state.waits thread).proc = some thread ∧
    (state.waits thread).queued = true ∧ (state.kernel.procs thread).state = .sleeping ∧
    (state.kernel.procs thread).waitState = wtKsem

/-- The thread has been granted the semaphore and has not returned from `__down`. -/
structure SemState.Granted (state : SemState P Q) (thread : P) : Prop where
  detached : Ring state.links (.link thread) []
  flags : (state.waits thread).wakeupFlags = wtKsem

omit [DecidableEq P] in
theorem SemState.Queues.nodup {state : SemState P Q} {waiting : List P} (queues : state.Queues waiting) :
    waiting.Nodup := (List.nodup_cons.mp queues.ring.distinct).2.of_map

omit [DecidableEq P] in
theorem waitQueueFirst_exact {state : SemState P Q} {waiting : List P} (queues : state.Queues waiting) :
    waitQueueFirst state = waiting.head? := by
  have front := queues.ring.next_head
  cases waiting with
  | nil => simp [waitQueueFirst, listNext, front]
  | cons first rest => simp [waitQueueFirst, listNext, front]

/-- A list that shares no entry with the queue is not touched by adding to it. -/
theorem queue_frame {links : Links (Entry P)} {waiting : List P} {thread other : P}
    (ring : Ring links .head (waiting.map Entry.link)) (apart : Ring links (.link other) [])
    (different : other ≠ thread) (absent : other ∉ waiting) :
    Ring (listAddBefore links .head (.link thread)) (.link other) [] := by
  refine listAddBefore_frame ring List.mem_cons_self apart ?_ (by simpa using different.symm)
  intro node member sameNode
  obtain rfl : node = .link other := by simpa using sameNode
  exact absent (by simpa using member)

/-- `wait_current_set` puts the running thread to sleep at the end of the queue. -/
theorem waitCurrentSet_exact {state : SemState P Q} {waiting : List P} {thread : P}
    (queues : state.Queues waiting) (running : state.kernel.current = some thread)
    (absent : thread ∉ waiting) :
    ∃ after, waitCurrentSet thread wtKsem state = some after ∧ after.Queues (waiting ++ [thread]) ∧
      after.value = state.value ∧
      (∀ other, other ≠ thread → other ∉ waiting → state.Granted other → after.Granted other) ∧
      ∀ other, other ≠ thread → after.kernel.procs other = state.kernel.procs other := by
  have fresh : Entry.link thread ∉ Entry.head :: waiting.map Entry.link := by simpa using absent
  have ring : Ring (listInit state.links (.link thread)) .head (waiting.map Entry.link) :=
    listInit_frame queues.ring fresh
  have empty : listEmpty (listInit state.links (.link thread)) (.link thread) = true :=
    (listEmpty_iff (listInit_ring _ _)).mpr rfl
  let fields := state.kernel.procs thread
  refine ⟨{ state with
    kernel := state.kernel.setProc thread { fields with state := .sleeping, waitState := wtKsem }
    waits := Function.update state.waits thread
      { proc := some thread, wakeupFlags := wtInterrupted, queued := true }
    links := listAddBefore (listInit state.links (.link thread)) .head (.link thread) },
    by simp [waitCurrentSet, running, waitInit, waitQueueAdd, empty, fields], ⟨?_, ?_⟩, rfl, ?_, ?_⟩
  · simpa using listAddBefore_last (.link thread) ring fresh
  · intro other member
    by_cases same : other = thread
    · subst same
      simp [Kernel.setProc_procs]
    · have listed : other ∈ waiting := by simpa [same] using member
      simpa [Kernel.setProc_procs, Function.update_of_ne same, same] using queues.asleep other listed
  · intro other different notWaiting granted
    refine ⟨queue_frame ring ?_ different notWaiting, ?_⟩
    · exact listInit_frame granted.detached (by simpa using different.symm)
    · simpa [Function.update_of_ne different] using granted.flags
  · intro other different
    simp [Kernel.setProc_procs, different]

/-- `wait_current_del` has nothing to do for a granted thread, whose flags are those
it went to sleep with. -/
theorem downFinish_granted {state : SemState P Q} {thread : P} (granted : state.Granted thread) :
    downFinish thread wtKsem state = some (state, 0) := by
  have empty : listEmpty state.links (.link thread) = true := (listEmpty_iff granted.detached).mpr rfl
  simp [downFinish, waitCurrentDel, waitInQueue, empty, granted.flags]

variable {schedClass} {idleproc}

/-- `__up` with no thread waiting. -/
theorem up_empty {state : SemState P Q} (queues : state.Queues []) :
    up schedClass idleproc state = some { state with value := state.value + 1 } := by
  simp [up, upWith, waitQueueFirst_exact queues]

/-- `__up` hands the semaphore to the first thread of the queue: its assertion holds,
and the thread leaves the queue with the flags of a grant. -/
theorem up_waiting {state after : SemState P Q} {thread : P} {rest : List P} (keeps : schedClass.Keeps)
    (queues : state.Queues (thread :: rest)) (returned : up schedClass idleproc state = some after) :
    after.Queues rest ∧ after.Granted thread ∧ after.value = state.value ∧
      (∀ other, other ∉ thread :: rest → state.Granted other → after.Granted other) := by
  obtain ⟨proc, queued, asleep, waitState⟩ := queues.asleep thread List.mem_cons_self
  have notEmpty : listEmpty state.links (.link thread) = false :=
    listEmpty_node queues.ring (by simp)
  have split : Ring state.links .head ([] ++ .link thread :: rest.map Entry.link) := queues.ring
  have nodup := List.nodup_cons.mp queues.nodup
  let woken : Wait P := { state.waits thread with wakeupFlags := wtKsem }
  have unfolded : up schedClass idleproc state =
      (wakeupProc schedClass idleproc state.kernel thread).map fun kernel =>
        { state with
          kernel := kernel
          waits := Function.update state.waits thread woken
          links := listDelInit state.links (.link thread) } := by
    simp [up, upWith, waitQueueFirst_exact queues, proc, waitState, wakeupWait, waitQueueDel, notEmpty,
      queued, woken, Option.map_eq_bind]
  rw [unfolded] at returned
  obtain ⟨kernel, accepted, rfl⟩ := Option.map_eq_some_iff.mp returned
  obtain ⟨_, frame⟩ := wakeupProc_frame keeps accepted
  refine ⟨⟨?_, ?_⟩, ⟨listDelInit_self _ _, by simp [woken]⟩, rfl, ?_⟩
  · simpa using listDelInit_ring split
  · intro other member
    have different : other ≠ thread := fun same => nodup.1 (same ▸ member)
    obtain ⟨state, waitState⟩ := frame other different
    simp only [Function.update_of_ne different, state, waitState]
    exact queues.asleep other (List.mem_cons_of_mem _ member)
  · intro other absent granted
    have different : other ≠ thread := fun same => absent (by simp [same])
    refine ⟨?_, by simpa [Function.update_of_ne different] using granted.flags⟩
    refine listDelInit_frame queues.ring (by simp) granted.detached ?_
    intro node member sameNode
    obtain rfl : node = .link other := by simpa using sameNode
    exact absent (by simpa using member)

end Ucore.Sync
