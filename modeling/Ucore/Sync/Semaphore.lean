import Ucore.Sync.Sem

/-!
# Semaphores as a value and a queue

What the threads that call `up` and `down` observe of a semaphore is its value and the threads
in its wait queue, in their order. A thread in the queue goes on with `down` when it has left
the queue.
-/

namespace Ucore.Sync

open Schedule

universe u
variable {P Q : Type u}

/-- The value of a semaphore, and the threads in its wait queue. -/
structure Semaphore (P : Type u) where
  value : Int
  queue : List P

/-- `up` -/
def Semaphore.up (sem : Semaphore P) : Semaphore P :=
  match sem.queue with
  | [] => { sem with value := sem.value + 1 }
  | _ :: rest => { sem with queue := rest }

/-- `down`, up to its call of `schedule`; the second component tells whether it returns at once. -/
def Semaphore.down (sem : Semaphore P) (thread : P) : Semaphore P × Bool :=
  if 0 < sem.value then ({ sem with value := sem.value - 1 }, true)
  else ({ sem with queue := sem.queue ++ [thread] }, false)

/-- A semaphore in memory with this value and this queue. -/
structure SemState.Shows (state : SemState P Q) (sem : Semaphore P) : Prop where
  queues : state.Queues sem.queue
  value : state.value = sem.value

variable [DecidableEq P] {schedClass : SchedClass P Q} {idleproc : P} {state after : SemState P Q} {sem : Semaphore P}
  {thread : P}

/-- `up` in memory. -/
theorem up_shows (keeps : schedClass.Keeps) (shows : state.Shows sem) (returned : up schedClass idleproc state = some after) :
    after.Shows sem.up := by
  obtain ⟨queues, value⟩ := shows
  obtain ⟨number, queue⟩ := sem
  cases queue with
  | nil =>
    rw [up_empty queues, Option.some.injEq] at returned
    subst returned
    exact ⟨⟨queues.ring, queues.asleep⟩, congrArg (· + 1) value⟩
  | cons first rest =>
    obtain ⟨queuesAfter, _, same, _⟩ := up_waiting keeps queues returned
    exact ⟨queuesAfter, same.trans value⟩

/-- `down` in memory, of the running thread. -/
theorem downStart_shows (shows : state.Shows sem) (running : state.kernel.current = some thread) (absent : thread ∉ sem.queue) :
    ∃ after, downStart thread wtKsem state = some (after, (sem.down thread).2) ∧ after.Shows (sem.down thread).1 := by
  obtain ⟨queues, value⟩ := shows
  rw [downStart, Semaphore.down, value]
  split
  · refine ⟨_, rfl, ⟨queues.ring, queues.asleep⟩, ?_⟩
    rfl
  · obtain ⟨after, returned, queuesAfter, same, _⟩ := waitCurrentSet_exact queues running absent
    rw [returned]
    exact ⟨after, rfl, queuesAfter, same.trans value⟩

end Ucore.Sync
