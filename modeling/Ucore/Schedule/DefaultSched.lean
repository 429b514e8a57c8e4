import Ucore.Schedule.Sched
import Mathlib.Algebra.GroupWithZero.Nat

/-!
# The round-robin class

`kern/schedule/default_sched_c.c` keeps waiting processes in a circular list
through their `run_link` fields: `enqueue` adds at the end, `pick_next` reads the
front.

A run queue represents a list of processes when the ring behind its header names
exactly these, `proc_num` is their number, each of them points back to the queue
and every other known process has an empty `run_link`.
-/

namespace Ucore.Schedule

open CircularList EmbeddedList

universe u
variable {P : Type u} [DecidableEq P]

/-- `struct run_queue` and the `run_link` and `rq` fields of the processes; `rq`
tells whether a process points to this queue. -/
structure RunQueue (P : Type u) where
  links : Links (Entry P)
  procNum : Nat
  maxTimeSlice : Int
  rq : P → Bool

def rrInit (queue : RunQueue P) : RunQueue P :=
  { queue with links := listInit queue.links .head, procNum := 0 }

def rrEnqueue (kernel : Kernel P (RunQueue P)) (proc : P) : Option (Kernel P (RunQueue P)) :=
  if listEmpty kernel.queue.links (.link proc) then
    let links := listAddBefore kernel.queue.links .head (.link proc)
    let fields := kernel.procs proc
    let fields :=
      if fields.timeSlice = 0 ∨ fields.timeSlice > kernel.queue.maxTimeSlice then
        { fields with timeSlice := kernel.queue.maxTimeSlice }
      else fields
    let kernel := kernel.setProc proc fields
    some { kernel with queue := { kernel.queue with
      links := links
      rq := Function.update kernel.queue.rq proc true
      procNum := (kernel.queue.procNum + 1) % 2 ^ 32 } }
  else none

def rrDequeue (kernel : Kernel P (RunQueue P)) (proc : P) : Option (Kernel P (RunQueue P)) :=
  if !listEmpty kernel.queue.links (.link proc) && kernel.queue.rq proc then
    some { kernel with queue := { kernel.queue with
      links := listDelInit kernel.queue.links (.link proc)
      procNum := (kernel.queue.procNum + (2 ^ 32 - 1)) % 2 ^ 32 } }
  else none

def rrPickNext (kernel : Kernel P (RunQueue P)) : Option P × Kernel P (RunQueue P) :=
  match listNext kernel.queue.links .head with
  | .head => (none, kernel)
  | .link proc => (some proc, kernel)

def rrProcTick (kernel : Kernel P (RunQueue P)) (proc : P) : Option (Kernel P (RunQueue P)) :=
  let fields := kernel.procs proc
  let fields := if fields.timeSlice > 0 then { fields with timeSlice := fields.timeSlice - 1 } else fields
  let fields := if fields.timeSlice = 0 then { fields with needResched := true } else fields
  some (kernel.setProc proc fields)

def defaultSchedClass : SchedClass P (RunQueue P) where
  init := rrInit
  enqueue := rrEnqueue
  dequeue := rrDequeue
  pickNext := rrPickNext
  procTick := rrProcTick

/-- `RR_enqueue` changes no state and no running process. -/
theorem defaultSchedClass_keeps : (defaultSchedClass : SchedClass P (RunQueue P)).Keeps := by
  have unfolded : ∀ (kernel : Kernel P (RunQueue P)) (proc : P) (after : Kernel P (RunQueue P)),
      rrEnqueue kernel proc = some after → after.current = kernel.current ∧ ∀ other,
        (after.procs other).state = (kernel.procs other).state ∧
          (after.procs other).waitState = (kernel.procs other).waitState := by
    intro kernel proc after accepted
    unfold rrEnqueue at accepted
    split at accepted
    · obtain rfl := Option.some.inj accepted
      refine ⟨rfl, fun other => ?_⟩
      simp only [Kernel.setProc_procs]
      split
      · rename_i same
        subst same
        split <;> exact ⟨rfl, rfl⟩
      · exact ⟨rfl, rfl⟩
    · cases accepted
  exact ⟨fun kernel proc after accepted => (unfolded kernel proc after accepted).1,
    fun kernel proc after accepted => (unfolded kernel proc after accepted).2⟩

/-- `sched_init` on the memory of the run queue. -/
def schedInit (queue : RunQueue P) : RunQueue P :=
  defaultSchedClass.init { queue with maxTimeSlice := maxTimeSlice }

/-- The queue holds exactly `waiting`, in order; the other known processes are in no list. -/
structure RunQueue.Represents (queue : RunQueue P) (known : P → Prop) (waiting : List P) : Prop where
  ring : Ring queue.links .head (waiting.map Entry.link)
  counted : queue.procNum = waiting.length
  owned : ∀ proc ∈ waiting, queue.rq proc = true
  detached : ∀ proc, known proc → proc ∉ waiting → Ring queue.links (.link proc) []

namespace RunQueue.Represents

variable {kernel : Kernel P (RunQueue P)} {known : P → Prop} {waiting : List P} {proc : P}

omit [DecidableEq P] in
theorem nodup {queue : RunQueue P} (rep : queue.Represents known waiting) : waiting.Nodup :=
  (List.nodup_cons.mp rep.ring.distinct).2.of_map

/-- A known process is in the queue exactly when its `run_link` is not empty. -/
theorem listEmpty_iff {queue : RunQueue P} (rep : queue.Represents known waiting)
    (isKnown : known proc) : listEmpty queue.links (.link proc) = true ↔ proc ∉ waiting := by
  constructor
  · intro empty listed
    have inRing : Entry.link proc ∈ waiting.map Entry.link := List.mem_map.mpr ⟨proc, listed, rfl⟩
    rw [listEmpty_node rep.ring inRing] at empty
    cases empty
  · intro absent
    exact (EmbeddedList.listEmpty_iff (rep.detached proc isKnown absent)).mpr rfl

/-- `RR_enqueue` accepts a known process outside the queue and puts it last. -/
theorem rrEnqueue_exact (rep : kernel.queue.Represents known waiting) (isKnown : known proc)
    (absent : proc ∉ waiting) (room : waiting.length + 1 < 2 ^ 32) :
    ∃ after, rrEnqueue kernel proc = some after ∧
      after.queue.Represents known (waiting ++ [proc]) ∧ after.current = kernel.current ∧
      after.enqueued = kernel.enqueued ∧ after.picked = kernel.picked ∧
      ∀ other, (after.procs other).state = (kernel.procs other).state := by
  have empty := (rep.listEmpty_iff isKnown).mpr absent
  have fresh : Entry.link proc ∉ Entry.head :: waiting.map Entry.link := by simpa using absent
  simp only [rrEnqueue, empty, if_true]
  refine ⟨_, rfl, ⟨?_, ?_, ?_, ?_⟩, rfl, rfl, rfl, ?_⟩
  · simpa using listAddBefore_last (.link proc) rep.ring fresh
  · simp only [Kernel.setProc_queue, rep.counted, List.length_append, List.length_singleton]
    exact Nat.mod_eq_of_lt room
  · intro other member
    by_cases same : other = proc
    · simp [same]
    · have listed : other ∈ waiting := by simpa [same] using member
      simpa [Function.update_of_ne same] using rep.owned other listed
  · intro other otherKnown notListed
    simp only [List.mem_append, List.mem_singleton, not_or] at notListed
    refine listAddBefore_frame rep.ring List.mem_cons_self
      (rep.detached other otherKnown notListed.1) ?_ ?_
    · intro node member sameNode
      obtain rfl : node = .link other := by simpa using sameNode
      exact notListed.1 (by simpa using member)
    · simpa using fun same : proc = other => notListed.2 same.symm
  · intro other
    by_cases same : other = proc
    · subst same
      simp only [Kernel.setProc_procs, if_true]
      split <;> rfl
    · simp only [Kernel.setProc_procs, same, if_false]

/-- `RR_dequeue` accepts the first process of the queue and removes it. -/
theorem rrDequeue_exact (rep : kernel.queue.Represents known (proc :: waiting))
    (small : waiting.length + 1 < 2 ^ 32) :
    ∃ after, rrDequeue kernel proc = some after ∧ after.queue.Represents known waiting ∧
      after.procs = kernel.procs ∧ after.current = kernel.current ∧
      after.enqueued = kernel.enqueued ∧ after.picked = kernel.picked := by
  have notEmpty : listEmpty kernel.queue.links (.link proc) = false :=
    listEmpty_node rep.ring (by simp)
  have owner : kernel.queue.rq proc = true := rep.owned proc List.mem_cons_self
  have split : Ring kernel.queue.links .head ([] ++ .link proc :: waiting.map Entry.link) := by
    simpa using rep.ring
  simp only [rrDequeue, notEmpty, owner, Bool.not_false, Bool.and_self, if_true]
  refine ⟨_, rfl, ⟨?_, ?_, ?_, ?_⟩, rfl, rfl, rfl, rfl⟩
  · simpa using listDelInit_ring split
  · simp only [rep.counted, List.length_cons]
    omega
  · exact fun other member => rep.owned other (List.mem_cons_of_mem _ member)
  · intro other otherKnown notListed
    by_cases same : other = proc
    · subst same
      exact listDelInit_self _ _
    · have absent : other ∉ proc :: waiting := by simp [same, notListed]
      refine listDelInit_frame rep.ring (by simp) (rep.detached other otherKnown absent) ?_
      intro node member sameNode
      obtain rfl : node = .link other := by simpa using sameNode
      exact absent (by simpa using member)

omit [DecidableEq P] in
/-- `RR_pick_next` returns the first process of the queue. -/
theorem rrPickNext_exact (rep : kernel.queue.Represents known waiting) :
    rrPickNext kernel = (waiting.head?, kernel) := by
  have front := rep.ring.next_head
  cases waiting with
  | nil => simp [rrPickNext, listNext, front]
  | cons first rest => simp [rrPickNext, listNext, front]

/-- `sched_init` leaves an empty queue. -/
theorem schedInit_exact (queue : RunQueue P) (known : P → Prop)
    (detached : ∀ proc, known proc → Ring queue.links (.link proc) []) :
    (schedInit queue).Represents known [] where
  ring := listInit_ring _ _
  counted := rfl
  owned := by simp
  detached proc isKnown _ := listInit_frame (detached proc isKnown) (by simp)

end RunQueue.Represents

end Ucore.Schedule
