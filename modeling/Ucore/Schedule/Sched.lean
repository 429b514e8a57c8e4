import Ucore.Libs.EmbeddedList
import Mathlib.Data.Finset.Card

/-!
# The scheduler core

`kern/schedule/sched.c` switches between processes and leaves the order of the
waiting ones to a scheduling class. The class is a record of functions on the
kernel state, as in the source; its own memory is a parameter of the state.

`warn` prints and is left out. Interrupts are off in every operation, so each
one is a single step.
-/

namespace Ucore.Schedule

/-- `enum proc_state` -/
inductive ProcState where
  | uninit
  | sleeping
  | runnable
  | zombie
deriving DecidableEq

/-- The fields of `struct proc_struct` that the scheduler and the timers use. -/
structure Proc where
  state : ProcState
  waitState : BitVec 32
  needResched : Bool
  runs : Int
  timeSlice : Int
deriving DecidableEq

def maxProcess : Nat := 4096
def maxTimeSlice : Int := 5
def wtInterrupted : BitVec 32 := 0x80000000#32
def wtChild : BitVec 32 := 0x00000001#32 ||| wtInterrupted
def wtKsem : BitVec 32 := 0x00000100#32
def wtTimer : BitVec 32 := 0x00000002#32 ||| wtInterrupted

universe u v
variable {P : Type u} {Q : Type v} [DecidableEq P]

/-- Processes, the class's memory and the running process. The two histories
record the arguments of the class's `enqueue` and the results of its `pick_next`. -/
structure Kernel (P : Type u) (Q : Type v) where
  procs : P → Proc
  queue : Q
  current : Option P
  enqueued : List P
  picked : List P

def Kernel.setProc (kernel : Kernel P Q) (proc : P) (fields : Proc) : Kernel P Q :=
  { kernel with procs := Function.update kernel.procs proc fields }

@[simp] theorem Kernel.setProc_queue (kernel : Kernel P Q) (proc : P) (fields : Proc) :
    (kernel.setProc proc fields).queue = kernel.queue := rfl

@[simp] theorem Kernel.setProc_current (kernel : Kernel P Q) (proc : P) (fields : Proc) :
    (kernel.setProc proc fields).current = kernel.current := rfl

@[simp] theorem Kernel.setProc_enqueued (kernel : Kernel P Q) (proc : P) (fields : Proc) :
    (kernel.setProc proc fields).enqueued = kernel.enqueued := rfl

@[simp] theorem Kernel.setProc_picked (kernel : Kernel P Q) (proc : P) (fields : Proc) :
    (kernel.setProc proc fields).picked = kernel.picked := rfl

theorem Kernel.setProc_procs (kernel : Kernel P Q) (proc other : P) (fields : Proc) :
    (kernel.setProc proc fields).procs other = if other = proc then fields else kernel.procs other := by
  simp [Kernel.setProc, Function.update_apply]

/-- `struct sched_class`; `none` is a failed assertion. -/
structure SchedClass (P : Type u) (Q : Type v) where
  init : Q → Q
  enqueue : Kernel P Q → P → Option (Kernel P Q)
  dequeue : Kernel P Q → P → Option (Kernel P Q)
  pickNext : Kernel P Q → Option P × Kernel P Q
  procTick : Kernel P Q → P → Option (Kernel P Q)

variable (schedClass : SchedClass P Q) (idleproc : P)

def schedClassEnqueue (kernel : Kernel P Q) (proc : P) : Option (Kernel P Q) :=
  if proc ≠ idleproc then
    (schedClass.enqueue kernel proc).map fun kernel =>
      { kernel with enqueued := kernel.enqueued ++ [proc] }
  else some kernel

def schedClassDequeue (kernel : Kernel P Q) (proc : P) : Option (Kernel P Q) :=
  schedClass.dequeue kernel proc

def schedClassPickNext (kernel : Kernel P Q) : Option P × Kernel P Q :=
  let (next, kernel) := schedClass.pickNext kernel
  (next, { kernel with picked := kernel.picked ++ next.toList })

def schedClassProcTick (kernel : Kernel P Q) (proc : P) : Option (Kernel P Q) :=
  if proc ≠ idleproc then schedClass.procTick kernel proc
  else some (kernel.setProc proc { kernel.procs proc with needResched := true })

/-- The writes of `wakeup_proc` to the process it wakes. -/
def makeRunnable (kernel : Kernel P Q) (proc : P) : Kernel P Q :=
  kernel.setProc proc { kernel.procs proc with state := .runnable, waitState := 0 }

def wakeupProc (kernel : Kernel P Q) (proc : P) : Option (Kernel P Q) :=
  if (kernel.procs proc).state = .zombie then none
  else if (kernel.procs proc).state ≠ .runnable then
    let kernel := makeRunnable kernel proc
    if kernel.current ≠ some proc then schedClassEnqueue schedClass idleproc kernel proc
    else some kernel
  else some kernel

/-- What the callers of `wakeup_proc` rely on: putting a process into the run queue
changes neither the states of processes nor which one runs. -/
structure SchedClass.Keeps (schedClass : SchedClass P Q) : Prop where
  current : ∀ kernel proc after, schedClass.enqueue kernel proc = some after →
    after.current = kernel.current
  states : ∀ kernel proc after, schedClass.enqueue kernel proc = some after → ∀ other,
    (after.procs other).state = (kernel.procs other).state ∧
      (after.procs other).waitState = (kernel.procs other).waitState

variable {schedClass} {idleproc} in
/-- `wakeup_proc` leaves the running process and the states of all others alone. -/
theorem wakeupProc_frame (keeps : schedClass.Keeps) {kernel after : Kernel P Q} {proc : P}
    (woken : wakeupProc schedClass idleproc kernel proc = some after) :
    after.current = kernel.current ∧ ∀ other, other ≠ proc →
      (after.procs other).state = (kernel.procs other).state ∧
        (after.procs other).waitState = (kernel.procs other).waitState := by
  have made : ∀ other, other ≠ proc →
      (makeRunnable kernel proc).procs other = kernel.procs other := by
    intro other different
    simp [makeRunnable, Kernel.setProc_procs, different]
  unfold wakeupProc at woken
  split at woken
  · cases woken
  · split at woken
    · simp only at woken
      split at woken
      · unfold schedClassEnqueue at woken
        split at woken
        · obtain ⟨queued, accepted, rfl⟩ := Option.map_eq_some_iff.mp woken
          have stays := keeps.current _ _ _ accepted
          refine ⟨stays, fun other different => ?_⟩
          obtain ⟨state, waitState⟩ := keeps.states _ _ _ accepted other
          rw [made other different] at state waitState
          exact ⟨state, waitState⟩
        · obtain rfl := Option.some.inj woken
          exact ⟨rfl, fun other different => by rw [made other different]; exact ⟨rfl, rfl⟩⟩
      · obtain rfl := Option.some.inj woken
        exact ⟨rfl, fun other different => by rw [made other different]; exact ⟨rfl, rfl⟩⟩
    · obtain rfl := Option.some.inj woken
      exact ⟨rfl, fun other different => ⟨rfl, rfl⟩⟩

variable {schedClass} {idleproc} in
/-- Only a process that is not a zombie is woken, and it ends up runnable. -/
theorem wakeupProc_runnable (keeps : schedClass.Keeps) {kernel after : Kernel P Q} {proc : P}
    (woken : wakeupProc schedClass idleproc kernel proc = some after) :
    (kernel.procs proc).state ≠ .zombie ∧ (after.procs proc).state = .runnable := by
  unfold wakeupProc at woken
  split at woken
  · cases woken
  · rename_i alive
    refine ⟨alive, ?_⟩
    split at woken
    · have made : ((makeRunnable kernel proc).procs proc).state = .runnable := by
        simp [makeRunnable, Kernel.setProc_procs]
      simp only at woken
      split at woken
      · unfold schedClassEnqueue at woken
        split at woken
        · obtain ⟨queued, accepted, rfl⟩ := Option.map_eq_some_iff.mp woken
          exact (keeps.states _ _ _ accepted proc).1.trans made
        · exact Option.some.inj woken ▸ made
      · exact Option.some.inj woken ▸ made
    · rename_i already
      exact Option.some.inj woken ▸ not_not.mp already

/-- `proc_run` taken as the switch to `proc`. -/
def procRun (kernel : Kernel P Q) (proc : P) : Kernel P Q := { kernel with current := some proc }

/-- `schedule` up to the choice: the running process may go on waiting for its turn. -/
def scheduleOut (kernel : Kernel P Q) (current : P) : Option (Kernel P Q) :=
  let kernel := kernel.setProc current { kernel.procs current with needResched := false }
  if (kernel.procs current).state = .runnable then
    schedClassEnqueue schedClass idleproc kernel current
  else some kernel

/-- The choice of the next process in `schedule` and its removal from the class. -/
def chooseNext (kernel : Kernel P Q) : Option (Option P × Kernel P Q) :=
  let (next, kernel) := schedClassPickNext schedClass kernel
  match next with
  | some next => (schedClassDequeue schedClass kernel next).map fun kernel => (some next, kernel)
  | none => some (none, kernel)

/-- `schedule` behind the choice: `idleproc` runs when nothing else can. -/
def scheduleIn (kernel : Kernel P Q) (current : P) (next : Option P) : Kernel P Q :=
  let next := next.getD idleproc
  let kernel := kernel.setProc next { kernel.procs next with runs := (kernel.procs next).runs + 1 }
  if next ≠ current then procRun kernel next else kernel

def schedule (kernel : Kernel P Q) : Option (Kernel P Q) :=
  match kernel.current with
  | none => none
  | some current => do
      let kernel ← scheduleOut schedClass idleproc kernel current
      let (next, kernel) ← chooseNext schedClass kernel
      some (scheduleIn idleproc kernel current next)

/-- After `schedule` the chosen process runs; only its run count has changed. -/
theorem scheduleIn_exact (kernel : Kernel P Q) (current : P) (next : Option P)
    (running : kernel.current = some current) :
    (scheduleIn idleproc kernel current next).current = some (next.getD idleproc) ∧
      (scheduleIn idleproc kernel current next).queue = kernel.queue ∧
      (scheduleIn idleproc kernel current next).enqueued = kernel.enqueued ∧
      (scheduleIn idleproc kernel current next).picked = kernel.picked ∧
      ∀ other, ((scheduleIn idleproc kernel current next).procs other).state =
        (kernel.procs other).state := by
  have states : ∀ other fields, fields.state = (kernel.procs (next.getD idleproc)).state →
      ((kernel.setProc (next.getD idleproc) fields).procs other).state = (kernel.procs other).state := by
    intro other fields sameState
    by_cases same : other = next.getD idleproc
    · subst same
      simpa [Kernel.setProc_procs] using sameState
    · simp [Kernel.setProc_procs, same]
  by_cases stays : next.getD idleproc = current
  · simp only [scheduleIn, stays, ne_eq, not_true_eq_false, if_false]
    exact ⟨running, rfl, rfl, rfl, fun other => stays ▸ states other _ rfl⟩
  · simp only [scheduleIn, stays, ne_eq, not_false_eq_true, if_true]
    exact ⟨rfl, rfl, rfl, rfl, fun other => states other _ rfl⟩

end Ucore.Schedule
