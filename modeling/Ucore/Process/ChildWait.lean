import Ucore.Libs.Error
import Ucore.Process.ProcessRuns
import Ucore.Schedule.RoundRobin

/-!
# Waiting for children

A call of `do_wait` that finds a child, but no exited one, puts the caller to sleep.
It is woken by `do_exit` of a child, by the exit of a process whose exited children
go to `initproc`, and by `do_kill`; then it repeats its search, unless it was killed.

The kernel is switched away from only in `schedule`, so each operation runs up to the
end of the system call or through the `schedule` in it. The sleeps of other calls, for
semaphores, timers and the keyboard, keep nothing in this state but the process's own
`state` and `wait_state`.
-/

namespace Ucore.Process

open CircularList EmbeddedList SiblingChain Schedule Transition

universe u
variable {P : Type u} [DecidableEq P]

def eBadProc : Int := 2
def eKilled : Int := 9
def maxPid : Int := maxProcess * 2

/-- The process table with the round-robin class, and what `do_wait` and `do_kill` read
of a process. `waiting` is the argument of the `do_wait` that a process is in. The last
three fields are a history: the number of processes forked, the number each process
has among them, and which process has reaped which. -/
structure WaitSystem (P : Type u) where
  procs : ProcSystem P (RunQueue P)
  pid : P → Int
  hashList : List P
  exiting : P → Bool
  waiting : P → Option Int
  forks : Nat
  serial : P → Nat
  reaps : List (P × Nat)

abbrev WaitSystem.kernel (system : WaitSystem P) : Kernel P (RunQueue P) := system.procs.table.kernel

def WaitSystem.withKernel (system : WaitSystem P) (kernel : Kernel P (RunQueue P)) : WaitSystem P :=
  { system with procs := { system.procs with table := { system.procs.table with kernel } } }

/-- `find_proc`. The lists of all hash values are kept as one, since a search passes
over the processes with another pid. -/
def findProc (system : WaitSystem P) (pid : Int) : Option P :=
  if 0 < pid ∧ pid < maxPid then system.hashList.find? fun proc => system.pid proc = pid else none

variable (idleproc initproc : P)

/-- `schedule` as the end of an operation. -/
def reschedule (system : WaitSystem P) : Option (WaitSystem P) :=
  (schedule defaultSchedClass idleproc system.kernel).map system.withKernel

/-- `do_fork` that creates a process: it is linked, entered into the hash table and woken. -/
def forkProcess (system : WaitSystem P) (child : P) (fields : Proc) (pid : Int) : Option (WaitSystem P) := do
  let (created, table) ← doFork system.procs.table child fields
  match created with
  | none => some system
  | some child =>
      let kernel ← wakeupProc defaultSchedClass idleproc (allocProc table.kernel child fields) child
      some {
        procs := { system.procs with
          table := { table with kernel }
          unreaped := insert child system.procs.unreaped }
        pid := Function.update system.pid child pid
        hashList := child :: system.hashList
        exiting := Function.update system.exiting child false
        waiting := Function.update system.waiting child none
        forks := system.forks + 1
        serial := Function.update system.serial child system.forks
        reaps := system.reaps }

/-- `do_exit` from the write to the state on. -/
def exitProcess (system : WaitSystem P) : Option (WaitSystem P) := do
  let procs ← procStep defaultSchedClass idleproc initproc system.procs .exit
  reschedule idleproc { system with procs }

/-- The argument of `do_wait`. -/
def waitTarget (system : WaitSystem P) (pid : Int) : WaitTarget P :=
  if pid ≠ 0 then .pid (findProc system pid) else .any

/-- `do_wait` from the label `repeat` on, through its `schedule` or to its end. -/
def waitProcess (system : WaitSystem P) (pid : Int) : Option (Int × WaitSystem P) := do
  let current ← system.kernel.current
  let (result, table) ← doWait idleproc initproc system.procs.table (waitTarget system pid)
  match result with
  | .reaped proc =>
      some (0, { system with
        procs := {
          table
          unreaped := system.procs.unreaped.erase proc
          exited := system.procs.exited.erase proc }
        hashList := system.hashList.erase proc
        waiting := Function.update system.waiting current none
        reaps := (current, system.serial proc) :: system.reaps })
  | .blocked => do
      let waiting := Function.update system.waiting current (some pid)
      let system ← reschedule idleproc { system with procs := { system.procs with table }, waiting }
      some (0, system)
  | .badProc => some (-eBadProc, { system with waiting := Function.update system.waiting current none })

/-- `do_wait` behind its `schedule`. A killed caller goes on to `do_exit`, which may sleep
while it closes files: its write to the tree is an operation of its own. -/
def resumeWait (system : WaitSystem P) : Option (Int × WaitSystem P) := do
  let current ← system.kernel.current
  match system.waiting current with
  | none => none
  | some pid =>
      if system.exiting current then
        some (-eKilled, { system with waiting := Function.update system.waiting current none })
      else waitProcess idleproc initproc system pid

def doKill (system : WaitSystem P) (pid : Int) : Option (Int × WaitSystem P) :=
  match findProc system pid with
  | none => some (-eInval, system)
  | some proc =>
      if system.exiting proc then some (-eKilled, system)
      else
        let system := { system with exiting := Function.update system.exiting proc true }
        if (system.kernel.procs proc).waitState &&& wtInterrupted ≠ 0 then
          (wakeupProc defaultSchedClass idleproc system.kernel proc).map fun kernel =>
            (0, system.withKernel kernel)
        else some (0, system)

/-- The operations of the running process, then the wakeups by other calls and by
interrupts, and the timer ticks. `sleep` is any other write of a `wait_state` that is
followed by `schedule`. -/
inductive WaitOperation (P : Type u) where
  | fork (child : P) (fields : Proc) (pid : Int)
  | exit
  | wait (pid : Int)
  | resume
  | kill (pid : Int)
  | schedule
  | sleep (waitState : BitVec 32)
  | wakeup (proc : P)
  | tick (proc : P)

/-- One operation; `none` is a panic or a failed assertion. -/
def waitStep (system : WaitSystem P) : WaitOperation P → Option (WaitSystem P)
  | .fork child fields pid => forkProcess idleproc system child fields pid
  | .exit => exitProcess idleproc initproc system
  | .wait pid => (waitProcess idleproc initproc system pid).map Prod.snd
  | .resume => (resumeWait idleproc initproc system).map Prod.snd
  | .kill pid => (doKill idleproc system pid).map Prod.snd
  | .schedule => reschedule idleproc system
  | .sleep waitState => do
      let kernel ← setCurrent system.kernel fun fields => { fields with state := .sleeping, waitState }
      reschedule idleproc (system.withKernel kernel)
  | .wakeup proc => (wakeupProc defaultSchedClass idleproc system.kernel proc).map system.withKernel
  | .tick proc => (schedClassProcTick defaultSchedClass idleproc system.kernel proc).map system.withKernel

/-- The running process is not inside a `do_wait`. -/
def WaitSystem.Free (system : WaitSystem P) : Prop :=
  ∀ current ∈ system.kernel.current, system.waiting current = none

/-- A pid as `get_pid` gives it: no process in `proc_list` has it. -/
def FreshPid (system : WaitSystem P) (pid : Int) : Prop :=
  0 < pid ∧ pid < maxPid ∧ ∀ proc ∈ system.procs.unreaped, proc ≠ idleproc → system.pid proc ≠ pid

instance (system : WaitSystem P) (pid : Int) : Decidable (FreshPid idleproc system pid) :=
  inferInstanceAs (Decidable (_ ∧ _ ∧ ∀ proc ∈ system.procs.unreaped, _))

/-- A new process is memory that no unreaped one uses, as `alloc_proc` leaves it; only
`do_wait` sleeps for a child; `cpu_idle` calls nothing but `schedule`; what is woken or
ticked exists. A process that returns from the `schedule` of `do_wait` goes on there. -/
def WaitLegal (system : WaitSystem P) : WaitOperation P → Prop
  | .fork child fields pid =>
      system.Free ∧ child ∉ system.procs.unreaped ∧ fields.state = .uninit ∧ FreshPid idleproc system pid
  | .exit => system.Free
  | .wait _ => system.Free ∧ system.kernel.current ≠ some idleproc
  | .resume => True
  | .kill _ => system.Free
  | .schedule => system.Free
  | .sleep waitState => system.Free ∧ waitState ≠ wtChild ∧ system.kernel.current ≠ some idleproc
  | .wakeup proc => proc ∈ system.procs.unreaped
  | .tick proc => proc ∈ system.procs.unreaped

instance (system : WaitSystem P) : Decidable system.Free :=
  inferInstanceAs (Decidable (∀ current ∈ system.kernel.current, _))

instance (system : WaitSystem P) : ∀ operation, Decidable (WaitLegal idleproc system operation)
  | .fork _ _ _ => inferInstanceAs (Decidable (_ ∧ _ ∧ _ ∧ _))
  | .exit => inferInstanceAs (Decidable system.Free)
  | .wait _ => inferInstanceAs (Decidable (_ ∧ _))
  | .resume => inferInstanceAs (Decidable True)
  | .kill _ => inferInstanceAs (Decidable system.Free)
  | .schedule => inferInstanceAs (Decidable system.Free)
  | .sleep _ => inferInstanceAs (Decidable (_ ∧ _ ∧ _))
  | .wakeup _ => inferInstanceAs (Decidable (_ ∈ _))
  | .tick _ => inferInstanceAs (Decidable (_ ∈ _))

/-- `sched_init`, and `proc_init` up to the fork of `initproc`, on an arbitrary memory. -/
def idleSystem (memory : ProcTable P (RunQueue P)) (pid : P → Int) : WaitSystem P where
  procs := {
    table := { idleTable idleproc memory with kernel := (boot idleproc memory.kernel.procs memory.kernel.queue).kernel }
    unreaped := {idleproc}
    exited := ∅ }
  pid := pid
  hashList := []
  exiting := fun _ => false
  waiting := fun _ => none
  forks := 1
  serial := fun _ => 0
  reaps := []

/-- The system when `proc_init` ends. -/
def waitInit (memory : ProcTable P (RunQueue P)) (pid : P → Int) (fields : Proc) (initPid : Int) :
    Option (WaitSystem P) :=
  forkProcess idleproc (idleSystem idleproc memory pid) initproc fields initPid

end Ucore.Process
