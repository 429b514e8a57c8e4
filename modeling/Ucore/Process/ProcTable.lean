import Ucore.Library.SiblingChain
import Ucore.Schedule.Sched

/-!
# The process table

`kern/process/proc.c` keeps every process in `proc_list` and in a tree: a process
names its parent and its youngest child, and the children of one parent name the
next older and the next younger of them. `do_exit` gives the children of the
exiting process to `initproc`; `do_wait` takes an exited child out of the tree.

Left out are the memory, the files, the kernel stack and the exit code of a
process, and the pid hash: `do_wait` takes what `find_proc` has found.
-/

namespace Ucore.Process

open CircularList EmbeddedList SiblingChain Schedule

universe u
variable {P Q : Type u} [DecidableEq P]

/-- The scheduler's view of the processes, their relation links and `proc_list`. -/
structure ProcTable (P Q : Type u) where
  kernel : Kernel P Q
  parent : P → Option P
  cptr : P → Option P
  yptr : P → Option P
  optr : P → Option P
  links : Links (Entry P)
  nrProcess : Int

/-- `proc->state == PROC_ZOMBIE` -/
def isZombie (kernel : Kernel P Q) (proc : P) : Prop := (kernel.procs proc).state = .zombie

instance (kernel : Kernel P Q) (proc : P) : Decidable (isZombie kernel proc) :=
  inferInstanceAs (Decidable (_ = _))

/-- A process without a parent makes the access to `proc->parent->cptr` fail. -/
def setLinks (table : ProcTable P Q) (proc : P) : Option (ProcTable P Q) :=
  (table.parent proc).map fun parent =>
    let links := listAdd table.links .head (.link proc)
    let yptr := Function.update table.yptr proc none
    let optr := Function.update table.optr proc (table.cptr parent)
    let yptr := store yptr (optr proc) (some proc)
    let cptr := Function.update table.cptr parent (some proc)
    { table with links, yptr, optr, cptr, nrProcess := table.nrProcess + 1 }

def removeLinks (table : ProcTable P Q) (proc : P) : Option (ProcTable P Q) :=
  let links := listDel table.links (.link proc)
  let yptr := store table.yptr (table.optr proc) (table.yptr proc)
  match yptr proc with
  | some younger =>
      let optr := Function.update table.optr younger (table.optr proc)
      some { table with links, yptr, optr, nrProcess := table.nrProcess - 1 }
  | none =>
      (table.parent proc).map fun parent =>
        let cptr := Function.update table.cptr parent (table.optr proc)
        { table with links, yptr, cptr, nrProcess := table.nrProcess - 1 }

/-- The part of `do_fork` that concerns the tree: the limit on the number of
processes, and a new process, with the fields of `alloc_proc` and without children,
linked behind the running one. Its body is left to the reader of the source. -/
def doFork (table : ProcTable P Q) (child : P) (fields : Proc) : Option (Option P × ProcTable P Q) :=
  if (maxProcess : Int) ≤ table.nrProcess then some (none, table)
  else do
    let current ← table.kernel.current
    let kernel := table.kernel.setProc child fields
    let parent := Function.update table.parent child (some current)
    let cptr := Function.update table.cptr child none
    let table ← setLinks { table with kernel, parent, cptr } child
    some (some child, table)

variable (schedClass : SchedClass P Q) (idleproc initproc : P)

/-- `if (proc->wait_state == WT_CHILD) wakeup_proc(proc)` -/
def wakeWaiting (kernel : Kernel P Q) (proc : P) : Option (Kernel P Q) :=
  if (kernel.procs proc).waitState = wtChild then wakeupProc schedClass idleproc kernel proc
  else some kernel

/-- One round of the loop in `do_exit` up to the test for a zombie: `proc` goes
from the front of the children of `current` to the front of those of `initproc`. -/
def reparent (table : ProcTable P Q) (current proc : P) : ProcTable P Q :=
  let cptr := Function.update table.cptr current (table.optr proc)
  let yptr := Function.update table.yptr proc none
  let optr := Function.update table.optr proc (cptr initproc)
  let yptr := store yptr (optr proc) (some proc)
  let parent := Function.update table.parent proc (some initproc)
  let cptr := Function.update cptr initproc (some proc)
  { table with cptr, yptr, optr, parent }

/-- The end of a round: an exited child is reported to `initproc`. -/
def reportZombie (kernel : Kernel P Q) (proc : P) : Option (Kernel P Q) :=
  if isZombie kernel proc then wakeWaiting schedClass idleproc kernel initproc else some kernel

/-- `while (current->cptr != NULL)` in `do_exit`. The bound on the rounds stops the
loop with children left, so that it must be shown to suffice. -/
def reparentChildren (current : P) : Nat → ProcTable P Q → Option (ProcTable P Q)
  | 0, table => some table
  | fuel + 1, table =>
      match table.cptr current with
      | none => some table
      | some proc => do
          let table := reparent initproc table current proc
          let kernel ← reportZombie schedClass idleproc initproc table.kernel proc
          reparentChildren current fuel { table with kernel }

/-- `do_exit` up to its final `schedule`. -/
def doExit (table : ProcTable P Q) : Option (ProcTable P Q) := do
  let current ← table.kernel.current
  if current = idleproc then none
  else if current = initproc then none
  else
    let kernel := table.kernel.setProc current { table.kernel.procs current with state := .zombie }
    let parent ← table.parent current
    let kernel ← wakeWaiting schedClass idleproc kernel parent
    reparentChildren schedClass idleproc initproc current (table.nrProcess.toNat + 1) { table with kernel }

/-- The argument of `do_wait`: any child, or the process that `find_proc` has for the pid. -/
inductive WaitTarget (P : Type u) where
  | any
  | pid (found : Option P)

/-- What one pass of `do_wait` ends in; a blocked caller repeats it when it runs again. -/
inductive WaitResult (P : Type u) where
  | reaped (proc : P)
  | blocked
  | badProc

/-- The walk along the children in `do_wait`: `haskid`, and the first zombie. -/
def findZombie (table : ProcTable P Q) : Nat → Bool → Option P → Bool × Option P
  | 0, haskid, _ => (haskid, none)
  | _ + 1, haskid, none => (haskid, none)
  | fuel + 1, _, some proc =>
      if isZombie table.kernel proc then (true, some proc)
      else findZombie table fuel true (table.optr proc)

/-- The search of `do_wait` up to the label `found`. -/
def waitSearch (table : ProcTable P Q) (current : P) : WaitTarget P → Bool × Option P
  | .any => findZombie table (table.nrProcess.toNat + 1) false (table.cptr current)
  | .pid none => (false, none)
  | .pid (some proc) =>
      if table.parent proc = some current then
        (true, if isZombie table.kernel proc then some proc else none)
      else (false, none)

/-- One pass of `do_wait` up to its `schedule`. -/
def doWait (table : ProcTable P Q) (target : WaitTarget P) : Option (WaitResult P × ProcTable P Q) := do
  let current ← table.kernel.current
  match waitSearch table current target with
  | (_, some proc) =>
      if proc = idleproc ∨ proc = initproc then none
      else do
        let table ← removeLinks table proc
        some (.reaped proc, table)
  | (true, none) =>
      let kernel := table.kernel.setProc current
        { table.kernel.procs current with state := .sleeping, waitState := wtChild }
      some (.blocked, { table with kernel })
  | (false, none) => some (.badProc, table)

end Ucore.Process
