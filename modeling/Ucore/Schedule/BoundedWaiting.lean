import Ucore.Schedule.RoundRobin
import Ucore.Schedule.Timers

/-!
# Bounded waiting under the round-robin class

`RR_proc_tick` counts the slice of the running process down and asks for a
rescheduling when it is used up; `trap` and `cpu_idle` grant it. `RR_enqueue`
gives a full slice to a process without one and puts it behind all others.

A waiting process therefore has a budget: a full slice for each process in front
of it and what is left to the running one. Every clock interrupt that may preempt
takes at least one tick from it, and nothing else that happens adds to it.
-/

namespace Ucore.Schedule

open Transition

universe u
variable {P : Type u} [DecidableEq P] (idleproc : P)

/-- `if (current->need_resched) schedule();`, at the end of `trap` and in the loop of `cpu_idle`. -/
def reschedule (kernel : Kernel P (RunQueue P)) : Option (Kernel P (RunQueue P)) :=
  match kernel.current with
  | none => some kernel
  | some current =>
      if (kernel.procs current).needResched then schedule defaultSchedClass idleproc kernel else some kernel

/-- What happens to the scheduler. `clock` is a timer interrupt, behind the wakeups of
`run_timer_list`, that hits user mode or `idleproc` in `cpu_idle`; one that hits other
code of the kernel is the operation `procTick` alone. `yield` is `do_yield`. -/
inductive Event (P : Type u) where
  | operation (operation : Operation P)
  | yield
  | clock

def eventStep (system : System P) : Event P → Option (System P)
  | .operation operation => step idleproc system operation
  | .yield =>
      (setCurrent system.kernel fun fields => { fields with needResched := true }).map fun kernel =>
        { system with kernel := kernel }
  | .clock =>
      ((tickCurrent defaultSchedClass idleproc system.kernel).bind (reschedule idleproc)).map fun kernel =>
        { system with kernel := kernel }

/-- A new process has no slice yet, or a valid one. -/
def Unspent : Operation P → Prop
  | .create _ fields => 0 ≤ fields.timeSlice ∧ fields.timeSlice ≤ maxTimeSlice
  | _ => True

def EventLegal (system : System P) : Event P → Prop
  | .operation operation => Legal idleproc system operation ∧ Unspent operation
  | .yield => True
  | .clock => True

instance : ∀ operation : Operation P, Decidable (Unspent operation)
  | .create _ _ => inferInstanceAs (Decidable (_ ∧ _))
  | .wakeupProc _ | .schedule | .procTick _ | .sleep _ | .exit | .reap _ => inferInstanceAs (Decidable True)

instance (system : System P) : ∀ event, Decidable (EventLegal idleproc system event)
  | .operation _ => inferInstanceAs (Decidable (_ ∧ _))
  | .yield => inferInstanceAs (Decidable True)
  | .clock => inferInstanceAs (Decidable True)

/-- The number of clock interrupts that may preempt. -/
def clocks : List (Event P) → Nat
  | [] => 0
  | .clock :: rest => clocks rest + 1
  | _ :: rest => clocks rest

/-- The slice of a process is valid. -/
def Fits (kernel : Kernel P (RunQueue P)) (proc : P) : Prop :=
  0 ≤ (kernel.procs proc).timeSlice ∧ (kernel.procs proc).timeSlice ≤ maxTimeSlice

/-- The slices of all processes that can be enqueued are valid. -/
structure Sliced (system : System P) : Prop where
  most : system.kernel.queue.maxTimeSlice = maxTimeSlice
  fit : ∀ proc ∈ system.members, proc ≠ idleproc → Fits system.kernel proc

variable {idleproc}

/-- What a call that may enqueue `proc` does to the slices and to the order of the queue. -/
structure Enqueues (kernel after : Kernel P (RunQueue P)) (proc : P) : Prop where
  most : after.queue.maxTimeSlice = kernel.queue.maxTimeSlice
  appended : ∃ more, after.enqueued = kernel.enqueued ++ more
  picked : after.picked = kernel.picked
  others : ∀ other, other ≠ proc → (after.procs other).timeSlice = (kernel.procs other).timeSlice
  fits : kernel.queue.maxTimeSlice = maxTimeSlice → Fits kernel proc → Fits after proc

/-- `RR_enqueue` changes no slice but that of the process, and makes it valid. -/
theorem rrEnqueue_enqueues {kernel after : Kernel P (RunQueue P)} {proc : P}
    (accepted : rrEnqueue kernel proc = some after) :
    Enqueues kernel after proc ∧ after.enqueued = kernel.enqueued := by
  unfold rrEnqueue at accepted
  split at accepted
  · obtain rfl := Option.some.inj accepted
    refine ⟨⟨rfl, ⟨[], (List.append_nil _).symm⟩, rfl, ?_, ?_⟩, rfl⟩
    · intro other different
      simp only [Kernel.setProc_procs, different, if_false]
    · intro most fits
      simp only [Fits, Kernel.setProc_procs, if_true]
      split
      · exact ⟨by simp only [most, maxTimeSlice]; decide, most.le⟩
      · exact fits
  · cases accepted

theorem schedClassEnqueue_enqueues {kernel after : Kernel P (RunQueue P)} {proc : P}
    (accepted : schedClassEnqueue defaultSchedClass idleproc kernel proc = some after) :
    Enqueues kernel after proc := by
  unfold schedClassEnqueue at accepted
  split at accepted
  · obtain ⟨queued, taken, rfl⟩ := Option.map_eq_some_iff.mp accepted
    obtain ⟨effect, same⟩ := rrEnqueue_enqueues taken
    exact ⟨effect.most, ⟨[proc], congrArg (· ++ [proc]) same⟩, effect.picked, effect.others, effect.fits⟩
  · obtain rfl := Option.some.inj accepted
    exact ⟨rfl, ⟨[], (List.append_nil _).symm⟩, rfl, fun _ _ => rfl, fun _ fits => fits⟩

/-- A wakeup enqueues at most the process it wakes, and not the running one. -/
theorem wakeupProc_enqueues {kernel after : Kernel P (RunQueue P)} {proc : P}
    (woken : wakeupProc defaultSchedClass idleproc kernel proc = some after) :
    Enqueues kernel after proc ∧ after.current = kernel.current ∧
      (kernel.current = some proc → (after.procs proc).timeSlice = (kernel.procs proc).timeSlice) := by
  have slices : ∀ other,
      ((makeRunnable kernel proc).procs other).timeSlice = (kernel.procs other).timeSlice := by
    intro other
    by_cases same : other = proc <;> simp [makeRunnable, Kernel.setProc_procs, same]
  have untouched : Enqueues kernel (makeRunnable kernel proc) proc :=
    ⟨rfl, ⟨[], (List.append_nil _).symm⟩, rfl, fun other _ => slices other,
      fun _ fits => by simpa only [Fits, slices] using fits⟩
  have stays := (wakeupProc_frame defaultSchedClass_keeps woken).1
  unfold wakeupProc at woken
  split at woken
  · cases woken
  · split at woken
    · simp only at woken
      split at woken
      · rename_i waits
        have effect := schedClassEnqueue_enqueues woken
        refine ⟨⟨effect.most, effect.appended, effect.picked, ?_, ?_⟩, stays, ?_⟩
        · exact fun other different => (effect.others other different).trans (slices other)
        · exact fun most fits => effect.fits most (untouched.fits most fits)
        · exact fun running => absurd running waits
      · obtain rfl := Option.some.inj woken
        exact ⟨untouched, stays, fun _ => slices proc⟩
    · obtain rfl := Option.some.inj woken
      exact ⟨⟨rfl, ⟨[], (List.append_nil _).symm⟩, rfl, fun _ _ => rfl, fun _ fits => fits⟩, stays, fun _ => rfl⟩

/-- A call that leaves every valid slice valid. -/
def KeepsSlices (kernel after : Kernel P (RunQueue P)) : Prop :=
  after.queue.maxTimeSlice = kernel.queue.maxTimeSlice ∧
    ∀ proc, kernel.queue.maxTimeSlice = maxTimeSlice → Fits kernel proc → Fits after proc

omit [DecidableEq P] in
theorem KeepsSlices.trans {first second third : Kernel P (RunQueue P)} (left : KeepsSlices first second)
    (right : KeepsSlices second third) : KeepsSlices first third :=
  ⟨right.1.trans left.1, fun proc most fits => right.2 proc (left.1.trans most) (left.2 proc most fits)⟩

omit [DecidableEq P] in
/-- The same slices and the same queue. -/
theorem keepsSlices_of_same {kernel after : Kernel P (RunQueue P)}
    (most : after.queue.maxTimeSlice = kernel.queue.maxTimeSlice)
    (slices : ∀ proc, (after.procs proc).timeSlice = (kernel.procs proc).timeSlice) : KeepsSlices kernel after :=
  ⟨most, fun proc _ fits => by simpa only [Fits, slices] using fits⟩

theorem Enqueues.keepsSlices {kernel after : Kernel P (RunQueue P)} {proc : P} (effect : Enqueues kernel after proc) :
    KeepsSlices kernel after := by
  refine ⟨effect.most, fun other most fits => ?_⟩
  by_cases same : other = proc
  · subst same
    exact effect.fits most fits
  · simpa only [Fits, effect.others other same] using fits

/-- A write to a process that leaves its slice alone. -/
theorem setProc_slices (kernel : Kernel P (RunQueue P)) (proc other : P) {fields : Proc}
    (same : fields.timeSlice = (kernel.procs proc).timeSlice) :
    ((kernel.setProc proc fields).procs other).timeSlice = (kernel.procs other).timeSlice := by
  rw [Kernel.setProc_procs]
  split
  · rename_i here
    rw [here, same]
  · rfl

theorem setProc_keepsSlices (kernel : Kernel P (RunQueue P)) (proc : P) {fields : Proc}
    (same : fields.timeSlice = (kernel.procs proc).timeSlice) : KeepsSlices kernel (kernel.setProc proc fields) :=
  keepsSlices_of_same rfl fun other => setProc_slices kernel proc other same

/-- `RR_dequeue` leaves the processes and the length of a slice alone. -/
theorem chooseNext_slices {kernel after : Kernel P (RunQueue P)} {next : Option P}
    (chosen : chooseNext defaultSchedClass kernel = some (next, after)) :
    after.queue.maxTimeSlice = kernel.queue.maxTimeSlice ∧ after.procs = kernel.procs := by
  have picks : (schedClassPickNext defaultSchedClass kernel).2.queue = kernel.queue ∧
      (schedClassPickNext defaultSchedClass kernel).2.procs = kernel.procs := by
    simp only [schedClassPickNext, defaultSchedClass, rrPickNext]
    split <;> exact ⟨rfl, rfl⟩
  obtain ⟨sameQueue, sameProcs⟩ := picks
  unfold chooseNext at chosen
  generalize schedClassPickNext defaultSchedClass kernel = picked at chosen sameQueue sameProcs
  obtain ⟨choice, left⟩ := picked
  cases choice with
  | none =>
    obtain ⟨rfl, rfl⟩ := Prod.mk.inj (Option.some.inj chosen)
    exact ⟨congrArg RunQueue.maxTimeSlice sameQueue, sameProcs⟩
  | some first =>
    obtain ⟨removed, taken, same⟩ := Option.map_eq_some_iff.mp chosen
    obtain ⟨rfl, rfl⟩ := Prod.mk.inj same
    simp only [schedClassDequeue, defaultSchedClass, rrDequeue] at taken
    split at taken
    · obtain rfl := Option.some.inj taken
      have sameHere : left.queue = kernel.queue := sameQueue
      have most : left.queue.maxTimeSlice = kernel.queue.maxTimeSlice := by rw [sameHere]
      exact ⟨most, sameProcs⟩
    · cases taken

/-- `schedule` gives out slices only through `RR_enqueue`. -/
theorem schedule_slices {kernel after : Kernel P (RunQueue P)}
    (taken : schedule defaultSchedClass idleproc kernel = some after) : KeepsSlices kernel after := by
  unfold schedule at taken
  split at taken
  · cases taken
  · rename_i current running
    obtain ⟨left, out, taken⟩ := Option.bind_eq_some_iff.mp taken
    obtain ⟨⟨next, chosen⟩, choice, taken⟩ := Option.bind_eq_some_iff.mp taken
    obtain rfl := Option.some.inj taken
    have leaves : KeepsSlices kernel left := by
      have asked : KeepsSlices kernel
          (kernel.setProc current { kernel.procs current with needResched := false }) :=
        setProc_keepsSlices kernel current rfl
      unfold scheduleOut at out
      simp only at out
      split at out
      · exact asked.trans (schedClassEnqueue_enqueues out).keepsSlices
      · exact Option.some.inj out ▸ asked
    obtain ⟨most, procs⟩ := chooseNext_slices choice
    have chooses : KeepsSlices left chosen := keepsSlices_of_same most fun proc => by rw [procs]
    have enters : KeepsSlices chosen (scheduleIn idleproc chosen current next) := by
      have counted : KeepsSlices chosen (chosen.setProc (next.getD idleproc)
          { chosen.procs (next.getD idleproc) with runs := (chosen.procs (next.getD idleproc)).runs + 1 }) :=
        setProc_keepsSlices chosen (next.getD idleproc) rfl
      simp only [scheduleIn]
      split <;> exact counted
    exact (leaves.trans chooses).trans enters

/-- A tick takes at most one from the slice of the process, and asks for a rescheduling at the end of it. -/
theorem procTick_slices {kernel after : Kernel P (RunQueue P)} {proc : P}
    (ticked : schedClassProcTick defaultSchedClass idleproc kernel proc = some after) :
    KeepsSlices kernel after ∧ after.current = kernel.current ∧
      (∀ other, (after.procs other).timeSlice ≤ (kernel.procs other).timeSlice) ∧
      ((after.procs proc).needResched = true ∨
        proc ≠ idleproc ∧ (0 ≤ (kernel.procs proc).timeSlice →
          0 < (after.procs proc).timeSlice ∧ (after.procs proc).timeSlice < (kernel.procs proc).timeSlice)) := by
  unfold schedClassProcTick at ticked
  split at ticked
  · rename_i notIdle
    simp only [defaultSchedClass, rrProcTick] at ticked
    by_cases left : 0 < (kernel.procs proc).timeSlice
    · rw [if_pos left] at ticked
      obtain rfl := Option.some.inj ticked
      have slice : ∀ other, ((kernel.setProc proc (if (kernel.procs proc).timeSlice - 1 = 0 then
          { kernel.procs proc with timeSlice := (kernel.procs proc).timeSlice - 1, needResched := true }
          else { kernel.procs proc with timeSlice := (kernel.procs proc).timeSlice - 1 })).procs other).timeSlice =
          if other = proc then (kernel.procs proc).timeSlice - 1 else (kernel.procs other).timeSlice := by
        intro other
        rw [Kernel.setProc_procs]
        split
        · split <;> rfl
        · rfl
      refine ⟨⟨rfl, fun other _ fits => ?_⟩, rfl, fun other => ?_, ?_⟩
      · simp only [Fits, slice] at fits ⊢
        split
        · rename_i here
          subst here
          omega
        · exact fits
      · rw [slice]
        split
        · rename_i here
          subst here
          omega
        · exact le_rfl
      · by_cases last : (kernel.procs proc).timeSlice - 1 = 0
        · left
          simp only [last, if_true, Kernel.setProc_procs]
        · right
          refine ⟨notIdle, fun _ => ?_⟩
          rw [slice, if_pos rfl]
          omega
    · rw [if_neg left] at ticked
      obtain rfl := Option.some.inj ticked
      have kept : (if (kernel.procs proc).timeSlice = 0 then { kernel.procs proc with needResched := true }
          else kernel.procs proc).timeSlice = (kernel.procs proc).timeSlice := by
        split <;> rfl
      refine ⟨setProc_keepsSlices kernel proc kept, rfl, fun other => (setProc_slices kernel proc other kept).le, ?_⟩
      by_cases used : (kernel.procs proc).timeSlice = 0
      · left
        simp only [used, if_true, Kernel.setProc_procs]
      · exact Or.inr ⟨notIdle, fun valid => absurd (le_antisymm (not_lt.mp left) valid) used⟩
  · obtain rfl := Option.some.inj ticked
    refine ⟨setProc_keepsSlices kernel proc rfl, rfl, fun other => (setProc_slices kernel proc other ?_).le,
      Or.inl ?_⟩
    · rfl
    · simp only [Kernel.setProc_procs, if_true]

/-! ## The budget of a waiting process -/

variable (idleproc) in
/-- The ticks after which the running process is preempted; `idleproc` has no slice. -/
def remaining (kernel : Kernel P (RunQueue P)) : Nat :=
  match kernel.current with
  | none => 1
  | some current => if current = idleproc then 1 else max 1 (kernel.procs current).timeSlice.toNat

variable (idleproc) in
/-- The ticks a process waits for at most: a full slice for each process in front, and the running one. -/
def budget (kernel : Kernel P (RunQueue P)) (ahead : List P) : Nat :=
  ahead.length * maxTimeSlice.toNat + remaining idleproc kernel

variable (idleproc) in
theorem remaining_pos (kernel : Kernel P (RunQueue P)) : 0 < remaining idleproc kernel := by
  unfold remaining
  split
  · exact Nat.one_pos
  · split <;> omega

/-- A running process with a valid slice is preempted within a full slice. -/
theorem remaining_full {kernel : Kernel P (RunQueue P)} {current : P} (running : kernel.current = some current)
    (fits : current ≠ idleproc → Fits kernel current) : remaining idleproc kernel ≤ maxTimeSlice.toNat := by
  simp only [remaining, running]
  split
  · decide
  · rename_i notIdle
    obtain ⟨valid, most⟩ := fits notIdle
    simp only [maxTimeSlice] at most ⊢
    omega

/-- A shorter slice of the same running process. -/
theorem remaining_mono {kernel after : Kernel P (RunQueue P)} (same : after.current = kernel.current)
    (slices : ∀ proc, kernel.current = some proc →
      (after.procs proc).timeSlice ≤ (kernel.procs proc).timeSlice) :
    remaining idleproc after ≤ remaining idleproc kernel := by
  simp only [remaining, same]
  split
  · exact le_rfl
  · rename_i current running
    have slice := slices current running
    split
    · exact le_rfl
    · omega

variable {system : System P} {ahead behind : List P} {proc : P}

variable (idleproc) in
/-- The process got the processor, or it still waits with at least so many ticks less. -/
def Nearer (proc : P) (before : Nat) (system : System P) (spent : Nat) : Prop :=
  system.kernel.current = some proc ∨ ∃ ahead behind, Queued idleproc system (ahead ++ proc :: behind) ∧
    budget idleproc system.kernel ahead + spent ≤ before

/-- `schedule` with a process that waits runs the first one and keeps the order of the others. -/
theorem schedule_front {first : P} {rest : List P} (queued : Queued idleproc system (first :: rest)) :
    ∃ kernel more, schedule defaultSchedClass idleproc system.kernel = some kernel ∧
      kernel.current = some first ∧ Queued idleproc { system with kernel := kernel } (rest ++ more) := by
  obtain ⟨current, member, running⟩ := queued.running
  obtain ⟨left, out, held, stays, fifo, -⟩ := scheduleOut_exact queued member running
  have competes := mem_candidates queued member running
  have small := queued.small held.nodup fun proc listed => ((competes proc).mp listed).1
  obtain ⟨more, front⟩ : ∃ more, candidates idleproc system current (first :: rest) = first :: (rest ++ more) :=
    ⟨_, List.cons_append⟩
  rw [front] at held fifo small
  obtain ⟨chosen, choice, -, same, order, -⟩ := chooseNext_exact held fifo small
  obtain ⟨runs, -, sameEnqueued, samePicked, -⟩ :=
    scheduleIn_exact idleproc chosen current (some first) (same.trans stays)
  have returned : schedule defaultSchedClass idleproc system.kernel =
      some (scheduleIn idleproc chosen current (some first)) := by
    simp only [schedule, running, out, Option.bind_eq_bind, Option.bind_some, choice, List.head?_cons]
  obtain ⟨kernel, waiting, again, kept⟩ := schedule_queued queued
  obtain rfl := Option.some.inj (returned.symm.trans again)
  refine ⟨_, more, returned, runs, ?_⟩
  have same : waiting = rest ++ more := by
    have fifo := kept.fifo
    simp only [sameEnqueued, samePicked, order, List.tail_cons] at fifo
    exact (List.append_cancel_left fifo).symm
  exact same ▸ kept

/-- A call of `schedule` takes a tick from the budget of every waiting process. -/
theorem schedule_nearer (queued : Queued idleproc system (ahead ++ proc :: behind))
    (sliced : Sliced idleproc system) {kernel : Kernel P (RunQueue P)}
    (taken : schedule defaultSchedClass idleproc system.kernel = some kernel) :
    Nearer idleproc proc (budget idleproc system.kernel ahead) { system with kernel := kernel } 1 := by
  cases ahead with
  | nil =>
    obtain ⟨after, more, returned, runs, -⟩ := schedule_front queued
    obtain rfl := Option.some.inj (returned.symm.trans taken)
    exact Or.inl runs
  | cons first rest =>
    have listed : Queued idleproc system (first :: (rest ++ proc :: behind)) := queued
    obtain ⟨after, more, returned, runs, kept⟩ := schedule_front listed
    obtain rfl := Option.some.inj (returned.symm.trans taken)
    refine Or.inr ⟨rest, behind ++ more, by simpa only [List.append_assoc, List.cons_append] using kept, ?_⟩
    have waits := (queued.exact first).mp (List.mem_cons_self ..)
    have full := remaining_full runs fun notIdle =>
      (schedule_slices taken).2 first sliced.most (sliced.fit first waits.1 notIdle)
    have some_left := remaining_pos idleproc system.kernel
    simp only [budget, List.length_cons, Nat.add_mul, Nat.one_mul]
    omega

/-! ## One event -/

/-- A write to the running process that leaves its slice alone. -/
theorem setCurrent_slices {kernel after : Kernel P (RunQueue P)} {change : Proc → Proc}
    (taken : setCurrent kernel change = some after) (same : ∀ fields, (change fields).timeSlice = fields.timeSlice) :
    KeepsSlices kernel after ∧ after.current = kernel.current ∧
      ∀ other, (after.procs other).timeSlice = (kernel.procs other).timeSlice := by
  obtain ⟨current, -, rfl⟩ := Option.map_eq_some_iff.mp taken
  exact ⟨setProc_keepsSlices kernel current (same _), rfl, fun other => setProc_slices kernel current other (same _)⟩

omit [DecidableEq P] in
/-- The slices stay valid when the processes that exist stay the same. -/
theorem Sliced.of_keeps {kernel : Kernel P (RunQueue P)} (sliced : Sliced idleproc system)
    (keeps : KeepsSlices system.kernel kernel) : Sliced idleproc { system with kernel := kernel } where
  most := keeps.1.trans sliced.most
  fit proc member notIdle := keeps.2 proc sliced.most (sliced.fit proc member notIdle)

theorem tickCurrent_slices {kernel after : Kernel P (RunQueue P)} {current : P} (running : kernel.current = some current)
    (ticked : tickCurrent defaultSchedClass idleproc kernel = some after) :
    schedClassProcTick defaultSchedClass idleproc kernel current = some after := by
  simpa only [tickCurrent, running] using ticked

theorem reschedule_slices {kernel after : Kernel P (RunQueue P)} (taken : reschedule idleproc kernel = some after) :
    KeepsSlices kernel after := by
  have stays : KeepsSlices kernel kernel := keepsSlices_of_same rfl fun _ => rfl
  unfold reschedule at taken
  split at taken
  · exact Option.some.inj taken ▸ stays
  · split at taken
    · exact schedule_slices taken
    · exact Option.some.inj taken ▸ stays

/-- Every operation keeps the slices valid. -/
theorem operation_sliced {operation : Operation P} {next : System P} (sliced : Sliced idleproc system)
    (legal : EventLegal idleproc system (.operation operation)) (taken : step idleproc system operation = some next) : Sliced idleproc next := by
  cases operation with
  | create fresh fields =>
    obtain rfl := Option.some.inj taken
    refine ⟨sliced.most, fun other member notIdle => ?_⟩
    by_cases same : other = fresh
    · subst same
      simpa only [Fits, allocProc, Kernel.setProc_procs, if_true, Unspent] using legal.2
    · have known := Finset.mem_of_mem_insert_of_ne member same
      simpa only [Fits, allocProc, Kernel.setProc_procs, if_neg same] using sliced.fit other known notIdle
  | wakeupProc woken =>
    obtain ⟨kernel, returned, rfl⟩ := Option.map_eq_some_iff.mp taken
    exact sliced.of_keeps (wakeupProc_enqueues returned).1.keepsSlices
  | schedule =>
    obtain ⟨kernel, returned, rfl⟩ := Option.map_eq_some_iff.mp taken
    exact sliced.of_keeps (schedule_slices returned)
  | procTick ticked =>
    obtain ⟨kernel, returned, rfl⟩ := Option.map_eq_some_iff.mp taken
    exact sliced.of_keeps (procTick_slices returned).1
  | sleep waitState =>
    obtain ⟨kernel, returned, rfl⟩ := Option.map_eq_some_iff.mp taken
    exact sliced.of_keeps (setCurrent_slices returned fun _ => rfl).1
  | exit =>
    obtain ⟨kernel, returned, rfl⟩ := Option.map_eq_some_iff.mp taken
    exact sliced.of_keeps (setCurrent_slices returned fun _ => rfl).1
  | reap gone =>
    obtain rfl := Option.some.inj taken
    exact ⟨sliced.most, fun other member => sliced.fit other (Finset.mem_of_mem_erase member)⟩

/-- The process waits on, with the same ones in front. -/
theorem Nearer.waits {before next : System P} (queued : Queued idleproc next (ahead ++ proc :: behind))
    (less : remaining idleproc next.kernel ≤ remaining idleproc before.kernel) :
    Nearer idleproc proc (budget idleproc before.kernel ahead) next 0 :=
  Or.inr ⟨ahead, behind, queued, by unfold budget; omega⟩

theorem Nearer.fewer {before spent : Nat} {next : System P} (nearer : Nearer idleproc proc before next (spent + 1)) :
    Nearer idleproc proc before next spent := by
  rcases nearer with runs | ⟨ahead, behind, queued, less⟩
  · exact Or.inl runs
  · exact Or.inr ⟨ahead, behind, queued, by omega⟩

/-- A write to the running process keeps the budget of the waiting ones. -/
theorem setCurrent_nearer {kernel : Kernel P (RunQueue P)} {change : Proc → Proc}
    (queued : Queued idleproc system (ahead ++ proc :: behind))
    (taken : setCurrent system.kernel change = some kernel)
    (same : ∀ fields, (change fields).timeSlice = fields.timeSlice) :
    Nearer idleproc proc (budget idleproc system.kernel ahead) { system with kernel := kernel } 0 := by
  obtain ⟨after, again, kept⟩ := setCurrent_queued change queued
  obtain rfl := Option.some.inj (taken.symm.trans again)
  obtain ⟨-, stays, slices⟩ := setCurrent_slices taken same
  exact Nearer.waits kept (remaining_mono stays fun current _ => (slices current).le)

/-- No operation adds to the budget of a waiting process. -/
theorem operation_nearer {operation : Operation P} {next : System P}
    (queued : Queued idleproc system (ahead ++ proc :: behind)) (sliced : Sliced idleproc system)
    (legal : Legal idleproc system operation) (taken : step idleproc system operation = some next) :
    Nearer idleproc proc (budget idleproc system.kernel ahead) next 0 := by
  cases operation with
  | create fresh fields =>
    obtain rfl := Option.some.inj taken
    refine Nearer.waits (create_queued queued legal) (remaining_mono rfl fun current running => ?_)
    obtain ⟨other, member, same⟩ := queued.running
    obtain rfl : other = current := Option.some.inj (same.symm.trans running)
    have different : other ≠ fresh := fun same => legal.1 (same ▸ member)
    simp only [allocProc, Kernel.setProc_procs, if_neg different, le_refl]
  | wakeupProc woken =>
    obtain ⟨kernel, returned, rfl⟩ := Option.map_eq_some_iff.mp taken
    obtain ⟨effect, stays, own⟩ := wakeupProc_enqueues returned
    obtain ⟨after, waiting, again, kept⟩ := wakeupProc_queued queued legal
    obtain rfl := Option.some.inj (returned.symm.trans again)
    obtain ⟨more, appended⟩ := effect.appended
    have same : waiting = ahead ++ proc :: (behind ++ more) := by
      have fifo := kept.fifo
      simp only [appended, effect.picked, queued.fifo, List.append_assoc, List.cons_append] at fifo
      exact (List.append_cancel_left fifo).symm
    refine Nearer.waits (same ▸ kept) (remaining_mono stays fun current running => ?_)
    by_cases self : current = woken
    · subst self
      exact (own running).le
    · exact (effect.others current self).le
  | schedule =>
    obtain ⟨kernel, returned, rfl⟩ := Option.map_eq_some_iff.mp taken
    exact (schedule_nearer queued sliced returned).fewer
  | procTick ticked =>
    obtain ⟨kernel, returned, rfl⟩ := Option.map_eq_some_iff.mp taken
    obtain ⟨after, again, kept⟩ := procTick_queued ticked queued
    obtain rfl := Option.some.inj (returned.symm.trans again)
    obtain ⟨-, stays, less, -⟩ := procTick_slices returned
    exact Nearer.waits kept (remaining_mono stays fun current _ => less current)
  | sleep waitState =>
    obtain ⟨kernel, returned, rfl⟩ := Option.map_eq_some_iff.mp taken
    exact setCurrent_nearer queued returned fun _ => rfl
  | exit =>
    obtain ⟨kernel, returned, rfl⟩ := Option.map_eq_some_iff.mp taken
    exact setCurrent_nearer queued returned fun _ => rfl
  | reap gone =>
    obtain rfl := Option.some.inj taken
    exact Nearer.waits (reap_queued queued legal) le_rfl

/-- A clock interrupt that may preempt takes a tick from the budget. -/
theorem clock_nearer {kernel : Kernel P (RunQueue P)}
    (queued : Queued idleproc system (ahead ++ proc :: behind)) (sliced : Sliced idleproc system)
    (taken : (tickCurrent defaultSchedClass idleproc system.kernel).bind (reschedule idleproc) = some kernel) :
    Nearer idleproc proc (budget idleproc system.kernel ahead) { system with kernel := kernel } 1 := by
  obtain ⟨current, member, running⟩ := queued.running
  obtain ⟨ticked, tick, goes⟩ := Option.bind_eq_some_iff.mp taken
  have tick := tickCurrent_slices running tick
  obtain ⟨after, again, kept⟩ := procTick_queued current queued
  obtain rfl := Option.some.inj (tick.symm.trans again)
  obtain ⟨keeps, stays, less, ending⟩ := procTick_slices tick
  have shorter : remaining idleproc ticked ≤ remaining idleproc system.kernel :=
    remaining_mono stays fun current _ => less current
  have still : ticked.current = some current := stays.trans running
  simp only [reschedule, still] at goes
  by_cases asked : (ticked.procs current).needResched = true
  · rw [if_pos asked] at goes
    rcases schedule_nearer kept (sliced.of_keeps keeps) goes with runs | ⟨front, back, waits, spent⟩
    · exact Or.inl runs
    · refine Or.inr ⟨front, back, waits, spent.trans ?_⟩
      exact Nat.add_le_add_left shorter _
  · rw [if_neg asked] at goes
    obtain rfl := Option.some.inj goes
    obtain ⟨notIdle, counts⟩ := ending.resolve_left asked
    obtain ⟨positive, smaller⟩ := counts (sliced.fit current member notIdle).1
    refine Or.inr ⟨ahead, behind, kept, ?_⟩
    simp only [budget, remaining, still, running, if_neg notIdle]
    omega

/-- A clock interrupt fails no assertion. -/
theorem clock_queued {waiting : List P} (queued : Queued idleproc system waiting) :
    ∃ kernel waiting, (tickCurrent defaultSchedClass idleproc system.kernel).bind (reschedule idleproc) = some kernel ∧
      Queued idleproc { system with kernel := kernel } waiting := by
  obtain ⟨current, -, running⟩ := queued.running
  obtain ⟨ticked, tick, kept⟩ := procTick_queued current queued
  have still : ticked.current = some current := (procTick_slices tick).2.1.trans running
  simp only [tickCurrent, running, tick, Option.bind_some, reschedule, still]
  split
  · exact schedule_queued kept
  · exact ⟨ticked, waiting, rfl, kept⟩

/-- Every event that can happen is accepted and keeps the queue. -/
theorem event_queued {waiting : List P} (event : Event P) (queued : Queued idleproc system waiting)
    (legal : EventLegal idleproc system event) :
    ∃ next waiting, eventStep idleproc system event = some next ∧ Queued idleproc next waiting := by
  cases event with
  | operation operation => exact step_queued operation queued legal.1
  | yield =>
    obtain ⟨kernel, returned, kept⟩ := setCurrent_queued
      (fun fields => { fields with needResched := true }) queued
    exact ⟨_, waiting, by simp only [eventStep, returned, Option.map_some], kept⟩
  | clock =>
    obtain ⟨kernel, waiting, returned, kept⟩ := clock_queued queued
    exact ⟨_, waiting, by simp only [eventStep, returned, Option.map_some], kept⟩

theorem event_sliced {event : Event P} {next : System P} {waiting : List P} (queued : Queued idleproc system waiting)
    (sliced : Sliced idleproc system) (legal : EventLegal idleproc system event)
    (taken : eventStep idleproc system event = some next) : Sliced idleproc next := by
  cases event with
  | operation operation => exact operation_sliced sliced legal taken
  | yield =>
    obtain ⟨kernel, returned, rfl⟩ := Option.map_eq_some_iff.mp taken
    exact sliced.of_keeps (setCurrent_slices returned fun _ => rfl).1
  | clock =>
    obtain ⟨kernel, returned, rfl⟩ := Option.map_eq_some_iff.mp taken
    obtain ⟨current, -, running⟩ := queued.running
    obtain ⟨ticked, tick, goes⟩ := Option.bind_eq_some_iff.mp returned
    exact sliced.of_keeps ((procTick_slices (tickCurrent_slices running tick)).1.trans (reschedule_slices goes))

/-- One event: a waiting process runs, or its budget pays for the clock interrupt. -/
theorem event_nearer {event : Event P} {next : System P}
    (queued : Queued idleproc system (ahead ++ proc :: behind)) (sliced : Sliced idleproc system)
    (legal : EventLegal idleproc system event) (taken : eventStep idleproc system event = some next) :
    Nearer idleproc proc (budget idleproc system.kernel ahead) next (clocks [event]) := by
  cases event with
  | operation operation => exact operation_nearer queued sliced legal.1 taken
  | yield =>
    obtain ⟨kernel, returned, rfl⟩ := Option.map_eq_some_iff.mp taken
    exact setCurrent_nearer queued returned fun _ => rfl
  | clock =>
    obtain ⟨kernel, returned, rfl⟩ := Option.map_eq_some_iff.mp taken
    exact clock_nearer queued sliced returned

/-! ## Whole runs -/

omit [DecidableEq P] in
theorem clocks_cons (event : Event P) (rest : List (Event P)) : clocks (event :: rest) = clocks [event] + clocks rest := by
  cases event <;> simp [clocks, Nat.add_comm]

/-- In a run the process gets the processor before its budget is spent, or the budget pays for the whole run. -/
theorem runs_nearer {events : List (Event P)} {last : System P}
    (queued : Queued idleproc system (ahead ++ proc :: behind)) (sliced : Sliced idleproc system)
    (runs : Runs (eventStep idleproc) (EventLegal idleproc) events system last) :
    (∃ before after state, events = before ++ after ∧
      Runs (eventStep idleproc) (EventLegal idleproc) before system state ∧ state.kernel.current = some proc ∧
      clocks before ≤ budget idleproc system.kernel ahead) ∨
    clocks events < budget idleproc system.kernel ahead := by
  induction events generalizing system ahead behind with
  | nil =>
    right
    have some_left := remaining_pos idleproc system.kernel
    simp only [clocks, budget]
    omega
  | cons event rest ih =>
    obtain ⟨legal, next, taken, remains⟩ := runs
    rw [clocks_cons]
    rcases event_nearer queued sliced legal taken with running | ⟨front, back, waits, spent⟩
    · left
      refine ⟨[event], rest, next, rfl, ⟨legal, next, taken, rfl⟩, running, ?_⟩
      have some_left := remaining_pos idleproc system.kernel
      have one : clocks [event] ≤ 1 := by cases event <;> simp [clocks]
      unfold budget
      omega
    · rcases ih waits (event_sliced queued sliced legal taken) remains with
        ⟨before, after, state, split, ran, running, paid⟩ | paid
      · left
        refine ⟨event :: before, after, state, by rw [split, List.cons_append], ⟨legal, next, taken, ran⟩, running, ?_⟩
        rw [clocks_cons]
        omega
      · right
        omega

theorem boot_sliced (procs : P → Proc) (queue : RunQueue P) : Sliced idleproc (boot idleproc procs queue) := by
  refine ⟨rfl, fun proc member notIdle => absurd ?_ notIdle⟩
  simpa only [boot, Finset.mem_singleton] using member

/-- In every state of a run the queue is exact and the slices are valid. -/
theorem events_keep {procs : P → Proc} {queue : RunQueue P}
    (reached : Reaches (eventStep idleproc) (EventLegal idleproc) (boot idleproc procs queue) system) :
    (∃ waiting, Queued idleproc system waiting) ∧ Sliced idleproc system := by
  induction reached with
  | start => exact ⟨⟨[], boot_queued procs queue⟩, boot_sliced procs queue⟩
  | @step system next event _ legal taken ih =>
    obtain ⟨⟨waiting, queued⟩, sliced⟩ := ih
    obtain ⟨result, after, returned, kept⟩ := event_queued event queued legal
    obtain rfl : result = next := Option.some.inj (returned.symm.trans taken)
    exact ⟨⟨after, kept⟩, event_sliced queued sliced legal taken⟩

/-- The clock never stops. -/
theorem clock_runs {waiting : List P} (count : Nat) (queued : Queued idleproc system waiting) :
    ∃ last, Runs (eventStep idleproc) (EventLegal idleproc) (List.replicate count .clock) system last := by
  induction count generalizing system waiting with
  | zero => exact ⟨system, rfl⟩
  | succ count ih =>
    obtain ⟨next, after, taken, kept⟩ := event_queued .clock queued trivial
    obtain ⟨last, rest⟩ := ih kept
    exact ⟨last, trivial, next, taken, rest⟩

/-- In every run of the scheduler, whatever happens next is accepted, and a process
that waits behind others gets the processor within a full slice for each of them and
one for the running process, counted in clock interrupts that may preempt. -/
theorem round_robin_bounded_waiting (idleproc : P) (procs : P → Proc) (queue : RunQueue P) (system : System P)
    (reached : Reaches (eventStep idleproc) (EventLegal idleproc) (boot idleproc procs queue) system) :
    (∀ event, EventLegal idleproc system event → ∃ next, eventStep idleproc system event = some next) ∧
      ∀ ahead proc behind, RunListExact idleproc system (ahead ++ proc :: behind) → ∀ events last,
        Runs (eventStep idleproc) (EventLegal idleproc) events system last →
          (ahead.length + 1) * maxTimeSlice.toNat ≤ clocks events →
            ∃ before after state, events = before ++ after ∧
              Runs (eventStep idleproc) (EventLegal idleproc) before system state ∧
              state.kernel.current = some proc ∧ clocks before ≤ (ahead.length + 1) * maxTimeSlice.toNat := by
  obtain ⟨⟨waiting, queued⟩, sliced⟩ := events_keep reached
  constructor
  · intro event legal
    obtain ⟨next, -, taken, -⟩ := event_queued event queued legal
    exact ⟨next, taken⟩
  · intro ahead proc behind listed events last runs long
    have same : waiting = ahead ++ proc :: behind := List.append_cancel_left (queued.fifo.symm.trans listed.fifo)
    subst same
    obtain ⟨current, member, running⟩ := queued.running
    have full : remaining idleproc system.kernel ≤ maxTimeSlice.toNat :=
      remaining_full running fun notIdle => sliced.fit current member notIdle
    have within : budget idleproc system.kernel ahead ≤ (ahead.length + 1) * maxTimeSlice.toNat := by
      simp only [budget, Nat.add_mul, Nat.one_mul]
      omega
    rcases runs_nearer queued sliced runs with ⟨before, after, state, split, ran, served, paid⟩ | short
    · exact ⟨before, after, state, split, ran, served, paid.trans within⟩
    · omega

/-- Of two woken processes the first runs; the second waits behind none and runs after five clock interrupts. -/
theorem round_robin_bounded_waiting_two :
    ∃ (procs : Nat → Proc) (queue : RunQueue Nat) (system last : System Nat),
      Reaches (eventStep 0) (EventLegal 0) (boot 0 procs queue) system ∧
      RunListExact 0 system ([] ++ 2 :: []) ∧
      Runs (eventStep 0) (EventLegal 0) (List.replicate 5 .clock) system last ∧
      ∃ before after state, List.replicate 5 .clock = before ++ after ∧
        Runs (eventStep 0) (EventLegal 0) before system state ∧ state.kernel.current = some 2 ∧
        clocks before ≤ 5 := by
  let fields : Proc := { state := .uninit, waitState := 0, needResched := false, runs := 0, timeSlice := 0 }
  let queue : RunQueue Nat :=
    { links := { prev := id, next := id }, procNum := 0, maxTimeSlice := 0, rq := fun _ => false }
  let start := boot 0 (fun _ => fields) queue
  have completed : (run (guarded (eventStep 0) fun system event => decide (EventLegal 0 system event))
      [.operation (.create 1 fields), .operation (.create 2 fields), .operation (.wakeupProc 1),
        .operation (.wakeupProc 2), .operation .schedule] start).map
          (fun system => (system.kernel.enqueued, system.kernel.picked)) = some ([1, 2], [1]) := by decide +kernel
  obtain ⟨system, made, histories⟩ := Option.map_eq_some_iff.mp completed
  have reached := guarded_reaches (fun _ _ => of_decide_eq_true) _ _ _ made
  obtain ⟨waiting, queued⟩ := (events_keep reached).1
  have waits : waiting = [2] := by
    have fifo := queued.fifo
    simp only [(Prod.mk.inj histories).1, (Prod.mk.inj histories).2] at fifo
    simpa using fifo.symm
  subst waits
  have listed : RunListExact 0 system ([] ++ 2 :: []) :=
    ⟨queued.holds.ring, queued.holds.nodup, queued.exact, queued.holds.counted, queued.fifo⟩
  obtain ⟨last, runs⟩ := clock_runs 5 queued
  exact ⟨fun _ => fields, queue, system, last, reached, listed, runs,
    (round_robin_bounded_waiting 0 (fun _ => fields) queue system reached).2 [] 2 [] listed _ last runs (by decide)⟩

end Ucore.Schedule
