import Ucore.Schedule.Timers
import Ucore.Library.Transition

/-!
# Runs of the timers

Abstractly a timer is pending with a deadline: the number of the tick that fires
it. The system state adds to the kernel's memory the ticks so far, the deadlines
and the timers that have been initialised. A deadline is set when a timer is
added and cleared when it is deleted or fired; between timer operations the rest
of the kernel does anything to the processes.

The timer list decodes to the deadlines in every state, and each tick fires
exactly the timers whose deadline it is.
-/

namespace Ucore.Schedule

open CircularList EmbeddedList DeltaList Transition

universe u
variable {P Q T : Type u} [DecidableEq P] [DecidableEq T]

inductive TimerOperation (P Q T : Type u) where
  | timerInit (timer : T) (proc : Option P) (expires : BitVec 32)
  | addTimer (timer : T)
  | delTimer (timer : T)
  | runTimerList
  | elsewhere (kernel : Kernel P Q)

/-- The timers in memory, the ticks so far and the deadline of each pending timer. -/
structure TimerSystem (P Q T : Type u) where
  state : TimerState P Q T
  initialised : Finset T
  now : Nat
  deadline : T → Option Nat

/-- The state after `sched_init` on an arbitrary memory. -/
def bootTimers (state : TimerState P Q T) : TimerSystem P Q T where
  state := { state with links := listInit state.links .head }
  initialised := ∅
  now := 0
  deadline _ := none

/-- Each loop over the timers is given one round more than there are timers. -/
def TimerSystem.fuel (system : TimerSystem P Q T) : Nat := system.initialised.card + 1

variable (schedClass : SchedClass P Q) (idleproc : P)

def timerStep (system : TimerSystem P Q T) : TimerOperation P Q T → Option (TimerSystem P Q T)
  | .timerInit timer proc expires => some { system with
      state := timerInit timer proc expires system.state
      initialised := insert timer system.initialised }
  | .addTimer timer => (addTimer system.fuel timer system.state).map fun state =>
      { system with
        state := state
        deadline := Function.update system.deadline timer
          (some (system.now + (system.state.expires timer).toNat)) }
  | .delTimer timer => some { system with
      state := delTimer timer system.state
      deadline := Function.update system.deadline timer none }
  | .runTimerList => (runTimerList schedClass idleproc system.fuel system.state).map fun result =>
      { system with
        state := result.1
        now := system.now + 1
        deadline := fun timer =>
          if timer ∈ result.2.map Prod.fst then none else system.deadline timer }
  | .elsewhere kernel => some { system with state := { system.state with kernel := kernel } }

/-- A timer is not initialised while it is pending; only initialised timers are
added or deleted. -/
def TimerLegal (system : TimerSystem P Q T) : TimerOperation P Q T → Prop
  | .timerInit timer _ _ => system.deadline timer = none
  | .addTimer timer => timer ∈ system.initialised
  | .delTimer timer => timer ∈ system.initialised
  | .runTimerList => True
  | .elsewhere _ => True

instance (system : TimerSystem P Q T) : ∀ operation, Decidable (TimerLegal system operation)
  | .timerInit _ _ _ => inferInstanceAs (Decidable (_ = _))
  | .addTimer _ => inferInstanceAs (Decidable (_ ∈ _))
  | .delTimer _ => inferInstanceAs (Decidable (_ ∈ _))
  | .runTimerList => inferInstanceAs (Decidable True)
  | .elsewhere _ => inferInstanceAs (Decidable True)

/-- The timer list decodes to the deadlines. -/
structure Scheduled (system : TimerSystem P Q T) (entries : List (T × Nat)) : Prop where
  holds : system.state.Holds (· ∈ system.initialised) entries
  pending : Pending entries
  exact : ∀ timer total,
    (timer, total) ∈ totals system.now entries ↔ system.deadline timer = some total
  known : ∀ timer ∈ entries.map Prod.fst, timer ∈ system.initialised
  bounded : ∀ timer total, system.deadline timer = some total → total < system.now + 2 ^ 32

variable {schedClass} {idleproc} {system : TimerSystem P Q T} {entries : List (T × Nat)}

omit [DecidableEq P] [DecidableEq T] in
/-- Listed timers are the pending ones. -/
theorem Scheduled.listed (scheduled : Scheduled system entries) (timer : T) :
    timer ∈ entries.map Prod.fst ↔ (system.deadline timer).isSome := by
  rw [← totals_keys system.now, List.mem_map, Option.isSome_iff_exists]
  constructor
  · rintro ⟨⟨_, total⟩, member, rfl⟩
    exact ⟨total, (scheduled.exact _ total).mp member⟩
  · rintro ⟨total, found⟩
    exact ⟨(timer, total), (scheduled.exact timer total).mpr found, rfl⟩

omit [DecidableEq P] in
/-- There are no more listed timers than initialised ones. -/
theorem Scheduled.enough (scheduled : Scheduled system entries) : entries.length < system.fuel := by
  have bound : (entries.map Prod.fst).toFinset.card ≤ system.initialised.card :=
    Finset.card_le_card fun timer member => scheduled.known timer (List.mem_toFinset.mp member)
  rw [List.toFinset_card_of_nodup scheduled.holds.distinct, List.length_map] at bound
  exact Nat.lt_succ_of_le bound

omit [DecidableEq P] [DecidableEq T] in
/-- Every distance to a deadline fits an `unsigned int`. -/
theorem Scheduled.small (scheduled : Scheduled system entries) (timer : T) (total : Nat)
    (member : (timer, total) ∈ totals 0 entries) : total < 2 ^ 32 := by
  have decoded := (mem_totals_shift system.now total timer entries).mpr member
  have bound := scheduled.bounded timer _ ((scheduled.exact timer _).mp decoded)
  omega

omit [DecidableEq P] [DecidableEq T] in
/-- After a tick the distances still fit. -/
theorem Scheduled.small_tick (scheduled : Scheduled system entries) (timer : T) (total : Nat)
    (member : (timer, total) ∈ totals 0 (tick entries)) : total < 2 ^ 32 := by
  have decoded := (mem_totals_shift (system.now + 1) total timer (tick entries)).mpr member
  rw [totals_pass _ scheduled.pending] at decoded
  have bound := scheduled.bounded timer _ ((scheduled.exact timer _).mp decoded)
  omega

omit [DecidableEq P] [DecidableEq T] in
/-- A pending timer's deadline lies ahead. -/
theorem Scheduled.ahead (scheduled : Scheduled system entries) {timer : T} {total : Nat}
    (found : system.deadline timer = some total) : system.now < total :=
  scheduled.pending.origin_lt ((scheduled.exact timer total).mpr found)

omit [DecidableEq P] in
theorem timerInit_scheduled {timer : T} {proc : Option P} {expires : BitVec 32}
    (scheduled : Scheduled system entries) (free : system.deadline timer = none) :
    Scheduled { system with
      state := timerInit timer proc expires system.state
      initialised := insert timer system.initialised } entries := by
  have absent : timer ∉ entries.map Prod.fst := by simp [scheduled.listed, free]
  have different : ∀ other ∈ entries.map Prod.fst, other ≠ timer := fun other member same =>
    absent (same ▸ member)
  refine ⟨⟨?_, ?_, ?_, ?_⟩, scheduled.pending, scheduled.exact, ?_, scheduled.bounded⟩
  · exact listInit_frame scheduled.holds.ring (by simpa [timerEntries] using absent)
  · intro other delta member
    have notTimer := different other (List.mem_map.mpr ⟨_, member, rfl⟩)
    simpa [timerInit, Function.update_of_ne notTimer] using scheduled.holds.stored other delta member
  · intro other member
    simpa [timerInit, Function.update_of_ne (different other member)] using
      scheduled.holds.assigned other member
  · intro other known unlisted
    by_cases same : other = timer
    · subst same
      exact listInit_ring _ _
    · have member : other ∈ system.initialised := Finset.mem_of_mem_insert_of_ne known same
      exact listInit_frame (scheduled.holds.detached other member unlisted)
        (by simpa using Ne.symm same)
  · exact fun other member => Finset.mem_insert_of_mem (scheduled.known other member)

omit [DecidableEq P] in
/-- `add_timer` sets the deadline of its timer. -/
theorem addTimer_scheduled {timer : T} {state : TimerState P Q T} (scheduled : Scheduled system entries)
    (known : timer ∈ system.initialised) (returned : addTimer system.fuel timer system.state = some state) :
    Scheduled { system with
      state := state
      deadline := Function.update system.deadline timer
        (some (system.now + (system.state.expires timer).toNat)) }
      (insertKey timer (system.state.expires timer).toNat entries) ∧
    state.kernel = system.state.kernel ∧ state.proc = system.state.proc := by
  obtain ⟨absent, positive, assigned⟩ := addTimer_checked scheduled.holds known returned
  obtain ⟨result, same, kept, kernel, proc⟩ :=
    addTimer_exact scheduled.holds known absent positive assigned scheduled.enough
  obtain rfl : result = state := Option.some.inj (same.symm.trans returned)
  have free : system.deadline timer = none := by simpa [scheduled.listed] using absent
  have time : 0 < (system.state.expires timer).toNat := BitVec.lt_def.mp positive
  refine ⟨⟨kept, scheduled.pending.insertKey time, ?_, ?_, ?_⟩, kernel, proc⟩
  · intro other total
    rw [mem_totals_insertKey, scheduled.exact]
    by_cases same : other = timer
    · subst same
      simp [free, eq_comm]
    · simp [same]
  · intro other member
    rw [← totals_keys system.now] at member
    obtain ⟨⟨_, total⟩, inTotals, rfl⟩ := List.mem_map.mp member
    rcases (mem_totals_insertKey _ _ _ _ _ _).mp inTotals with ⟨rfl, _⟩ | old
    · exact known
    · refine scheduled.known _ ?_
      rw [← totals_keys system.now]
      exact List.mem_map.mpr ⟨_, old, rfl⟩
  · intro other total found
    by_cases same : other = timer
    · subst same
      simp only [Function.update_self, Option.some.injEq] at found
      have fits := (system.state.expires other).isLt
      change total < system.now + 2 ^ 32
      omega
    · simp only [Function.update_of_ne same] at found
      exact scheduled.bounded other total found

omit [DecidableEq P] in
/-- `del_timer` clears the deadline of its timer and no other. -/
theorem delTimer_scheduled {timer : T} (scheduled : Scheduled system entries)
    (known : timer ∈ system.initialised) :
    ∃ left, Scheduled { system with
      state := delTimer timer system.state
      deadline := Function.update system.deadline timer none } left ∧
    (delTimer timer system.state).kernel = system.state.kernel ∧
    (delTimer timer system.state).proc = system.state.proc := by
  by_cases listed : timer ∈ entries.map Prod.fst
  · obtain ⟨⟨_, delta⟩, member, rfl⟩ := List.mem_map.mp listed
    rename_i timer
    obtain ⟨before, after, rfl⟩ := List.append_of_mem member
    obtain ⟨kept, kernel, proc⟩ := delTimer_exact scheduled.holds scheduled.small
    have exact : ∀ other total, (other, total) ∈ totals system.now (before ++ advance delta after) ↔
        Function.update system.deadline timer none other = some total := by
      intro other total
      rw [mem_totals_remove scheduled.holds.distinct, scheduled.exact]
      by_cases same : other = timer
      · simp [same]
      · simp [same]
    refine ⟨before ++ advance delta after, ⟨kept, scheduled.pending.remove, exact, ?_, ?_⟩, kernel, proc⟩
    · intro other inLeft
      refine scheduled.known other ?_
      simp only [List.map_append, advance_keys, List.mem_append, List.map_cons, List.mem_cons] at inLeft ⊢
      tauto
    · intro other total found
      by_cases same : other = timer
      · simp [same] at found
      · simp only [Function.update_of_ne same] at found
        exact scheduled.bounded other total found
  · have free : system.deadline timer = none := by simpa [scheduled.listed] using listed
    have cleared : Function.update system.deadline timer none = system.deadline := by
      rw [← free, Function.update_eq_self]
    rw [delTimer_absent scheduled.holds known listed, cleared]
    exact ⟨entries, scheduled, rfl, rfl⟩

/-- A completed `run_timer_list` fires the timers whose deadline is this tick. -/
theorem runTimerList_scheduled {state : TimerState P Q T} {fired : List (T × P)}
    (scheduled : Scheduled system entries)
    (returned : runTimerList schedClass idleproc system.fuel system.state = some (state, fired)) :
    fired = firings system.state.proc (tick entries) ∧
      state.Holds (· ∈ system.initialised) (later (tick entries)) ∧ state.proc = system.state.proc := by
  have enough := scheduled.enough
  have expired := expireTimers_exact schedClass idleproc scheduled.holds scheduled.pending
    (Nat.le_of_lt enough) scheduled.small_tick
  obtain ⟨⟨middle, firedHere⟩, expiry, ticked⟩ := Option.bind_eq_some_iff.mp returned
  obtain ⟨kernel, _, last⟩ := Option.bind_eq_some_iff.mp ticked
  obtain ⟨rfl, rfl⟩ := Prod.mk.inj (Option.some.inj last)
  cases woken : fireAll schedClass idleproc system.state.kernel
      (firings system.state.proc (tick entries)) with
  | none =>
    rw [woken] at expired
    rw [expired] at expiry
    cases expiry
  | some kernel =>
    rw [woken] at expired
    obtain ⟨after, same, _, kept, proc⟩ := expired
    obtain ⟨rfl, rfl⟩ := Prod.mk.inj (Option.some.inj (same.symm.trans expiry))
    exact ⟨rfl, ⟨kept.ring, kept.stored, kept.assigned, kept.detached⟩, proc⟩

omit [DecidableEq P] [DecidableEq T] in
/-- The fired timers are those whose deadline is the next tick, with their processes. -/
theorem Scheduled.mem_firings (scheduled : Scheduled system entries) (timer : T) (proc : P) :
    (timer, proc) ∈ firings system.state.proc (tick entries) ↔
      system.deadline timer = some (system.now + 1) ∧ system.state.proc timer = some proc := by
  have due : timer ∈ due (tick entries) ↔ system.deadline timer = some (system.now + 1) := by
    rw [mem_due_iff (system.now + 1), totals_pass _ scheduled.pending, scheduled.exact]
  simp only [firings, List.mem_filterMap, Option.map_eq_some_iff, Prod.mk.injEq, ← due]
  constructor
  · rintro ⟨other, member, woken, assigned, rfl, rfl⟩
    exact ⟨member, assigned⟩
  · rintro ⟨member, assigned⟩
    exact ⟨timer, member, proc, assigned, rfl, rfl⟩

omit [DecidableEq P] [DecidableEq T] in
/-- A timer is fired exactly when its deadline is the next tick. -/
theorem Scheduled.fired_iff (scheduled : Scheduled system entries) (timer : T) :
    timer ∈ (firings system.state.proc (tick entries)).map Prod.fst ↔
      system.deadline timer = some (system.now + 1) := by
  constructor
  · intro member
    obtain ⟨⟨_, proc⟩, fired, rfl⟩ := List.mem_map.mp member
    exact ((scheduled.mem_firings _ proc).mp fired).1
  · intro found
    have listed : timer ∈ entries.map Prod.fst := by simp [scheduled.listed, found]
    obtain ⟨proc, assigned⟩ := Option.isSome_iff_exists.mp (scheduled.holds.assigned timer listed)
    exact List.mem_map.mpr ⟨(timer, proc), (scheduled.mem_firings timer proc).mpr ⟨found, assigned⟩, rfl⟩

/-- A tick clears the deadlines it meets. -/
theorem tick_scheduled {state : TimerState P Q T} {fired : List (T × P)}
    (scheduled : Scheduled system entries)
    (returned : runTimerList schedClass idleproc system.fuel system.state = some (state, fired)) :
    Scheduled { system with
      state := state
      now := system.now + 1
      deadline := fun timer => if timer ∈ fired.map Prod.fst then none else system.deadline timer }
      (later (tick entries)) := by
  obtain ⟨rfl, kept, _⟩ := runTimerList_scheduled scheduled returned
  refine ⟨kept, pending_later _, ?_, ?_, ?_⟩
  · intro timer total
    simp only [mem_totals_later, totals_pass _ scheduled.pending, scheduled.exact, scheduled.fired_iff]
    by_cases now : system.deadline timer = some (system.now + 1)
    · simp only [now, Option.some.injEq, if_true, reduceCtorEq, iff_false, not_and, not_lt]
      omega
    · simp only [now, if_false, and_iff_left_iff_imp]
      intro found
      have ahead := scheduled.ahead found
      have different : total ≠ system.now + 1 := fun same => now (same ▸ found)
      omega
  · intro timer member
    refine scheduled.known timer ?_
    rw [← tick_keys, keys_split]
    exact List.mem_append_right _ member
  · intro timer total found
    by_cases now : timer ∈ (firings system.state.proc (tick entries)).map Prod.fst
    · simp only [now, if_true, reduceCtorEq] at found
    · simp only [now, if_false] at found
      have bound := scheduled.bounded timer total found
      change total < system.now + 1 + 2 ^ 32
      omega

/-- The timer operations on `timer` itself. -/
def Touches (timer : T) : TimerOperation P Q T → Prop
  | .timerInit other _ _ => other = timer
  | .addTimer other => other = timer
  | .delTimer other => other = timer
  | .runTimerList => False
  | .elsewhere _ => False

/-- The ticks of an operation. -/
def TimerOperation.ticks : TimerOperation P Q T → Nat
  | .runTimerList => 1
  | _ => 0

/-- Every legal operation keeps a list that decodes to the deadlines, and leaves the
deadlines and processes of other timers alone until they are met. -/
theorem timerStep_scheduled {operation : TimerOperation P Q T} {next : TimerSystem P Q T}
    (scheduled : Scheduled system entries) (legal : TimerLegal system operation)
    (taken : timerStep schedClass idleproc system operation = some next) :
    (∃ entries, Scheduled next entries) ∧ next.now = system.now + operation.ticks ∧
      ∀ timer, ¬ Touches timer operation → next.state.proc timer = system.state.proc timer ∧
        next.deadline timer =
          if system.deadline timer = some next.now then none else system.deadline timer := by
  have notNow : ∀ timer, ¬ system.deadline timer = some system.now := fun timer found =>
    absurd (scheduled.ahead found) (Nat.lt_irrefl _)
  cases operation with
  | timerInit timer proc expires =>
    obtain rfl := Option.some.inj taken
    refine ⟨⟨entries, timerInit_scheduled scheduled legal⟩, rfl, fun other untouched => ?_⟩
    have different : other ≠ timer := fun same => untouched same.symm
    exact ⟨by simp [timerInit, Function.update_of_ne different], by simp [notNow]⟩
  | addTimer timer =>
    obtain ⟨state, returned, rfl⟩ := Option.map_eq_some_iff.mp taken
    obtain ⟨kept, _, proc⟩ := addTimer_scheduled scheduled legal returned
    refine ⟨⟨_, kept⟩, rfl, fun other untouched => ?_⟩
    have different : other ≠ timer := fun same => untouched same.symm
    exact ⟨congrFun proc other, by simp [notNow, Function.update_of_ne different]⟩
  | delTimer timer =>
    obtain rfl := Option.some.inj taken
    obtain ⟨left, kept, _, proc⟩ := delTimer_scheduled scheduled legal
    refine ⟨⟨left, kept⟩, rfl, fun other untouched => ?_⟩
    have different : other ≠ timer := fun same => untouched same.symm
    exact ⟨congrFun proc other, by simp [notNow, Function.update_of_ne different]⟩
  | runTimerList =>
    obtain ⟨⟨state, fired⟩, returned, rfl⟩ := Option.map_eq_some_iff.mp taken
    obtain ⟨rfl, _, proc⟩ := runTimerList_scheduled scheduled returned
    refine ⟨⟨_, tick_scheduled scheduled returned⟩, rfl, fun other _ => ⟨congrFun proc other, ?_⟩⟩
    simp only [scheduled.fired_iff]
  | elsewhere kernel =>
    obtain rfl := Option.some.inj taken
    have holds := scheduled.holds
    refine ⟨⟨entries, ⟨⟨holds.ring, holds.stored, holds.assigned, holds.detached⟩, scheduled.pending,
      scheduled.exact, scheduled.known, scheduled.bounded⟩⟩, rfl, fun other _ => ⟨rfl, ?_⟩⟩
    simp [notNow]

/-- The ticks of a run. -/
def ticks (operations : List (TimerOperation P Q T)) : Nat :=
  (operations.map TimerOperation.ticks).sum

/-- Along a run that leaves a timer alone, its deadline stays until it is met. -/
theorem runs_deadline {operations : List (TimerOperation P Q T)} {last : TimerSystem P Q T} {timer : T}
    (scheduled : ∃ entries, Scheduled system entries)
    (runs : Runs (timerStep schedClass idleproc) TimerLegal operations system last)
    (untouched : ∀ operation ∈ operations, ¬ Touches timer operation) :
    (∃ entries, Scheduled last entries) ∧ last.now = system.now + ticks operations ∧
      last.state.proc timer = system.state.proc timer ∧
      last.deadline timer = (system.deadline timer).filter (last.now < ·) := by
  induction operations generalizing system with
  | nil =>
    obtain rfl : system = last := runs
    refine ⟨scheduled, rfl, rfl, ?_⟩
    obtain ⟨entries, scheduled⟩ := scheduled
    cases found : system.deadline timer with
    | none => rfl
    | some total =>
      have ahead : system.now < total := scheduled.ahead found
      rw [Option.filter_some, if_pos (decide_eq_true ahead)]
  | cons operation rest ih =>
    obtain ⟨legal, next, taken, remaining⟩ := runs
    obtain ⟨entries, scheduled⟩ := scheduled
    obtain ⟨kept, now, others⟩ := timerStep_scheduled scheduled legal taken
    obtain ⟨proc, deadline⟩ := others timer (untouched operation List.mem_cons_self)
    obtain ⟨keptLast, nowLast, procLast, deadlineLast⟩ := ih kept remaining
      (fun later member => untouched later (List.mem_cons_of_mem _ member))
    refine ⟨keptLast, ?_, procLast.trans proc, ?_⟩
    · simp only [ticks, List.map_cons, List.sum_cons] at nowLast ⊢
      omega
    · rw [deadlineLast, deadline]
      cases found : system.deadline timer with
      | none => simp
      | some total =>
        by_cases met : total = next.now
        · have passed : ¬ last.now < next.now := by omega
          rw [met, if_pos rfl, Option.filter_none, Option.filter_some, if_neg (by simpa using passed)]
        · rw [if_neg (by simpa using met)]

theorem timerStep_keeps (system : TimerSystem P Q T) (operation : TimerOperation P Q T)
    (next : TimerSystem P Q T) (scheduled : ∃ entries, Scheduled system entries)
    (legal : TimerLegal system operation) (taken : timerStep schedClass idleproc system operation = some next) :
    ∃ entries, Scheduled next entries := by
  obtain ⟨entries, scheduled⟩ := scheduled
  exact (timerStep_scheduled scheduled legal taken).1

omit [DecidableEq P] in
theorem bootTimers_scheduled (state : TimerState P Q T) : Scheduled (bootTimers state) [] := by
  refine ⟨⟨listInit_ring _ _, by simp, by simp, ?_⟩, ?_, ?_, by simp, ?_⟩
  · intro timer known
    simp [bootTimers] at known
  · simp [Pending]
  · simp [bootTimers]
  · simp [bootTimers]

/-- In every reached state the timer list decodes to the deadlines. -/
theorem reached_scheduled {start : TimerState P Q T}
    (reached : Reaches (timerStep schedClass idleproc) TimerLegal (bootTimers start) system) :
    ∃ entries, Scheduled system entries :=
  reached.invariant ⟨[], bootTimers_scheduled start⟩ timerStep_keeps

/-- The timers listed behind `timer_list` are the pending ones. The `expires` fields
up to and including a timer add up to its remaining ticks, and the first is positive. -/
structure TimerListExact (system : TimerSystem P Q T) (listed : List T) : Prop where
  ring : Ring system.state.links .head (listed.map Entry.link)
  pending : ∀ timer, timer ∈ listed ↔ (system.deadline timer).isSome
  remaining : ∀ before timer after, listed = before ++ timer :: after →
    system.deadline timer =
      some (system.now + ((before ++ [timer]).map fun other => (system.state.expires other).toNat).sum)
  positive : ∀ timer ∈ listed.head?, 0 < system.state.expires timer

omit [DecidableEq P] [DecidableEq T] in
theorem Scheduled.timerListExact (scheduled : Scheduled system entries) :
    TimerListExact system (entries.map Prod.fst) := by
  have stored := scheduled.holds.stored
  refine ⟨scheduled.holds.ring, scheduled.listed, ?_, ?_⟩
  · intro before timer after split
    obtain ⟨front, back, rfl, rfl, tail⟩ := List.map_eq_append_iff.mp split
    obtain ⟨⟨_, delta⟩, rest, rfl, rfl, rfl⟩ := List.map_eq_cons_iff.mp tail
    rename_i timer
    have total : (timer, system.now + (front.map Prod.snd).sum + delta) ∈
        totals system.now (front ++ (timer, delta) :: rest) := by simp [totals_append]
    have sums : (front.map Prod.fst).map (fun other => (system.state.expires other).toNat) =
        front.map Prod.snd := by
      rw [List.map_map]
      exact List.map_congr_left fun entry member => stored entry.1 entry.2 (by simp [member])
    have here : (system.state.expires timer).toNat = delta := stored timer delta (by simp)
    rw [(scheduled.exact timer _).mp total]
    simp [sums, here, Nat.add_assoc]
  · intro timer first
    cases entries with
    | nil => simp at first
    | cons entry rest =>
      obtain rfl : entry.1 = timer := by simpa using first
      have positive := scheduled.pending entry (by simp)
      rw [← stored entry.1 entry.2 List.mem_cons_self] at positive
      exact BitVec.lt_def.mpr positive

/-- A class that keeps no queue. -/
def noQueue (P : Type) : SchedClass P Unit where
  init queue := queue
  enqueue kernel _ := some kernel
  dequeue kernel _ := some kernel
  pickNext kernel := (none, kernel)
  procTick kernel _ := some kernel

/-- Timers 1 and 2 of the sleeping processes 1 and 2, as a memory before `sched_init`. -/
def twoSleepers : TimerState Nat Unit Nat where
  kernel :=
    { procs := fun _ => ⟨.sleeping, wtTimer, false, 0, 0⟩
      queue := ()
      current := some 0
      enqueued := []
      picked := [] }
  expires _ := 0
  proc _ := none
  links := { prev := id, next := id }

end Ucore.Schedule
