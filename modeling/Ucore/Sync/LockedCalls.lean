import Ucore.Library.Sections
import Ucore.Library.Transition
import Ucore.Sync.Semaphore

/-!
# Calls under a semaphore

Some functions of the kernel do all their work between `down` and `up` of one semaphore, whose
value is 1 at first. Any number of threads call them, and the threads are interleaved here at
every statement: more often than the kernel does it. The calls that have returned are then a
serial history.
-/

namespace Ucore.Sync

open Sections Transition

universe u v w x y
variable {T : Type u} {κ : Type v} {lc : Type w} {σ : Type x} {ρ : Type y}

/-- Where a thread is: in none of the functions, in `down`, or behind it. -/
inductive Seat (κ : Type v) (lc : Type w) where
  | outside
  | waiting (call : κ)
  | inside (call : κ) (here : lc)

/-- The threads, the semaphore, what the functions share, and the calls that have returned, in the order of `up`. -/
structure LockedState (T : Type u) (κ : Type v) (lc : Type w) (σ : Type x) (ρ : Type y) where
  seats : T → Seat κ lc
  sem : Semaphore T
  shared : σ
  returned : List (κ × ρ)

/-- Nobody has called a function. -/
def unlocked (shared : σ) : LockedState T κ lc σ ρ := ⟨fun _ => .outside, ⟨1, []⟩, shared, []⟩

/-- A thread calls a function, or goes on in one. -/
inductive LockedOperation (T : Type u) (κ : Type v) where
  | call (thread : T) (call : κ)
  | go (thread : T)

/-! ## The lock -/

/-- The thread has passed `down`, or nothing keeps it there. -/
def LockedState.Holds (state : LockedState T κ lc σ ρ) (thread : T) : Prop :=
  match state.seats thread with
  | .outside => False
  | .waiting _ => thread ∉ state.sem.queue
  | .inside .. => True

/-- The semaphore is free and no thread waits for it, or one thread has it. -/
structure Exclusive (state : LockedState T κ lc σ ρ) : Prop where
  waiting : ∀ thread ∈ state.sem.queue, ∃ call, state.seats thread = .waiting call
  distinct : state.sem.queue.Nodup
  locked : state.sem = ⟨1, []⟩ ∧ (∀ thread, ¬ state.Holds thread) ∨
    state.sem.value = 0 ∧ ∃ holder, ∀ thread, state.Holds thread ↔ thread = holder

variable {state next : LockedState T κ lc σ ρ} {thread other : T} {call : κ} {here : lc}

/-- Whether a thread has the lock depends on its own place alone. -/
theorem holds_congr (sameSeat : next.seats thread = state.seats thread)
    (sameQueue : thread ∈ next.sem.queue ↔ thread ∈ state.sem.queue) : next.Holds thread ↔ state.Holds thread := by
  unfold LockedState.Holds
  rw [sameSeat, sameQueue]

theorem not_holds_outside (outside : state.seats thread = .outside) : ¬ state.Holds thread := by
  intro holds
  rw [LockedState.Holds, outside] at holds
  exact holds

theorem holds_inside (inside : state.seats thread = .inside call here) : state.Holds thread := by
  rw [LockedState.Holds, inside]
  trivial

theorem holds_waiting (waiting : state.seats thread = .waiting call) : state.Holds thread ↔ thread ∉ state.sem.queue := by
  rw [LockedState.Holds, waiting]

theorem unlocked_exclusive (shared : σ) : Exclusive (unlocked shared : LockedState T κ lc σ ρ) where
  waiting _ member := absurd member List.not_mem_nil
  distinct := List.nodup_nil
  locked := Or.inl ⟨rfl, fun _ => not_holds_outside rfl⟩

/-- A semaphore with a value above 0 is free. -/
theorem Exclusive.free (exclusive : Exclusive state) (free : 0 < state.sem.value) :
    state.sem = ⟨1, []⟩ ∧ ∀ thread, ¬ state.Holds thread := by
  obtain unlocked | ⟨value, _⟩ := exclusive.locked
  · exact unlocked
  · omega

/-- The thread that has the lock is the only one. -/
theorem Exclusive.holder (exclusive : Exclusive state) (holds : state.Holds thread) :
    state.sem.value = 0 ∧ ∀ other, state.Holds other ↔ other = thread := by
  obtain ⟨_, nobody⟩ | ⟨value, holder, isHolder⟩ := exclusive.locked
  · exact absurd holds (nobody thread)
  · have same := (isHolder thread).mp holds
    exact ⟨value, same ▸ isHolder⟩

/-- Only threads in `down` are in the queue. -/
theorem Exclusive.absent (exclusive : Exclusive state) (elsewhere : ∀ call, state.seats thread ≠ .waiting call) :
    thread ∉ state.sem.queue := by
  intro member
  obtain ⟨call, waiting⟩ := exclusive.waiting thread member
  exact elsewhere call waiting

/-- If a thread is in one of the functions, some thread has the lock. -/
theorem Exclusive.someone (exclusive : Exclusive state) (busy : state.seats thread ≠ .outside) :
    ∃ holder, state.Holds holder := by
  obtain ⟨isFree, _⟩ | ⟨_, holder, isHolder⟩ := exclusive.locked
  · refine ⟨thread, ?_⟩
    cases isSeat : state.seats thread with
    | outside => exact absurd isSeat busy
    | waiting =>
      rw [holds_waiting isSeat, isFree]
      exact List.not_mem_nil
    | inside => exact holds_inside isSeat
  · exact ⟨holder, (isHolder holder).mpr rfl⟩

/-- The call that a thread is inside. -/
def Seat.entered : Seat κ lc → Option (κ × lc)
  | .inside call here => some (call, here)
  | _ => none

/-- The threads behind `down`. -/
def LockedState.system (state : LockedState T κ lc σ ρ) : System T κ lc σ ρ where
  inside thread := (state.seats thread).entered
  shared := state.shared
  returned := state.returned

/-- Whoever is behind `down` has the lock. -/
theorem entered_none (notHolds : ¬ state.Holds thread) : (state.seats thread).entered = none := by
  cases isSeat : state.seats thread with
  | outside => rfl
  | waiting => rfl
  | inside => exact absurd (holds_inside isSeat) notHolds

/-- What a thread calls. -/
def Seat.Calls (allowed : κ → Prop) : Seat κ lc → Prop
  | .outside => True
  | .waiting call | .inside call _ => allowed call

/-- What is called in a run. -/
def Allows (allowed : κ → Prop) (_ : LockedState T κ lc σ ρ) : LockedOperation T κ → Prop
  | .call _ call => allowed call
  | .go _ => True

/-- The calls that threads have made, returned or not. -/
structure Allowed (allowed : κ → Prop) (state : LockedState T κ lc σ ρ) : Prop where
  seats : ∀ thread, (state.seats thread).Calls allowed
  returned : ∀ pair ∈ state.returned, allowed pair.1

variable {allowed : κ → Prop}

theorem Allowed.entered (isAllowed : Allowed allowed state)
    (isInside : state.system.inside thread = some (call, here)) : allowed call := by
  have calls := isAllowed.seats thread
  change (state.seats thread).entered = some (call, here) at isInside
  cases isSeat : state.seats thread with
  | outside =>
    rw [isSeat] at isInside
    cases isInside
  | waiting =>
    rw [isSeat] at isInside
    cases isInside
  | inside =>
    rw [isSeat] at isInside calls
    cases isInside
    exact calls

/-! ## What a step does -/

variable [DecidableEq T]

/-- A thread goes on at another place. -/
def LockedState.sit (state : LockedState T κ lc σ ρ) (thread : T) (seat : Seat κ lc) : LockedState T κ lc σ ρ :=
  { state with seats := Function.update state.seats thread seat }

variable (body : Body κ lc σ ρ) (asserts : κ → Prop) [DecidablePred asserts]

/-- The assertions in front of `down` and `down` itself, its return to a thread that has left the queue, a statement
behind it, or `up`. -/
def lockedStep (state : LockedState T κ lc σ ρ) : LockedOperation T κ → Option (LockedState T κ lc σ ρ)
  | .call thread call =>
      match state.seats thread with
      | .outside =>
          if asserts call then
            let (sem, returned) := state.sem.down thread
            some ({ state with sem }.sit thread (if returned then .inside call (body.enter call) else .waiting call))
          else none
      | _ => none
  | .go thread =>
      match state.seats thread with
      | .outside => none
      | .waiting call =>
          if thread ∈ state.sem.queue then none else some (state.sit thread (.inside call (body.enter call)))
      | .inside call here =>
          match body.leave here with
          | some answer =>
              some ({ state with sem := state.sem.up, returned := state.returned ++ [(call, answer)] }.sit thread .outside)
          | none =>
              (body.step here state.shared).map fun (there, shared) =>
                { state with shared }.sit thread (.inside call there)

/-- The steps that threads make. -/
inductive LockedMoves (state : LockedState T κ lc σ ρ) : LockedOperation T κ → LockedState T κ lc σ ρ → Prop where
  | enter {thread : T} {call : κ} (outside : state.seats thread = .outside) (free : 0 < state.sem.value) :
      LockedMoves state (.call thread call)
        ({ state with sem := { state.sem with value := state.sem.value - 1 } }.sit thread (.inside call (body.enter call)))
  | wait {thread : T} {call : κ} (outside : state.seats thread = .outside) (locked : ¬ 0 < state.sem.value) :
      LockedMoves state (.call thread call)
        ({ state with sem := { state.sem with queue := state.sem.queue ++ [thread] } }.sit thread (.waiting call))
  | grant {thread : T} {call : κ} (waiting : state.seats thread = .waiting call) (granted : thread ∉ state.sem.queue) :
      LockedMoves state (.go thread) (state.sit thread (.inside call (body.enter call)))
  | step {thread : T} {call : κ} {here there : lc} {shared : σ} (inside : state.seats thread = .inside call here)
      (taken : body.step here state.shared = some (there, shared)) :
      LockedMoves state (.go thread) ({ state with shared }.sit thread (.inside call there))
  | leave {thread : T} {call : κ} {here : lc} {answer : ρ} (inside : state.seats thread = .inside call here)
      (ended : body.leave here = some answer) :
      LockedMoves state (.go thread)
        ({ state with sem := state.sem.up, returned := state.returned ++ [(call, answer)] }.sit thread .outside)

variable {body asserts} {operation : LockedOperation T κ}

theorem lockedStep_moves (taken : lockedStep body asserts state operation = some next) :
    LockedMoves body state operation next := by
  cases operation with
  | call thread call =>
    simp only [lockedStep] at taken
    split at taken
    · rename_i outside
      split at taken
      · rw [Semaphore.down] at taken
        split at taken
        · rename_i free
          cases taken
          exact .enter outside free
        · rename_i locked
          cases taken
          exact .wait outside locked
      · cases taken
    · cases taken
  | go thread =>
    simp only [lockedStep] at taken
    split at taken
    · cases taken
    · rename_i call waiting
      split at taken
      · cases taken
      · rename_i granted
        cases taken
        exact .grant waiting granted
    · rename_i call here inside
      split at taken
      · rename_i answer ended
        cases taken
        exact .leave inside ended
      · obtain ⟨⟨there, shared⟩, stepped, isNext⟩ := Option.map_eq_some_iff.mp taken
        cases isNext
        exact .step inside stepped

section

variable {seat : Seat κ lc} (isSeats : next.seats = Function.update state.seats thread seat)
include isSeats

theorem seat_self : next.seats thread = seat := isSeats ▸ Function.update_self ..

theorem seat_of_ne (different : other ≠ thread) : next.seats other = state.seats other :=
  isSeats ▸ Function.update_of_ne different ..

/-- Nothing changes for another thread that is or is not in the queue as before. -/
theorem holds_of_ne (different : other ≠ thread) (sameQueue : other ∈ next.sem.queue ↔ other ∈ state.sem.queue) :
    next.Holds other ↔ state.Holds other :=
  holds_congr (seat_of_ne isSeats different) sameQueue

end

/-- The holder goes on. -/
theorem Exclusive.goesOn (exclusive : Exclusive state) (holds : state.Holds thread)
    (isSeats : next.seats = Function.update state.seats thread (.inside call here)) (isSem : next.sem = state.sem) :
    Exclusive next := by
  obtain ⟨value, unique⟩ := exclusive.holder holds
  refine ⟨fun other member => ?_, isSem ▸ exclusive.distinct, Or.inr ⟨isSem ▸ value, thread, fun other => ?_⟩⟩
  · rw [isSem] at member
    obtain ⟨waits, waiting⟩ := exclusive.waiting other member
    have different : other ≠ thread := fun same => (holds_waiting waiting).mp (same ▸ holds) member
    rw [seat_of_ne isSeats different]
    exact ⟨waits, waiting⟩
  · by_cases same : other = thread
    · rw [same]
      exact iff_of_true (holds_inside (seat_self isSeats)) rfl
    · rw [holds_of_ne isSeats same (by rw [isSem])]
      exact unique other

/-- A thread takes the free lock. -/
theorem Exclusive.taken (exclusive : Exclusive state) (free : 0 < state.sem.value)
    (isSeats : next.seats = Function.update state.seats thread (.inside call here))
    (isSem : next.sem = { state.sem with value := state.sem.value - 1 }) : Exclusive next := by
  obtain ⟨isFree, nobody⟩ := exclusive.free free
  have isTaken : next.sem = ⟨0, []⟩ := by rw [isSem, isFree]; rfl
  refine ⟨fun other member => ?_, ?_, Or.inr ⟨congrArg Semaphore.value isTaken, thread, fun other => ?_⟩⟩
  · rw [isTaken] at member
    exact absurd member List.not_mem_nil
  · rw [isTaken]
    exact List.nodup_nil
  · by_cases same : other = thread
    · rw [same]
      exact iff_of_true (holds_inside (seat_self isSeats)) rfl
    · refine iff_of_false (fun holds => nobody other ?_) same
      exact (holds_of_ne isSeats same (by rw [isSem])).mp holds

/-- A thread gets into the queue. -/
theorem Exclusive.queued (exclusive : Exclusive state) (outside : state.seats thread = .outside)
    (locked : ¬ 0 < state.sem.value) (isSeats : next.seats = Function.update state.seats thread (.waiting call))
    (isSem : next.sem = { state.sem with queue := state.sem.queue ++ [thread] }) : Exclusive next := by
  have absent : thread ∉ state.sem.queue := exclusive.absent fun _ waiting => by rw [outside] at waiting; cases waiting
  have isQueue : ∀ other, other ∈ next.sem.queue ↔ other ∈ state.sem.queue ∨ other = thread := by
    intro other
    rw [isSem, List.mem_append, List.mem_singleton]
  obtain ⟨isFree, _⟩ | ⟨value, holder, isHolder⟩ := exclusive.locked
  · rw [isFree] at locked
    exact absurd Int.one_pos locked
  refine ⟨fun other member => ?_, ?_, Or.inr ⟨isSem ▸ value, holder, fun other => ?_⟩⟩
  · by_cases same : other = thread
    · exact ⟨call, same ▸ seat_self isSeats⟩
    · rw [seat_of_ne isSeats same]
      exact exclusive.waiting other (((isQueue other).mp member).resolve_right same)
  · rw [isSem]
    exact exclusive.distinct.append (List.nodup_singleton thread) (List.disjoint_singleton.mpr absent)
  · by_cases same : other = thread
    · rw [same]
      refine iff_of_false (fun holds => ?_) fun isThis => ?_
      · exact (holds_waiting (seat_self isSeats)).mp holds ((isQueue thread).mpr (Or.inr rfl))
      · exact not_holds_outside outside ((isHolder thread).mpr isThis)
    · rw [holds_of_ne isSeats same ((isQueue other).trans (or_iff_left same))]
      exact isHolder other

/-- `up` passes the lock to the first thread of the queue. -/
theorem Exclusive.released (exclusive : Exclusive state) (inside : state.seats thread = .inside call here)
    (isSeats : next.seats = Function.update state.seats thread .outside) (isSem : next.sem = state.sem.up) :
    Exclusive next := by
  obtain ⟨value, unique⟩ := exclusive.holder (holds_inside inside)
  have absent : thread ∉ state.sem.queue := exclusive.absent fun _ waiting => by rw [inside] at waiting; cases waiting
  have notThis : ¬ next.Holds thread := not_holds_outside (seat_self isSeats)
  -- No other thread holds the lock unless it has just left the queue.
  have notOther : ∀ other, other ≠ thread → (other ∈ next.sem.queue ↔ other ∈ state.sem.queue) → ¬ next.Holds other := by
    intro other different sameQueue holds
    exact different ((unique other).mp ((holds_of_ne isSeats different sameQueue).mp holds))
  cases isQueue : state.sem.queue with
  | nil =>
    have isUp : next.sem = ⟨1, []⟩ := by simp only [isSem, Semaphore.up, isQueue, value, Int.zero_add]
    refine ⟨fun other member => ?_, ?_, Or.inl ⟨isUp, fun other => ?_⟩⟩
    · rw [isUp] at member
      exact absurd member List.not_mem_nil
    · rw [isUp]
      exact List.nodup_nil
    · by_cases same : other = thread
      · exact same ▸ notThis
      · exact notOther other same (by rw [isUp, isQueue])
  | cons first rest =>
    have isUp : next.sem = ⟨0, rest⟩ := by simp only [isSem, Semaphore.up, isQueue, value]
    have distinct := exclusive.distinct
    have waiting : ∀ other ∈ first :: rest, ∃ call, state.seats other = .waiting call := isQueue ▸ exclusive.waiting
    rw [isQueue] at absent distinct
    obtain ⟨notAgain, distinctRest⟩ := List.nodup_cons.mp distinct
    have stillWaiting : ∀ other ∈ first :: rest, ∃ call, next.seats other = .waiting call := by
      intro other member
      have different : other ≠ thread := fun same => absent (same ▸ member)
      rw [seat_of_ne isSeats different]
      exact waiting other member
    refine ⟨?_, isUp ▸ distinctRest, Or.inr ⟨congrArg Semaphore.value isUp, first, fun other => ?_⟩⟩
    · rw [isUp]
      exact fun other member => stillWaiting other (List.mem_cons_of_mem _ member)
    · by_cases isFirst : other = first
      · obtain ⟨_, waits⟩ := stillWaiting first List.mem_cons_self
        rw [isFirst]
        refine iff_of_true ((holds_waiting waits).mpr ?_) rfl
        rwa [isUp]
      · refine iff_of_false ?_ isFirst
        by_cases same : other = thread
        · exact same ▸ notThis
        · refine notOther other same ?_
          rw [isUp, isQueue, List.mem_cons]
          exact (or_iff_right isFirst).symm

/-- One step keeps the lock. -/
theorem LockedMoves.exclusive (moves : LockedMoves body state operation next) (exclusive : Exclusive state) :
    Exclusive next := by
  cases moves with
  | enter _ free => exact exclusive.taken free rfl rfl
  | wait outside locked => exact exclusive.queued outside locked rfl rfl
  | grant waiting granted => exact exclusive.goesOn ((holds_waiting waiting).mpr granted) rfl rfl
  | step inside => exact exclusive.goesOn (holds_inside inside) rfl rfl
  | leave inside => exact exclusive.released inside rfl rfl

/-! ## Serial histories -/

theorem system_sit (state : LockedState T κ lc σ ρ) (thread : T) (seat : Seat κ lc) :
    (state.sit thread seat).system =
      { state.system with inside := Function.update state.system.inside thread seat.entered } := by
  have isInside : (fun other => (Function.update state.seats thread seat other).entered) =
      Function.update state.system.inside thread seat.entered :=
    Function.comp_update Seat.entered state.seats thread seat
  rw [← isInside]
  rfl

/-- A step is one of the serial system, or changes nothing there. -/
theorem LockedMoves.system (moves : LockedMoves body state operation next) (exclusive : Exclusive state) :
    next.system = state.system ∨ System.Moves body state.system next.system := by
  cases moves with
  | @enter thread call outside free =>
    have nobody := (exclusive.free free).2
    rw [system_sit]
    exact Or.inr (.enter fun other => entered_none (nobody other))
  | @wait thread call outside locked =>
    have unchanged : Function.update state.system.inside thread none = state.system.inside := by
      rw [Function.update_eq_self_iff]
      exact (congrArg Seat.entered outside).symm
    rw [system_sit]
    exact Or.inl (congrArg (System.mk · state.shared state.returned) unchanged)
  | @grant thread call waiting granted =>
    obtain ⟨_, unique⟩ := exclusive.holder ((holds_waiting waiting).mpr granted)
    rw [system_sit]
    refine Or.inr (.enter fun other => ?_)
    by_cases same : other = thread
    · exact same ▸ congrArg Seat.entered waiting
    · exact entered_none fun holds => same ((unique other).mp holds)
  | @step thread call here there shared inside taken =>
    rw [system_sit]
    exact Or.inr (.step (congrArg Seat.entered inside) taken)
  | @leave thread call here answer inside ended =>
    rw [system_sit]
    exact Or.inr (.leave (congrArg Seat.entered inside) ended)

/-- In every run one thread at most is behind `down`, and the calls that have returned are serial. -/
theorem locked_serial {admitted : LockedState T κ lc σ ρ → LockedOperation T κ → Prop} {start : σ}
    (reached : Reaches (lockedStep body asserts) admitted (unlocked start) state) :
    Exclusive state ∧ state.system.Explained body start := by
  induction reached with
  | start => exact ⟨unlocked_exclusive start, System.explained_start fun _ => rfl⟩
  | step _ _ taken ih =>
    obtain ⟨exclusive, explained⟩ := ih
    have moves := lockedStep_moves taken
    refine ⟨moves.exclusive exclusive, ?_⟩
    obtain unchanged | moved := moves.system exclusive
    · rw [unchanged]
      exact explained
    · exact moved.explained explained

/-- One thread goes on with a call of its own. -/
theorem Allowed.sit {seat : Seat κ lc} (isAllowed : Allowed allowed state)
    (isSeats : next.seats = Function.update state.seats thread seat) (calls : seat.Calls allowed) (other : T) : (next.seats other).Calls allowed := by
  by_cases same : other = thread
  · rw [same, seat_self isSeats]
    exact calls
  · rw [seat_of_ne isSeats same]
    exact isAllowed.seats other

theorem LockedMoves.keepsAllowed (moves : LockedMoves body state operation next) (allows : Allows allowed state operation)
    (isAllowed : Allowed allowed state) : Allowed allowed next := by
  cases moves with
  | enter => exact ⟨isAllowed.sit rfl allows, isAllowed.returned⟩
  | wait => exact ⟨isAllowed.sit rfl allows, isAllowed.returned⟩
  | @grant thread call waiting granted =>
    have calls := isAllowed.seats thread
    rw [waiting] at calls
    exact ⟨isAllowed.sit rfl calls, isAllowed.returned⟩
  | @step thread call here there shared inside taken =>
    have calls := isAllowed.seats thread
    rw [inside] at calls
    exact ⟨isAllowed.sit rfl calls, isAllowed.returned⟩
  | @leave thread call here answer inside ended =>
    have calls := isAllowed.seats thread
    rw [inside] at calls
    refine ⟨isAllowed.sit rfl trivial, fun pair member => ?_⟩
    obtain earlier | isLast := List.mem_append.mp member
    · exact isAllowed.returned pair earlier
    · rw [List.mem_singleton.mp isLast]
      exact calls

/-- The calls that have returned are ones that threads have made. -/
theorem locked_allowed {start : σ}
    (reached : Reaches (lockedStep body asserts) (Allows allowed) (unlocked start) state) : Allowed allowed state := by
  refine reached.invariant ⟨fun _ => trivial, fun _ member => absurd member List.not_mem_nil⟩ ?_
  intro state operation next isAllowed allows taken
  exact (lockedStep_moves taken).keepsAllowed allows isAllowed

/-- The holder of the lock goes on, unless its call is stuck. -/
theorem holds_proceeds (holds : state.Holds thread)
    (notStuck : ∀ call here, state.system.inside thread = some (call, here) →
      (body.leave here).isSome ∨ (body.step here state.shared).isSome) :
    ∃ next, lockedStep body asserts state (.go thread) = some next := by
  simp only [lockedStep]
  cases isSeat : state.seats thread with
  | outside => exact absurd holds (not_holds_outside isSeat)
  | waiting => exact ⟨_, if_neg ((holds_waiting isSeat).mp holds)⟩
  | inside call here =>
    dsimp only
    obtain ended | stepped := notStuck call here (congrArg Seat.entered isSeat)
    · obtain ⟨answer, ended⟩ := Option.isSome_iff_exists.mp ended
      rw [ended]
      exact ⟨_, rfl⟩
    · cases body.leave here with
      | some answer => exact ⟨_, rfl⟩
      | none =>
        obtain ⟨after, taken⟩ := Option.isSome_iff_exists.mp stepped
        rw [taken]
        exact ⟨_, rfl⟩

end Ucore.Sync
