import Ucore.Schedule.Sched
import Ucore.Library.DeltaList

/-!
# Timers

`timer_list` in `kern/schedule/sched.c` keeps timers in the order of expiry, each
with the number of ticks behind the one before it. `add_timer` walks the list
and settles the differences, `del_timer` gives the difference to the next timer,
and `run_timer_list` counts down the first one and fires those that reach zero.

The scheduling class is arbitrary. The loops take the number of timers as fuel;
`none` is a failed assertion, a null pointer or a loop out of fuel.
-/

namespace Ucore.Schedule

open CircularList EmbeddedList DeltaList

universe u
variable {P Q T : Type u} [DecidableEq P] [DecidableEq T]

/-- The kernel with `timer_list` and the fields of every `timer_t`. -/
structure TimerState (P Q T : Type u) where
  kernel : Kernel P Q
  expires : T → BitVec 32
  proc : T → Option P
  links : Links (Entry T)

def timerInit (timer : T) (proc : Option P) (expires : BitVec 32) (state : TimerState P Q T) :
    TimerState P Q T :=
  { state with
    expires := Function.update state.expires timer expires
    proc := Function.update state.proc timer proc
    links := listInit state.links (.link timer) }

/-- The loop of `add_timer`: the entry to insert before, and the settled differences. -/
def addLoop : Nat → Entry T → T → Links (Entry T) → (T → BitVec 32) →
    Option (Entry T × (T → BitVec 32))
  | 0, _, _, _, _ => none
  | _ + 1, .head, _, _, expires => some (.head, expires)
  | fuel + 1, .link next, timer, links, expires =>
      if expires timer < expires next then
        some (.link next, Function.update expires next (expires next - expires timer))
      else addLoop fuel (listNext links (.link next)) timer links
        (Function.update expires timer (expires timer - expires next))

def addTimer (fuel : Nat) (timer : T) (state : TimerState P Q T) : Option (TimerState P Q T) :=
  if 0 < state.expires timer ∧ (state.proc timer).isSome ∧ listEmpty state.links (.link timer) then
    (addLoop fuel (listNext state.links .head) timer state.links state.expires).map fun result =>
      { state with
        expires := result.2
        links := listAddBefore state.links result.1 (.link timer) }
  else none

def delTimer (timer : T) (state : TimerState P Q T) : TimerState P Q T :=
  if !listEmpty state.links (.link timer) then
    let expires :=
      if state.expires timer ≠ 0 then
        match listNext state.links (.link timer) with
        | .head => state.expires
        | .link next =>
            Function.update state.expires next (state.expires next + state.expires timer)
      else state.expires
    { state with expires := expires, links := listDelInit state.links (.link timer) }
  else state

variable (schedClass : SchedClass P Q) (idleproc : P)

/-- What an expired timer does to its process. -/
def fireProc (kernel : Kernel P Q) (proc : P) : Option (Kernel P Q) :=
  if (kernel.procs proc).waitState ≠ 0 ∧ (kernel.procs proc).waitState &&& wtInterrupted = 0 then none
  else wakeupProc schedClass idleproc kernel proc

/-- The loop of `run_timer_list` from `timer` on, with the timers fired and the
processes woken, in order. -/
def expireLoop : Nat → T → TimerState P Q T → Option (TimerState P Q T × List (T × P))
  | 0, _, _ => none
  | fuel + 1, timer, state =>
      if state.expires timer = 0 then do
        let le := listNext state.links (.link timer)
        let proc ← state.proc timer
        let kernel ← fireProc schedClass idleproc state.kernel proc
        let state := delTimer timer { state with kernel := kernel }
        match le with
        | .head => some (state, [(timer, proc)])
        | .link next =>
            (expireLoop fuel next state).map fun result => (result.1, (timer, proc) :: result.2)
      else some (state, [])

/-- The part of `run_timer_list` before the tick of the scheduling class. -/
def expireTimers (fuel : Nat) (state : TimerState P Q T) :
    Option (TimerState P Q T × List (T × P)) :=
  match listNext state.links .head with
  | .head => some (state, [])
  | .link timer =>
      if state.expires timer = 0 then none
      else expireLoop schedClass idleproc fuel timer
        { state with expires := Function.update state.expires timer (state.expires timer - 1) }

/-- `if (current) sched_class_proc_tick(current)` -/
def tickCurrent (kernel : Kernel P Q) : Option (Kernel P Q) :=
  match kernel.current with
  | some current => schedClassProcTick schedClass idleproc kernel current
  | none => some kernel

def runTimerList (fuel : Nat) (state : TimerState P Q T) :
    Option (TimerState P Q T × List (T × P)) := do
  let (state, fired) ← expireTimers schedClass idleproc fuel state
  let kernel ← tickCurrent schedClass idleproc state.kernel
  some ({ state with kernel := kernel }, fired)

/-! ## The timer list as a delta list -/

def timerEntries (entries : List (T × Nat)) : List (Entry T) :=
  (entries.map Prod.fst).map Entry.link

/-- The memory holds exactly these timers and differences; timers that are
initialised but not listed have an empty link. -/
structure TimerState.Holds (state : TimerState P Q T) (initialised : T → Prop)
    (entries : List (T × Nat)) : Prop where
  ring : Ring state.links .head (timerEntries entries)
  stored : ∀ timer delta, (timer, delta) ∈ entries → (state.expires timer).toNat = delta
  assigned : ∀ timer ∈ entries.map Prod.fst, (state.proc timer).isSome
  detached : ∀ timer, initialised timer → timer ∉ entries.map Prod.fst →
    Ring state.links (.link timer) []

namespace TimerState.Holds

variable {state : TimerState P Q T} {initialised : T → Prop} {entries : List (T × Nat)} {timer : T}

omit [DecidableEq P] [DecidableEq T] in
theorem distinct (holds : state.Holds initialised entries) : (entries.map Prod.fst).Nodup :=
  (List.nodup_cons.mp holds.ring.distinct).2.of_map

omit [DecidableEq P] in
/-- An initialised timer is in the list exactly when its link is not empty. -/
theorem listEmpty_iff (holds : state.Holds initialised entries) (known : initialised timer) :
    listEmpty state.links (.link timer) = true ↔ timer ∉ entries.map Prod.fst := by
  constructor
  · intro empty listed
    have inRing : Entry.link timer ∈ timerEntries entries := List.mem_map.mpr ⟨timer, listed, rfl⟩
    rw [listEmpty_node holds.ring inRing] at empty
    cases empty
  · intro absent
    exact (EmbeddedList.listEmpty_iff (holds.detached timer known absent)).mpr rfl

end TimerState.Holds

omit [DecidableEq P] in
/-- The loop of `add_timer` settles the differences as an insertion does and stops
at the entry in front of which the timer belongs. `passed` is behind it. -/
theorem addLoop_exact {links : Links (Entry T)} {timer : T} (passed : List T)
    (ahead : List (T × Nat)) (fuel : Nat) (expires : T → BitVec 32)
    (ring : Ring links .head (passed.map Entry.link ++ timerEntries ahead))
    (fresh : timer ∉ ahead.map Prod.fst) (enough : ahead.length < fuel)
    (stored : ∀ other delta, (other, delta) ∈ ahead → (expires other).toNat = delta) :
    ∃ settled front back,
      addLoop fuel ((timerEntries ahead).headD .head) timer links expires =
        some ((back.map Entry.link).headD .head, settled) ∧
      ahead.map Prod.fst = front ++ back ∧
      (insertKey timer (expires timer).toNat ahead).map Prod.fst = front ++ timer :: back ∧
      (∀ other delta, (other, delta) ∈ insertKey timer (expires timer).toNat ahead →
        (settled other).toNat = delta) ∧
      ∀ other, other ≠ timer → other ∉ ahead.map Prod.fst → settled other = expires other := by
  induction ahead generalizing passed fuel expires with
  | nil =>
    obtain ⟨fuel, rfl⟩ := Nat.exists_eq_succ_of_ne_zero (by omega : fuel ≠ 0)
    refine ⟨expires, [], [], rfl, rfl, rfl, ?_, fun _ _ _ => rfl⟩
    intro other delta member
    simp only [insertKey, List.mem_singleton, Prod.mk.injEq] at member
    rw [member.1, member.2]
  | cons entry rest ih =>
    obtain ⟨next, delta⟩ := entry
    simp only [List.length_cons] at enough
    obtain ⟨fuel, rfl⟩ := Nat.exists_eq_succ_of_ne_zero (by omega : fuel ≠ 0)
    obtain ⟨different, freshRest⟩ : timer ≠ next ∧ timer ∉ rest.map Prod.fst := by simpa using fresh
    have split : Ring links .head (passed.map Entry.link ++ .link next :: timerEntries rest) := ring
    have distinct : next ∉ rest.map Prod.fst := by
      have nodup := (List.nodup_cons.mp split.rotate.distinct).1
      simp only [timerEntries, List.mem_append, not_or] at nodup
      simpa using nodup.1
    have here : (expires next).toNat = delta := stored next delta List.mem_cons_self
    have storedRest : ∀ other left, (other, left) ∈ rest → (expires other).toNat = left :=
      fun other left member => stored other left (List.mem_cons_of_mem _ member)
    by_cases before : expires timer < expires next
    · have less : (expires timer).toNat < delta := here ▸ BitVec.lt_def.mp before
      refine ⟨Function.update expires next (expires next - expires timer), [], next :: rest.map Prod.fst,
        ?_, rfl, by simp [insertKey, less], ?_, ?_⟩
      · simp [timerEntries, addLoop, before]
      · intro other left member
        simp only [insertKey, less, if_true, List.mem_cons, Prod.mk.injEq] at member
        rcases member with ⟨rfl, rfl⟩ | ⟨rfl, rfl⟩ | member
        · rw [Function.update_of_ne different]
        · rw [Function.update_self, BitVec.toNat_sub_of_le (BitVec.le_of_lt before), here]
        · have notNext : other ≠ next := by
            rintro rfl
            exact distinct (List.mem_map.mpr ⟨_, member, rfl⟩)
          rw [Function.update_of_ne notNext]
          exact storedRest other left member
      · intro other _ outside
        have notNext : other ≠ next := fun same => outside (by simp [same])
        rw [Function.update_of_ne notNext]
    · have notLess : ¬ (expires timer).toNat < delta := fun less => before (BitVec.lt_def.mpr (here ▸ less))
      have passedRing : Ring links .head ((passed ++ [next]).map Entry.link ++ timerEntries rest) := by
        simpa using split
      have remaining : (Function.update expires timer (expires timer - expires next) timer).toNat =
          (expires timer).toNat - delta := by
        rw [Function.update_self, BitVec.toNat_sub_of_le (BitVec.not_lt.mp before), here]
      obtain ⟨settled, front, back, returned, keys, inserted, exact, frame⟩ :=
        ih (passed ++ [next]) fuel (Function.update expires timer (expires timer - expires next))
          passedRing freshRest (by omega) (by
            intro other left member
            have notTimer : other ≠ timer := by
              rintro rfl
              exact freshRest (List.mem_map.mpr ⟨_, member, rfl⟩)
            rw [Function.update_of_ne notTimer]
            exact storedRest other left member)
      rw [remaining] at inserted exact
      have nextHere : listNext links (.link next) = (timerEntries rest).headD .head := split.next_node
      refine ⟨settled, next :: front, back, ?_, by simp [keys], by simp [insertKey, notLess, inserted],
        ?_, ?_⟩
      · simpa [timerEntries, addLoop, before, nextHere] using returned
      · intro other left member
        simp only [insertKey, notLess, if_false, List.mem_cons, Prod.mk.injEq] at member
        rcases member with ⟨rfl, rfl⟩ | member
        · rw [frame _ different.symm distinct, Function.update_of_ne different.symm, here]
        · exact exact other left member
      · intro other notTimer outside
        simp only [List.map_cons, List.mem_cons, not_or] at outside
        rw [frame other notTimer outside.2, Function.update_of_ne notTimer]

omit [DecidableEq P] in
/-- `add_timer` accepts an initialised timer outside the list that has a process
and a positive time; it inserts the timer and moves no other. -/
theorem addTimer_exact {state : TimerState P Q T} {initialised : T → Prop} {entries : List (T × Nat)}
    {timer : T} {fuel : Nat} (holds : state.Holds initialised entries) (known : initialised timer)
    (absent : timer ∉ entries.map Prod.fst) (positive : 0 < state.expires timer)
    (assigned : (state.proc timer).isSome) (enough : entries.length < fuel) :
    ∃ after, addTimer fuel timer state = some after ∧
      after.Holds initialised (insertKey timer (state.expires timer).toNat entries) ∧
      after.kernel = state.kernel ∧ after.proc = state.proc := by
  have empty := (holds.listEmpty_iff known).mpr absent
  obtain ⟨settled, front, back, returned, keys, inserted, stored, frame⟩ :=
    addLoop_exact [] entries fuel state.expires holds.ring absent enough holds.stored
  have start : listNext state.links .head = (timerEntries entries).headD .head := by
    have first := holds.ring.next_head
    simpa [listNext] using first
  refine ⟨{ state with
    expires := settled
    links := listAddBefore state.links ((back.map Entry.link).headD .head) (.link timer) }, ?_,
    ⟨?_, stored, ?_, ?_⟩, rfl, rfl⟩
  · simp only [addTimer, positive, assigned, empty, start, returned, and_self, if_true, Option.map_some]
  · have split : Ring state.links .head (front.map Entry.link ++ back.map Entry.link) := by
      simpa [timerEntries, keys] using holds.ring
    have fresh : Entry.link timer ∉ Entry.head :: (front.map Entry.link ++ back.map Entry.link) := by
      rw [keys] at absent
      simpa using absent
    simpa [timerEntries, inserted] using listAddBefore_rear (.link timer) split fresh
  · intro other member
    rw [inserted] at member
    by_cases same : other = timer
    · exact same ▸ assigned
    · exact holds.assigned other (by rw [keys]; simpa [same] using member)
  · intro other otherKnown outside
    rw [inserted] at outside
    obtain ⟨different, unlisted⟩ : other ≠ timer ∧ other ∉ entries.map Prod.fst := by
      rw [keys]
      simpa [not_or, and_left_comm] using outside
    have anchor : (back.map Entry.link).headD .head ∈ Entry.head :: timerEntries entries := by
      rw [timerEntries, keys]
      cases back <;> simp
    refine listAddBefore_frame holds.ring anchor (holds.detached other otherKnown unlisted) ?_ ?_
    · intro node member sameNode
      obtain rfl : node = .link other := by simpa using sameNode
      exact unlisted (by simpa [timerEntries] using member)
    · simpa using different.symm

omit [DecidableEq P] in
/-- What `add_timer` has checked when it returns. -/
theorem addTimer_checked {state after : TimerState P Q T} {initialised : T → Prop}
    {entries : List (T × Nat)} {timer : T} {fuel : Nat} (holds : state.Holds initialised entries)
    (known : initialised timer) (returned : addTimer fuel timer state = some after) :
    timer ∉ entries.map Prod.fst ∧ 0 < state.expires timer ∧ (state.proc timer).isSome := by
  unfold addTimer at returned
  split at returned
  · rename_i checks
    exact ⟨(holds.listEmpty_iff known).mp checks.2.2, checks.1, checks.2.1⟩
  · cases returned

omit [DecidableEq P] in
/-- The differences after `del_timer` of a listed timer: the next one takes over
that of the timer. No sum wraps as long as every total fits the field. -/
theorem delTimer_settles {state : TimerState P Q T} {initialised : T → Prop} {timer : T} {delta : Nat}
    {before after : List (T × Nat)} (holds : state.Holds initialised (before ++ (timer, delta) :: after))
    (small : ∀ key total, (key, total) ∈ totals 0 (before ++ (timer, delta) :: after) → total < 2 ^ 32) :
    ∃ settled, delTimer timer state =
        { state with expires := settled, links := listDelInit state.links (.link timer) } ∧
      ∀ other left, (other, left) ∈ before ++ advance delta after → (settled other).toNat = left := by
  have listed : timer ∈ (before ++ (timer, delta) :: after).map Prod.fst := by simp
  have notEmpty : listEmpty state.links (.link timer) = false :=
    listEmpty_node holds.ring (List.mem_map.mpr ⟨timer, listed, rfl⟩)
  have here : (state.expires timer).toNat = delta := holds.stored timer delta (by simp)
  have split : Ring state.links .head (timerEntries before ++ .link timer :: timerEntries after) := by
    simpa [timerEntries] using holds.ring
  have next : listNext state.links (.link timer) = (timerEntries after).headD .head := split.next_node
  cases after with
  | nil =>
    refine ⟨state.expires, ?_, fun other left member => holds.stored other left ?_⟩
    · simp [delTimer, notEmpty, next, timerEntries]
    · exact List.mem_append_left _ (by simpa [advance] using member)
  | cons entry rest =>
    obtain ⟨following, ahead⟩ := entry
    have nextHere : listNext state.links (.link timer) = .link following := by
      simpa [timerEntries] using next
    have followingHere : (state.expires following).toNat = ahead := holds.stored following ahead (by simp)
    have bound : ahead + delta < 2 ^ 32 := by
      have total := small following (0 + (before.map Prod.snd).sum + delta + ahead) (by
        simp [totals_append])
      omega
    have distinct := holds.distinct
    have unique : following ∉ before.map Prod.fst ∧ following ∉ rest.map Prod.fst := by
      simp only [List.map_append, List.map_cons, List.nodup_middle, List.nodup_cons, List.mem_append,
        not_or] at distinct
      exact distinct.2.1
    have others : ∀ other left, (other, left) ∈ before ∨ (other, left) ∈ rest →
        other ≠ following ∧ (state.expires other).toNat = left := by
      rintro other left (inBefore | inRest)
      · refine ⟨?_, holds.stored other left (by simp [inBefore])⟩
        rintro rfl
        exact unique.1 (List.mem_map.mpr ⟨_, inBefore, rfl⟩)
      · refine ⟨?_, holds.stored other left (by simp [inRest])⟩
        rintro rfl
        exact unique.2 (List.mem_map.mpr ⟨_, inRest, rfl⟩)
    by_cases zero : state.expires timer = 0
    · have deltaZero : delta = 0 := by rw [← here, zero]; rfl
      refine ⟨state.expires, by simp [delTimer, notEmpty, zero], fun other left member => ?_⟩
      apply holds.stored other left
      simp only [advance, deltaZero, Nat.add_zero, List.mem_append, List.mem_cons] at member ⊢
      tauto
    · refine ⟨Function.update state.expires following (state.expires following + state.expires timer),
        by simp [delTimer, notEmpty, nextHere], fun other left member => ?_⟩
      simp only [advance, List.mem_append, List.mem_cons, Prod.mk.injEq] at member
      rcases member with inBefore | ⟨rfl, rfl⟩ | inRest
      · obtain ⟨different, same⟩ := others other left (Or.inl inBefore)
        rw [Function.update_of_ne different, same]
      · rw [Function.update_self, BitVec.toNat_add, followingHere, here, Nat.mod_eq_of_lt bound]
      · obtain ⟨different, same⟩ := others other left (Or.inr inRest)
        rw [Function.update_of_ne different, same]

omit [DecidableEq P] in
/-- `del_timer` removes a listed timer; its difference goes to the next one. -/
theorem delTimer_exact {state : TimerState P Q T} {initialised : T → Prop} {timer : T} {delta : Nat}
    {before after : List (T × Nat)} (holds : state.Holds initialised (before ++ (timer, delta) :: after))
    (small : ∀ key total, (key, total) ∈ totals 0 (before ++ (timer, delta) :: after) → total < 2 ^ 32) :
    (delTimer timer state).Holds initialised (before ++ advance delta after) ∧
      (delTimer timer state).kernel = state.kernel ∧ (delTimer timer state).proc = state.proc := by
  obtain ⟨settled, deleted, stored⟩ := delTimer_settles holds small
  have listed : timer ∈ (before ++ (timer, delta) :: after).map Prod.fst := by simp
  have inRing : Entry.link timer ∈ timerEntries (before ++ (timer, delta) :: after) :=
    List.mem_map.mpr ⟨timer, listed, rfl⟩
  have split : Ring state.links .head (timerEntries before ++ .link timer :: timerEntries after) := by
    simpa [timerEntries] using holds.ring
  have keys : (before ++ advance delta after).map Prod.fst = before.map Prod.fst ++ after.map Prod.fst := by
    simp
  rw [deleted]
  refine ⟨⟨?_, stored, ?_, ?_⟩, rfl, rfl⟩
  · have removed := listDelInit_ring split
    simpa [timerEntries] using removed
  · intro other member
    apply holds.assigned other
    rw [keys] at member
    simp only [List.map_append, List.map_cons, List.mem_append, List.mem_cons] at member ⊢
    tauto
  · intro other known outside
    rw [keys] at outside
    by_cases same : other = timer
    · subst same
      exact listDelInit_self _ _
    · have unlisted : other ∉ (before ++ (timer, delta) :: after).map Prod.fst := by
        simp only [List.map_append, List.map_cons, List.mem_append, List.mem_cons] at outside ⊢
        tauto
      refine listDelInit_frame holds.ring inRing (holds.detached other known unlisted) ?_
      intro node member sameNode
      obtain rfl : node = .link other := by simpa using sameNode
      exact unlisted (by simpa [timerEntries] using member)

omit [DecidableEq P] in
/-- `del_timer` leaves everything as it is when the timer is not listed. -/
theorem delTimer_absent {state : TimerState P Q T} {initialised : T → Prop} {entries : List (T × Nat)}
    {timer : T} (holds : state.Holds initialised entries) (known : initialised timer)
    (absent : timer ∉ entries.map Prod.fst) : delTimer timer state = state := by
  have empty := (holds.listEmpty_iff known).mpr absent
  simp [delTimer, empty]

/-! ## Expiry -/

/-- Wake the processes of fired timers, in order. -/
def fireAll (kernel : Kernel P Q) (fired : List (T × P)) : Option (Kernel P Q) :=
  fired.foldlM (fun kernel firing => fireProc schedClass idleproc kernel firing.2) kernel

/-- The due timers with their processes. -/
def firings (proc : T → Option P) (entries : List (T × Nat)) : List (T × P) :=
  (due entries).filterMap fun timer => (proc timer).map fun woken => (timer, woken)

omit [DecidableEq T] in
theorem fireAll_cons (kernel : Kernel P Q) (timer : T) (proc : P) (fired : List (T × P)) :
    fireAll schedClass idleproc kernel ((timer, proc) :: fired) =
      (fireProc schedClass idleproc kernel proc).bind fun kernel =>
        fireAll schedClass idleproc kernel fired := rfl

/-- The loop of `run_timer_list` wakes the processes of the due timers, in order,
and leaves the later timers; it stops early only when a process refuses. -/
theorem expireLoop_exact {initialised : T → Prop} (entries : List (T × Nat)) {state : TimerState P Q T}
    {timer : T} {delta : Nat} {rest : List (T × Nat)} (first : entries = (timer, delta) :: rest)
    (fuel : Nat) (holds : state.Holds initialised entries) (enough : entries.length ≤ fuel)
    (small : ∀ key total, (key, total) ∈ totals 0 entries → total < 2 ^ 32) :
    match fireAll schedClass idleproc state.kernel (firings state.proc entries) with
    | none => expireLoop schedClass idleproc fuel timer state = none
    | some kernel => ∃ after, expireLoop schedClass idleproc fuel timer state =
        some (after, firings state.proc entries) ∧ after.kernel = kernel ∧
        after.Holds initialised (later entries) ∧ after.proc = state.proc := by
  induction entries generalizing state timer delta rest fuel with
  | nil => cases first
  | cons entry tail ih =>
    obtain ⟨rfl, rfl⟩ := List.cons.inj first
    simp only [List.length_cons] at enough
    obtain ⟨fuel, rfl⟩ := Nat.exists_eq_succ_of_ne_zero (by omega : fuel ≠ 0)
    have here : (state.expires timer).toNat = delta := holds.stored timer delta List.mem_cons_self
    by_cases zero : delta = 0
    · subst zero
      have expired : state.expires timer = 0 := BitVec.eq_of_toNat_eq here
      obtain ⟨proc, assigned⟩ := Option.isSome_iff_exists.mp (holds.assigned timer List.mem_cons_self)
      have next : listNext state.links (.link timer) = (timerEntries tail).headD .head := by
        have split : Ring state.links .head ([] ++ .link timer :: timerEntries tail) := holds.ring
        exact split.next_node
      have all : firings state.proc ((timer, 0) :: tail) = (timer, proc) :: firings state.proc tail := by
        simp [firings, assigned]
      rw [all, fireAll_cons]
      cases woken : fireProc schedClass idleproc state.kernel proc with
      | none => simp [expireLoop, expired, assigned, woken]
      | some kernel =>
        have holdsNow : ({ state with kernel := kernel } : TimerState P Q T).Holds initialised
            ([] ++ (timer, 0) :: tail) := ⟨holds.ring, holds.stored, holds.assigned, holds.detached⟩
        obtain ⟨kept, sameKernel, sameProc⟩ := delTimer_exact holdsNow small
        simp only [List.nil_append, advance_zero] at kept
        generalize deleted : delTimer timer { state with kernel := kernel } = left at kept sameKernel sameProc
        have procs : left.proc = state.proc := sameProc
        cases tail with
        | nil =>
          simp only [Option.bind_some, firings, due_nil, List.filterMap_nil, fireAll, List.foldlM_nil]
          refine ⟨left, ?_, sameKernel, kept, procs⟩
          simp [expireLoop, expired, next, timerEntries, assigned, woken, deleted]
        | cons following others =>
          have followingNext : listNext state.links (.link timer) = .link following.1 := by
            simpa [timerEntries] using next
          have smaller : ∀ key total, (key, total) ∈ totals 0 (following :: others) → total < 2 ^ 32 :=
            fun key total member => small key total (by simp [member])
          have remaining := ih rfl fuel kept (by omega) smaller
          have step : expireLoop schedClass idleproc (fuel + 1) timer state =
              (expireLoop schedClass idleproc fuel following.1 left).map
                fun result => (result.1, (timer, proc) :: result.2) := by
            simp only [expireLoop, expired, if_true, followingNext, assigned, Option.bind_eq_bind,
              Option.bind_some, woken, deleted]
          rw [sameKernel, procs] at remaining
          simp only [Option.bind_some]
          cases result : fireAll schedClass idleproc kernel
              (firings state.proc (following :: others)) with
          | none =>
            rw [result] at remaining
            simp [step, remaining]
          | some final =>
            rw [result] at remaining
            obtain ⟨after, returned, finalKernel, rest, finalProc⟩ := remaining
            refine ⟨after, by simp [step, returned], finalKernel, by simpa using rest, finalProc⟩
    · have notZero : state.expires timer ≠ 0 := by
        intro same
        rw [same] at here
        exact zero here.symm
      simp only [firings, due_cons, zero, if_false, List.filterMap_nil, fireAll, List.foldlM_nil]
      refine ⟨state, ?_, rfl, ?_, rfl⟩
      · simp only [expireLoop, notZero, if_false]
      · simpa [zero] using holds

/-- `run_timer_list` counts down the first timer and fires the due ones. -/
theorem expireTimers_exact {initialised : T → Prop} {entries : List (T × Nat)} {state : TimerState P Q T}
    {fuel : Nat} (holds : state.Holds initialised entries) (pending : Pending entries)
    (enough : entries.length ≤ fuel)
    (small : ∀ key total, (key, total) ∈ totals 0 (tick entries) → total < 2 ^ 32) :
    match fireAll schedClass idleproc state.kernel (firings state.proc (tick entries)) with
    | none => expireTimers schedClass idleproc fuel state = none
    | some kernel => ∃ after, expireTimers schedClass idleproc fuel state =
        some (after, firings state.proc (tick entries)) ∧ after.kernel = kernel ∧
        after.Holds initialised (later (tick entries)) ∧ after.proc = state.proc := by
  have first : listNext state.links .head = (timerEntries entries).headD .head := holds.ring.next_head
  cases entries with
  | nil =>
    refine ⟨state, ?_, rfl, holds, rfl⟩
    have atHead : listNext state.links .head = .head := by simpa [timerEntries] using first
    simp only [expireTimers, atHead]
    rfl
  | cons entry rest =>
    obtain ⟨timer, delta⟩ := entry
    have positive : 0 < delta := pending (timer, delta) (by simp)
    have here : (state.expires timer).toNat = delta := holds.stored timer delta List.mem_cons_self
    have atTimer : listNext state.links .head = .link timer := by simpa [timerEntries] using first
    have notZero : state.expires timer ≠ 0 := by
      intro same
      rw [same] at here
      exact absurd here.symm (Nat.pos_iff_ne_zero.mp positive)
    have absent : timer ∉ rest.map Prod.fst := (List.nodup_cons.mp holds.distinct).1
    have one : (1 : BitVec 32).toNat ≤ (state.expires timer).toNat := by
      rw [here]
      exact positive
    have holdsNow : ({ state with
        expires := Function.update state.expires timer (state.expires timer - 1) } :
          TimerState P Q T).Holds initialised (tick ((timer, delta) :: rest)) := by
      refine ⟨holds.ring, ?_, holds.assigned, holds.detached⟩
      intro other left member
      simp only [tick, List.mem_cons, Prod.mk.injEq] at member
      rcases member with ⟨rfl, rfl⟩ | inRest
      · simp only [Function.update_self]
        rw [BitVec.toNat_sub_of_le (BitVec.le_def.mpr one), here]
        rfl
      · have different : other ≠ timer := by
          rintro rfl
          exact absent (List.mem_map.mpr ⟨_, inRest, rfl⟩)
        simp only [Function.update_of_ne different]
        exact holds.stored other left (List.mem_cons_of_mem _ inRest)
    have looped := expireLoop_exact schedClass idleproc (tick ((timer, delta) :: rest)) rfl
      fuel holdsNow enough small
    simp only [expireTimers, atTimer, notZero, if_false]
    exact looped

end Ucore.Schedule
