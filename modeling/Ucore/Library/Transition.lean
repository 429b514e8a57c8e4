import Mathlib.Logic.Basic

/-!
# Runs of a partial step function

A step function takes a state and an operation and either returns the next
state or refuses. Operations carry every choice that the environment makes, so
a nondeterministic system is a deterministic function of its operations.

`Reaches` collects the states of all runs whose operations satisfy an admission
condition on the state before them; `run` executes one list of operations. An
invariant is proved for one step and holds in every state reached.
-/

namespace Transition

universe u v
variable {σ : Type u} {ι : Type v}

/-- The states reached from `start` by admitted operations that are not refused. -/
inductive Reaches (step : σ → ι → Option σ) (admitted : σ → ι → Prop) (start : σ) : σ → Prop where
  | start : Reaches step admitted start start
  | step {state next : σ} {operation : ι} (reached : Reaches step admitted start state)
      (allowed : admitted state operation) (taken : step state operation = some next) :
      Reaches step admitted start next

variable {step : σ → ι → Option σ} {admitted : σ → ι → Prop} {start : σ}

/-- A property that holds at the start and is kept by every admitted step holds
in every state reached. -/
theorem Reaches.invariant {Invariant : σ → Prop} (initially : Invariant start)
    (preserved : ∀ state operation next, Invariant state → admitted state operation →
      step state operation = some next → Invariant next)
    {state : σ} (reached : Reaches step admitted start state) : Invariant state := by
  induction reached with
  | start => exact initially
  | step _ allowed taken ih => exact preserved _ _ _ ih allowed taken

/-- A weaker admission condition reaches at least as many states. -/
theorem Reaches.mono {wider : σ → ι → Prop}
    (weaker : ∀ state operation, admitted state operation → wider state operation)
    {state : σ} (reached : Reaches step admitted start state) : Reaches step wider start state := by
  induction reached with
  | start => exact .start
  | step _ allowed taken ih => exact .step ih (weaker _ _ allowed) taken

/-- Two runs compose when the second one starts where the first one ends. -/
theorem Reaches.trans {middle last : σ} (first : Reaches step admitted start middle)
    (second : Reaches step admitted middle last) : Reaches step admitted start last := by
  induction second with
  | start => exact first
  | step _ allowed taken ih => exact .step ih allowed taken

/-- A run through the listed operations, all admitted. -/
def Runs (step : σ → ι → Option σ) (admitted : σ → ι → Prop) : List ι → σ → σ → Prop
  | [], state, last => state = last
  | operation :: rest, state, last =>
      admitted state operation ∧ ∃ next, step state operation = some next ∧ Runs step admitted rest next last

/-- A run ends in a reached state. -/
theorem Runs.reaches {operations : List ι} {state last : σ}
    (runs : Runs step admitted operations state last) : Reaches step admitted state last := by
  induction operations generalizing state with
  | nil => exact runs ▸ .start
  | cons operation rest ih =>
    obtain ⟨allowed, next, taken, remaining⟩ := runs
    exact (Reaches.step .start allowed taken).trans (ih remaining)

/-- Execute a list of operations; the run is refused where one of them is. -/
def run (step : σ → ι → Option σ) : List ι → σ → Option σ
  | [], state => some state
  | operation :: rest, state => (step state operation).bind (run step rest)

/-- A run of a longer list goes on where the shorter one ends. -/
theorem run_append (first second : List ι) (state : σ) :
    run step (first ++ second) state = (run step first state).bind (run step second) := by
  induction first generalizing state with
  | nil => rfl
  | cons operation rest ih =>
    simp only [List.cons_append, run]
    cases step state operation with
    | none => rfl
    | some next => exact ih next

/-- Every completed run ends in a state reached without an admission condition. -/
theorem run_reaches (operations : List ι) (state last : σ)
    (completed : run step operations state = some last) :
    Reaches step (fun _ _ => True) state last := by
  induction operations generalizing state with
  | nil => exact Option.some.inj completed ▸ .start
  | cons operation rest ih =>
    obtain ⟨next, taken, remaining⟩ := Option.bind_eq_some_iff.mp completed
    exact (Reaches.step .start trivial taken).trans (ih next remaining)

/-- A step that also refuses the operations a test does not admit. -/
def guarded (step : σ → ι → Option σ) (test : σ → ι → Bool) (state : σ) (operation : ι) : Option σ :=
  if test state operation then step state operation else none

/-- A completed run of the guarded step is a run of admitted operations. -/
theorem guarded_reaches {test : σ → ι → Bool}
    (sound : ∀ state operation, test state operation = true → admitted state operation)
    (operations : List ι) (state last : σ)
    (completed : run (guarded step test) operations state = some last) :
    Reaches step admitted state last := by
  induction operations generalizing state with
  | nil => exact Option.some.inj completed ▸ .start
  | cons operation rest ih =>
    obtain ⟨next, taken, remaining⟩ := Option.bind_eq_some_iff.mp completed
    by_cases allowed : test state operation = true
    · simp only [guarded, allowed, if_true] at taken
      exact (Reaches.step .start (sound _ _ allowed) taken).trans (ih next remaining)
    · simp [guarded, allowed] at taken

/-! ## Runs with answers -/

variable {τ : Type*} {ρ : Type*}

/-- The answers to a list of calls, and the last state; no call after a refused one is made. -/
def answers (call : σ → ι → Option (ρ × σ)) : List ι → σ → Option (List ρ × σ)
  | [], state => some ([], state)
  | operation :: rest, state =>
      match call state operation with
      | none => none
      | some (answer, next) => (answers call rest next).map fun (given, last) => (answer :: given, last)

/-- Two states answer a call alike: both refuse it, or both give the same answer and stay related. -/
def Alike (related : σ → τ → Prop) (first : Option (ρ × σ)) (second : Option (ρ × τ)) : Prop :=
  first = none ∧ second = none ∨
    ∃ answer next later, first = some (answer, next) ∧ second = some (answer, later) ∧ related next later

/-- Related states that answer each call alike answer every list of calls alike. -/
theorem answers_alike {call : σ → ι → Option (ρ × σ)} {other : τ → ι → Option (ρ × τ)} {related : σ → τ → Prop}
    (alike : ∀ state twin operation, related state twin →
      Alike related (call state operation) (other twin operation))
    (operations : List ι) (state : σ) (twin : τ) (here : related state twin) :
    Alike related (answers call operations state) (answers other operations twin) := by
  induction operations generalizing state twin with
  | nil => exact Or.inr ⟨[], state, twin, rfl, rfl, here⟩
  | cons operation rest ih =>
    rcases alike state twin operation here with ⟨first, second⟩ | ⟨answer, next, later, first, second, still⟩
    · exact Or.inl ⟨by simp only [answers, first], by simp only [answers, second]⟩
    · simp only [answers, first, second]
      rcases ih next later still with ⟨refused, refusedToo⟩ | ⟨given, last, lastTwin, ran, ranToo, ended⟩
      · exact Or.inl ⟨by rw [refused]; rfl, by rw [refusedToo]; rfl⟩
      · exact Or.inr ⟨answer :: given, last, lastTwin, by rw [ran]; rfl, by rw [ranToo]; rfl, ended⟩

/-! ## Loops with a bound -/

variable {α : Type*} {β : Type*}

/-- The code, whose loops make at most so many rounds, returns the result when it may make enough of them. -/
def Returns (code : Nat → Option α) (result : α) : Prop := ∃ enough, ∀ rounds, enough ≤ rounds → code rounds = some result

/-- Code returns one result. -/
theorem Returns.unique {code : Nat → Option α} {first second : α} (returns : Returns code first)
    (again : Returns code second) : first = second := by
  obtain ⟨enough, exact⟩ := returns
  obtain ⟨more, exactToo⟩ := again
  have same := (exact (max enough more) (Nat.le_max_left ..)).symm.trans (exactToo (max enough more) (Nat.le_max_right ..))
  exact Option.some.inj same

theorem Returns.pure (result : α) : Returns (fun _ => some result) result := ⟨0, fun _ _ => rfl⟩

/-- Code that goes on with the result of other code. -/
theorem Returns.bind {code : Nat → Option α} {rest : Nat → α → Option β} {first : α} {second : β}
    (returns : Returns code first) (goesOn : Returns (fun rounds => rest rounds first) second) :
    Returns (fun rounds => (code rounds).bind (rest rounds)) second := by
  obtain ⟨enough, exact⟩ := returns
  obtain ⟨more, exactToo⟩ := goesOn
  refine ⟨max enough more, fun rounds large => ?_⟩
  simp only [exact rounds (Nat.le_trans (Nat.le_max_left ..) large), Option.bind_some]
  exact exactToo rounds (Nat.le_trans (Nat.le_max_right ..) large)

/-- Code that spends a round in front of other code. -/
theorem Returns.succ {code next : Nat → Option α} {result : α} (returns : Returns code result)
    (step : ∀ rounds, next (rounds + 1) = code rounds) : Returns next result := by
  obtain ⟨enough, exact⟩ := returns
  refine ⟨enough + 1, fun rounds large => ?_⟩
  obtain ⟨more, rfl⟩ := Nat.exists_eq_add_of_le' large
  rw [← Nat.add_assoc, step]
  exact exact (more + enough) (Nat.le_add_left ..)

theorem Returns.map {code : Nat → Option α} {first : α} (f : α → β) (returns : Returns code first) :
    Returns (fun rounds => (code rounds).map f) (f first) := by
  obtain ⟨enough, exact⟩ := returns
  exact ⟨enough, fun rounds large => by simp only [exact rounds large, Option.map_some]⟩

end Transition
