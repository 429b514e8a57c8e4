import Mathlib.Data.List.Basic
import Mathlib.Logic.Function.Basic

/-!
# Calls that run one at a time

A call begins, makes steps on a shared state and ends with an answer. Threads make their steps
in any order, but a thread begins a call only while no other thread is inside one. Then the
calls that have returned are a serial history: each found the shared state as the one before
it left it, and made its steps on it alone.
-/

namespace Sections

universe u v w x y
variable {T : Type u} {κ : Type v} {lc : Type w} {σ : Type x} {ρ : Type y}

/-- The code of a call: where it begins, its steps on the shared state, and the answer where it ends. -/
structure Body (κ : Type v) (lc : Type w) (σ : Type x) (ρ : Type y) where
  enter : κ → lc
  step : lc → σ → Option (lc × σ)
  leave : lc → Option ρ

variable {body : Body κ lc σ ρ}

/-- Steps of a call that nobody interrupts. -/
inductive Body.Proceeds (body : Body κ lc σ ρ) (here : lc) (before : σ) : lc → σ → Prop where
  | refl : Proceeds body here before here before
  | step {there last : lc} {middle after : σ} (proceeds : Proceeds body here before there middle)
      (taken : body.step there middle = some (last, after)) : Proceeds body here before last after

/-- A whole call. -/
def Body.Completes (body : Body κ lc σ ρ) (call : κ) (before : σ) (answer : ρ) (after : σ) : Prop :=
  ∃ last, body.Proceeds (body.enter call) before last after ∧ body.leave last = some answer

/-- What holds where a call begins, and is kept by its steps, holds on its way. -/
theorem Body.Proceeds.invariant {Holds : lc → σ → Prop} {here last : lc} {before after : σ}
    (proceeds : body.Proceeds here before last after) (initially : Holds here before)
    (kept : ∀ {there middle further beyond}, Holds there middle → body.step there middle = some (further, beyond) →
      Holds further beyond) : Holds last after := by
  induction proceeds with
  | refl => exact initially
  | step _ taken ih => exact kept ih taken

/-- Calls one after the other. -/
inductive Serial (effect : κ → σ → ρ → σ → Prop) (start : σ) : List (κ × ρ) → σ → Prop where
  | nil : Serial effect start [] start
  | snoc {returned : List (κ × ρ)} {call : κ} {answer : ρ} {before after : σ}
      (serial : Serial effect start returned before) (called : effect call before answer after) :
      Serial effect start (returned ++ [(call, answer)]) after

/-- What each call does is known from its code. -/
theorem Serial.mono {effect other : κ → σ → ρ → σ → Prop} {start last : σ} {returned : List (κ × ρ)}
    (serial : Serial effect start returned last)
    (implied : ∀ call answer before after, (call, answer) ∈ returned → effect call before answer after →
      other call before answer after) : Serial other start returned last := by
  induction serial with
  | nil => exact .nil
  | snoc serial called ih =>
    refine .snoc (ih fun call answer before after member => ?_) (implied _ _ _ _ (by simp) called)
    exact implied call answer before after (List.mem_append_left _ member)

/-- Calls that are simulated one by one are simulated one after the other. -/
theorem Serial.simulates {τ : Type*} {effect : κ → σ → ρ → σ → Prop} {other : κ → τ → ρ → τ → Prop}
    {related : σ → τ → Prop} {start last : σ} {twin : τ} {returned : List (κ × ρ)}
    (serial : Serial effect start returned last) (initially : related start twin)
    (simulated : ∀ {call answer before after there}, (call, answer) ∈ returned → related before there →
      effect call before answer after → ∃ next, other call there answer next ∧ related after next) :
    ∃ ended, Serial other twin returned ended ∧ related last ended := by
  induction serial with
  | nil => exact ⟨twin, .nil, initially⟩
  | snoc serial called ih =>
    obtain ⟨there, twins, here⟩ := ih fun member => simulated (List.mem_append_left _ member)
    obtain ⟨next, calls, ends⟩ := simulated (by simp) here called
    exact ⟨next, twins.snoc calls, ends⟩

/-- Which threads are inside a call, and where; the shared state; the calls that have returned. -/
structure System (T : Type u) (κ : Type v) (lc : Type w) (σ : Type x) (ρ : Type y) where
  inside : T → Option (κ × lc)
  shared : σ
  returned : List (κ × ρ)

/-- Nobody is inside a call. -/
def System.Free (system : System T κ lc σ ρ) : Prop := ∀ thread, system.inside thread = none

/-- The calls that have returned are serial, and whoever is inside one has proceeded from there alone. -/
def System.Explained (body : Body κ lc σ ρ) (start : σ) (system : System T κ lc σ ρ) : Prop :=
  ∃ settled, Serial body.Completes start system.returned settled ∧
    (system.Free ∧ system.shared = settled ∨
      ∃ thread call here, system.inside thread = some (call, here) ∧
        (∀ other, other ≠ thread → system.inside other = none) ∧
        body.Proceeds (body.enter call) settled here system.shared)

/-- Nobody is inside a call, and none has returned. -/
theorem System.explained_start {inside : T → Option (κ × lc)} {start : σ} (free : ∀ thread, inside thread = none) :
    (⟨inside, start, []⟩ : System T κ lc σ ρ).Explained body start :=
  ⟨start, .nil, Or.inl ⟨free, rfl⟩⟩

variable [DecidableEq T] {system next : System T κ lc σ ρ} {start : σ}

/-- A thread begins a call, makes a step inside one, or returns from it. -/
inductive System.Moves (body : Body κ lc σ ρ) (system : System T κ lc σ ρ) : System T κ lc σ ρ → Prop where
  | enter {thread : T} {call : κ} (free : system.Free) :
      Moves body system { system with inside := Function.update system.inside thread (some (call, body.enter call)) }
  | step {thread : T} {call : κ} {here there : lc} {shared : σ} (isInside : system.inside thread = some (call, here))
      (taken : body.step here system.shared = some (there, shared)) :
      Moves body system { system with
        inside := Function.update system.inside thread (some (call, there))
        shared := shared }
  | leave {thread : T} {call : κ} {here : lc} {answer : ρ} (isInside : system.inside thread = some (call, here))
      (ended : body.leave here = some answer) :
      Moves body system { system with
        inside := Function.update system.inside thread none
        returned := system.returned ++ [(call, answer)] }

/-- The thread inside a call is the only one. -/
theorem System.Explained.alone (explained : system.Explained body start) {thread : T} {call : κ} {here : lc}
    (isInside : system.inside thread = some (call, here)) : (∀ other, other ≠ thread → system.inside other = none) ∧
      ∃ settled, Serial body.Completes start system.returned settled ∧
        body.Proceeds (body.enter call) settled here system.shared := by
  obtain ⟨settled, serial, ⟨free, _⟩ | ⟨holder, held, there, isHeld, others, proceeds⟩⟩ := explained
  · rw [free thread] at isInside
    cases isInside
  · have same : thread = holder := by
      by_contra different
      rw [others thread different] at isInside
      cases isInside
    subst same
    rw [isInside] at isHeld
    cases isHeld
    exact ⟨others, settled, serial, proceeds⟩

/-- One move keeps the history serial. -/
theorem System.Moves.explained (moves : System.Moves body system next) (explained : system.Explained body start) :
    next.Explained body start := by
  cases moves with
  | @enter thread call free =>
    obtain ⟨settled, serial, ⟨_, same⟩ | ⟨holder, _, _, isHeld, _⟩⟩ := explained
    · refine ⟨settled, serial, Or.inr ⟨thread, call, body.enter call, Function.update_self .., ?_, same ▸ .refl⟩⟩
      intro other different
      exact (Function.update_of_ne different ..).trans (free other)
    · rw [free holder] at isHeld
      cases isHeld
  | @step thread call here there shared isInside taken =>
    obtain ⟨others, settled, serial, proceeds⟩ := explained.alone isInside
    refine ⟨settled, serial, Or.inr ⟨thread, call, there, Function.update_self .., ?_, proceeds.step taken⟩⟩
    intro other different
    exact (Function.update_of_ne different ..).trans (others other different)
  | @leave thread call here answer isInside ended =>
    obtain ⟨others, settled, serial, proceeds⟩ := explained.alone isInside
    refine ⟨system.shared, serial.snoc ⟨here, proceeds, ended⟩, Or.inl ⟨fun other => ?_, rfl⟩⟩
    by_cases same : other = thread
    · rw [same]
      exact Function.update_self ..
    · exact (Function.update_of_ne same ..).trans (others other same)

end Sections
