import Mathlib.Order.Defs.Unbundled

/-!
# Relations that code carries

Code that may be refused is given a state and leaves another one among its results. It carries a
relation when every result that it returns leaves a related state. A transitive relation goes
through the parts of the code, one after the other.
-/

namespace Carried

universe u v w
variable {σ : Type u} {α : Type v} {β : Type w}

/-- What the code returns leaves a state that is related to the one before. -/
def Carries (related : σ → σ → Prop) (state : σ) (left : α → σ) (code : Option α) : Prop :=
  ∀ result, code = some result → related state (left result)

variable {related : σ → σ → Prop} {state : σ} {left : α → σ} {leftAfter : β → σ} {code : Option α} {result : α}

/-- Refused code returns nothing. -/
theorem Carries.refused : Carries related state left none := fun _ returned => nomatch returned

theorem Carries.done (isRelated : related state (left result)) : Carries related state left (some result) :=
  fun _ returned => Option.some.inj returned ▸ isRelated

/-- The relation goes through code that goes on. -/
theorem Carries.bind [IsTrans σ related] {rest : α → Option β} (carries : Carries related state left code)
    (goesOn : ∀ result, Carries related (left result) leftAfter (rest result)) :
    Carries related state leftAfter (code.bind rest) := by
  intro last returned
  obtain ⟨middle, first, second⟩ := Option.bind_eq_some_iff.mp returned
  exact IsTrans.trans _ _ _ (carries middle first) (goesOn middle last second)

/-- A test in front of the code. -/
theorem Carries.after {ρ : Type*} {test : Option ρ} {rest : ρ → Option β} (goesOn : ∀ passed, Carries related state leftAfter (rest passed)) :
    Carries related state leftAfter (test.bind rest) := by
  intro last returned
  obtain ⟨passed, _, second⟩ := Option.bind_eq_some_iff.mp returned
  exact goesOn passed last second

theorem Carries.map {change : α → β} (carries : Carries related state left code)
    (same : ∀ result, leftAfter (change result) = left result) : Carries related state leftAfter (code.map change) := by
  intro last returned
  obtain ⟨middle, first, rfl⟩ := Option.map_eq_some_iff.mp returned
  exact same middle ▸ carries middle first

end Carried
