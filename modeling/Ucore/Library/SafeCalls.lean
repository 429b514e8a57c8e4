import Mathlib.Logic.Basic

/-!
# Safe calls

A call in `ExceptT ε Option` returns, throws, or does not end. It is safe when it does not throw,
what it returns is good, and it ends unless a condition excuses it. Safety goes through the parts
of a call, and each part may use what is known about the parts before it.
-/

namespace SafeCalls

universe u
variable {ε α β : Type u}

/-- A call throws nothing, and returns a good result; it may go on for ever only under a condition. -/
def Safe (forever : Prop) (call : ExceptT ε Option α) (good : α → Prop) : Prop :=
  match call.run with
  | none => forever
  | some (.error _) => False
  | some (.ok result) => good result

variable {forever forever' : Prop} {call : ExceptT ε Option α} {rest : α → ExceptT ε Option β} {good good' : α → Prop}
  {good'' : β → Prop} {result : α}

theorem safe_pure (isGood : good result) : Safe forever (pure result : ExceptT ε Option α) good := isGood

/-- A call with a known result is safe when the result is good. -/
theorem safe_run (ran : call.run = some (.ok result)) (isGood : good result) : Safe forever call good := by
  rw [Safe, ran]
  exact isGood

/-- What follows a safe call may rely on its result. -/
theorem Safe.bind (safe : Safe forever call good) (after : ∀ result, good result → Safe forever (rest result) good'') :
    Safe forever (call >>= rest) good'' := by
  rw [Safe] at safe ⊢
  rw [ExceptT.run_bind]
  cases ran : call.run with
  | none =>
    rw [ran] at safe
    exact safe
  | some outcome =>
    rw [ran] at safe
    cases outcome with
    | error thrown => exact safe.elim
    | ok result => exact after result safe

/-- What follows a call with a known result. -/
theorem Safe.after (ran : call.run = some (.ok result)) (safe : Safe forever (rest result) good'') :
    Safe forever (call >>= rest) good'' := by
  apply Safe.bind (safe_run ran rfl : Safe forever call (· = result))
  rintro _ rfl
  exact safe

/-- A safe call is safe for a weaker condition and a weaker goal. -/
theorem Safe.mono (safe : Safe forever call good) (excused : forever → forever')
    (weaker : ∀ result, good result → good' result) :
    Safe forever' call good' := by
  rw [Safe] at safe ⊢
  split
  · rename_i ran
    rw [ran] at safe
    exact excused safe
  · rename_i ran
    rw [ran] at safe
    exact safe
  · rename_i result ran
    rw [ran] at safe
    exact weaker result safe

/-- What a safe call returns is good. -/
theorem Safe.returned (safe : Safe forever call good) (ran : call.run = some (.ok result)) : good result := by
  rw [Safe, ran] at safe
  exact safe

end SafeCalls
