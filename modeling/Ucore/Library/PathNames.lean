import Mathlib.Data.List.Basic

/-!
# Paths and their components

A path names a node by the components between its separators, looked up one after the
other from a start. Components that are empty, from a leading, a trailing or a repeated
separator, do not count.
-/

namespace PathNames

universe u v w
variable {α : Type u} [DecidableEq α] {N : Type v}

/-- The components of a path. -/
def components (separator : α) (path : List α) : List (List α) :=
  (path.splitOn separator).filter fun component => component ≠ []

omit [DecidableEq α] in
/-- The node that a list of components leads to, when each of them is found. -/
def walk (step : N → List α → Option N) : N → List (List α) → Option N
  | node, [] => some node
  | node, component :: rest => (step node component).bind fun node => walk step node rest

variable {separator : α} {path : List α}

@[simp] theorem components_nil (separator : α) : components separator [] = [] := by
  simp [components]

/-- A path without separators is its only component. -/
theorem components_plain (nonempty : path ≠ []) (plain : separator ∉ path) : components separator path = [path] := by
  simp [components, List.splitOn_eq_singleton plain, nonempty]

/-- A leading separator does not count. -/
theorem components_separator (separator : α) (path : List α) :
    components separator (separator :: path) = components separator path := by
  simp [components, List.splitOn_cons_eq_if_modifyHead]

/-- A path that does not start with a separator has a component. -/
theorem components_ne_nil (nonempty : path ≠ []) (plain : path.head? ≠ some separator) :
    components separator path ≠ [] := by
  cases path with
  | nil => contradiction
  | cons item rest =>
    have different : item ≠ separator := fun same => plain (by rw [same]; rfl)
    simp only [components, List.splitOn_cons_eq_if_modifyHead, beq_iff_eq, different, if_false]
    cases isSplit : List.splitOn separator rest with
    | nil => exact absurd isSplit (List.splitOn_ne_nil separator rest)
    | cons => simp

theorem components_dropWhile (separator : α) (path : List α) :
    components separator (path.dropWhile fun item => item = separator) = components separator path := by
  induction path with
  | nil => rfl
  | cons item rest ih =>
    by_cases same : item = separator
    · simp only [List.dropWhile_cons, same, decide_true, if_true, components_separator, ih]
    · simp [same]

omit [DecidableEq α] in
/-- A walk along one component is a step. -/
theorem walk_single (step : N → List α → Option N) (node : N) (component : List α) :
    walk step node [component] = step node component := by
  simp [walk]

/-- Two searches that agree with a third one agree. -/
theorem rel_through {A : Type u} {B : Type v} {C : Type w} {First : A → B → Prop} {Second : B → C → Prop}
    {Both : A → C → Prop} {one : Option A} {middle : Option B} {other : Option C} (first : Option.Rel First one middle)
    (second : Option.Rel Second middle other) (implies : ∀ a b c, First a b → Second b c → Both a c) :
    Option.Rel Both one other := by
  cases first with
  | none =>
    cases second
    exact .none
  | some left =>
    cases second with
    | some right => exact .some (implies _ _ _ left right)

omit [DecidableEq α] in
/-- Two trees whose steps agree have the same paths, and they lead to nodes that agree. -/
theorem walk_rel {M : Type w} {Agree : N → M → Prop} {step : N → List α → Option N} {other : M → List α → Option M}
    (steps : ∀ node place name, Agree node place → Option.Rel Agree (step node name) (other place name))
    {node : N} {place : M} (agree : Agree node place) (names : List (List α)) :
    Option.Rel Agree (walk step node names) (walk other place names) := by
  induction names generalizing node place with
  | nil => exact .some agree
  | cons name rest ih =>
    have bound : ∀ {found : Option N} {place : Option M}, Option.Rel Agree found place →
        Option.Rel Agree (found.bind fun node => walk step node rest) (place.bind fun place => walk other place rest) := by
      intro found place related
      cases related with
      | none => exact .none
      | some agrees => exact ih agrees
    exact bound (steps node place name agree)

end PathNames
