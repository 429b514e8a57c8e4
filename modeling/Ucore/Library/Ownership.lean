import Mathlib.Logic.Function.Basic

/-!
# Ownership

An owner has places, and a place may name an object of a common store. The store
marks the objects in use. Every object named is in use, and no object is named by
two places. One owner is studied against a frame, the objects that all others name;
its steps keep the frame, and so the ownership of the whole.
-/

namespace Ownership

universe u v w
variable {ι : Type u} {π : Type v} {κ : Type w}

/-- The places of one owner name used objects, each once and none of the frame. -/
structure Owns (name : π → Option κ) (used frame : κ → Prop) : Prop where
  inUse : ∀ place key, name place = some key → used key
  once : ∀ place other key, name place = some key → name other = some key → place = other
  apart : ∀ place key, name place = some key → ¬ frame key
  framed : ∀ key, frame key → used key

variable {name after : π → Option κ} {used usedAfter frame : κ → Prop} {place : π} {key : κ}

/-- Names may go, and objects may enter use. -/
theorem Owns.mono (owns : Owns name used frame)
    (fewer : ∀ place key, after place = some key → name place = some key)
    (more : ∀ key, used key → usedAfter key) : Owns after usedAfter frame where
  inUse := fun place key names => more key (owns.inUse place key (fewer place key names))
  once := fun place other key names same =>
    owns.once place other key (fewer place key names) (fewer other key same)
  apart := fun place key names => owns.apart place key (fewer place key names)
  framed := fun key inside => more key (owns.framed key inside)

/-- An object that no place names and that is outside the frame goes out of use. -/
theorem Owns.release (owns : Owns name used frame) (unnamed : ∀ place, name place ≠ some key)
    (outside : ¬ frame key) (fewer : ∀ other, other ≠ key → used other → usedAfter other) :
    Owns name usedAfter frame where
  inUse := fun place other names =>
    fewer other (fun same => unnamed place (same ▸ names)) (owns.inUse place other names)
  once := owns.once
  apart := owns.apart
  framed := fun other inside => fewer other (fun same => outside (same ▸ inside)) (owns.framed other inside)

variable [DecidableEq π]

/-- A place takes over an object in use that nobody names. -/
theorem Owns.enter (owns : Owns name used frame) (place : π) (inUse : used key)
    (unnamed : ∀ other, name other ≠ some key) (outside : ¬ frame key) :
    Owns (Function.update name place (some key)) used frame where
  inUse := by
    intro other named names
    by_cases same : other = place
    · simp only [same, Function.update_self] at names
      exact Option.some.inj names ▸ inUse
    · rw [Function.update_of_ne same] at names
      exact owns.inUse other named names
  once := by
    intro other another named names same
    by_cases isOther : other = place
    · by_cases isAnother : another = place
      · exact isOther.trans isAnother.symm
      · simp only [isOther, Function.update_self] at names
        rw [Function.update_of_ne isAnother] at same
        exact absurd (Option.some.inj names ▸ same) (unnamed another)
    · rw [Function.update_of_ne isOther] at names
      by_cases isAnother : another = place
      · simp only [isAnother, Function.update_self] at same
        exact absurd (Option.some.inj same ▸ names) (unnamed other)
      · rw [Function.update_of_ne isAnother] at same
        exact owns.once other another named names same
  apart := by
    intro other named names inside
    by_cases same : other = place
    · simp only [same, Function.update_self] at names
      exact outside (Option.some.inj names ▸ inside)
    · rw [Function.update_of_ne same] at names
      exact owns.apart other named names inside
  framed := owns.framed

/-- A place takes over an object that was not in use. -/
theorem Owns.assign (owns : Owns name used frame) (place : π) (fresh : ¬ used key)
    (more : ∀ other, used other ∨ other = key → usedAfter other) :
    Owns (Function.update name place (some key)) usedAfter frame := by
  have wider : Owns name usedAfter frame :=
    owns.mono (fun _ _ names => names) fun other inUse => more other (Or.inl inUse)
  refine wider.enter place (more key (Or.inr rfl)) ?_ ?_
  · exact fun other names => fresh (owns.inUse other key names)
  · exact fun inside => fresh (owns.framed key inside)

/-- A place gives up its object, which goes out of use. -/
theorem Owns.remove (owns : Owns name used frame) (names : name place = some key)
    (fewer : ∀ other, other ≠ key → used other → usedAfter other) :
    Owns (Function.update name place none) usedAfter frame := by
  have rest : Owns (Function.update name place none) used frame := by
    refine owns.mono ?_ fun _ inUse => inUse
    intro other named after
    by_cases same : other = place
    · simp [same] at after
    · rwa [Function.update_of_ne same] at after
  refine rest.release ?_ (owns.apart place key names) fewer
  intro other named
  by_cases same : other = place
  · simp [same] at named
  · rw [Function.update_of_ne same] at named
    exact same (owns.once other place key named names)

/-! ## Families of owners -/

/-- The objects that the other owners of a family name. -/
def others (names : ι → π → Option κ) (owner : ι) (key : κ) : Prop :=
  ∃ other, other ≠ owner ∧ ∃ place, names other place = some key

/-- Every owner owns what it names, against all others. -/
def Partitioned (names : ι → π → Option κ) (used : κ → Prop) : Prop :=
  ∀ owner, Owns (names owner) used (others names owner)

variable {names namesAfter : ι → π → Option κ} {owner : ι}

omit [DecidableEq π] in
/-- No object is named twice in the whole family. -/
theorem Partitioned.once (partitioned : Partitioned names used) {other : ι} {another : π}
    (first : names owner place = some key) (second : names other another = some key) :
    owner = other ∧ place = another := by
  have same : owner = other := by
    by_contra different
    exact (partitioned owner).apart place key first ⟨other, Ne.symm different, another, second⟩
  subst same
  exact ⟨rfl, (partitioned owner).once place another key first second⟩

omit [DecidableEq π] in
/-- Objects that nobody names may go out of use. -/
theorem Partitioned.keep (partitioned : Partitioned names used)
    (inUse : ∀ owner place key, names owner place = some key → usedAfter key) : Partitioned names usedAfter :=
  fun owner => ⟨inUse owner, (partitioned owner).once, (partitioned owner).apart,
    fun key ⟨other, _, place, named⟩ => inUse other place key named⟩

omit [DecidableEq π] in
/-- A step of one owner that keeps its frame keeps the partition. -/
theorem Partitioned.step (partitioned : Partitioned names used)
    (elsewhere : ∀ other, other ≠ owner → namesAfter other = names other)
    (here : Owns (namesAfter owner) usedAfter (others names owner)) : Partitioned namesAfter usedAfter := by
  have sameFrame : ∀ key, others namesAfter owner key ↔ others names owner key := by
    intro key
    constructor
    · rintro ⟨other, different, place, named⟩
      exact ⟨other, different, place, elsewhere other different ▸ named⟩
    · rintro ⟨other, different, place, named⟩
      exact ⟨other, different, place, (elsewhere other different).symm ▸ named⟩
  intro other
  by_cases isOwner : other = owner
  · subst isOwner
    exact ⟨here.inUse, here.once, fun place key named inside => here.apart place key named ((sameFrame key).mp inside),
      fun key inside => here.framed key ((sameFrame key).mp inside)⟩
  · have framed : ∀ place key, names other place = some key → others names owner key :=
      fun place key named => ⟨other, isOwner, place, named⟩
    rw [elsewhere other isOwner]
    constructor
    · exact fun place key named => here.framed key (framed place key named)
    · exact (partitioned other).once
    · rintro place key named ⟨another, different, from', inside⟩
      by_cases here' : another = owner
      · subst here'
        exact here.apart from' key inside (framed place key named)
      · rw [elsewhere another here'] at inside
        exact (partitioned other).apart place key named ⟨another, different, from', inside⟩
    · rintro key ⟨another, different, from', inside⟩
      by_cases here' : another = owner
      · subst here'
        exact here.inUse from' key inside
      · rw [elsewhere another here'] at inside
        exact here.framed key ⟨another, here', from', inside⟩

end Ownership
