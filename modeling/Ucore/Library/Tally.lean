import Mathlib.Data.Finset.Card
import Mathlib.Data.Finset.Insert
import Mathlib.Logic.Function.Basic

/-!
# Tallies

A reference count counts the places that name an object. Each place of a finite
set names at most one key, and the tally of a key is the number of places that
name it. When one place changes, the tallies of its old and its new key change by
one and all others stay.
-/

namespace Tally

universe u v
variable {ι : Type u} {κ : Type v} [DecidableEq κ]

/-- The number of places that name the key. -/
def tally (places : Finset ι) (name : ι → Option κ) (key : κ) : Nat :=
  (places.filter fun place => name place = some key).card

/-- What one name contributes to the tally of a key. -/
def hit (name : Option κ) (key : κ) : Nat := if name = some key then 1 else 0

@[simp] theorem hit_none (key : κ) : hit none key = 0 := rfl

@[simp] theorem hit_some (named key : κ) : hit (some named) key = if named = key then 1 else 0 := by
  simp [hit]

variable {places : Finset ι} {name after : ι → Option κ} {key : κ} {place : ι}

/-- Only the names of the places counted matter. -/
theorem tally_congr (same : ∀ place ∈ places, after place = name place) :
    tally places after key = tally places name key := by
  unfold tally
  congr 1
  exact Finset.filter_congr fun place member => by rw [same place member]

/-- Names that go are counted no more. -/
theorem tally_mono (fewer : ∀ place ∈ places, after place = some key → name place = some key) :
    tally places after key ≤ tally places name key := by
  apply Finset.card_le_card
  intro place member
  obtain ⟨inside, names⟩ := Finset.mem_filter.mp member
  exact Finset.mem_filter.mpr ⟨inside, fewer place inside names⟩

/-- A place that names the key is counted. -/
theorem tally_pos (member : place ∈ places) (names : name place = some key) : 0 < tally places name key :=
  Finset.card_pos.mpr ⟨place, Finset.mem_filter.mpr ⟨member, names⟩⟩

/-- A key is not named exactly if no place names it. -/
theorem tally_eq_zero : tally places name key = 0 ↔ ∀ place ∈ places, name place ≠ some key := by
  rw [tally, Finset.card_eq_zero, Finset.filter_eq_empty_iff]

variable [DecidableEq ι]

/-- A new place is counted for the key it names. -/
theorem tally_insert (fresh : place ∉ places) :
    tally (insert place places) name key = tally places name key + hit (name place) key := by
  unfold tally hit
  rw [Finset.filter_insert]
  split
  · rw [Finset.card_insert_of_notMem]
    simp [fresh]
  · rfl

/-- A place that goes is no longer counted. -/
theorem tally_erase (member : place ∈ places) :
    tally (places.erase place) name key + hit (name place) key = tally places name key := by
  rw [← tally_insert (Finset.notMem_erase place places), Finset.insert_erase member]

/-- One of the places counted changes its name. -/
theorem tally_change_on (member : place ∈ places)
    (others : ∀ other ∈ places, other ≠ place → after other = name other) :
    tally places after key + hit (name place) key = tally places name key + hit (after place) key := by
  have rest : tally (places.erase place) after key = tally (places.erase place) name key :=
    tally_congr fun other inside => others other (Finset.mem_of_mem_erase inside) (Finset.ne_of_mem_erase inside)
  have before : _ = tally places name key := tally_erase member
  have now : _ = tally places after key := tally_erase member
  omega

/-- One place changes its name. -/
theorem tally_change (member : place ∈ places) (others : ∀ other, other ≠ place → after other = name other) :
    tally places after key + hit (name place) key = tally places name key + hit (after place) key :=
  tally_change_on member fun other _ => others other

/-- A place begins to name a key. -/
theorem tally_start (key : κ) (member : place ∈ places) (others : ∀ other, other ≠ place → after other = name other)
    (silent : name place = none) (names : after place = some key) :
    tally places after = Function.update (tally places name) key (tally places name key + 1) := by
  funext other
  have changed : _ = tally places name other + hit (after place) other := tally_change member others
  rw [silent, names, hit_none, hit_some] at changed
  by_cases same : other = key
  · subst same
    simpa using changed
  · simpa [Function.update_of_ne same, Ne.symm same] using changed

/-- A place stops naming a key. -/
theorem tally_stop (key : κ) (member : place ∈ places) (others : ∀ other, other ≠ place → after other = name other)
    (names : name place = some key) (silent : after place = none) :
    tally places after = Function.update (tally places name) key (tally places name key - 1) := by
  funext other
  have changed : tally places after other + hit (name place) other = _ := tally_change member others
  rw [silent, names, hit_none, hit_some] at changed
  by_cases same : other = key
  · subst same
    rw [if_pos rfl] at changed
    rw [Function.update_self]
    omega
  · simpa [Function.update_of_ne same, Ne.symm same] using changed

/-- Places that name nothing do not count. -/
theorem tally_subset {fewer : Finset ι} (subset : fewer ⊆ places)
    (silent : ∀ place ∈ places, place ∉ fewer → name place = none) :
    tally fewer name key = tally places name key := by
  unfold tally
  congr 1
  apply Finset.Subset.antisymm
  · exact Finset.filter_subset_filter _ subset
  · intro place member
    obtain ⟨inside, names⟩ := Finset.mem_filter.mp member
    refine Finset.mem_filter.mpr ⟨?_, names⟩
    by_contra outside
    rw [silent place inside outside] at names
    cases names

end Tally
