import Mathlib.Algebra.GroupWithZero.Nat
import Mathlib.Data.List.Nodup
import Mathlib.Data.List.TakeWhile

/-!
# Delta-encoded lists

A delta list stores for each key the difference to the entry before it, so that
a change of the origin is a change of the first entry alone. `totals` decodes a
list from an origin; insertion, removal and the passing of one unit of time are
described by what they do to the totals.
-/

namespace DeltaList

universe u
variable {α : Type u}

/-- The keys with their distances from the origin. -/
def totals : Nat → List (α × Nat) → List (α × Nat)
  | _, [] => []
  | origin, (key, delta) :: rest => (key, origin + delta) :: totals (origin + delta) rest

@[simp] theorem totals_nil (origin : Nat) : totals origin ([] : List (α × Nat)) = [] := rfl

@[simp] theorem totals_cons (origin delta : Nat) (key : α) (rest : List (α × Nat)) :
    totals origin ((key, delta) :: rest) = (key, origin + delta) :: totals (origin + delta) rest := rfl

/-- Decoding keeps the keys. -/
@[simp] theorem totals_keys (origin : Nat) (entries : List (α × Nat)) :
    (totals origin entries).map Prod.fst = entries.map Prod.fst := by
  induction entries generalizing origin with
  | nil => rfl
  | cons entry rest ih => simp [totals, ih]

/-- No total lies before the origin. -/
theorem origin_le {origin total : Nat} {key : α} {entries : List (α × Nat)}
    (member : (key, total) ∈ totals origin entries) : origin ≤ total := by
  induction entries generalizing origin with
  | nil => simp at member
  | cons entry rest ih =>
    simp only [totals, List.mem_cons, Prod.mk.injEq] at member
    rcases member with ⟨_, rfl⟩ | later
    · exact Nat.le_add_right _ _
    · exact Nat.le_trans (Nat.le_add_right _ _) (ih later)

/-- An entry's total is the origin plus all deltas up to its own. -/
theorem totals_append (origin : Nat) (before after : List (α × Nat)) :
    totals origin (before ++ after) =
      totals origin before ++ totals (origin + (before.map Prod.snd).sum) after := by
  induction before generalizing origin with
  | nil => simp
  | cons entry rest ih => simp [totals, ih, Nat.add_assoc]

/-- Totals are distances from the origin. -/
theorem mem_totals_shift (origin total : Nat) (key : α) (entries : List (α × Nat)) :
    (key, origin + total) ∈ totals origin entries ↔ (key, total) ∈ totals 0 entries := by
  have general : ∀ base, (key, origin + total) ∈ totals (origin + base) entries ↔
      (key, total) ∈ totals base entries := by
    induction entries with
    | nil => simp
    | cons entry rest ih =>
      intro base
      have sums : origin + total = origin + base + entry.2 ↔ total = base + entry.2 := by omega
      have later := ih (base + entry.2)
      rw [← Nat.add_assoc] at later
      simp only [totals, List.mem_cons, Prod.mk.injEq, sums, later]
  exact general 0

/-- Insert a key at a distance, before the first entry that lies farther away. -/
def insertKey (key : α) : Nat → List (α × Nat) → List (α × Nat)
  | delta, [] => [(key, delta)]
  | delta, (next, ahead) :: rest =>
      if delta < ahead then (key, delta) :: (next, ahead - delta) :: rest
      else (next, ahead) :: insertKey key (delta - ahead) rest

/-- An insertion adds one total and changes no other. -/
theorem mem_totals_insertKey (key other : α) (origin delta total : Nat) (entries : List (α × Nat)) :
    (other, total) ∈ totals origin (insertKey key delta entries) ↔
      (other = key ∧ total = origin + delta) ∨ (other, total) ∈ totals origin entries := by
  induction entries generalizing origin delta with
  | nil => simp [insertKey]
  | cons entry rest ih =>
    obtain ⟨next, ahead⟩ := entry
    by_cases before : delta < ahead
    · have same : origin + delta + (ahead - delta) = origin + ahead := by omega
      simp [insertKey, before, same]
    · have same : origin + ahead + (delta - ahead) = origin + delta := by omega
      simp only [insertKey, before, if_false, totals_cons, List.mem_cons, ih, same]
      tauto

/-- Add to the first delta. -/
def advance (delta : Nat) : List (α × Nat) → List (α × Nat)
  | [] => []
  | (key, ahead) :: rest => (key, ahead + delta) :: rest

/-- A later first entry is a later origin. -/
theorem totals_advance (origin delta : Nat) (entries : List (α × Nat)) :
    totals origin (advance delta entries) = totals (origin + delta) entries := by
  cases entries with
  | nil => rfl
  | cons entry rest =>
    have same : origin + (entry.2 + delta) = origin + delta + entry.2 := by omega
    simp [advance, totals, same]

@[simp] theorem advance_zero (entries : List (α × Nat)) : advance 0 entries = entries := by
  cases entries <;> rfl

@[simp] theorem advance_keys (delta : Nat) (entries : List (α × Nat)) :
    (advance delta entries).map Prod.fst = entries.map Prod.fst := by
  cases entries <;> simp [advance]

/-- The removal of an entry hands its delta to the next one and changes no other total. -/
theorem totals_remove (origin delta : Nat) (key : α) (before after : List (α × Nat)) :
    totals origin (before ++ advance delta after) =
      totals origin before ++ totals (origin + (before.map Prod.snd).sum + delta) after ∧
    totals origin (before ++ (key, delta) :: after) =
      totals origin before ++ (key, origin + (before.map Prod.snd).sum + delta) ::
        totals (origin + (before.map Prod.snd).sum + delta) after := by
  simp [totals_append, totals_advance]

/-- With distinct keys, removing an entry removes its total and changes no other. -/
theorem mem_totals_remove {origin delta total : Nat} {key other : α} {before after : List (α × Nat)}
    (distinct : ((before ++ (key, delta) :: after).map Prod.fst).Nodup) :
    (other, total) ∈ totals origin (before ++ advance delta after) ↔
      other ≠ key ∧ (other, total) ∈ totals origin (before ++ (key, delta) :: after) := by
  obtain ⟨removed, whole⟩ := totals_remove origin delta key before after
  have absent : other = key → (other, total) ∉ totals origin (before ++ advance delta after) := by
    rintro rfl member
    have listed : other ∈ (before ++ advance delta after).map Prod.fst := by
      rw [← totals_keys origin]
      exact List.mem_map.mpr ⟨_, member, rfl⟩
    simp only [List.map_append, advance_keys, List.mem_append] at listed
    rw [List.map_append, List.map_cons, List.nodup_middle] at distinct
    exact (List.nodup_cons.mp distinct).1 (List.mem_append.mpr listed)
  rw [removed] at absent ⊢
  rw [whole]
  simp only [List.mem_append, List.mem_cons, Prod.mk.injEq] at absent ⊢
  tauto

/-- The entries at the origin. -/
def due (entries : List (α × Nat)) : List α :=
  (entries.takeWhile fun entry => entry.2 = 0).map Prod.fst

/-- The entries behind the origin. -/
def later (entries : List (α × Nat)) : List (α × Nat) :=
  entries.dropWhile fun entry => entry.2 = 0

@[simp] theorem due_nil : due ([] : List (α × Nat)) = [] := rfl

@[simp] theorem later_nil : later ([] : List (α × Nat)) = [] := rfl

@[simp] theorem due_cons (key : α) (delta : Nat) (rest : List (α × Nat)) :
    due ((key, delta) :: rest) = if delta = 0 then key :: due rest else [] := by
  by_cases zero : delta = 0 <;> simp [due, zero]

@[simp] theorem later_cons (key : α) (delta : Nat) (rest : List (α × Nat)) :
    later ((key, delta) :: rest) = if delta = 0 then later rest else (key, delta) :: rest := by
  by_cases zero : delta = 0 <;> simp [later, zero]

/-- The keys are the due ones followed by the later ones. -/
theorem keys_split (entries : List (α × Nat)) :
    entries.map Prod.fst = due entries ++ (later entries).map Prod.fst := by
  rw [due, later, ← List.map_append, List.takeWhile_append_dropWhile]

/-- An entry is due exactly when its total is the origin. -/
theorem mem_due_iff (origin : Nat) (key : α) (entries : List (α × Nat)) :
    key ∈ due entries ↔ (key, origin) ∈ totals origin entries := by
  induction entries generalizing origin with
  | nil => simp
  | cons entry rest ih =>
    obtain ⟨first, delta⟩ := entry
    by_cases zero : delta = 0
    · subst zero
      simp [ih origin]
    · simp only [due_cons, zero, if_false, List.not_mem_nil, totals_cons, List.mem_cons,
        Prod.mk.injEq, false_iff, not_or]
      refine ⟨by omega, fun member => ?_⟩
      have bound := origin_le member
      omega

/-- The later entries keep their totals, which lie behind the origin. -/
theorem mem_totals_later (origin total : Nat) (key : α) (entries : List (α × Nat)) :
    (key, total) ∈ totals origin (later entries) ↔
      (key, total) ∈ totals origin entries ∧ origin < total := by
  induction entries generalizing origin with
  | nil => simp
  | cons entry rest ih =>
    obtain ⟨first, delta⟩ := entry
    by_cases zero : delta = 0
    · subst zero
      simp only [later_cons, if_true, ih, totals_cons, Nat.add_zero, List.mem_cons, Prod.mk.injEq]
      constructor
      · exact fun ⟨member, behind⟩ => ⟨Or.inr member, behind⟩
      · rintro ⟨⟨_, rfl⟩ | member, behind⟩
        · exact absurd behind (Nat.lt_irrefl _)
        · exact ⟨member, behind⟩
    · simp only [later_cons, zero, if_false]
      refine ⟨fun member => ⟨member, ?_⟩, And.left⟩
      simp only [totals_cons, List.mem_cons, Prod.mk.injEq] at member
      rcases member with ⟨_, rfl⟩ | listed
      · omega
      · have bound := origin_le listed
        omega

/-- The first of the later entries lies behind the origin. -/
theorem later_positive {entries rest : List (α × Nat)} {key : α} {delta : Nat}
    (split : later entries = (key, delta) :: rest) : 0 < delta := by
  induction entries with
  | nil => simp at split
  | cons entry tail ih =>
    obtain ⟨first, ahead⟩ := entry
    by_cases zero : ahead = 0
    · simp only [later_cons, zero, if_true] at split
      exact ih split
    · simp only [later_cons, zero, if_false, List.cons.injEq, Prod.mk.injEq] at split
      omega

/-- The first entry is behind the origin, and so are all others. -/
def Pending (entries : List (α × Nat)) : Prop := ∀ entry ∈ entries.head?, 0 < entry.2

/-- The passing of one unit of time. -/
def tick : List (α × Nat) → List (α × Nat)
  | [] => []
  | (key, delta) :: rest => (key, delta - 1) :: rest

@[simp] theorem tick_keys (entries : List (α × Nat)) :
    (tick entries).map Prod.fst = entries.map Prod.fst := by
  cases entries <;> rfl

/-- Time that passes moves the origin and no total. -/
theorem totals_pass (origin : Nat) {entries : List (α × Nat)} (pending : Pending entries) :
    totals (origin + 1) (tick entries) = totals origin entries := by
  cases entries with
  | nil => rfl
  | cons entry rest =>
    obtain ⟨key, delta⟩ := entry
    have positive : 0 < delta := pending (key, delta) (by simp)
    have same : origin + 1 + (delta - 1) = origin + delta := by omega
    simp [tick, same]

/-- Totals of a pending list lie behind the origin. -/
theorem Pending.origin_lt {origin total : Nat} {key : α} {entries : List (α × Nat)}
    (pending : Pending entries) (member : (key, total) ∈ totals origin entries) : origin < total := by
  rw [← totals_pass origin pending] at member
  exact origin_le member

/-- What is left behind the due entries is pending. -/
theorem pending_later (entries : List (α × Nat)) : Pending (later entries) := by
  intro entry first
  obtain ⟨rest, split⟩ := List.head?_eq_some_iff.mp first
  exact later_positive split

/-- An insertion at a positive distance leaves a pending list. -/
theorem Pending.insertKey {key : α} {delta : Nat} {entries : List (α × Nat)} (pending : Pending entries)
    (positive : 0 < delta) : Pending (insertKey key delta entries) := by
  cases entries with
  | nil => simpa [DeltaList.insertKey, Pending] using positive
  | cons entry rest =>
    obtain ⟨next, ahead⟩ := entry
    have nextPositive : 0 < ahead := pending (next, ahead) (by simp)
    by_cases before : delta < ahead
    · simpa [DeltaList.insertKey, before, Pending] using positive
    · simpa [DeltaList.insertKey, before, Pending] using nextPositive

/-- A removal leaves a pending list. -/
theorem Pending.remove {key : α} {delta : Nat} {before after : List (α × Nat)}
    (pending : Pending (before ++ (key, delta) :: after)) : Pending (before ++ advance delta after) := by
  cases before with
  | nil =>
    have positive : 0 < delta := pending (key, delta) (by simp)
    cases after with
    | nil => simp [Pending, advance]
    | cons entry rest =>
      simp only [Pending, advance, List.nil_append, List.head?_cons, Option.mem_def, Option.some.injEq,
        forall_eq']
      omega
  | cons entry rest => exact fun first same => pending first (by simpa using same)

end DeltaList
