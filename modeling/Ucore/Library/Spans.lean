import Mathlib.Data.List.Nodup
import Mathlib.Data.List.Pairwise
import Mathlib.Order.Interval.Finset.Nat
import Mathlib.Algebra.BigOperators.Group.List.Basic
import Mathlib.Algebra.GroupWithZero.Nat

/-!
# Lists of address spans

A span is a start and a size. A list of spans is ordered when its spans are
nonempty and each one ends before the next one starts, and separated when a
point lies between any two of them. Ordered lists describe finite unions of
intervals; separated lists describe them by their maximal runs.
-/

namespace Spans

/-- `size` consecutive points from `start` on. -/
structure Span where
  start : Nat
  size : Nat
deriving DecidableEq, Repr

def Span.stop (span : Span) : Nat := span.start + span.size

def Span.Covers (span : Span) (point : Nat) : Prop := span.start ≤ point ∧ point < span.stop

/-- No point lies in both spans. -/
def Apart (left right : Span) : Prop := ∀ point, left.Covers point → ¬ right.Covers point

/-- The points of all spans of a list. -/
def Covered (spans : List Span) (point : Nat) : Prop := ∃ span ∈ spans, span.Covers point

/-- Nonempty spans in increasing order without a common point. -/
structure Ordered (spans : List Span) : Prop where
  positive : ∀ span ∈ spans, 0 < span.size
  increasing : spans.Pairwise (fun left right => left.stop ≤ right.start)

/-- No two spans touch. -/
def Separated (spans : List Span) : Prop :=
  spans.Pairwise (fun left right => left.stop < right.start)

def total (spans : List Span) : Nat := (spans.map Span.size).sum

@[simp] theorem total_nil : total [] = 0 := rfl

@[simp] theorem total_cons (span : Span) (spans : List Span) :
    total (span :: spans) = span.size + total spans := by simp [total]

@[simp] theorem total_append (left right : List Span) :
    total (left ++ right) = total left + total right := by simp [total]

/-- A listed span is at most as large as the list. -/
theorem size_le_total {span : Span} {spans : List Span} (member : span ∈ spans) :
    span.size ≤ total spans := by
  obtain ⟨before, after, rfl⟩ := List.append_of_mem member
  simp only [total_append, total_cons]
  omega

theorem Apart.symm {left right : Span} (apart : Apart left right) : Apart right left :=
  fun point inRight inLeft => apart point inLeft inRight

/-- A span that ends before another one starts shares no point with it. -/
theorem apart_of_le {left right : Span} (before : left.stop ≤ right.start) : Apart left right := by
  rintro point ⟨_, upper⟩ ⟨lower, _⟩
  omega

/-- Of two nonempty spans without a common point, one ends before the other starts. -/
theorem Apart.le_or_le {left right : Span} (apart : Apart left right)
    (leftPositive : 0 < left.size) (rightPositive : 0 < right.size) :
    left.stop ≤ right.start ∨ right.stop ≤ left.start := by
  by_contra overlapping
  apply apart (max left.start right.start) <;> simp only [Span.Covers, Span.stop] at * <;> omega

/-- A nonempty span covers its start. -/
theorem Span.covers_start {span : Span} (positive : 0 < span.size) : span.Covers span.start := by
  simp only [Span.Covers, Span.stop]
  omega

/-- A part of a span is apart from everything the span is apart from. -/
theorem Apart.mono {whole part other : Span} (apart : Apart whole other)
    (inside : ∀ point, part.Covers point → whole.Covers point) : Apart part other :=
  fun point inPart => apart point (inside point inPart)

@[simp] theorem covered_nil (point : Nat) : ¬ Covered [] point := by simp [Covered]

@[simp] theorem covered_cons (span : Span) (spans : List Span) (point : Nat) :
    Covered (span :: spans) point ↔ span.Covers point ∨ Covered spans point := by
  simp [Covered]

@[simp] theorem covered_append (left right : List Span) (point : Nat) :
    Covered (left ++ right) point ↔ Covered left point ∨ Covered right point := by
  simp only [Covered, List.mem_append]
  constructor
  · rintro ⟨span, member | member, covers⟩
    · exact Or.inl ⟨span, member, covers⟩
    · exact Or.inr ⟨span, member, covers⟩
  · rintro (⟨span, member, covers⟩ | ⟨span, member, covers⟩)
    · exact ⟨span, Or.inl member, covers⟩
    · exact ⟨span, Or.inr member, covers⟩

theorem ordered_nil : Ordered [] := ⟨by simp, List.Pairwise.nil⟩

theorem ordered_cons {span : Span} {spans : List Span} :
    Ordered (span :: spans) ↔
      0 < span.size ∧ (∀ later ∈ spans, span.stop ≤ later.start) ∧ Ordered spans := by
  constructor
  · rintro ⟨positive, increasing⟩
    obtain ⟨before, rest⟩ := List.pairwise_cons.mp increasing
    exact ⟨positive span List.mem_cons_self, before,
      fun later member => positive later (List.mem_cons_of_mem _ member), rest⟩
  · rintro ⟨positive, before, rest⟩
    refine ⟨?_, List.pairwise_cons.mpr ⟨before, rest.increasing⟩⟩
    intro later member
    rcases List.mem_cons.mp member with rfl | member
    · exact positive
    · exact rest.positive later member

theorem ordered_append {left right : List Span} :
    Ordered (left ++ right) ↔
      Ordered left ∧ Ordered right ∧ ∀ lower ∈ left, ∀ upper ∈ right, lower.stop ≤ upper.start := by
  constructor
  · rintro ⟨positive, increasing⟩
    obtain ⟨leftIncreasing, rightIncreasing, across⟩ := List.pairwise_append.mp increasing
    exact ⟨⟨fun span member => positive span (List.mem_append_left _ member), leftIncreasing⟩,
      ⟨fun span member => positive span (List.mem_append_right _ member), rightIncreasing⟩, across⟩
  · rintro ⟨leftOrdered, rightOrdered, across⟩
    refine ⟨?_, List.pairwise_append.mpr ⟨leftOrdered.increasing, rightOrdered.increasing, across⟩⟩
    intro span member
    rcases List.mem_append.mp member with inLeft | inRight
    · exact leftOrdered.positive span inLeft
    · exact rightOrdered.positive span inRight

/-- Two spans of an ordered list have different starts. -/
theorem Ordered.starts_nodup {spans : List Span} (ordered : Ordered spans) :
    (spans.map Span.start).Nodup := by
  induction spans with
  | nil => exact List.nodup_nil
  | cons span rest ih =>
    obtain ⟨positive, before, tail⟩ := ordered_cons.mp ordered
    refine List.nodup_cons.mpr ⟨?_, ih tail⟩
    intro member
    obtain ⟨later, inRest, same⟩ := List.mem_map.mp member
    have after := before later inRest
    simp only [Span.stop] at after
    omega

/-- Two members of a pairwise related list are equal or related one way round. -/
theorem related_members {R : Span → Span → Prop} {spans : List Span} (related : spans.Pairwise R)
    {first second : Span} (firstMember : first ∈ spans) (secondMember : second ∈ spans) :
    first = second ∨ R first second ∨ R second first := by
  induction related with
  | nil => exact absurd firstMember List.not_mem_nil
  | cons before _ ih =>
    rcases List.mem_cons.mp firstMember with rfl | firstLater
    · rcases List.mem_cons.mp secondMember with rfl | secondLater
      · exact Or.inl rfl
      · exact Or.inr (Or.inl (before second secondLater))
    · rcases List.mem_cons.mp secondMember with rfl | secondLater
      · exact Or.inr (Or.inr (before first firstLater))
      · exact ih firstLater secondLater

/-- Spans of an ordered list are determined by any point they cover. -/
theorem Ordered.covers_unique {spans : List Span} (ordered : Ordered spans) {first second : Span}
    (firstMember : first ∈ spans) (secondMember : second ∈ spans) {point : Nat}
    (inFirst : first.Covers point) (inSecond : second.Covers point) : first = second := by
  rcases related_members ordered.increasing firstMember secondMember with same | before | after
  · exact same
  · exact absurd inSecond (apart_of_le before point inFirst)
  · exact absurd inFirst (apart_of_le after point inSecond)

/-- Ordered spans below a bound cover at most that many points. -/
theorem Ordered.total_le {spans : List Span} (ordered : Ordered spans) (low high : Nat)
    (below : ∀ span ∈ spans, low ≤ span.start ∧ span.stop ≤ high) (range : low ≤ high) :
    low + total spans ≤ high := by
  induction spans generalizing low with
  | nil => simpa using range
  | cons span rest ih =>
    obtain ⟨positive, before, tail⟩ := ordered_cons.mp ordered
    obtain ⟨lower, upper⟩ := below span List.mem_cons_self
    have remaining := ih tail span.stop
      (fun later member => ⟨before later member, (below later (List.mem_cons_of_mem _ member)).2⟩)
      upper
    simp only [total_cons, Span.stop] at remaining ⊢
    omega

/-- A span apart from all spans of an ordered list fits between those that start
before it and those that start after it. -/
theorem Ordered.between {before after : List Span} {span : Span}
    (ordered : Ordered (before ++ after)) (positive : 0 < span.size)
    (apart : ∀ other ∈ before ++ after, Apart span other)
    (lower : ∀ other ∈ before, other.start ≤ span.start)
    (upper : ∀ other ∈ after, span.start ≤ other.start) :
    Ordered (before ++ span :: after) := by
  obtain ⟨leftOrdered, rightOrdered, across⟩ := ordered_append.mp ordered
  have below : ∀ other ∈ before, other.stop ≤ span.start := by
    intro other member
    have otherPositive := leftOrdered.positive other member
    rcases (apart other (List.mem_append_left _ member)).le_or_le positive otherPositive with
      passed | ended
    · have starts := lower other member
      simp only [Span.stop] at passed ⊢
      omega
    · exact ended
  have above : ∀ other ∈ after, span.stop ≤ other.start := by
    intro other member
    have otherPositive := rightOrdered.positive other member
    rcases (apart other (List.mem_append_right _ member)).le_or_le positive otherPositive with
      passed | ended
    · exact passed
    · have starts := upper other member
      simp only [Span.stop] at ended ⊢
      omega
  refine ordered_append.mpr ⟨leftOrdered, ordered_cons.mpr ⟨positive, above, rightOrdered⟩, ?_⟩
  intro other member later laterMember
  rcases List.mem_cons.mp laterMember with rfl | inAfter
  · exact below other member
  · exact across other member later inAfter

/-- Spans of an ordered list share no points. -/
theorem Ordered.apart {spans : List Span} (ordered : Ordered spans) : spans.Pairwise Apart :=
  ordered.increasing.imp apart_of_le

/-! ## The points of a list -/

/-- The points of all spans, each of them once. -/
def points (spans : List Span) : Finset Nat :=
  spans.foldr (fun span rest => Finset.Ico span.start span.stop ∪ rest) ∅

theorem mem_points {spans : List Span} {point : Nat} : point ∈ points spans ↔ Covered spans point := by
  induction spans with
  | nil => simp [points]
  | cons span spans ih =>
    rw [covered_cons, ← ih]
    exact Finset.mem_union.trans (or_congr_left Finset.mem_Ico)

/-- Spans without common points have as many points as their sizes say. -/
theorem card_points {spans : List Span} (apart : spans.Pairwise Apart) : (points spans).card = total spans := by
  induction apart with
  | nil => rfl
  | @cons span spans first _ ih =>
    have disjoint : Disjoint (Finset.Ico span.start span.stop) (points spans) := by
      rw [Finset.disjoint_left]
      intro point inSpan inRest
      obtain ⟨other, member, inOther⟩ := mem_points.mp inRest
      exact first other member point (Finset.mem_Ico.mp inSpan) inOther
    rw [total_cons, ← ih]
    exact (Finset.card_union_of_disjoint disjoint).trans (by simp [Span.stop])

/-- Two divisions of the same points have the same total. -/
theorem total_congr {left right : List Span} (apart : left.Pairwise Apart) (apartToo : right.Pairwise Apart)
    (same : ∀ point, Covered left point ↔ Covered right point) : total left = total right := by
  have samePoints : points left = points right := by
    ext point
    rw [mem_points, mem_points, same]
  rw [← card_points apart, samePoints, card_points apartToo]

/-- A run of covered points lies inside a single span when the spans do not
touch: the point right behind a span is not covered by any span of the list. -/
theorem run_inside {spans : List Span} (ordered : Ordered spans) (separated : Separated spans)
    {start length : Nat} (nonempty : 0 < length)
    (covered : ∀ point, start ≤ point → point < start + length → Covered spans point) :
    ∃ span ∈ spans, span.start ≤ start ∧ start + length ≤ span.stop := by
  obtain ⟨span, member, lower, upper⟩ := covered start (Nat.le_refl _) (by omega)
  refine ⟨span, member, lower, ?_⟩
  by_contra short
  obtain ⟨other, otherMember, otherCovers⟩ := covered span.stop (by omega) (by omega)
  obtain ⟨otherLower, otherUpper⟩ := otherCovers
  have different : span ≠ other := by
    rintro rfl
    omega
  have touching : span.stop < other.start ∨ other.stop < span.start :=
    (related_members separated member otherMember).resolve_left different
  rcases touching with after | before
  · omega
  · have spanPositive := ordered.positive span member
    have otherPositive := ordered.positive other otherMember
    simp only [Span.stop] at *
    omega

end Spans
