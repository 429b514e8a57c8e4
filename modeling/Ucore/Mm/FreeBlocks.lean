import Ucore.Mm.DefaultPmm

/-!
# The free list as an ordered list of blocks

An abstract free list is an ordered list of spans. A memory represents it when
the ring behind the header names the first pages of the spans, the property
fields hold their sizes, `nr_free` holds their total, and among the managed
pages exactly these first pages carry `PG_property` and none is reserved.

The lemmas below give one representation step for each statement group of the
allocator: taking pages from a block, inserting a block, and the two joins.
-/

namespace Ucore.DefaultPmm

open CircularList EmbeddedList Spans

/-! ## Flag bits -/

theorem testBit_eq (nr : Nat) (flags : BitVec 64) : testBit nr flags = flags.getLsbD nr := by
  have single : (flags >>> nr) &&& 1#64 = if flags.getLsbD nr then 1#64 else 0#64 := by
    ext index inside
    by_cases low : index = 0
    · subst low
      by_cases set : flags.getLsbD nr <;> simp [set]
    · by_cases set : flags.getLsbD nr <;> simp [set, low]
  by_cases set : flags.getLsbD nr <;> simp [testBit, single, set]

@[simp] theorem pageProperty_set (page : Page) : pageProperty (setPageProperty page) = true := by
  simp [pageProperty, setPageProperty, testBit_eq, setBit, pgProperty]

@[simp] theorem pageProperty_clear (page : Page) :
    pageProperty (clearPageProperty page) = false := by
  simp [pageProperty, clearPageProperty, testBit_eq, clearBit, pgProperty]

@[simp] theorem pageReserved_set (page : Page) :
    pageReserved (setPageProperty page) = pageReserved page := by
  simp [pageReserved, setPageProperty, testBit_eq, setBit, pgReserved, pgProperty]

@[simp] theorem pageReserved_clear (page : Page) :
    pageReserved (clearPageProperty page) = pageReserved page := by
  simp [pageReserved, clearPageProperty, testBit_eq, clearBit, pgReserved, pgProperty]

@[simp] theorem property_set (page : Page) : (setPageProperty page).property = page.property := rfl

@[simp] theorem property_clear (page : Page) : (clearPageProperty page).property = page.property := rfl

/-- Flags and properties depend only on the fields they name. -/
@[simp] theorem pageProperty_property (page : Page) (value : Nat) :
    pageProperty { page with property := value } = pageProperty page := rfl

@[simp] theorem pageReserved_property (page : Page) (value : Nat) :
    pageReserved { page with property := value } = pageReserved page := rfl

theorem uint_small {value : Nat} (small : value < 2 ^ 32) : uint value = value :=
  Nat.mod_eq_of_lt small

/-! ## Representation -/

/-- The list entries of the blocks' first pages. -/
def entries (blocks : List Span) : List Le := blocks.map fun block => .link block.start

@[simp] theorem entries_append (left right : List Span) :
    entries (left ++ right) = entries left ++ entries right := by simp [entries]

@[simp] theorem entries_cons (block : Span) (blocks : List Span) :
    entries (block :: blocks) = .link block.start :: entries blocks := rfl

@[simp] theorem entries_nil : entries [] = [] := rfl

@[simp] theorem link_mem_entries (page : Nat) (blocks : List Span) :
    Entry.link page ∈ entries blocks ↔ page ∈ blocks.map Span.start := by
  simp [entries]

@[simp] theorem head_not_mem_entries (blocks : List Span) : Entry.head ∉ entries blocks := by
  simp [entries]

/-- The memory holds exactly these blocks in its free list. -/
structure Represents (managed : Nat → Prop) (area : FreeArea) (blocks : List Span) : Prop where
  ring : Ring area.links .head (entries blocks)
  stored : ∀ block ∈ blocks, (area.pages block.start).property = block.size
  counted : area.nrFree = total blocks
  heads : ∀ page, managed page →
    (pageProperty (area.pages page) = true ↔ page ∈ blocks.map Span.start)
  usable : ∀ page, managed page → pageReserved (area.pages page) = false

/-- What is left of a block after its first `n` pages are taken. -/
def remainder (n : Nat) (block : Span) : List Span :=
  if n < block.size then [⟨block.start + n, block.size - n⟩] else []

/-- Take `n` pages from the first block that has them. -/
def takeFirst (n : Nat) : List Span → Option (Nat × List Span)
  | [] => none
  | block :: rest =>
      if n ≤ block.size then some (block.start, remainder n block ++ rest)
      else (takeFirst n rest).map fun taken => (taken.1, block :: taken.2)

/-- Put a block before the first one that starts behind it. -/
def place (block : Span) : List Span → List Span
  | [] => [block]
  | first :: rest => if block.start < first.start then block :: first :: rest
      else first :: place block rest

/-- Join a block to the last of those before it when they touch. -/
def joinBackward (before : List Span) (block : Span) : List Span × Span :=
  match before.getLast? with
  | none => (before, block)
  | some last => if last.stop = block.start then (before.dropLast, ⟨last.start, last.size + block.size⟩)
      else (before, block)

/-- Join a block to the first of those after it when they touch. -/
def joinForward (block : Span) : List Span → Span × List Span
  | [] => (block, [])
  | first :: rest => if block.stop = first.start then (⟨block.start, block.size + first.size⟩, rest)
      else (block, first :: rest)

/-- Return a block between two parts of the list, joining it on both sides. -/
def release (before : List Span) (block : Span) (after : List Span) : List Span :=
  let (before, block) := joinBackward before block
  let (block, after) := joinForward block after
  before ++ block :: after

/-! ## Facts about the abstract operations -/

theorem takeFirst_none_iff (n : Nat) (blocks : List Span) :
    takeFirst n blocks = none ↔ ∀ block ∈ blocks, block.size < n := by
  induction blocks with
  | nil => simp [takeFirst]
  | cons block rest ih =>
    by_cases fits : n ≤ block.size
    · simp [takeFirst, fits]
    · have small : block.size < n := by omega
      simp [takeFirst, fits, ih, small]

/-- The block taken splits the list: all blocks before it are too small. -/
theorem takeFirst_split {n page : Nat} {blocks rest : List Span}
    (taken : takeFirst n blocks = some (page, rest)) :
    ∃ before block after, blocks = before ++ block :: after ∧ n ≤ block.size ∧
      block.start = page ∧ rest = before ++ (remainder n block ++ after) ∧
      ∀ small ∈ before, small.size < n := by
  induction blocks generalizing rest with
  | nil => simp [takeFirst] at taken
  | cons block tail ih =>
    by_cases fits : n ≤ block.size
    · simp only [takeFirst, fits, if_true, Option.some.injEq, Prod.mk.injEq] at taken
      exact ⟨[], block, tail, rfl, fits, taken.1, taken.2.symm, by simp⟩
    · simp only [takeFirst, fits, if_false, Option.map_eq_some_iff, Prod.mk.injEq] at taken
      obtain ⟨⟨found, left⟩, inTail, rfl, rfl⟩ := taken
      obtain ⟨before, chosen, after, rfl, large, same, rfl, small⟩ := ih inTail
      refine ⟨block :: before, chosen, after, rfl, large, same, rfl, ?_⟩
      intro other member
      rcases List.mem_cons.mp member with rfl | member
      · omega
      · exact small other member

/-- A placed block splits the list at its address. -/
theorem place_split (block : Span) {blocks : List Span} (ordered : Ordered blocks) :
    ∃ before after, blocks = before ++ after ∧ place block blocks = before ++ block :: after ∧
      (∀ other ∈ before, other.start ≤ block.start) ∧
      ∀ other ∈ after, block.start < other.start := by
  induction blocks with
  | nil => exact ⟨[], [], rfl, rfl, by simp, by simp⟩
  | cons first rest ih =>
    obtain ⟨_, before, tail⟩ := ordered_cons.mp ordered
    by_cases below : block.start < first.start
    · refine ⟨[], first :: rest, rfl, by simp [place, below], by simp, ?_⟩
      intro other member
      rcases List.mem_cons.mp member with rfl | member
      · exact below
      · have later := before other member
        simp only [Span.stop] at later
        omega
    · obtain ⟨front, back, rfl, placed, lower, upper⟩ := ih tail
      refine ⟨first :: front, back, rfl, by simp [place, below, placed], ?_, upper⟩
      intro other member
      rcases List.mem_cons.mp member with rfl | member
      · omega
      · exact lower other member

/-! ## What is left of a block -/

/-- Replacing a block by what is left of it keeps the list ordered. -/
theorem remainder_ordered {n : Nat} {before after : List Span} {block : Span}
    (ordered : Ordered (before ++ block :: after)) (positive : 0 < n) :
    Ordered (before ++ (remainder n block ++ after)) := by
  obtain ⟨front, back, across⟩ := ordered_append.mp ordered
  obtain ⟨_, above, tail⟩ := ordered_cons.mp back
  by_cases larger : n < block.size
  · simp only [remainder, larger, if_true, List.singleton_append]
    refine ordered_append.mpr ⟨front, ordered_cons.mpr ⟨by simp only; omega, ?_, tail⟩, ?_⟩
    · intro later member
      have behind := above later member
      simp only [Span.stop] at behind ⊢
      omega
    · intro lower lowerMember upper upperMember
      rcases List.mem_cons.mp upperMember with rfl | member
      · have below := across lower lowerMember block List.mem_cons_self
        simp only at below ⊢
        omega
      · exact across lower lowerMember upper (List.mem_cons_of_mem _ member)
  · simp only [remainder, larger, if_false, List.nil_append]
    exact ordered_append.mpr ⟨front, tail, fun lower lowerMember upper upperMember =>
      across lower lowerMember upper (List.mem_cons_of_mem _ upperMember)⟩

/-- A block is divided into the pages taken and what is left of it. -/
theorem remainder_covered {n : Nat} {block : Span} (fits : n ≤ block.size) (page : Nat) :
    block.Covers page ↔ (⟨block.start, n⟩ : Span).Covers page ∨ Covered (remainder n block) page := by
  by_cases larger : n < block.size
  · simp only [remainder, larger, if_true, covered_cons, covered_nil, or_false, Span.Covers, Span.stop]
    omega
  · simp only [remainder, larger, if_false, covered_nil, or_false, Span.Covers, Span.stop]
    omega

/-- The pages taken from a block are apart from what is left of it. -/
theorem remainder_apart {n : Nat} {block : Span} (page : Nat)
    (inTaken : (⟨block.start, n⟩ : Span).Covers page) : ¬ Covered (remainder n block) page := by
  by_cases larger : n < block.size
  · simp only [remainder, larger, if_true, covered_cons, covered_nil, or_false, Span.Covers, Span.stop]
      at inTaken ⊢
    omega
  · simp [remainder, larger]

/-- Taking the front of a block touches no other block. -/
theorem remainder_separated {n : Nat} {before after : List Span} {block : Span}
    (separated : Separated (before ++ block :: after)) : Separated (before ++ (remainder n block ++ after)) := by
  obtain ⟨beforeSeparated, tail, across⟩ := List.pairwise_append.mp separated
  obtain ⟨blockBelow, afterSeparated⟩ := List.pairwise_cons.mp tail
  have inside : ∀ left ∈ remainder n block, left.stop = block.stop ∧ block.start ≤ left.start := by
    intro left member
    by_cases larger : n < block.size
    · simp only [remainder, larger, if_true, List.mem_singleton] at member
      subst member
      simp only [Span.stop]
      omega
    · simp [remainder, larger] at member
  have single : Separated (remainder n block) := by
    unfold remainder
    split
    · exact List.pairwise_singleton _ _
    · exact List.Pairwise.nil
  refine List.pairwise_append.mpr ⟨beforeSeparated, List.pairwise_append.mpr ⟨single,
    afterSeparated, ?_⟩, ?_⟩
  · intro left member later laterMember
    rw [(inside left member).1]
    exact blockBelow later laterMember
  · intro lower lowerMember upper upperMember
    rcases List.mem_append.mp upperMember with inRemainder | inAfter
    · have below := across lower lowerMember block List.mem_cons_self
      have start := (inside upper inRemainder).2
      omega
    · exact across lower lowerMember upper (List.mem_cons_of_mem _ inAfter)

/-! ## Joined lists -/

/-- The join before a block keeps the order and the covered points. -/
theorem joinBackward_facts {before after : List Span} {block : Span}
    (ordered : Ordered (before ++ block :: after)) :
    Ordered ((joinBackward before block).1 ++ (joinBackward before block).2 :: after) ∧
      (∀ point, Covered ((joinBackward before block).1 ++ (joinBackward before block).2 :: after) point ↔
        Covered (before ++ block :: after) point) ∧
      total ((joinBackward before block).1 ++ (joinBackward before block).2 :: after) =
        total (before ++ block :: after) := by
  rcases List.eq_nil_or_concat' before with rfl | ⟨front, last, rfl⟩
  · simpa [joinBackward] using ordered
  · by_cases touches : last.stop = block.start
    · have split : Ordered (front ++ last :: block :: after) := by simpa using ordered
      obtain ⟨frontOrdered, rest, across⟩ := ordered_append.mp split
      obtain ⟨lastPositive, lastBefore, tail⟩ := ordered_cons.mp rest
      obtain ⟨blockPositive, blockBefore, afterOrdered⟩ := ordered_cons.mp tail
      have joined : joinBackward (front ++ [last]) block =
          (front, ⟨last.start, last.size + block.size⟩) := by simp [joinBackward, touches]
      have stops : (⟨last.start, last.size + block.size⟩ : Span).stop = block.stop := by
        simp only [Span.stop] at touches ⊢
        omega
      rw [joined]
      refine ⟨ordered_append.mpr ⟨frontOrdered, ordered_cons.mpr ⟨by simp only; omega, ?_,
        afterOrdered⟩, ?_⟩, ?_, ?_⟩
      · intro later member
        rw [stops]
        exact blockBefore later member
      · intro lower lowerMember upper upperMember
        rcases List.mem_cons.mp upperMember with rfl | member
        · exact across lower lowerMember last List.mem_cons_self
        · exact across lower lowerMember upper (by simp [member])
      · intro point
        simp only [List.append_assoc, List.singleton_append, covered_append, covered_cons,
          Span.Covers, Span.stop] at touches ⊢
        constructor
        · rintro (inFront | ⟨lower, upper⟩ | inAfter)
          · exact Or.inl inFront
          · by_cases low : point < last.start + last.size
            · exact Or.inr (Or.inl ⟨lower, low⟩)
            · exact Or.inr (Or.inr (Or.inl ⟨by omega, by omega⟩))
          · exact Or.inr (Or.inr (Or.inr inAfter))
        · rintro (inFront | ⟨lower, upper⟩ | ⟨lower, upper⟩ | inAfter)
          · exact Or.inl inFront
          · exact Or.inr (Or.inl ⟨lower, by omega⟩)
          · exact Or.inr (Or.inl ⟨by omega, by omega⟩)
          · exact Or.inr (Or.inr inAfter)
      · simp only [total_append, total_cons, total_nil]
        omega
    · simpa [joinBackward, touches] using ordered

/-- The join after a block keeps the order and the covered points. -/
theorem joinForward_facts {before after : List Span} {block : Span}
    (ordered : Ordered (before ++ block :: after)) :
    Ordered (before ++ (joinForward block after).1 :: (joinForward block after).2) ∧
      ∀ point, Covered (before ++ (joinForward block after).1 :: (joinForward block after).2) point ↔
        Covered (before ++ block :: after) point := by
  cases after with
  | nil => simpa [joinForward] using ordered
  | cons first rest =>
    by_cases touches : block.stop = first.start
    · have split : Ordered ((before ++ [block]) ++ first :: rest) := by simpa using ordered
      have joined := joinBackward_facts split
      simp only [joinBackward, List.getLast?_append, List.getLast?_singleton, Option.some_or,
        touches, if_true, List.dropLast_concat] at joined
      refine ⟨by simpa [joinForward, touches] using joined.1, fun point => ?_⟩
      simpa [joinForward, touches] using joined.2.1 point
    · simpa [joinForward, touches] using ordered

/-- A released block is ordered and covers itself and what was free before. -/
theorem release_facts {before after : List Span} {block : Span}
    (ordered : Ordered (before ++ block :: after)) :
    Ordered (release before block after) ∧
      ∀ point, Covered (release before block after) point ↔
        Covered (before ++ block :: after) point := by
  obtain ⟨backOrdered, backCovered, _⟩ := joinBackward_facts ordered
  obtain ⟨forwardOrdered, forwardCovered⟩ := joinForward_facts backOrdered
  exact ⟨forwardOrdered, fun point => (forwardCovered point).trans (backCovered point)⟩

/-- After the join before a block, the block touches none of those left. -/
theorem joinBackward_separated {before : List Span} {block : Span}
    (separated : Separated before) (ordered : Ordered (before ++ [block])) :
    Separated (joinBackward before block).1 ∧
      (∀ other ∈ (joinBackward before block).1, other ∈ before ∧
        other.stop < (joinBackward before block).2.start) ∧
      (joinBackward before block).2.stop = block.stop := by
  rcases List.eq_nil_or_concat' before with rfl | ⟨front, last, rfl⟩
  · simpa [joinBackward] using separated
  · obtain ⟨frontOrdered, lastOrdered, lastAbove⟩ := ordered_append.mp (ordered_append.mp ordered).1
    obtain ⟨frontSeparated, _, lastApart⟩ := List.pairwise_append.mp separated
    have lastPositive := lastOrdered.positive last List.mem_cons_self
    have lastBelow := (ordered_append.mp ordered).2.2 last (by simp) block List.mem_cons_self
    by_cases touches : last.stop = block.start
    · have joined : joinBackward (front ++ [last]) block =
          (front, ⟨last.start, last.size + block.size⟩) := by simp [joinBackward, touches]
      rw [joined]
      refine ⟨frontSeparated, ?_, ?_⟩
      · intro other member
        exact ⟨by simp [member], lastApart other member last List.mem_cons_self⟩
      · simp only [Span.stop] at touches ⊢
        omega
    · have unchanged : joinBackward (front ++ [last]) block = (front ++ [last], block) := by
        simp [joinBackward, touches]
      rw [unchanged]
      refine ⟨separated, ?_, rfl⟩
      intro other member
      refine ⟨member, ?_⟩
      rcases List.mem_append.mp member with inFront | isLast
      · have apart := lastApart other inFront last List.mem_cons_self
        simp only [Span.stop] at lastBelow apart ⊢
        omega
      · obtain rfl := List.mem_singleton.mp isLast
        simp only
        omega

/-- The join after a block that touches nothing before it leaves no touching pair. -/
theorem joinForward_separated {before after : List Span} {block : Span}
    (beforeSeparated : Separated before) (afterSeparated : Separated after)
    (below : ∀ other ∈ before, other.stop < block.start)
    (across : ∀ lower ∈ before, ∀ upper ∈ after, lower.stop < upper.start)
    (ordered : Ordered after) (above : ∀ other ∈ after, block.stop ≤ other.start) :
    Separated (before ++ (joinForward block after).1 :: (joinForward block after).2) := by
  cases after with
  | nil => exact List.pairwise_append.mpr ⟨beforeSeparated, by simp [joinForward],
      by simpa [joinForward] using below⟩
  | cons first remaining =>
    obtain ⟨firstApart, remainingSeparated⟩ := List.pairwise_cons.mp afterSeparated
    have firstPositive := ordered.positive first List.mem_cons_self
    have firstAbove := above first List.mem_cons_self
    by_cases touches : block.stop = first.start
    · have joined : joinForward block (first :: remaining) =
          (⟨block.start, block.size + first.size⟩, remaining) := by simp [joinForward, touches]
      have joinedStop : (⟨block.start, block.size + first.size⟩ : Span).stop = first.stop := by
        simp only [Span.stop] at touches ⊢
        omega
      rw [joined]
      refine List.pairwise_append.mpr ⟨beforeSeparated, List.pairwise_cons.mpr ⟨?_,
        remainingSeparated⟩, ?_⟩
      · intro later member
        rw [joinedStop]
        exact firstApart later member
      · intro lower lowerMember upper upperMember
        rcases List.mem_cons.mp upperMember with rfl | member
        · exact below lower lowerMember
        · exact across lower lowerMember upper (List.mem_cons_of_mem _ member)
    · have unchanged : joinForward block (first :: remaining) = (block, first :: remaining) := by
        simp [joinForward, touches]
      rw [unchanged]
      refine List.pairwise_append.mpr ⟨beforeSeparated, List.pairwise_cons.mpr ⟨?_,
        afterSeparated⟩, ?_⟩
      · intro later member
        change block.stop < later.start
        rcases List.mem_cons.mp member with rfl | inRemaining
        · omega
        · have behind := firstApart later inRemaining
          simp only [Span.stop] at firstAbove behind ⊢
          omega
      · intro lower lowerMember upper upperMember
        rcases List.mem_cons.mp upperMember with rfl | member
        · exact below lower lowerMember
        · exact across lower lowerMember upper member

/-- Releasing a block into a list without touching blocks joins it with every
block it touches, so no two blocks touch afterwards. -/
theorem release_separated {before after : List Span} {block : Span}
    (ordered : Ordered (before ++ block :: after)) (separated : Separated (before ++ after)) :
    Separated (release before block after) := by
  obtain ⟨beforeSeparated, afterSeparated, across⟩ := List.pairwise_append.mp separated
  obtain ⟨beforeOrdered, rest, below⟩ := ordered_append.mp ordered
  obtain ⟨blockPositive, above, afterOrdered⟩ := ordered_cons.mp rest
  have front : Ordered (before ++ [block]) := ordered_append.mpr ⟨beforeOrdered,
    ordered_cons.mpr ⟨blockPositive, by simp, ordered_nil⟩, fun lower lowerMember upper upperMember =>
      below lower lowerMember upper (by simp at upperMember; simp [upperMember])⟩
  obtain ⟨joinedSeparated, joinedBelow, stops⟩ := joinBackward_separated beforeSeparated front
  exact joinForward_separated joinedSeparated afterSeparated
    (fun other member => (joinedBelow other member).2)
    (fun lower lowerMember upper upperMember =>
      across lower (joinedBelow lower lowerMember).1 upper upperMember)
    afterOrdered (fun other member => stops ▸ above other member)

end Ucore.DefaultPmm
