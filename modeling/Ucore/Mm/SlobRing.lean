import Ucore.Library.Transition
import Ucore.Mm.Slob

/-!
# The ring of free blocks

The free blocks are a list in the order of their addresses, no two of them touch, and
`next` is a ring through them. `slob_free` puts a block at its place and joins it with what
it touches; `slob_alloc` takes the front of a block that is large enough, if there is one.
`arena` stays free, since it is smaller than every block asked for and nothing touches it.
-/

namespace Ucore.Slob

open LinkedRing Spans DefaultPmm Transition

/-- The block that is there at the start. -/
def arenaBlock (arena : Nat) : Span := ⟨arena, slobUnit⟩

/-- The units of the blocks are their sizes. -/
def Sized (heap : Heap) (blocks : List Span) : Prop := ∀ block ∈ blocks, block.size = slobUnit * heap.units block.start

/-- The free blocks of a heap. -/
structure FreeRing (arena : Nat) (heap : Heap) (free : List Span) : Prop where
  ordered : Ordered free
  separated : Separated free
  sized : Sized heap free
  ring : Cyclic heap.next (free.map Span.start)
  rover : heap.slobfree ∈ free.map Span.start
  arena : arenaBlock arena ∈ free

/-- The block does not touch `arena`. -/
def AwayFrom (arena : Nat) (block : Span) : Prop := block.stop ≠ arena ∧ (arenaBlock arena).stop ≠ block.start

variable {arena : Nat} {heap : Heap} {free before after body front : List Span} {b c x : Span}

/-! ## The place of a block -/

/-- The starts of ordered blocks increase. -/
theorem ordered_starts (ordered : Ordered free) : free.Pairwise (fun left right => left.start < right.start) := by
  refine List.Pairwise.imp_of_mem ?_ ordered.increasing
  intro left right member _ before
  have positive := ordered.positive left member
  simp only [Span.stop] at before
  omega

/-- A ring of blocks, split behind one of them. -/
theorem split_starts (split : after ++ before = body ++ [c]) :
    after.map Span.start ++ before.map Span.start = body.map Span.start ++ [c.start] := by
  rw [← List.map_append, split, List.map_append, List.map_singleton]

theorem split_mem (split : after ++ before = body ++ [c]) : c.start ∈ (before ++ after).map Span.start := by
  rw [← List.perm_append_comm.map Span.start |>.mem_iff, split]
  exact List.mem_map_of_mem (List.mem_append_right _ List.mem_cons_self)

/-- The loop of `slob_free` stops at one block only. -/
theorem FreeRing.stops_iff (ring : FreeRing arena heap (before ++ after)) (lower : ∀ x ∈ before, x.start < b.start)
    (upper : ∀ x ∈ after, b.start < x.start) (split : after ++ before = body ++ [c]) {cur : Nat}
    (member : cur ∈ (before ++ after).map Span.start) : StopsAt heap.next b.start cur ↔ cur = c.start := by
  have cyclic := ring.ring
  have increasing := List.pairwise_map.mpr (ordered_starts ring.ordered)
  rw [List.map_append] at cyclic increasing member
  exact cyclic.before_place_iff increasing (List.forall_mem_map.mpr lower) (List.forall_mem_map.mpr upper)
    (split_starts split) member

/-! ## `slob_free` -/

theorem joinBackward_concat (front : List Span) (last b : Span) : joinBackward (front ++ [last]) b =
    if last.stop = b.start then (front, ⟨last.start, last.size + b.size⟩) else (front ++ [last], b) := by
  simp [joinBackward]

/-- The order of the two joins does not matter. -/
theorem release_forward (before after : List Span) (b : Span) : release before b after =
    (joinBackward before (joinForward b after).1).1 ++
      (joinBackward before (joinForward b after).1).2 :: (joinForward b after).2 := by
  rcases List.eq_nil_or_concat' before with rfl | ⟨front, last, rfl⟩
  · rfl
  · unfold release
    rw [joinBackward_concat, joinBackward_concat]
    cases after with
    | nil => rfl
    | cons n after =>
      unfold joinForward
      by_cases touches : b.stop = n.start
      · by_cases meets : last.stop = b.start
        · have touches' : (⟨last.start, last.size + b.size⟩ : Span).stop = n.start := by
            simp only [Span.stop] at touches meets ⊢
            omega
          simp only [touches, meets, touches', if_true, Nat.add_assoc]
        · simp only [touches, meets, if_true, if_false]
      · by_cases meets : last.stop = b.start
        · have touches' : ¬ (⟨last.start, last.size + b.size⟩ : Span).stop = n.start := by
            simp only [Span.stop] at touches meets ⊢
            omega
          simp only [touches, meets, touches', if_true, if_false]
        · simp only [touches, meets, if_false]

/-- The block `b` leads into the ring of the others, and the block `c` before its place does not lead to it yet. -/
structure Entering (heap : Heap) (before : List Span) (b : Span) (after body : List Span) (c : Span) : Prop where
  size : b.size = slobUnit * heap.units b.start
  sized : Sized heap (before ++ after)
  split : after ++ before = body ++ [c]
  opened : Opened heap.next (before.map Span.start) b.start (after.map Span.start) (body.map Span.start) c.start

theorem Entering.last_mem (entering : Entering heap before b after body c) : c ∈ before ++ after := by
  rw [← List.perm_append_comm.mem_iff, entering.split]
  exact List.mem_append_right _ List.mem_cons_self

theorem joinNext_units (heap : Heap) {address : Nat} (cur : Nat) (different : address ≠ b.start) :
    (heap.joinNext b.start cur).units address = heap.units address := by
  unfold Heap.joinNext
  split
  · exact Function.update_of_ne different ..
  · rfl

/-- The first join: the block leads into the ring. -/
theorem FreeRing.joinNext (ring : FreeRing arena heap (before ++ after)) (ordered : Ordered (before ++ b :: after))
    (size : b.size = slobUnit * heap.units b.start) (away : AwayFrom arena b) (split : after ++ before = body ++ [c]) :
    ∃ body', Entering (heap.joinNext b.start c.start) before (joinForward b after).1 (joinForward b after).2 body' c := by
  have starts := ordered.starts_nodup
  have nodup := ring.ordered.starts_nodup
  have cyclic := ring.ring
  rw [List.map_append] at cyclic nodup
  rw [List.map_append, List.map_cons] at starts
  have entered := cyclic.entered starts (split_starts split)
  have stop : b.start + slobUnit * heap.units b.start = b.stop := by
    rw [Span.stop, size]
  have separate : b.stop ≠ heap.next c.start → joinForward b after = (b, after) →
      ∃ body', Entering (heap.joinNext b.start c.start) before (joinForward b after).1 (joinForward b after).2 body' c := by
    intro apart same
    rw [Heap.joinNext, if_neg (stop ▸ apart), same]
    exact ⟨body, size, ring.sized, split, entered⟩
  cases after with
  | nil =>
    -- all blocks are in front of this one
    obtain ⟨_, rest, below⟩ := ordered_append.mp ordered
    have positive := rest.positive b List.mem_cons_self
    obtain ⟨x, isBefore, same⟩ := List.mem_map.mp (ring.ring.next_mem (split_mem split))
    have ends := below x (by simpa using isBefore) b List.mem_cons_self
    refine separate ?_ rfl
    rw [← same]
    simp only [Span.stop] at ends ⊢
    omega
  | cons n after =>
    cases body with
    | nil =>
      -- one block is free, which is `arena`
      obtain ⟨rfl, isEmpty⟩ := List.cons.inj split
      obtain ⟨rfl, rfl⟩ := List.append_eq_nil_iff.mp isEmpty
      have isNext : heap.next n.start = n.start := cyclic
      have apart : b.stop ≠ n.start := List.mem_singleton.mp ring.arena ▸ away.1
      exact separate (isNext.symm ▸ apart) (if_neg apart)
    | cons y body =>
      obtain ⟨rfl, split'⟩ := List.cons.inj split
      rw [List.map_cons] at cyclic nodup
      obtain ⟨opened, isNext⟩ := cyclic.opened nodup (split_starts split')
      by_cases touches : b.stop = n.start
      · have fewer : (before ++ after).Sublist (before ++ n :: after) :=
          (List.sublist_cons_self n after).append_left before
        have absent : b.start ∉ (before ++ after).map Span.start := by
          intro member
          apply entered.node_absent
          rw [← List.map_append]
          exact (fewer.map Span.start).subset member
        have joined : joinForward b (n :: after) = (⟨b.start, b.size + n.size⟩, after) := if_pos touches
        have nSize := ring.sized n (by simp)
        have sized : Sized (heap.joinNext b.start c.start) (before ++ after) := by
          intro x member
          have different : x.start ≠ b.start := fun same => absent (same ▸ List.mem_map_of_mem member)
          rw [joinNext_units heap c.start different]
          exact ring.sized x (fewer.subset member)
        rw [joined]
        refine ⟨body, ?_, sized, split', ?_⟩
        · show b.size + n.size = slobUnit * (heap.joinNext b.start c.start).units b.start
          rw [Heap.joinNext, if_pos (stop.trans (touches.trans isNext.symm)), isNext]
          simp only [Function.update_self]
          rw [size, nSize, Nat.mul_add]
        · rw [Heap.joinNext, if_pos (stop.trans (touches.trans isNext.symm)), isNext]
          rw [List.map_append] at absent
          exact opened.replaced absent
      · exact separate (isNext ▸ touches) (if_neg touches)

theorem joinForward_start (b : Span) (after : List Span) : (joinForward b after).1.start = b.start := by
  unfold joinForward
  split
  · rfl
  · split <;> rfl

/-- A block that is not touched stays. -/
theorem joinForward_keeps (member : x ∈ after) (apart : b.stop ≠ x.start) : x ∈ (joinForward b after).2 := by
  unfold joinForward
  split
  · exact member
  · split
    · rename_i touches
      refine (List.mem_cons.mp member).resolve_left ?_
      rintro rfl
      exact apart touches
    · exact member

/-- What a heap keeps of the blocks that are not free when the block `b` is freed. -/
def KeepsUnits (heap next : Heap) (b : Span) (free : List Span) : Prop :=
  ∀ address, address ≠ b.start → address ∉ free.map Span.start → next.units address = heap.units address

/-- A block that does not touch stays. -/
theorem joinBackward_keeps (member : x ∈ before) (apart : x.stop ≠ b.start) : x ∈ (joinBackward before b).1 := by
  rcases List.eq_nil_or_concat' before with rfl | ⟨front, last, rfl⟩
  · exact member
  · rw [joinBackward_concat]
    split
    · rename_i touches
      refine (List.mem_append.mp member).resolve_right fun isLast => ?_
      obtain rfl := List.mem_singleton.mp isLast
      exact apart touches
    · exact member

theorem joinPrev_units (heap : Heap) {address cur : Nat} (b : Nat) (different : address ≠ cur) :
    (heap.joinPrev b cur).units address = heap.units address := by
  unfold Heap.joinPrev
  split
  · exact Function.update_of_ne different ..
  · rfl

/-- The blocks are a ring through `c`. -/
structure Ringed (heap : Heap) (blocks : List Span) (c : Span) : Prop where
  sized : Sized heap blocks
  ring : Cyclic heap.next (blocks.map Span.start)
  rover : c.start ∈ blocks.map Span.start

theorem Entering.stop (entering : Entering heap before b after body c) :
    c.start + slobUnit * heap.units c.start = c.stop := by
  rw [Span.stop, entering.sized c entering.last_mem]

/-- The block before it leads to the new one. -/
theorem Entering.linked (entering : Entering heap before b after body c) (apart : c.stop ≠ b.start) :
    Ringed (heap.joinPrev b.start c.start) (before ++ b :: after) c := by
  rw [Heap.joinPrev, if_neg (entering.stop ▸ apart)]
  constructor
  case sized =>
    intro x member
    rw [List.perm_middle.mem_iff, List.mem_cons] at member
    rcases member with rfl | isOther
    · exact entering.size
    · exact entering.sized x isOther
  case ring =>
    rw [List.map_append, List.map_cons]
    exact entering.opened.linked
  case rover =>
    refine List.mem_map_of_mem (List.perm_middle.mem_iff.mpr ?_)
    exact List.mem_cons_of_mem _ entering.last_mem

/-- The block before it and the new one become one. -/
theorem Entering.merged (entering : Entering heap (front ++ [c]) b after body c) (meets : c.stop = b.start) :
    Ringed (heap.joinPrev b.start c.start) (front ++ ⟨c.start, c.size + b.size⟩ :: after) c := by
  have closed := entering.opened.closed
  have nodup := (List.nodup_cons.mp (List.nodup_middle.mp entering.opened.distinct)).2
  rw [← List.map_append, List.append_assoc, List.singleton_append, List.map_append, List.map_cons] at closed nodup
  constructor
  case sized =>
    intro x member
    rw [List.perm_middle.mem_iff, List.mem_cons] at member
    rcases member with rfl | isOther
    · simp only [Heap.joinPrev, if_pos (entering.stop.trans meets), Function.update_self]
      rw [Nat.mul_add, ← entering.size, ← entering.sized c entering.last_mem]
    · have different : x.start ≠ c.start := by
        intro same
        rw [List.nodup_middle, List.nodup_cons, ← List.map_append] at nodup
        exact nodup.1 (same ▸ List.mem_map_of_mem isOther)
      rw [joinPrev_units heap b.start different]
      refine entering.sized x ?_
      rw [List.append_assoc, List.singleton_append, List.perm_middle.mem_iff]
      exact List.mem_cons_of_mem _ isOther
  case ring =>
    rw [Heap.joinPrev, if_pos (entering.stop.trans meets), List.map_append, List.map_cons]
    exact closed
  case rover => simp

/-- The second join. -/
theorem Entering.joinPrev (entering : Entering heap before b after body c) (ordered : Ordered (before ++ b :: after)) :
    Ringed (heap.joinPrev b.start c.start) ((joinBackward before b).1 ++ (joinBackward before b).2 :: after) c := by
  rcases List.eq_nil_or_concat' before with rfl | ⟨front, last, rfl⟩
  · -- the block before its place is the last one
    refine entering.linked fun meets => ?_
    obtain ⟨positive, above, _⟩ := ordered_cons.mp ordered
    have behind := above c (by simpa using entering.last_mem)
    simp only [Span.stop] at meets behind
    omega
  · have split := entering.split
    rw [← List.append_assoc] at split
    obtain ⟨_, isLast⟩ := List.append_inj' split rfl
    obtain rfl := (List.cons.inj isLast).1
    rw [joinBackward_concat]
    by_cases meets : last.stop = b.start
    · rw [if_pos meets]
      exact entering.merged meets
    · rw [if_neg meets]
      exact entering.linked meets

/-- The block is free after the joins. -/
theorem FreeRing.joined (ring : FreeRing arena heap (before ++ after)) (ordered : Ordered (before ++ b :: after))
    (size : b.size = slobUnit * heap.units b.start) (away : AwayFrom arena b) (split : after ++ before = body ++ [c]) :
    FreeRing arena { (heap.joinNext b.start c.start).joinPrev b.start c.start with slobfree := c.start }
        (release before b after) ∧
      KeepsUnits heap ((heap.joinNext b.start c.start).joinPrev b.start c.start) b (before ++ after) := by
  obtain ⟨_, entering⟩ := ring.joinNext ordered size away split
  have ringed := entering.joinPrev (joinForward_facts ordered).1
  have isOrdered := (release_facts ordered).1
  have isSeparated := release_separated ordered ring.separated
  have startSame := joinForward_start b after
  rw [startSame] at ringed
  have arenaMember : arenaBlock arena ∈ release before b after := by
    rw [release_forward]
    rcases List.mem_append.mp ring.arena with isBefore | isAfter
    · exact List.mem_append_left _ (joinBackward_keeps isBefore (startSame ▸ away.2))
    · exact List.mem_append_right _ (List.mem_cons_of_mem _ (joinForward_keeps isAfter away.1))
  rw [← release_forward] at ringed
  refine ⟨⟨isOrdered, isSeparated, ringed.sized, ringed.ring, ringed.rover, arenaMember⟩, ?_⟩
  intro address different absent
  have notLast : address ≠ c.start := by
    rintro rfl
    exact absent (split_mem split)
  rw [joinPrev_units _ b.start notLast, joinNext_units heap c.start different]

/-- A block becomes free; nothing else changes but the fields of free blocks. -/
structure Frees (arena : Nat) (b : Span) (free : List Span) (heap : Heap) (free' : List Span) (next : Heap) : Prop where
  ring : FreeRing arena next free'
  units : KeepsUnits heap next b free
  covered : ∀ point, Covered free' point ↔ Covered free point ∨ b.Covers point
  bigblocks : next.bigblocks = heap.bigblocks
  given : next.given = heap.given
  calls : next.calls = heap.calls

theorem apart_start {other : Span} (apart : Apart b other) (positive : 0 < b.size) (positive' : 0 < other.size) :
    other.start ≠ b.start := by
  intro same
  exact apart b.start (Span.covers_start positive) (same ▸ Span.covers_start positive')

/-- Only the units of the free blocks matter. -/
theorem FreeRing.setUnits {units : Nat → Nat} (ring : FreeRing arena heap free)
    (same : ∀ x ∈ free, units x.start = heap.units x.start) : FreeRing arena { heap with units } free where
  ordered := ring.ordered
  separated := ring.separated
  sized := fun x member => (ring.sized x member).trans (congrArg (slobUnit * ·) (same x member)).symm
  ring := ring.ring
  rover := ring.rover
  arena := ring.arena

theorem joinPrev_others (heap : Heap) (b cur : Nat) :
    ((heap.joinNext b cur).joinPrev b cur).bigblocks = heap.bigblocks ∧
      ((heap.joinNext b cur).joinPrev b cur).given = heap.given ∧
      ((heap.joinNext b cur).joinPrev b cur).calls = heap.calls := by
  unfold Heap.joinPrev Heap.joinNext
  split <;> split <;> exact ⟨rfl, rfl, rfl⟩

/-- The loop of `slob_free` finds the place of a block, and the block becomes free there. -/
theorem place_frees (ring : FreeRing arena heap free) (apart : ∀ x ∈ free, Apart b x) (positive : 0 < b.size)
    (size : b.size = slobUnit * heap.units b.start) (away : AwayFrom arena b) :
    ∃ cur free', Returns (fun rounds => search heap.next (StopsAt heap.next b.start) rounds heap.slobfree) cur ∧
      Frees arena b free heap free' { (heap.joinNext b.start cur).joinPrev b.start cur with slobfree := cur } := by
  obtain ⟨before, after, rfl, _, lower, upper⟩ := place_split b ring.ordered
  have ordered : Ordered (before ++ b :: after) :=
    ring.ordered.between positive apart lower fun x member => Nat.le_of_lt (upper x member)
  have lower' : ∀ x ∈ before, x.start < b.start := by
    intro x member
    have different := apart_start (apart x (List.mem_append_left _ member)) positive
      (ring.ordered.positive x (List.mem_append_left _ member))
    have below := lower x member
    omega
  obtain ⟨body, c, split⟩ : ∃ body c, after ++ before = body ++ [c] := by
    rcases List.eq_nil_or_concat' (after ++ before) with isEmpty | isConcat
    · obtain ⟨rfl, rfl⟩ := List.append_eq_nil_iff.mp isEmpty
      exact absurd ring.arena List.not_mem_nil
    · exact isConcat
  have last := split_mem split
  obtain ⟨cur, member, searched, isFound, _⟩ := ring.ring.search_cases ring.ordered.starts_nodup ring.rover
    ⟨c.start, last, (ring.stops_iff lower' upper split last).mpr rfl⟩
  obtain rfl := (ring.stops_iff lower' upper split member).mp isFound
  obtain ⟨joined, kept⟩ := ring.joined ordered size away split
  obtain ⟨sameBig, sameGiven, sameCalls⟩ := joinPrev_others heap b.start c.start
  refine ⟨c.start, release before b after, ⟨_, searched⟩, joined, kept, fun point => ?_, sameBig, sameGiven, sameCalls⟩
  rw [(release_facts ordered).2 point, covered_append, covered_cons, covered_append]
  tauto

/-- `slob_free` of a block that is not free, with its size or with the one that it has. -/
theorem slobFree_frees {size : Nat} (ring : FreeRing arena heap free) (apart : ∀ x ∈ free, Apart b x)
    (positive : 0 < b.size) (isSize : b.size = slobUnit * if size ≠ 0 then slobUnits size else heap.units b.start)
    (away : AwayFrom arena b) (nonzero : b.start ≠ 0) :
    ∃ next free', Returns (fun rounds => slobFree rounds heap b.start size) next ∧ Frees arena b free heap free' next := by
  have elsewhere : ∀ x ∈ free, x.start ≠ b.start := fun x member =>
    apart_start (apart x member) positive (ring.ordered.positive x member)
  simp only [slobFree, if_neg nonzero]
  by_cases isGiven : size ≠ 0
  · rw [if_pos isGiven] at isSize
    simp only [if_pos isGiven]
    have ring' : FreeRing arena { heap with units := Function.update heap.units b.start (slobUnits size) } free :=
      ring.setUnits fun x member =>
      Function.update_of_ne (elsewhere x member) ..
    have isSize' : b.size = slobUnit * Function.update heap.units b.start (slobUnits size) b.start := by
      rw [Function.update_self]
      exact isSize
    obtain ⟨cur, free', searched, frees⟩ := place_frees ring' apart positive isSize' away
    refine ⟨_, free', searched.map _, frees.ring, ?_, frees.covered, frees.bigblocks, frees.given, frees.calls⟩
    intro address different absent
    exact (frees.units address different absent).trans (Function.update_of_ne different ..)
  · rw [if_neg isGiven] at isSize
    simp only [if_neg isGiven]
    obtain ⟨cur, free', searched, frees⟩ := place_frees ring apart positive isSize away
    exact ⟨_, free', searched.map _, frees⟩

/-! ## `slob_alloc` -/

/-- A block is taken out of the free ones. -/
structure Takes (arena : Nat) (a : Span) (free : List Span) (heap : Heap) (free' : List Span) (next : Heap) : Prop where
  ring : FreeRing arena next free'
  size : a.size = slobUnit * next.units a.start
  units : ∀ address, ¬ Covered free address → next.units address = heap.units address
  covered : ∀ point, Covered free point ↔ a.Covers point ∨ Covered free' point
  apart : ∀ x ∈ free', Apart a x
  bigblocks : next.bigblocks = heap.bigblocks
  given : next.given = heap.given
  calls : next.calls = heap.calls

variable {prev units : Nat}

/-- The block of a name in the ring, with the block that names it. -/
theorem FreeRing.named (ring : FreeRing arena heap free) (member : prev ∈ free.map Span.start)
    (more : heap.units (heap.next prev) ≠ 1) : ∃ before c after body p, free = before ++ c :: after ∧
      c.start = heap.next prev ∧ after ++ before = body ++ [p] ∧ p.start = prev ∧
      Leads heap.next c.start (body.map Span.start) p.start := by
  obtain ⟨c, isBlock, named⟩ := List.mem_map.mp (ring.ring.next_mem member)
  obtain ⟨before, after, rfl⟩ := List.append_of_mem isBlock
  have notArena : arenaBlock arena ≠ c := by
    rintro rfl
    have size := ring.sized _ isBlock
    simp only [named] at size
    simp only [arenaBlock, slobUnit] at size
    omega
  obtain ⟨body, p, split⟩ : ∃ body p, after ++ before = body ++ [p] := by
    rcases List.eq_nil_or_concat' (after ++ before) with isEmpty | isConcat
    · obtain ⟨rfl, rfl⟩ := List.append_eq_nil_iff.mp isEmpty
      exact absurd (List.mem_singleton.mp ring.arena) notArena
    · exact isConcat
  have leads : Leads heap.next c.start (body.map Span.start ++ p.start :: []) c.start := by
    have cyclic := ring.ring
    rw [List.map_append, List.map_cons] at cyclic
    have leads := cyclic.leads
    rw [← List.map_append, split, List.map_append] at leads
    exact leads
  obtain ⟨front, back⟩ := leads_append.mp leads
  refine ⟨before, c, after, body, p, rfl, named, split, ?_, front⟩
  have pMember : p ∈ before ++ c :: after := by
    have inSplit : p ∈ after ++ before := split ▸ by simp
    rw [List.mem_append] at inSplit
    simp only [List.mem_append, List.mem_cons]
    tauto
  have names : heap.next p.start = c.start := back
  exact ring.ring.next_injective ring.ordered.starts_nodup (List.mem_map_of_mem pMember) member (names.trans named)

/-- The front of a block that is large enough is taken. -/
theorem FreeRing.take (ring : FreeRing arena heap free) (member : prev ∈ free.map Span.start)
    (fits : units ≤ heap.units (heap.next prev)) (more : 1 < units) :
    ∃ free', Takes arena ⟨heap.next prev, slobUnit * units⟩ free heap free' (heap.take prev units) := by
  obtain ⟨before, c, after, body, p, rfl, named, split, rfl, leads⟩ := ring.named member (by omega)
  have cMember : c ∈ before ++ c :: after := by simp
  have cSize := ring.sized c cMember
  have starts := ring.ordered.starts_nodup
  rw [List.map_append, List.map_cons, List.nodup_middle, List.nodup_cons, ← List.map_append] at starts
  have splitStarts : ((body ++ [p]).map Span.start).Nodup := by
    rw [← split, List.map_append, List.nodup_append_comm, ← List.map_append]
    exact starts.2
  rw [List.map_append, List.nodup_append] at splitStarts
  have pNotBody : p.start ∉ body.map Span.start := fun inBody => splitStarts.2.2 _ inBody p.start (by simp) rfl
  have inOthers : ∀ x ∈ body ++ [p], x ∈ before ++ after := by
    intro x inSplit
    rw [← split] at inSplit
    exact (List.mem_append.mp inSplit).elim (List.mem_append_right _) (List.mem_append_left _)
  have others : ∀ x ∈ before ++ after, x ∈ before ++ c :: after ∧ x ≠ c := by
    intro x inRest
    refine ⟨by simp only [List.mem_append, List.mem_cons] at inRest ⊢; tauto, ?_⟩
    rintro rfl
    exact starts.1 (List.mem_map_of_mem inRest)
  have pNotC : p.start ≠ c.start := fun same => starts.1 (same ▸ List.mem_map_of_mem (inOthers p (by simp)))
  -- no other block starts inside the one that is taken
  have outside : ∀ x ∈ before ++ after, ¬ c.Covers x.start := by
    intro x inRest covers
    have positive := ring.ordered.positive x (others x inRest).1
    exact (others x inRest).2 (ring.ordered.covers_unique (others x inRest).1 cMember (Span.covers_start positive) covers)
  rw [← named] at fits ⊢
  have positive : 0 < slobUnit * units := by
    simp only [slobUnit]
    omega
  have arenaOther : arenaBlock arena ∈ before ++ after := by
    have inFree := ring.arena
    have notC : arenaBlock arena ≠ c := by
      rintro rfl
      simp only [arenaBlock, slobUnit] at cSize fits
      omega
    simp only [List.mem_append, List.mem_cons, notC, false_or] at inFree ⊢
    exact inFree
  have fitsSize : slobUnit * units ≤ c.size := by
    rw [cSize]
    exact Nat.mul_le_mul_left _ fits
  have isOrdered := remainder_ordered ring.ordered positive
  have isSeparated := @remainder_separated (slobUnit * units) before after c ring.separated
  have takesCovered : ∀ point, Covered (before ++ c :: after) point ↔
      (⟨c.start, slobUnit * units⟩ : Span).Covers point ∨
        Covered (before ++ (remainder (slobUnit * units) c ++ after)) point := by
    intro point
    simp only [covered_append, covered_cons, remainder_covered fitsSize point]
    tauto
  have takesApart : ∀ x ∈ before ++ (remainder (slobUnit * units) c ++ after), Apart ⟨c.start, slobUnit * units⟩ x := by
    intro x inRest point inTaken inX
    by_cases inRemainder : x ∈ remainder (slobUnit * units) c
    · exact remainder_apart point inTaken ⟨x, inRemainder, inX⟩
    · have isOther : x ∈ before ++ after := by
        simp only [List.mem_append, inRemainder, false_or] at inRest ⊢
        exact inRest
      have inC := (remainder_covered fitsSize point).mpr (Or.inl inTaken)
      exact (others x isOther).2 (ring.ordered.covers_unique (others x isOther).1 cMember inX inC)
  refine ⟨before ++ (remainder (slobUnit * units) c ++ after), ?_⟩
  by_cases exact : heap.units c.start = units
  · have noRest : remainder (slobUnit * units) c = [] := if_neg (by rw [cSize, exact]; exact Nat.lt_irrefl _)
    have taken : heap.take p.start units =
        { heap with next := Function.update heap.next p.start (heap.next c.start), slobfree := p.start } := by
      rw [Heap.take, ← named]
      exact if_pos exact
    rw [noRest, List.nil_append] at isOrdered isSeparated takesCovered takesApart ⊢
    rw [taken]
    refine ⟨⟨isOrdered, isSeparated, fun x inRest => ring.sized x (others x inRest).1, ?_, ?_, arenaOther⟩,
      congrArg (slobUnit * ·) exact.symm, fun _ _ => rfl, takesCovered, takesApart, rfl, rfl, rfl⟩
    · have cyclic := leads.redirect pNotBody
      rw [List.map_append, cyclic_rotate, ← List.map_append, split, List.map_append, cyclic_rotate]
      exact cyclic
    · exact List.mem_map_of_mem (inOthers p (by simp))
  · have larger : slobUnit * units < c.size := by
      rw [cSize]
      simp only [slobUnit]
      omega
    have isRest : remainder (slobUnit * units) c = [⟨c.start + slobUnit * units, c.size - slobUnit * units⟩] := if_pos larger
    rw [isRest, List.singleton_append] at isOrdered isSeparated takesCovered takesApart ⊢
    have taken : heap.take p.start units =
        { heap with
          next := Function.update (Function.update heap.next p.start (c.start + slobUnit * units))
            (c.start + slobUnit * units) (heap.next c.start)
          units := Function.update (Function.update heap.units (c.start + slobUnit * units) (heap.units c.start - units))
            c.start units
          slobfree := p.start } := by
      rw [Heap.take, ← named]
      simp only [if_neg exact, Function.update_of_ne pNotC.symm]
    have inC : c.Covers (c.start + slobUnit * units) := by
      simp only [Span.Covers, Span.stop]
      omega
    have restNew : ∀ x ∈ before ++ after, x.start ≠ c.start + slobUnit * units := by
      intro x inRest same
      exact outside x inRest (same ▸ inC)
    have restNotBody : c.start + slobUnit * units ∉ body.map Span.start := by
      intro inBody
      obtain ⟨x, isBody, same⟩ := List.mem_map.mp inBody
      exact restNew x (inOthers x (List.mem_append_left _ isBody)) same
    rw [taken]
    refine ⟨⟨isOrdered, isSeparated, ?_, ?_, ?_, ?_⟩, ?_, ?_, takesCovered, takesApart, rfl, rfl, rfl⟩
    · -- the units of the rest and of the other blocks
      intro x inRest
      by_cases isOther : x ∈ before ++ after
      · have notTaken : x.start ≠ c.start := fun same => starts.1 (same ▸ List.mem_map_of_mem isOther)
        simp only [Function.update_of_ne notTaken, Function.update_of_ne (restNew x isOther)]
        exact ring.sized x (others x isOther).1
      · have isHere : x = ⟨c.start + slobUnit * units, c.size - slobUnit * units⟩ := by
          simp only [List.mem_append, List.mem_cons] at inRest isOther
          tauto
        have notTaken : c.start + slobUnit * units ≠ c.start := by omega
        simp only [isHere, Function.update_of_ne notTaken, Function.update_self, cSize]
        rw [Nat.mul_sub]
    · have pNew : p.start ∉ (c.start + slobUnit * units) :: body.map Span.start := by
        rw [List.mem_cons, not_or]
        exact ⟨restNew p (inOthers p (by simp)), pNotBody⟩
      have cyclic := (leads.redirect restNotBody).link pNew
      rw [Function.update_comm (restNew p (inOthers p (by simp))).symm] at cyclic
      have turned : Cyclic (Function.update (Function.update heap.next p.start (c.start + slobUnit * units))
          (c.start + slobUnit * units) (heap.next c.start))
          (((c.start + slobUnit * units) :: body.map Span.start) ++ [p.start]) := by
        rw [cyclic_rotate]
        exact cyclic
      have same : ((c.start + slobUnit * units) :: body.map Span.start) ++ [p.start] =
          ((c.start + slobUnit * units) :: after.map Span.start) ++ before.map Span.start := by
        rw [List.cons_append, List.cons_append, ← List.map_append, split, List.map_append]
        rfl
      rw [same, cyclic_rotate] at turned
      rw [List.map_append, List.map_cons]
      exact turned
    · have inRest := List.mem_map_of_mem (f := Span.start) (inOthers p (by simp))
      rw [List.map_append, List.mem_append] at inRest
      rw [List.map_append, List.map_cons, List.mem_append, List.mem_cons]
      tauto
    · rw [List.mem_append] at arenaOther
      rw [List.mem_append, List.mem_cons]
      tauto
    · simp only [Function.update_self]
    · intro address uncovered
      have notStart : address ≠ c.start := by
        rintro rfl
        exact uncovered ⟨c, cMember, Span.covers_start (ring.ordered.positive c cMember)⟩
      have notRest : address ≠ c.start + slobUnit * units := by
        rintro rfl
        exact uncovered ⟨c, cMember, inC⟩
      simp only [Function.update_of_ne notStart, Function.update_of_ne notRest]

end Ucore.Slob
