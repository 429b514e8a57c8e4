import Ucore.Mm.SlobRing
import Mathlib.Data.List.Perm.Basic

/-!
# The blocks of the heap

Free and used blocks divide `arena` and the pages that the heap took. The other pages that it
asked for belong to large allocations. `slob_alloc` and `slob_free` keep this: a call of
`slob_alloc` that passes its assertion returns a new used block, or nothing when there are no
more pages, and after one new page there is a block that is large enough.
-/

namespace Ucore.Slob

open LinkedRing Spans DefaultPmm Transition

/-- Pages that were given: they are no null pointer, and they do not touch `arena`. -/
def Clear (arena : Nat) (pages : Span) : Prop :=
  0 < pages.size ∧ pages.start ≠ 0 ∧ pages.start % pageSize = 0 ∧
    (pages.stop < arena ∨ arena + slobUnit < pages.start)

/-- The free blocks, the used blocks, the pages that they divide, and the other pages. -/
structure HeapOk (arena : Nat) (heap : Heap) (free used slabs others : List Span) : Prop where
  ring : FreeRing arena heap free
  large : ∀ b ∈ used, slobUnit < b.size
  apart : used.Pairwise Apart
  away : ∀ b ∈ used, ∀ x ∈ free, Apart b x
  covered : ∀ point, Covered free point ∨ Covered used point ↔ (arenaBlock arena).Covers point ∨ Covered slabs point
  given : heap.given.Perm (slabs ++ others)
  distinct : heap.given.Pairwise Apart
  clear : ∀ pages ∈ heap.given, Clear arena pages

/-- The used blocks keep their units. -/
def SameUnits (heap next : Heap) (used : List Span) : Prop := ∀ b ∈ used, next.units b.start = heap.units b.start

variable {arena size : Nat} {heap next : Heap} {free free' used slabs others : List Span} {a b pages x : Span}

theorem Clear.away (clear : Clear arena pages) : AwayFrom arena pages := by
  obtain ⟨positive, _, _, below | above⟩ := clear
  · simp only [AwayFrom, arenaBlock, Span.stop, slobUnit] at below ⊢
    omega
  · simp only [AwayFrom, arenaBlock, Span.stop, slobUnit] at above ⊢
    omega

theorem Clear.apart (clear : Clear arena pages) : Apart pages (arenaBlock arena) := by
  obtain ⟨_, _, _, below | above⟩ := clear
  · exact apart_of_le (Nat.le_of_lt below)
  · exact (@apart_of_le (arenaBlock arena) pages (Nat.le_of_lt above)).symm

/-- The start of a heap. -/
theorem initialHeap_ok (arena : Nat) : HeapOk arena (initialHeap arena) [arenaBlock arena] [] [] [] where
  ring :=
    { ordered := ordered_cons.mpr ⟨Nat.zero_lt_succ _, by simp, ordered_nil⟩
      separated := List.pairwise_singleton _ _
      sized := by simp [Sized, arenaBlock, initialHeap]
      ring := rfl
      rover := List.mem_singleton.mpr rfl
      arena := List.mem_singleton.mpr rfl }
  large := by simp
  apart := List.Pairwise.nil
  away := by simp
  covered := by simp
  given := List.Perm.refl _
  distinct := List.Pairwise.nil
  clear := by simp [initialHeap]

/-! ## What follows from the division -/

/-- The pages of the heap are given pages. -/
theorem HeapOk.slab_clear (ok : HeapOk arena heap free used slabs others) (member : pages ∈ slabs) : Clear arena pages :=
  ok.clear pages (ok.given.mem_iff.mpr (List.mem_append_left _ member))

theorem HeapOk.other_clear (ok : HeapOk arena heap free used slabs others) (member : pages ∈ others) : Clear arena pages :=
  ok.clear pages (ok.given.mem_iff.mpr (List.mem_append_right _ member))

/-- No two given pages share a point, also those of the heap and the others. -/
theorem HeapOk.distinct_parts (ok : HeapOk arena heap free used slabs others) :
    slabs.Pairwise Apart ∧ others.Pairwise Apart ∧ ∀ left ∈ slabs, ∀ right ∈ others, Apart left right := by
  have all := (ok.given.pairwise_iff fun {_ _} => Apart.symm).mp ok.distinct
  exact List.pairwise_append.mp all

/-- Used blocks lie in the pages of the heap. -/
theorem HeapOk.used_inside (ok : HeapOk arena heap free used slabs others) (member : b ∈ used) {point : Nat}
    (covers : b.Covers point) : Covered slabs point := by
  have inHeap := (ok.covered point).mp (Or.inr ⟨b, member, covers⟩)
  refine inHeap.resolve_left fun inArena => ?_
  exact ok.away b member _ ok.ring.arena point covers inArena

/-- A used block is no null pointer and does not touch `arena`. -/
theorem HeapOk.used_away (ok : HeapOk arena heap free used slabs others) (member : b ∈ used) :
    b.start ≠ 0 ∧ AwayFrom arena b := by
  have large := ok.large b member
  obtain ⟨first, firstMember, firstCovers⟩ := ok.used_inside member (Span.covers_start (by omega))
  have end_covers : b.Covers (b.stop - 1) := by
    simp only [Span.Covers, Span.stop]
    omega
  obtain ⟨last, lastMember, lastCovers⟩ := ok.used_inside member end_covers
  obtain ⟨_, nonzero, _, place⟩ := ok.slab_clear firstMember
  obtain ⟨_, _, _, placeLast⟩ := ok.slab_clear lastMember
  simp only [Span.Covers, Span.stop] at firstCovers lastCovers place placeLast
  refine ⟨by omega, ?_, ?_⟩
  · simp only [Span.stop]
    omega
  · simp only [arenaBlock, Span.stop]
    omega

/-- Other pages are apart from all blocks. -/
theorem HeapOk.other_apart (ok : HeapOk arena heap free used slabs others) (member : pages ∈ others) :
    (∀ x ∈ free, Apart pages x) ∧ ∀ b ∈ used, Apart pages b := by
  obtain ⟨_, _, across⟩ := ok.distinct_parts
  constructor
  · intro x isFree point inPages inFree
    rcases (ok.covered point).mp (Or.inl ⟨x, isFree, inFree⟩) with inArena | ⟨slab, isSlab, inSlab⟩
    · exact (ok.other_clear member).apart point inPages inArena
    · exact across slab isSlab pages member point inSlab inPages
  · intro b isUsed point inPages inUsed
    obtain ⟨slab, isSlab, inSlab⟩ := ok.used_inside isUsed inUsed
    exact across slab isSlab pages member point inSlab inPages

/-- The order of the used blocks does not matter. -/
theorem HeapOk.perm {used' : List Span} (ok : HeapOk arena heap free used slabs others) (perm : used.Perm used') :
    HeapOk arena heap free used' slabs others := by
  have sameCovered : ∀ point, Covered used' point ↔ Covered used point := by
    intro point
    simp only [Covered, perm.mem_iff]
  exact { ok with
    large := fun b member => ok.large b (perm.mem_iff.mpr member)
    apart := (perm.pairwise_iff fun {_ _} => Apart.symm).mp ok.apart
    away := fun b member => ok.away b (perm.mem_iff.mpr member)
    covered := fun point => by rw [sameCovered, ok.covered] }

/-- The order of the other pages does not matter. -/
theorem HeapOk.perm_others {others' : List Span} (ok : HeapOk arena heap free used slabs others)
    (perm : others.Perm others') : HeapOk arena heap free used slabs others' :=
  { ok with given := ok.given.trans (perm.append_left slabs) }

/-- The names of the large allocations do not matter. -/
theorem HeapOk.others_unused (ok : HeapOk arena heap free used slabs others) (bigblocks : List Bigblock) :
    HeapOk arena { heap with bigblocks } free used slabs others where
  ring :=
    { ordered := ok.ring.ordered
      separated := ok.ring.separated
      sized := ok.ring.sized
      ring := ok.ring.ring
      rover := ok.ring.rover
      arena := ok.ring.arena }
  large := ok.large
  apart := ok.apart
  away := ok.away
  covered := ok.covered
  given := ok.given
  distinct := ok.distinct
  clear := ok.clear

/-! ## The calls -/

/-- Pages that are given are new. -/
theorem HeapOk.getFreePages {allocator : Nat → Option Nat} {order : Nat} {answer : Option Nat}
    (ok : HeapOk arena heap free used slabs others)
    (given : slobGetFreePages arena allocator heap order = (answer, next)) :
    next.bigblocks = heap.bigblocks ∧ next.units = heap.units ∧
      (answer = none ∧ HeapOk arena next free used slabs others ∨
        ∃ page, answer = some page ∧ HeapOk arena next free used slabs (⟨page, pageSize * 2 ^ order⟩ :: others)) := by
  have counted : HeapOk arena { heap with calls := heap.calls + 1 } free used slabs others :=
    ⟨⟨ok.ring.ordered, ok.ring.separated, ok.ring.sized, ok.ring.ring, ok.ring.rover, ok.ring.arena⟩,
      ok.large, ok.apart, ok.away, ok.covered, ok.given, ok.distinct, ok.clear⟩
  unfold slobGetFreePages at given
  split at given
  · split at given
    · rename_i page _ fresh
      obtain ⟨rfl, rfl⟩ := given
      obtain ⟨nonzero, aligned, new, place⟩ := fresh
      refine ⟨rfl, rfl, Or.inr ⟨page, rfl, ?_⟩⟩
      constructor
      case ring => exact ⟨ok.ring.ordered, ok.ring.separated, ok.ring.sized, ok.ring.ring, ok.ring.rover, ok.ring.arena⟩
      case large => exact ok.large
      case apart => exact ok.apart
      case away => exact ok.away
      case covered => exact ok.covered
      case given => exact (ok.given.cons _).trans List.perm_middle.symm
      case distinct =>
        refine List.pairwise_cons.mpr ⟨fun other member => ?_, ok.distinct⟩
        exact (new other member).elim (fun below => (apart_of_le below).symm) apart_of_le
      case clear =>
        intro pages member
        rcases List.mem_cons.mp member with rfl | isOld
        · exact ⟨Nat.mul_pos (by decide) (Nat.two_pow_pos _), nonzero, aligned, place⟩
        · exact ok.clear pages isOld
    · obtain ⟨rfl, rfl⟩ := given
      exact ⟨rfl, rfl, Or.inl ⟨rfl, counted⟩⟩
  · obtain ⟨rfl, rfl⟩ := given
    exact ⟨rfl, rfl, Or.inl ⟨rfl, counted⟩⟩

/-- Other pages are given back. -/
theorem HeapOk.giveBack (ok : HeapOk arena heap free used slabs (pages :: others)) :
    HeapOk arena { heap with given := heap.given.erase pages } free used slabs others where
  ring :=
    { ordered := ok.ring.ordered
      separated := ok.ring.separated
      sized := ok.ring.sized
      ring := ok.ring.ring
      rover := ok.ring.rover
      arena := ok.ring.arena }
  large := ok.large
  apart := ok.apart
  away := ok.away
  covered := ok.covered
  given := by
    have perm := (ok.given.trans List.perm_middle).erase pages
    rwa [List.erase_cons_head] at perm
  distinct := ok.distinct.sublist List.erase_sublist
  clear := fun other member => ok.clear other (List.mem_of_mem_erase member)

/-- A used block may be overwritten. -/
theorem HeapOk.write (ok : HeapOk arena heap free used slabs others) (units next : Nat → Nat) (member : b ∈ used)
    (sameUnits : ∀ address, ¬ b.Covers address → units address = heap.units address)
    (sameNext : ∀ address, ¬ b.Covers address → next address = heap.next address) :
    HeapOk arena { heap with units, next } free used slabs others := by
  have notFree : ∀ x ∈ free, ¬ b.Covers x.start := fun x isFree covers =>
    ok.away b member x isFree x.start covers (Span.covers_start (ok.ring.ordered.positive x isFree))
  have ring : FreeRing arena { heap with units, next } free := by
    constructor
    case ordered => exact ok.ring.ordered
    case separated => exact ok.ring.separated
    case sized =>
      intro x isFree
      simp only [sameUnits _ (notFree x isFree)]
      exact ok.ring.sized x isFree
    case ring =>
      refine ok.ring.ring.congr fun node isStart => ?_
      obtain ⟨x, isFree, rfl⟩ := List.mem_map.mp isStart
      exact sameNext _ (notFree x isFree)
    case rover => exact ok.ring.rover
    case arena => exact ok.ring.arena
  exact ⟨ring, ok.large, ok.apart, ok.away, ok.covered, ok.given, ok.distinct, ok.clear⟩

/-- The header of a used block may be overwritten. -/
theorem HeapOk.overwrite (ok : HeapOk arena heap free used slabs others) (units next : Nat → Nat) (member : b ∈ used)
    (sameUnits : ∀ address, address ≠ b.start → units address = heap.units address)
    (sameNext : ∀ address, address ≠ b.start → next address = heap.next address) :
    HeapOk arena { heap with units, next } free used slabs others := by
  have large := ok.large b member
  have notStart : ∀ address, ¬ b.Covers address → address ≠ b.start := by
    rintro _ outside rfl
    exact outside (Span.covers_start (by omega))
  exact ok.write units next member (fun address outside => sameUnits address (notStart address outside))
    fun address outside => sameNext address (notStart address outside)

/-- Freeing a block keeps the units of blocks that are apart from it and not free. -/
theorem Frees.same_units (frees : Frees arena b free heap free' next) (positive : 0 < b.size) (ring : FreeRing arena heap free)
    (large : ∀ u ∈ used, slobUnit < u.size) (apart : ∀ u ∈ used, Apart b u) (away : ∀ u ∈ used, ∀ x ∈ free, Apart u x) :
    SameUnits heap next used := by
  intro u member
  have uPositive : 0 < u.size := Nat.lt_of_le_of_lt (Nat.zero_le _) (large u member)
  refine frees.units u.start (apart_start (apart u member) positive uPositive) fun isFree => ?_
  obtain ⟨x, inFree, same⟩ := List.mem_map.mp isFree
  exact apart_start (away u member x inFree) uPositive (ring.ordered.positive x inFree) same

/-- `slob_free` of a used block. -/
theorem HeapOk.freeBlock (ok : HeapOk arena heap free (b :: used) slabs others) (size : Nat)
    (isSize : b.size = slobUnit * if size ≠ 0 then slobUnits size else heap.units b.start) :
    ∃ next free', Returns (fun rounds => slobFree rounds heap b.start size) next ∧
      HeapOk arena next free' used slabs others ∧ next.bigblocks = heap.bigblocks ∧ SameUnits heap next used := by
  obtain ⟨nonzero, away⟩ := ok.used_away List.mem_cons_self
  have positive : 0 < b.size := Nat.lt_of_le_of_lt (Nat.zero_le _) (ok.large b List.mem_cons_self)
  obtain ⟨apart, restApart⟩ := List.pairwise_cons.mp ok.apart
  have restAway : ∀ u ∈ used, ∀ x ∈ free, Apart u x := fun u member => ok.away u (List.mem_cons_of_mem _ member)
  have restLarge : ∀ u ∈ used, slobUnit < u.size := fun u member => ok.large u (List.mem_cons_of_mem _ member)
  obtain ⟨next, free', returns, frees⟩ := slobFree_frees ok.ring (ok.away b List.mem_cons_self) positive isSize away nonzero
  refine ⟨next, free', returns, ?_, frees.bigblocks, frees.same_units positive ok.ring restLarge apart restAway⟩
  constructor
  case ring => exact frees.ring
  case large => exact restLarge
  case apart => exact restApart
  case away =>
    intro u member x isFree point inUsed inFree
    rcases (frees.covered point).mp ⟨x, isFree, inFree⟩ with ⟨y, wasFree, inY⟩ | inBlock
    · exact restAway u member y wasFree point inUsed inY
    · exact apart u member point inBlock inUsed
  case covered =>
    intro point
    rw [frees.covered, ← ok.covered, covered_cons]
    tauto
  case given => exact frees.given ▸ ok.given
  case distinct => exact frees.given ▸ ok.distinct
  case clear => exact frees.given ▸ ok.clear

/-- `slob_free` of a new page. -/
theorem HeapOk.freePage (ok : HeapOk arena heap free used slabs (pages :: others)) (isPage : pages.size = pageSize) :
    ∃ next free', Returns (fun rounds => slobFree rounds heap pages.start pageSize) next ∧
      HeapOk arena next free' used (pages :: slabs) others ∧ next.bigblocks = heap.bigblocks ∧ SameUnits heap next used ∧
      ∀ point, pages.Covers point → Covered free' point := by
  have clear := ok.other_clear List.mem_cons_self
  obtain ⟨apartFree, apartUsed⟩ := ok.other_apart List.mem_cons_self
  have isSize : pages.size = slobUnit * if pageSize ≠ 0 then slobUnits pageSize else heap.units pages.start := isPage
  obtain ⟨next, free', returns, frees⟩ := slobFree_frees ok.ring apartFree clear.1 isSize clear.away clear.2.1
  refine ⟨next, free', returns, ?_, frees.bigblocks, frees.same_units clear.1 ok.ring ok.large apartUsed ok.away,
    fun point inPages => (frees.covered point).mpr (Or.inr inPages)⟩
  constructor
  case ring => exact frees.ring
  case large => exact ok.large
  case apart => exact ok.apart
  case away =>
    intro u member x isFree point inUsed inFree
    rcases (frees.covered point).mp ⟨x, isFree, inFree⟩ with ⟨y, wasFree, inY⟩ | inPages
    · exact ok.away u member y wasFree point inUsed inY
    · exact apartUsed u member point inPages inUsed
  case covered =>
    intro point
    have divided := ok.covered point
    rw [frees.covered, covered_cons]
    tauto
  case given =>
    rw [frees.given]
    exact ok.given.trans List.perm_middle
  case distinct => exact frees.given ▸ ok.distinct
  case clear => exact frees.given ▸ ok.clear

/-- A block is taken. -/
theorem HeapOk.taken (ok : HeapOk arena heap free used slabs others) (takes : Takes arena a free heap free' next)
    (large : slobUnit < a.size) : HeapOk arena next free' (a :: used) slabs others ∧ SameUnits heap next used := by
  have inFree : ∀ point, a.Covers point → Covered free point := fun point inTaken => (takes.covered point).mpr (Or.inl inTaken)
  constructor
  · constructor
    case ring => exact takes.ring
    case large => exact List.forall_mem_cons.mpr ⟨large, ok.large⟩
    case apart =>
      refine List.pairwise_cons.mpr ⟨fun u member point inTaken inUsed => ?_, ok.apart⟩
      obtain ⟨x, isFree, inX⟩ := inFree point inTaken
      exact ok.away u member x isFree point inUsed inX
    case away =>
      refine List.forall_mem_cons.mpr ⟨takes.apart, fun u member x isFree point inUsed inX => ?_⟩
      obtain ⟨y, wasFree, inY⟩ := (takes.covered point).mpr (Or.inr ⟨x, isFree, inX⟩)
      exact ok.away u member y wasFree point inUsed inY
    case covered =>
      intro point
      rw [← ok.covered, takes.covered, covered_cons]
      tauto
    case given => exact takes.given ▸ ok.given
    case distinct => exact takes.given ▸ ok.distinct
    case clear => exact takes.given ▸ ok.clear
  · intro u member
    refine takes.units u.start fun inHeap => ?_
    obtain ⟨x, isFree, inX⟩ := inHeap
    exact ok.away u member x isFree _ (Span.covers_start (by have := ok.large u member; omega)) inX

/-! ## `slob_alloc` -/

variable {allocator : Nat → Option Nat} {units : Nat}

/-- The block behind a name of the ring is a free block of its units. -/
theorem FreeRing.units_of_free (ring : FreeRing arena heap free) (member : x ∈ free) :
    ∃ prev ∈ free.map Span.start, heap.next prev = x.start := ring.ring.exists_prev (List.mem_map_of_mem member)

/-- The loop of `slob_alloc` stops; if the block it stops at is too small, so are all free blocks. -/
theorem FreeRing.fits (ring : FreeRing arena heap free) (units : Nat) :
    ∃ prev ∈ free.map Span.start, Returns (fun rounds => search heap.next (Fits heap units) rounds heap.slobfree) prev ∧
      (heap.units (heap.next prev) < units → ∀ x ∈ free, heap.units x.start < units) := by
  obtain ⟨last, lastMember, names⟩ := ring.ring.exists_prev ring.rover
  obtain ⟨prev, member, searched, wanted, isLast⟩ := ring.ring.search_cases ring.ordered.starts_nodup ring.rover
    ⟨last, lastMember, show Fits heap units last from Or.inr names⟩
  refine ⟨prev, member, ⟨_, searched⟩, fun small x isFree => ?_⟩
  have isRover : heap.next prev = heap.slobfree := wanted.resolve_left (Nat.not_le_of_lt small)
  obtain ⟨other, otherMember, namesX⟩ := ring.units_of_free isFree
  by_cases same : other = prev
  · rw [← namesX, same]
    exact small
  · have unwanted := isLast isRover other otherMember same
    rw [Fits, not_or, namesX] at unwanted
    exact Nat.lt_of_not_le unwanted.1

/-- What `slob_alloc` leaves: a new used block, or the blocks as they were. -/
structure Allocates (arena : Nat) (heap : Heap) (free used slabs others : List Span) (units : Nat) (answer : Option Nat)
    (next : Heap) : Prop where
  bigblocks : next.bigblocks = heap.bigblocks
  same : SameUnits heap next used
  outcome : answer = none ∧ HeapOk arena next free used slabs others ∨
    ∃ m free' slabs', answer = some m ∧ next.units m = units ∧
      HeapOk arena next free' (⟨m, slobUnit * units⟩ :: used) slabs' others

/-- A block that is large enough is taken in the first round. -/
theorem HeapOk.take (ok : HeapOk arena heap free used slabs others) (more : 1 < units) {prev : Nat}
    (member : prev ∈ free.map Span.start) (fits : units ≤ heap.units (heap.next prev)) :
    ∃ free', HeapOk arena (heap.take prev units) free' (⟨heap.next prev, slobUnit * units⟩ :: used) slabs others ∧
      (heap.take prev units).units (heap.next prev) = units ∧ SameUnits heap (heap.take prev units) used ∧
      (heap.take prev units).bigblocks = heap.bigblocks := by
  obtain ⟨free', takes⟩ := ok.ring.take member fits more
  have large : slobUnit < slobUnit * units := by
    simp only [slobUnit]
    omega
  obtain ⟨ok', same⟩ := ok.taken takes large
  refine ⟨free', ok', ?_, same, takes.bigblocks⟩
  exact (Nat.eq_of_mul_eq_mul_left (by decide) takes.size).symm

/-- The units of the sizes that pass the assertion. -/
theorem slobUnits_bounds (large : slobUnit < size) (bound : size + slobUnit < pageSize) :
    1 < slobUnits size ∧ slobUnits size ≤ 255 := by
  simp only [slobUnit, pageSize, slobUnits] at large bound ⊢
  omega

/-- After a new page a block is large enough. -/
theorem FreeRing.page_fits (ring : FreeRing arena heap free) {page : Nat} (small : units ≤ 255)
    (isFree : ∀ point, (⟨page, pageSize⟩ : Span).Covers point → Covered free point) :
    ∃ x ∈ free, units ≤ heap.units x.start := by
  obtain ⟨x, member, lower, upper⟩ := run_inside ring.ordered ring.separated (show 0 < pageSize by decide)
    fun point above below => isFree point ⟨above, below⟩
  refine ⟨x, member, ?_⟩
  have sized := ring.sized x member
  simp only [Span.stop, pageSize, slobUnit] at lower upper sized
  omega

/-- `slob_alloc` returns. -/
theorem HeapOk.slobAlloc (ok : HeapOk arena heap free used slabs others) (allocator : Nat → Option Nat) (size : Nat)
    (large : slobUnit < size) (bound : size + slobUnit < pageSize) :
    ∃ answer next, Returns (fun rounds => slobAlloc arena allocator rounds heap size) (answer, next) ∧
      Allocates arena heap free used slabs others (slobUnits size) answer next := by
  obtain ⟨more, small⟩ := slobUnits_bounds large bound
  have notPage : size ≠ pageSize := by
    rintro rfl
    simp only [pageSize, slobUnit] at bound
    omega
  obtain ⟨prev, member, ⟨enough, searched⟩, tooSmall⟩ := ok.ring.fits (slobUnits size)
  by_cases fits : slobUnits size ≤ heap.units (heap.next prev)
  · obtain ⟨free', ok', isUnits, same, sameBig⟩ := ok.take more member fits
    refine ⟨some (heap.next prev), heap.take prev (slobUnits size), ⟨enough + 1, fun rounds many => ?_⟩,
      ⟨sameBig, same, Or.inr ⟨_, free', slabs, rfl, isUnits, ok'⟩⟩⟩
    obtain ⟨pages, rfl⟩ : ∃ pages, rounds = pages + 1 := ⟨rounds - 1, by omega⟩
    simp only [Slob.slobAlloc, if_pos bound, slobLoop, searched (pages + 1) (by omega), Option.bind_some, if_pos fits]
  · cases given : slobGetFreePages arena allocator heap 0 with
    | mk answer paged =>
    obtain ⟨sameBig, sameUnits, ⟨rfl, ok'⟩ | ⟨page, rfl, ok'⟩⟩ := ok.getFreePages given
    · -- there is no page
      refine ⟨none, paged, ⟨enough + 1, fun rounds many => ?_⟩,
        ⟨sameBig, fun b _ => congrFun sameUnits b.start, Or.inl ⟨rfl, ok'⟩⟩⟩
      obtain ⟨pages, rfl⟩ : ∃ pages, rounds = pages + 1 := ⟨rounds - 1, by omega⟩
      simp only [Slob.slobAlloc, if_pos bound, slobLoop, searched (pages + 1) (by omega), Option.bind_some, if_neg fits,
        if_neg notPage, given]
    · -- the page is freed, and the block is found in the second round
      obtain ⟨added, free', ⟨enoughFree, freed⟩, ok'', sameBig', same', isFree⟩ := ok'.freePage rfl
      obtain ⟨prev', member', ⟨enough', searched'⟩, tooSmall'⟩ := ok''.ring.fits (slobUnits size)
      obtain ⟨x, inFree, xFits⟩ := ok''.ring.page_fits small isFree
      have fits' : slobUnits size ≤ added.units (added.next prev') := by
        by_contra less
        exact Nat.not_lt_of_le xFits (tooSmall' (Nat.lt_of_not_le less) x inFree)
      obtain ⟨free'', okTaken, isUnits, same, takenBig⟩ := ok''.take more member' fits'
      refine ⟨some (added.next prev'), added.take prev' (slobUnits size),
        ⟨max enough (max enoughFree enough') + 2, fun rounds many => ?_⟩,
        ⟨takenBig.trans (sameBig'.trans sameBig), fun b isUsed => ?_, Or.inr ⟨_, free'', _, rfl, isUnits, okTaken⟩⟩⟩
      · obtain ⟨pages, rfl⟩ : ∃ pages, rounds = pages + 2 := ⟨rounds - 2, by omega⟩
        simp only [Slob.slobAlloc, if_pos bound, slobLoop, searched (pages + 2) (by omega), Option.bind_some, if_neg fits,
          if_neg notPage, given, freed (pages + 2) (by omega), searched' (pages + 2) (by omega), if_pos fits']
      · rw [same b isUsed, same' b isUsed, sameUnits]

end Ucore.Slob
