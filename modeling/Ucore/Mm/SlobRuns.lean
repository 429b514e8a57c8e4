import Ucore.Mm.SlobHeap

/-!
# Runs of the small block allocator

Callers of `slob_alloc` have blocks, write into them and give them back with `slob_free`, in any
order. Between any two of these steps the free list is a ring in the order of the addresses, and
no unit is lost: what is free and what callers have is what was taken from `alloc_pages`, and
`arena`. From every such state both functions return.
-/

namespace Ucore.Slob

open LinkedRing Spans DefaultPmm Transition

/-- A block that `slob_alloc` gave, with the size asked for. -/
structure Loan where
  block : Nat
  size : Nat
deriving DecidableEq

/-- The units of the block. -/
def Loan.span (loan : Loan) : Span := ⟨loan.block, slobUnit * slobUnits loan.size⟩

/-- `slob_free` gets the size that was asked for, or 0 while the units in front of the block are
those that `slob_alloc` stored. -/
def Loan.GivenBack (loan : Loan) (heap : Heap) (size : Nat) : Prop :=
  size = loan.size ∨ size = 0 ∧ heap.units loan.block = slobUnits loan.size

/-- The heap, and the blocks that callers have. -/
structure SlobState where
  heap : Heap
  loans : List Loan

/-- A call that returns, or a store of a caller into one of its blocks. `__kmalloc` asks for more than
one unit. -/
inductive SlobStep (arena : Nat) (allocator : Nat → Option Nat) : SlobState → SlobState → Prop where
  | alloc {state : SlobState} {size block : Nat} {next : Heap} (large : slobUnit < size)
      (returns : Returns (fun rounds => slobAlloc arena allocator rounds state.heap size) (some block, next)) :
      SlobStep arena allocator state ⟨next, ⟨block, size⟩ :: state.loans⟩
  | full {state : SlobState} {size : Nat} {next : Heap} (large : slobUnit < size)
      (returns : Returns (fun rounds => slobAlloc arena allocator rounds state.heap size) (none, next)) :
      SlobStep arena allocator state ⟨next, state.loans⟩
  | free {state : SlobState} {loan : Loan} {size : Nat} {next : Heap} (live : loan ∈ state.loans)
      (given : loan.GivenBack state.heap size)
      (returns : Returns (fun rounds => slobFree rounds state.heap loan.block size) next) :
      SlobStep arena allocator state ⟨next, state.loans.erase loan⟩
  | store {state : SlobState} {loan : Loan} {units next : Nat → Nat} (live : loan ∈ state.loans)
      (elsewhere : ∀ address, ¬ loan.span.Covers address →
        units address = state.heap.units address ∧ next address = state.heap.next address) :
      SlobStep arena allocator state ⟨{ state.heap with units, next }, state.loans⟩

/-- The states that any sequence of steps reaches from the start. -/
inductive SlobReached (arena : Nat) (allocator : Nat → Option Nat) : SlobState → Prop where
  | start : SlobReached arena allocator ⟨initialHeap arena, []⟩
  | step {state next : SlobState} (reached : SlobReached arena allocator state)
      (taken : SlobStep arena allocator state next) : SlobReached arena allocator next

/-- The free list of a heap, in the order of the addresses, beside the blocks that callers have. -/
structure FreeList (heap : Heap) (loans : List Loan) (free : List Span) : Prop where
  /-- The links lead from each block to the next one, and from the last to the first. -/
  circular : Cyclic heap.next (free.map Span.start)
  reached : ∀ address, (∃ steps, heap.next^[steps] heap.slobfree = address) ↔ address ∈ free.map Span.start
  increasing : (free.map Span.start).Pairwise (· < ·)
  wraps : ∃! address, address ∈ free.map Span.start ∧ heap.next address ≤ address
  sized : ∀ block ∈ free, 0 < block.size ∧ block.size = slobUnit * heap.units block.start
  /-- No two free blocks share a byte or touch. -/
  separated : free.Pairwise fun left right => left.stop < right.start
  apart : (free ++ loans.map Loan.span).Pairwise Apart

/-- The unit of `arena`, and those of the pages, which are taken one by one. -/
def takenUnits (heap : Heap) : Nat := 1 + slobUnits pageSize * heap.given.length

/-- No unit is lost. -/
def Balanced (heap : Heap) (loans : List Loan) (free : List Span) : Prop :=
  (free.map fun block => heap.units block.start).sum + (loans.map fun loan => slobUnits loan.size).sum = takenUnits heap

/-- `slob_alloc` returns for every size that passes its assertion, and `slob_free` for every block. -/
def Terminates (arena : Nat) (allocator : Nat → Option Nat) (state : SlobState) : Prop :=
  (∀ size, slobUnit < size → size + slobUnit < pageSize →
    ∃ answer, Returns (fun rounds => slobAlloc arena allocator rounds state.heap size) answer) ∧
  ∀ loan ∈ state.loans, ∀ size, loan.GivenBack state.heap size →
    ∃ next, Returns (fun rounds => slobFree rounds state.heap loan.block size) next

variable {arena rounds size block : Nat} {allocator : Nat → Option Nat} {heap next : Heap} {state last : SlobState}
  {free slabs : List Span} {loans : List Loan} {loan : Loan}

/-! ## The pages -/

/-- `slob_free` takes no pages. -/
theorem slobFree_given (freed : slobFree rounds heap block size = some next) : next.given = heap.given := by
  unfold slobFree at freed
  split at freed
  · rw [Option.some.inj freed]
  · obtain ⟨cur, _, rfl⟩ := Option.map_eq_some_iff.mp freed
    rw [show (_ : Heap).given = _ from (joinPrev_others _ block cur).2.1]
    split <;> rfl

theorem take_given (heap : Heap) (prev units : Nat) : (heap.take prev units).given = heap.given := by
  unfold Heap.take
  dsimp only
  split <;> rfl

/-- Whole pages, one by one. -/
def WholePages (given : List Span) : Prop := ∀ pages ∈ given, pages.size = pageSize

theorem slobGetFreePages_pages {answer : Option Nat} (whole : WholePages heap.given)
    (called : slobGetFreePages arena allocator heap 0 = (answer, next)) : WholePages next.given := by
  unfold slobGetFreePages at called
  split at called
  · split at called
    · obtain ⟨rfl, rfl⟩ := called
      exact List.forall_mem_cons.mpr ⟨rfl, whole⟩
    · obtain ⟨rfl, rfl⟩ := called
      exact whole
  · obtain ⟨rfl, rfl⟩ := called
    exact whole

/-- `slob_alloc` takes one page at a time. -/
theorem slobLoop_pages {pages : Nat} {answer : Option Nat} (whole : WholePages heap.given)
    (called : slobLoop arena allocator rounds size pages heap = some (answer, next)) : WholePages next.given := by
  induction pages generalizing heap with
  | zero => cases called
  | succ pages ih =>
    obtain ⟨prev, _, rest⟩ := Option.bind_eq_some_iff.mp called
    split at rest
    · cases rest
      rwa [take_given]
    · split at rest
      · cases rest
        exact whole
      · split at rest
        · rename_i page paged got
          obtain ⟨freed, isFreed, again⟩ := Option.bind_eq_some_iff.mp rest
          have pagesPaged := slobGetFreePages_pages whole got
          exact ih (slobFree_given isFreed ▸ pagesPaged) again
        · rename_i paged got
          cases rest
          exact slobGetFreePages_pages whole got

theorem slobAlloc_pages {answer : Option Nat} (whole : WholePages heap.given)
    (called : slobAlloc arena allocator rounds heap size = some (answer, next)) : WholePages next.given := by
  unfold slobAlloc at called
  split at called
  · exact slobLoop_pages whole called
  · cases called

/-! ## The invariant of the runs -/

/-- Callers have the used blocks, and all pages were taken for the heap, one by one. -/
structure Orderly (arena : Nat) (state : SlobState) (free slabs : List Span) : Prop where
  heap : HeapOk arena state.heap free (state.loans.map Loan.span) slabs []
  whole : WholePages state.heap.given

theorem initial_orderly (arena : Nat) : Orderly arena ⟨initialHeap arena, []⟩ [arenaBlock arena] [] where
  heap := initialHeap_ok arena
  whole := List.forall_mem_nil _

/-- `slob_free` of a block that a caller has. -/
theorem Orderly.freeLoan (orderly : Orderly arena state free slabs) (live : loan ∈ state.loans)
    (given : loan.GivenBack state.heap size) :
    ∃ next free', Returns (fun rounds => slobFree rounds state.heap loan.block size) next ∧
      Orderly arena ⟨next, state.loans.erase loan⟩ free' slabs := by
  have perm : (state.loans.map Loan.span).Perm (loan.span :: (state.loans.erase loan).map Loan.span) :=
    (List.perm_cons_erase live).map Loan.span
  have ok := orderly.heap.perm perm
  have isSize : loan.span.size = slobUnit * if size ≠ 0 then slobUnits size else state.heap.units loan.span.start := by
    rcases given with rfl | ⟨rfl, stored⟩
    · have large := ok.large loan.span List.mem_cons_self
      have nonzero : loan.size ≠ 0 := by
        intro zero
        simp only [Loan.span, zero, slobUnits, slobUnit] at large
        omega
      rw [if_pos nonzero]
      rfl
    · rw [if_neg (not_not_intro rfl)]
      exact congrArg (slobUnit * ·) stored.symm
  obtain ⟨next, free', returns, ok', _⟩ := ok.freeBlock size isSize
  refine ⟨next, free', returns, ok', ?_⟩
  obtain ⟨enough, exact⟩ := returns
  rw [WholePages, slobFree_given (exact enough (Nat.le_refl _))]
  exact orderly.whole

/-- `slob_alloc`, if it returns. -/
theorem Orderly.allocates {answer : Option Nat} (orderly : Orderly arena state free slabs) (large : slobUnit < size)
    (returns : Returns (fun rounds => slobAlloc arena allocator rounds state.heap size) (answer, next)) :
    Allocates arena state.heap free (state.loans.map Loan.span) slabs [] (slobUnits size) answer next ∧
      WholePages next.given := by
  obtain ⟨enough, exact⟩ := returns
  have called := exact enough (Nat.le_refl _)
  have bound : size + slobUnit < pageSize := by
    by_contra tooLarge
    simp only [slobAlloc, if_neg tooLarge, reduceCtorEq] at called
  obtain ⟨answer', heap, returns', allocates⟩ := orderly.heap.slobAlloc allocator size large bound
  obtain ⟨rfl, rfl⟩ := Prod.mk.inj (Returns.unique ⟨enough, exact⟩ returns')
  exact ⟨allocates, slobAlloc_pages orderly.whole called⟩

/-- One step keeps the order. -/
theorem Orderly.step (orderly : Orderly arena state free slabs) (taken : SlobStep arena allocator state last) :
    ∃ free slabs, Orderly arena last free slabs := by
  cases taken with
  | @alloc size block next large returns =>
    obtain ⟨allocates, whole⟩ := orderly.allocates large returns
    obtain ⟨isNone, _⟩ | ⟨m, free', slabs', isBlock, _, ok⟩ := allocates.outcome
    · cases isNone
    · obtain rfl := Option.some.inj isBlock
      exact ⟨free', slabs', ok, whole⟩
  | @full size next large returns =>
    obtain ⟨allocates, whole⟩ := orderly.allocates large returns
    obtain ⟨_, ok⟩ | ⟨m, free', slabs', isBlock, _⟩ := allocates.outcome
    · exact ⟨free, slabs, ok, whole⟩
    · cases isBlock
  | @free loan size next live given returns =>
    obtain ⟨freed, free', returns', orderly'⟩ := orderly.freeLoan live given
    obtain rfl := returns.unique returns'
    exact ⟨free', slabs, orderly'⟩
  | @store loan units next live elsewhere =>
    have written := orderly.heap.write units next (List.mem_map_of_mem live)
      (fun address outside => (elsewhere address outside).1) fun address outside => (elsewhere address outside).2
    exact ⟨free, slabs, written, orderly.whole⟩

/-- So does every run. -/
theorem SlobReached.orderly (reached : SlobReached arena allocator state) : ∃ free slabs, Orderly arena state free slabs := by
  induction reached with
  | start => exact ⟨_, _, initial_orderly arena⟩
  | step _ taken ih =>
    obtain ⟨free, slabs, orderly⟩ := ih
    exact orderly.step taken

/-! ## What follows from it -/

/-- Free blocks and used blocks share no byte. -/
theorem HeapOk.all_apart {used others : List Span} (ok : HeapOk arena heap free used slabs others) :
    (free ++ used).Pairwise Apart :=
  List.pairwise_append.mpr ⟨ok.ring.ordered.apart, ok.apart, fun x isFree b isUsed => (ok.away b isUsed x isFree).symm⟩

/-- Nor do `arena` and the pages. -/
theorem HeapOk.wholes_apart {used others : List Span} (ok : HeapOk arena heap free used slabs others) :
    (arenaBlock arena :: slabs).Pairwise Apart :=
  List.pairwise_cons.mpr ⟨fun _ isSlab => (ok.slab_clear isSlab).apart.symm, ok.distinct_parts.1⟩

theorem Orderly.freeList (orderly : Orderly arena state free slabs) : FreeList state.heap state.loans free := by
  have ring := orderly.heap.ring
  have increasing : (free.map Span.start).Pairwise (· < ·) := List.pairwise_map.mpr (ordered_starts ring.ordered)
  constructor
  case circular => exact ring.ring
  case reached => exact fun address => ring.ring.reached_iff ring.rover
  case increasing => exact increasing
  case wraps => exact ring.ring.wraps_once increasing
  case sized => exact fun block isFree => ⟨ring.ordered.positive block isFree, ring.sized block isFree⟩
  case separated => exact ring.separated
  case apart => exact orderly.heap.all_apart

/-- The sizes of blocks in units. -/
theorem total_units {α : Type} {span : α → Span} {units : α → Nat} {blocks : List α}
    (sized : ∀ block ∈ blocks, (span block).size = slobUnit * units block) :
    total (blocks.map span) = slobUnit * (blocks.map units).sum := by
  induction blocks with
  | nil => rfl
  | cons block blocks ih =>
    rw [List.map_cons, total_cons, ih fun other member => sized other (List.mem_cons_of_mem _ member),
      sized block List.mem_cons_self, List.map_cons, List.sum_cons, Nat.mul_add]

theorem total_pages {given : List Span} (whole : WholePages given) : total given = pageSize * given.length := by
  induction given with
  | nil => rfl
  | cons pages given ih =>
    obtain ⟨first, rest⟩ := List.forall_mem_cons.mp whole
    rw [total_cons, ih rest, first, List.length_cons, Nat.mul_succ, Nat.add_comm]

/-- Free and used blocks have the bytes of `arena` and of the pages, so they have their units. -/
theorem Orderly.balanced (orderly : Orderly arena state free slabs) : Balanced state.heap state.loans free := by
  have divided : total (free ++ state.loans.map Loan.span) = total (arenaBlock arena :: slabs) := by
    refine total_congr orderly.heap.all_apart orderly.heap.wholes_apart fun point => ?_
    rw [covered_append, covered_cons]
    exact orderly.heap.covered point
  have freeUnits : total (free.map id) = slobUnit * (free.map fun block => state.heap.units block.start).sum :=
    total_units orderly.heap.ring.sized
  have usedUnits : total (state.loans.map Loan.span) = slobUnit * (state.loans.map fun loan => slobUnits loan.size).sum :=
    total_units fun _ _ => rfl
  have slabUnits : total slabs = pageSize * state.heap.given.length := by
    have perm : state.heap.given.Perm slabs := by simpa using orderly.heap.given
    rw [← total_pages orderly.whole]
    exact (perm.map Span.size).sum_eq.symm
  rw [List.map_id] at freeUnits
  rw [total_append, total_cons, freeUnits, usedUnits, slabUnits] at divided
  have pageUnits : slobUnits pageSize = 256 := rfl
  simp only [Balanced, takenUnits, pageUnits]
  simp only [arenaBlock, slobUnit, pageSize] at divided
  omega

theorem Orderly.terminates (orderly : Orderly arena state free slabs) (allocator : Nat → Option Nat) :
    Terminates arena allocator state := by
  constructor
  · intro size large bound
    obtain ⟨answer, next, returns, _⟩ := orderly.heap.slobAlloc allocator size large bound
    exact ⟨(answer, next), returns⟩
  · intro loan live size given
    obtain ⟨next, _, returns, _⟩ := orderly.freeLoan live given
    exact ⟨next, returns⟩

/-- After any sequence of calls the free list is a ring in the order of the addresses that wraps once, its
blocks are disjoint and do not touch, no unit is lost, and the loops of both functions end. -/
theorem slob_free_list_sound {arena : Nat} {allocator : Nat → Option Nat} {state : SlobState}
    (reached : SlobReached arena allocator state) :
    (∃ free, FreeList state.heap state.loans free ∧ Balanced state.heap state.loans free) ∧
      Terminates arena allocator state := by
  obtain ⟨free, slabs, orderly⟩ := reached.orderly
  exact ⟨⟨free, orderly.freeList, orderly.balanced⟩, orderly.terminates allocator⟩

/-- The heap after `slob_alloc(100)` took a page. -/
def onePageHeap : Heap where
  units := Function.update (Function.update (Function.update (fun _ => 1) 65536 256) 65648 249) 65536 7
  next := Function.update (Function.update (Function.update (Function.update (fun _ => 4096) 65536 4096) 4096 65536)
    4096 65648) 65648 4096
  slobfree := 4096
  bigblocks := []
  given := [⟨65536, 4096⟩]
  calls := 1

theorem slobAlloc_one_page : Returns (fun rounds => slobAlloc 4096 (fun _ => some 65536) rounds (initialHeap 4096) 100)
    (some 65536, onePageHeap) := by
  refine ⟨3, fun rounds many => ?_⟩
  obtain ⟨more, rfl⟩ := Nat.exists_eq_add_of_le' many
  rfl

/-- 7 of the 257 units are with a caller. -/
theorem slob_free_list_sound_page : SlobReached 4096 (fun _ => some 65536) ⟨onePageHeap, [⟨65536, 100⟩]⟩ ∧
    (∃ free, FreeList onePageHeap [⟨65536, 100⟩] free ∧ Balanced onePageHeap [⟨65536, 100⟩] free) ∧
      Terminates 4096 (fun _ => some 65536) ⟨onePageHeap, [⟨65536, 100⟩]⟩ := by
  have reached : SlobReached 4096 (fun _ => some 65536) ⟨onePageHeap, [⟨65536, 100⟩]⟩ :=
    SlobReached.start.step (SlobStep.alloc (by decide) slobAlloc_one_page)
  exact ⟨reached, slob_free_list_sound reached⟩

end Ucore.Slob
