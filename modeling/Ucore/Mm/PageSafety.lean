import Ucore.Mm.PageRuns

/-!
# What runs of the page allocator promise

A run that never appends to a nonempty free list allocates no page twice, keeps
the free list well formed in both directions and, from a single region, merges
every pair of adjacent free blocks. A run that appends loses all three: the
appended entry becomes its own predecessor.
-/

namespace Ucore.DefaultPmm

open CircularList EmbeddedList Spans Transition

/-! ## Runs on a small machine -/

/-- Eight pages of physical memory. -/
def eightPages : Machine := { npage := 8, addressable := by decide }

/-- The page array as `page_init` leaves it: every page is reserved. -/
def reservedPages : FreeArea where
  pages _ := { ref := 0, flags := setBit pgReserved 0, property := 0 }
  links := { prev := fun _ => .head, next := fun _ => .head }
  nrFree := 0

/-- A listed block starts behind `base` within the first `fuel` entries. -/
def listedBehind (fuel : Nat) (links : Links Le) (base : Nat) : Bool :=
  listEmpty links .head || (List.range fuel).any fun steps =>
    match links.next^[steps] .head with
    | .head => false
    | .link page => base < page

theorem listedBehind_sound {fuel : Nat} {links : Links Le} {base : Nat}
    (found : listedBehind fuel links base = true) : InsertsBefore links base := by
  rcases Bool.or_eq_true_iff.mp found with empty | behind
  · exact Or.inl empty
  · obtain ⟨steps, _, met⟩ := List.any_eq_true.mp behind
    refine Or.inr ⟨steps, ?_⟩
    split at met
    · cases met
    · rename_i page reached
      exact ⟨page, reached, by simpa using met⟩

/-- `AvoidsTail`, tested on the first entries of the list. -/
def avoidsTail (fuel : Nat) (system : System) : Operation → Bool
  | .initMemmap base _ => listedBehind fuel system.area.links base
  | .allocPages _ => true
  | .freePages base _ => listedBehind fuel system.area.links base

theorem avoidsTail_sound {fuel : Nat} (system : System) (operation : Operation)
    (tested : avoidsTail fuel system operation = true) : AvoidsTail system operation := by
  cases operation with
  | initMemmap base n => exact listedBehind_sound tested
  | allocPages n => trivial
  | freePages base n => exact listedBehind_sound tested

/-! ## No page is allocated twice -/

/-- No page belongs to two live allocations, or to a live allocation and a block
reached from `free_list` by `next`. -/
def NoDoubleAllocation (system : System) : Prop :=
  system.live.Pairwise Apart ∧
    ∀ steps page, system.area.links.next^[steps] .head = .link page →
      ∀ taken ∈ system.live, Apart ⟨page, (system.area.pages page).property⟩ taken

/-- An entry reached from `free_list` is the first page of a listed block, with its size. -/
theorem Consistent.listed {machine : Machine} {system : System} {blocks : List Span}
    (consistent : Consistent machine system blocks) {steps page : Nat}
    (reached : system.area.links.next^[steps] .head = .link page) :
    ⟨page, (system.area.pages page).property⟩ ∈ blocks := by
  have member := consistent.represented.ring.iterate_mem steps
  rw [reached, List.mem_cons, link_mem_entries] at member
  obtain ⟨block, inBlocks, rfl⟩ := List.mem_map.mp (member.resolve_left (by simp))
  rw [consistent.represented.stored block inBlocks]
  exact inBlocks

/-- In a run that never appends to a nonempty free list, no page is allocated twice. -/
theorem no_double_allocation (machine : Machine) (area : FreeArea) (system : System)
    (reached : Reaches (step machine) AvoidsTail (boot area) system) :
    NoDoubleAllocation system := by
  obtain ⟨blocks, consistent⟩ := reached_consistent reached
  refine ⟨consistent.liveApart, ?_⟩
  intro steps page met taken live
  exact consistent.apart _ (consistent.listed met) taken live

/-- Four pages, two of them allocated and the first of these freed again. -/
theorem no_double_allocation_four_pages :
    ∃ system, Reaches (step eightPages) AvoidsTail (boot reservedPages) system ∧
      system.live = [⟨1, 1⟩] ∧ NoDoubleAllocation system := by
  have completed : (run (guarded (step eightPages) (avoidsTail 8))
      [.initMemmap 0 4, .allocPages 1, .allocPages 1, .freePages 0 1] (boot reservedPages)).map
        System.live = some [⟨1, 1⟩] := by decide +kernel
  obtain ⟨system, last, live⟩ := Option.map_eq_some_iff.mp completed
  have reached := guarded_reaches avoidsTail_sound _ _ _ last
  exact ⟨system, reached, live, no_double_allocation eightPages reservedPages system reached⟩

/-- The two frees of pages 4 and 5 and of pages 2 and 3 append to the list. The
block of pages 2 and 3 is then still listed after its first allocation. -/
theorem double_allocation_after_append :
    ∃ system, run (step eightPages)
        [.initMemmap 0 6, .allocPages 1, .allocPages 1, .allocPages 2, .allocPages 2,
          .freePages 0 1, .freePages 2 2, .allocPages 2, .freePages 4 2, .allocPages 2]
        (boot reservedPages) = some system ∧
      ¬ NoDoubleAllocation system := by
  have completed : (run (step eightPages)
      [.initMemmap 0 6, .allocPages 1, .allocPages 1, .allocPages 2, .allocPages 2,
        .freePages 0 1, .freePages 2 2, .allocPages 2, .freePages 4 2, .allocPages 2]
      (boot reservedPages)).map System.live = some [⟨2, 2⟩, ⟨2, 2⟩, ⟨1, 1⟩] := by decide +kernel
  obtain ⟨system, last, live⟩ := Option.map_eq_some_iff.mp completed
  refine ⟨system, last, ?_⟩
  intro safe
  have apart := safe.1
  rw [live] at apart
  have covered : (⟨2, 2⟩ : Span).Covers 2 := Span.covers_start (by decide)
  exact (List.pairwise_cons.mp apart).1 ⟨2, 2⟩ (by simp) 2 covered covered

/-! ## The free list is well formed -/

/-- The circular list behind `free_list`, its blocks, the flags of the managed
pages and the counter agree; `heads` are the listed first pages in order. -/
structure FreeListInvariant (system : System) (heads : List Nat) : Prop where
  forward : (Entry.head :: heads.map Entry.link ++ [Entry.head]).IsChain fun left right =>
    system.area.links.next left = right
  backward : (Entry.head :: (heads.map Entry.link).reverse ++ [Entry.head]).IsChain
    fun later earlier => system.area.links.prev later = earlier
  inverse : ∀ steps node, system.area.links.next^[steps] .head = node →
    system.area.links.prev (system.area.links.next node) = node ∧
      system.area.links.next (system.area.links.prev node) = node
  increasing : heads.Pairwise (· < ·)
  disjoint : heads.Pairwise fun left right =>
    Apart ⟨left, (system.area.pages left).property⟩ ⟨right, (system.area.pages right).property⟩
  flagged : ∀ page, Covered system.managed page →
    (pageProperty (system.area.pages page) = true ↔ page ∈ heads)
  counted : system.area.nrFree = (heads.map fun head => (system.area.pages head).property).sum

theorem Consistent.freeListInvariant {machine : Machine} {system : System} {blocks : List Span}
    (consistent : Consistent machine system blocks) :
    FreeListInvariant system (blocks.map Span.start) := by
  have named : (blocks.map Span.start).map Entry.link = entries blocks := by simp [entries]
  have ring := consistent.represented.ring
  have stored := consistent.represented.stored
  refine ⟨?_, ?_, ?_, ?_, ?_, consistent.represented.heads, ?_⟩
  · rw [named]
    exact ring.linked.imp fun _ _ adjacent => adjacent.1
  · rw [named]
    exact ring.backward
  · rintro steps node rfl
    exact ring.inverse (ring.iterate_mem steps)
  · refine List.pairwise_map.mpr (consistent.ordered.increasing.imp_of_mem ?_)
    intro left right leftMember _ before
    have positive := consistent.ordered.positive left leftMember
    simp only [Span.stop] at before
    omega
  · refine List.pairwise_map.mpr (consistent.ordered.increasing.imp_of_mem ?_)
    intro left right leftMember rightMember before
    rw [stored left leftMember, stored right rightMember]
    exact apart_of_le before
  · rw [consistent.represented.counted, total, List.map_map]
    exact congrArg List.sum (List.map_congr_left fun block member => (stored block member).symm)

/-- In a run that never appends to a nonempty free list, the list stays well formed. -/
theorem free_list_invariant (machine : Machine) (area : FreeArea) (system : System)
    (reached : Reaches (step machine) AvoidsTail (boot area) system) :
    ∃ heads, FreeListInvariant system heads := by
  obtain ⟨blocks, consistent⟩ := reached_consistent reached
  exact ⟨_, consistent.freeListInvariant⟩

/-- Two separate free blocks, the lower one freed last. -/
theorem free_list_invariant_two_blocks :
    ∃ system, Reaches (step eightPages) AvoidsTail (boot reservedPages) system ∧
      system.area.nrFree = 3 ∧ ∃ heads, FreeListInvariant system heads := by
  have completed : (run (guarded (step eightPages) (avoidsTail 8))
      [.initMemmap 0 4, .allocPages 1, .allocPages 1, .freePages 0 1] (boot reservedPages)).map
        (fun system => system.area.nrFree) = some 3 := by decide +kernel
  obtain ⟨system, last, free⟩ := Option.map_eq_some_iff.mp completed
  have reached := guarded_reaches avoidsTail_sound _ _ _ last
  exact ⟨system, reached, free, free_list_invariant eightPages reservedPages system reached⟩

/-- The free of page 2 appends to the list that holds page 0: page 2 becomes its
own predecessor. -/
theorem free_list_broken_after_append :
    ∃ system, run (step eightPages)
        [.initMemmap 0 3, .allocPages 1, .allocPages 1, .allocPages 1, .freePages 0 1, .freePages 2 1]
        (boot reservedPages) = some system ∧
      ¬ ∃ heads, FreeListInvariant system heads := by
  have completed : (run (step eightPages)
      [.initMemmap 0 3, .allocPages 1, .allocPages 1, .allocPages 1, .freePages 0 1, .freePages 2 1]
      (boot reservedPages)).map (fun system =>
        (system.area.links.next .head, system.area.links.next (.link 0),
          system.area.links.prev (.link 2))) = some (.link 0, .link 2, .link 2) := by decide +kernel
  obtain ⟨system, last, links⟩ := Option.map_eq_some_iff.mp completed
  obtain ⟨first, second, loop⟩ : system.area.links.next .head = .link 0 ∧
      system.area.links.next (.link 0) = .link 2 ∧ system.area.links.prev (.link 2) = .link 2 := by
    simpa using links
  refine ⟨system, last, ?_⟩
  rintro ⟨heads, invariant⟩
  have back := (invariant.inverse 1 (.link 0) (by simpa using first)).1
  rw [second, loop] at back
  cases back

/-! ## Adjacent free blocks are merged -/

/-- No two entries reached from `free_list` are adjacent blocks. -/
def Coalesced (system : System) : Prop :=
  ∀ steps further left right, system.area.links.next^[steps] .head = .link left →
    system.area.links.next^[further] .head = .link right →
      left + (system.area.pages left).property ≠ right

/-- `default_alloc_pages` returns `NULL` only when every run of `n` pages of the
region has an allocated page. -/
def FailsOnlyWhenFull (machine : Machine) (region : Span) (system : System) : Prop :=
  ∀ n area, defaultAllocPages machine.npage n system.area = some (none, area) →
    ∀ start, region.start ≤ start → start + n ≤ region.stop →
      ∃ page, start ≤ page ∧ page < start + n ∧ Covered system.live page

/-- The operations after the region is initialised: allocations, and frees that
do not append. -/
def AfterRegion (system : System) (operation : Operation) : Prop :=
  AvoidsTail system operation ∧ ∀ base n, operation ≠ .initMemmap base n

/-- The blocks are the maximal runs of free pages of the region. -/
def Maximal (machine : Machine) (region : Span) (system : System) : Prop :=
  ∃ blocks, Consistent machine system blocks ∧ Separated blocks ∧ system.managed = [region]

/-- Taking pages from the front of a block touches no other block. -/
theorem afterAlloc_separated {n : Nat} {blocks : List Span} (separated : Separated blocks) :
    Separated (afterAlloc n blocks) := by
  unfold afterAlloc
  split
  · exact separated
  · rename_i taken found
    obtain ⟨page, rest⟩ := taken
    obtain ⟨before, block, after, rfl, fits, _, rfl, _⟩ := takeFirst_split found
    exact remainder_separated separated

theorem step_maximal {machine : Machine} {region : Span} (system : System) (operation : Operation)
    (next : System) (maximal : Maximal machine region system) (allowed : AfterRegion system operation)
    (taken : step machine system operation = some next) : Maximal machine region next := by
  obtain ⟨blocks, consistent, separated, managed⟩ := maximal
  cases operation with
  | initMemmap base n => exact absurd rfl (allowed.2 base n)
  | allocPages n =>
    obtain ⟨kept, same⟩ := allocPages_consistent consistent taken
    exact ⟨_, kept, afterAlloc_separated separated, same.trans managed⟩
  | freePages base n =>
    obtain ⟨before, after, rfl, sorted, kept, same⟩ := freePages_consistent consistent allowed.1 taken
    exact ⟨_, kept, release_separated sorted separated, same.trans managed⟩

theorem Maximal.coalesced {machine : Machine} {region : Span} {system : System}
    (maximal : Maximal machine region system) : Coalesced system := by
  obtain ⟨blocks, consistent, separated, _⟩ := maximal
  intro steps further left right leftMet rightMet touches
  have leftListed := consistent.listed leftMet
  have rightListed := consistent.listed rightMet
  have leftPositive := consistent.ordered.positive _ leftListed
  rcases related_members separated leftListed rightListed with same | before | after
  · obtain ⟨rfl, _⟩ := Span.mk.inj same
    simp only at leftPositive
    omega
  · simp only [Span.stop] at before
    omega
  · simp only [Span.stop] at after
    omega

/-- The search finds a block when some run of free pages is long enough: the
block that holds the run is at least as large. -/
theorem Maximal.fails_only_when_full {machine : Machine} {region : Span} {system : System}
    (maximal : Maximal machine region system) : FailsOnlyWhenFull machine region system := by
  obtain ⟨blocks, consistent, separated, managed⟩ := maximal
  intro n area failed start lower upper
  have positive : 0 < n := by
    by_contra empty
    simp [defaultAllocPages, show n = 0 by omega] at failed
  obtain ⟨after, returned, _⟩ := defaultAllocPages_refines consistent.represented consistent.ordered
    positive consistent.total_le.2
  rw [returned] at failed
  have nothing : takeFirst n blocks = none := by simpa using (Prod.mk.inj (Option.some.inj failed)).1
  by_contra allFree
  have covered : ∀ page, start ≤ page → page < start + n → Covered blocks page := by
    intro page above below
    have inRegion : Covered system.managed page := by
      rw [managed]
      exact ⟨region, by simp, ⟨by omega, by omega⟩⟩
    rcases (consistent.divided page).mp inRegion with free | live
    · exact free
    · exact absurd ⟨page, above, below, live⟩ allFree
  obtain ⟨block, listed, blockStart, blockStop⟩ :=
    run_inside consistent.ordered separated positive covered
  have small := (takeFirst_none_iff n blocks).mp nothing block listed
  simp only [Span.stop] at blockStop
  omega

/-- After a single region is initialised, a run that never appends to a nonempty
free list keeps free blocks apart and fails only when no run of pages is free. -/
theorem coalescing_complete (machine : Machine) (area : FreeArea) (base n : Nat)
    (initial system : System)
    (initialised : step machine (boot area) (.initMemmap base n) = some initial)
    (reached : Reaches (step machine) AfterRegion initial system) :
    Coalesced system ∧ FailsOnlyWhenFull machine ⟨base, n⟩ system := by
  have avoids : AvoidsTail (boot area) (.initMemmap base n) :=
    Or.inl ((listEmpty_iff (listInit_ring _ _)).mpr rfl)
  obtain ⟨before, after, split, consistent, managed, _⟩ :=
    initMemmap_consistent (boot_consistent machine area) avoids initialised
  obtain ⟨rfl, rfl⟩ := List.append_eq_nil_iff.mp split.symm
  have start : Maximal machine ⟨base, n⟩ initial :=
    ⟨_, consistent, List.pairwise_singleton _ _, managed⟩
  have maximal := reached.invariant start step_maximal
  exact ⟨maximal.coalesced, maximal.fails_only_when_full⟩

/-- The operations admitted after the region, tested on the first entries of the list. -/
def afterRegion (fuel : Nat) (system : System) : Operation → Bool
  | .initMemmap _ _ => false
  | operation => avoidsTail fuel system operation

theorem afterRegion_sound {fuel : Nat} (system : System) (operation : Operation)
    (tested : afterRegion fuel system operation = true) : AfterRegion system operation := by
  cases operation with
  | initMemmap base n => cases tested
  | allocPages n => exact ⟨trivial, by simp⟩
  | freePages base n => exact ⟨listedBehind_sound tested, by simp⟩

/-- Pages 1 and 0 are freed in this order; the three free pages merge. -/
theorem coalescing_complete_three_pages :
    ∃ initial system, step eightPages (boot reservedPages) (.initMemmap 0 3) = some initial ∧
      Reaches (step eightPages) AfterRegion initial system ∧
      (system.area.pages 0).property = 3 ∧
      Coalesced system ∧ FailsOnlyWhenFull eightPages ⟨0, 3⟩ system := by
  have completed : ((step eightPages (boot reservedPages) (.initMemmap 0 3)).bind fun initial =>
      (run (guarded (step eightPages) (afterRegion 8))
        [.allocPages 1, .allocPages 1, .freePages 1 1, .freePages 0 1] initial).map fun system =>
          (system.area.pages 0).property) = some 3 := by decide +kernel
  obtain ⟨initial, initialised, rest⟩ := Option.bind_eq_some_iff.mp completed
  obtain ⟨system, last, merged⟩ := Option.map_eq_some_iff.mp rest
  have reached := guarded_reaches afterRegion_sound _ _ _ last
  exact ⟨initial, system, initialised, reached, merged,
    coalescing_complete eightPages reservedPages 0 3 initial system initialised reached⟩

/-- The free of page 1 appends to the list that holds page 0; the two adjacent
pages stay separate blocks. -/
theorem not_coalesced_after_append :
    ∃ initial system, step eightPages (boot reservedPages) (.initMemmap 0 3) = some initial ∧
      run (step eightPages)
        [.allocPages 1, .allocPages 1, .allocPages 1, .freePages 0 1, .freePages 1 1] initial =
          some system ∧
      ¬ Coalesced system := by
  have completed : ((step eightPages (boot reservedPages) (.initMemmap 0 3)).bind fun initial =>
      (run (step eightPages)
        [.allocPages 1, .allocPages 1, .allocPages 1, .freePages 0 1, .freePages 1 1] initial).map
          fun system => (system.area.links.next .head, system.area.links.next (.link 0),
            (system.area.pages 0).property)) = some (.link 0, .link 1, 1) := by decide +kernel
  obtain ⟨initial, initialised, rest⟩ := Option.bind_eq_some_iff.mp completed
  obtain ⟨system, last, observed⟩ := Option.map_eq_some_iff.mp rest
  obtain ⟨first, second, size⟩ : system.area.links.next .head = .link 0 ∧
      system.area.links.next (.link 0) = .link 1 ∧ (system.area.pages 0).property = 1 := by
    simpa using observed
  refine ⟨initial, system, initialised, last, ?_⟩
  intro coalesced
  refine coalesced 1 2 0 1 (by simpa using first) ?_ (by rw [size])
  rw [Function.iterate_succ_apply', Function.iterate_one, first, second]

end Ucore.DefaultPmm
