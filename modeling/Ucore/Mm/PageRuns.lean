import Ucore.Mm.FirstFit
import Ucore.Library.Transition

/-!
# Runs of the page allocator

A run starts after `default_init` on any memory and continues with
`default_init_memmap` of regions of the page array, `default_alloc_pages` and
`default_free_pages` of live allocations. The system state adds to the
allocator's memory the regions and the live allocations of the run so far.

The free list, the live allocations and the managed regions stay consistent in
every run that never appends to a nonempty free list. The branch that appends
links the new last entry to itself: its predecessor field names the entry
itself, so a later removal of the entry leaves it reachable.
-/

namespace Ucore.DefaultPmm

open CircularList EmbeddedList Spans Transition

/-- The page array of a machine. `page_init` builds one descriptor for each page
of physical memory, far fewer than an `unsigned int` can count. -/
structure Machine where
  npage : Nat
  addressable : npage < 2 ^ 32

inductive Operation where
  | initMemmap (base n : Nat)
  | allocPages (n : Nat)
  | freePages (base n : Nat)

/-- The allocator's memory, the regions handed to it and the live allocations. -/
structure System where
  area : FreeArea
  managed : List Span
  live : List Span

/-- The state after `default_init` on an arbitrary memory. -/
def boot (area : FreeArea) : System := { area := defaultInit area, managed := [], live := [] }

/-- One operation. Regions outside the page array and blocks that are not live
with the given size are not passed to the allocator. -/
def step (machine : Machine) (system : System) : Operation → Option System
  | .initMemmap base n =>
      if base + n ≤ machine.npage then
        (defaultInitMemmap machine.npage base n system.area).map fun area =>
          { system with area := area, managed := ⟨base, n⟩ :: system.managed }
      else none
  | .allocPages n =>
      (defaultAllocPages machine.npage n system.area).map fun result =>
        match result.1 with
        | none => { system with area := result.2 }
        | some page => { system with area := result.2, live := ⟨page, n⟩ :: system.live }
  | .freePages base n =>
      if ⟨base, n⟩ ∈ system.live then
        (defaultFreePages machine.npage base n system.area).map fun area =>
          { system with area := area, live := system.live.erase ⟨base, n⟩ }
      else none

/-- The operation inserts no block behind the last entry of a nonempty free list. -/
def AvoidsTail (system : System) : Operation → Prop
  | .initMemmap base _ => InsertsBefore system.area.links base
  | .allocPages _ => True
  | .freePages base _ => InsertsBefore system.area.links base

/-- The free list represents `blocks`; together with the live allocations they
divide the managed pages. -/
structure Consistent (machine : Machine) (system : System) (blocks : List Span) : Prop where
  represented : Represents (Covered system.managed) system.area blocks
  ordered : Ordered blocks
  livePositive : ∀ block ∈ system.live, 0 < block.size
  liveApart : system.live.Pairwise Apart
  apart : ∀ block ∈ blocks, ∀ taken ∈ system.live, Apart block taken
  divided : ∀ page, Covered system.managed page ↔ Covered blocks page ∨ Covered system.live page
  bounded : ∀ page, Covered system.managed page → page < machine.npage

/-- A listed block lies inside the page array. -/
theorem Consistent.stop_le {machine : Machine} {system : System} {blocks : List Span}
    (consistent : Consistent machine system blocks) {block : Span} (member : block ∈ blocks) :
    block.stop ≤ machine.npage := by
  have positive := consistent.ordered.positive block member
  have lastCovered : block.Covers (block.stop - 1) := by
    simp only [Span.Covers, Span.stop]
    omega
  have inArray := consistent.bounded _ ((consistent.divided _).mpr (Or.inl ⟨block, member, lastCovered⟩))
  omega

/-- The free list is shorter than the page array and its total is no larger. -/
theorem Consistent.total_le {machine : Machine} {system : System} {blocks : List Span}
    (consistent : Consistent machine system blocks) :
    total blocks ≤ machine.npage ∧ blocks.length ≤ machine.npage := by
  have size := consistent.ordered.total_le 0 machine.npage
    (fun block member => ⟨Nat.zero_le _, consistent.stop_le member⟩) (Nat.zero_le _)
  have length : blocks.length ≤ total blocks := by
    have counted := List.length_le_sum_of_one_le (blocks.map Span.size) (by
      intro size member
      obtain ⟨block, listed, rfl⟩ := List.mem_map.mp member
      exact consistent.ordered.positive block listed)
    simpa [total] using counted
  omega

/-- A block of the array apart from the free list can be counted together with it. -/
theorem Consistent.room {machine : Machine} {system : System} {blocks : List Span} {base n : Nat}
    (consistent : Consistent machine system blocks) (positive : 0 < n)
    (apart : ∀ other ∈ blocks, Apart ⟨base, n⟩ other) (inArray : base + n ≤ machine.npage) :
    total blocks + n < 2 ^ 32 := by
  obtain ⟨before, after, rfl, _, sorted⟩ := place_ordered consistent.ordered positive apart
  have bound := sorted.total_le 0 machine.npage (by
    intro block member
    refine ⟨Nat.zero_le _, ?_⟩
    rcases List.mem_append.mp member with inBefore | inRest
    · exact consistent.stop_le (List.mem_append_left _ inBefore)
    · rcases List.mem_cons.mp inRest with rfl | inAfter
      · exact inArray
      · exact consistent.stop_le (List.mem_append_right _ inAfter)) (Nat.zero_le _)
  have addressable := machine.addressable
  simp only [total_append, total_cons] at bound ⊢
  omega

theorem boot_consistent (machine : Machine) (area : FreeArea) :
    Consistent machine (boot area) [] where
  represented :=
    { ring := listInit_ring _ _
      stored := by simp
      counted := rfl
      heads := fun page covered => absurd covered (covered_nil page)
      usable := fun page covered => absurd covered (covered_nil page) }
  ordered := ordered_nil
  livePositive := by simp [boot]
  liveApart := List.Pairwise.nil
  apart := by simp
  divided := by simp [boot]
  bounded := fun page covered => absurd covered (covered_nil page)

/-- A region accepted by `default_init_memmap` has no managed page: managed pages
are not reserved any more. -/
theorem region_apart {machine : Machine} {system : System} {blocks : List Span} {base n : Nat}
    {area : FreeArea} (consistent : Consistent machine system blocks)
    (completed : defaultInitMemmap machine.npage base n system.area = some area) :
    ∀ page, (⟨base, n⟩ : Span).Covers page → ¬ Covered system.managed page := by
  intro page inRegion inManaged
  have reserved := (defaultInitMemmap_reserved completed).2 page inRegion.1 inRegion.2
  rw [consistent.represented.usable page inManaged] at reserved
  exact absurd reserved (by simp)

/-- Initialising a region keeps the invariant; the region enters the list as it is. -/
theorem initMemmap_consistent {machine : Machine} {system next : System} {blocks : List Span}
    {base n : Nat} (consistent : Consistent machine system blocks)
    (avoids : AvoidsTail system (.initMemmap base n))
    (taken : step machine system (.initMemmap base n) = some next) :
    ∃ before after, blocks = before ++ after ∧ Consistent machine next (before ++ ⟨base, n⟩ :: after) ∧
      next.managed = ⟨base, n⟩ :: system.managed ∧ next.live = system.live := by
  simp only [step] at taken
  split at taken
  · rename_i inArray
    obtain ⟨area, completed, rfl⟩ := Option.map_eq_some_iff.mp taken
    obtain ⟨positive, reserved⟩ := defaultInitMemmap_reserved completed
    have fresh := region_apart consistent completed
    have apartBlocks : ∀ other ∈ blocks, Apart ⟨base, n⟩ other := fun other member page inRegion inOther =>
      fresh page inRegion ((consistent.divided page).mpr (Or.inl ⟨other, member, inOther⟩))
    have apartLive : ∀ taken ∈ system.live, Apart ⟨base, n⟩ taken := fun taken member page inRegion inTaken =>
      fresh page inRegion ((consistent.divided page).mpr (Or.inr ⟨taken, member, inTaken⟩))
    have small := consistent.room positive apartBlocks inArray
    obtain ⟨before, after, result, rfl, sorted, returned, represented⟩ :=
      defaultInitMemmap_refines ⟨base, n⟩ consistent.represented consistent.ordered positive
        apartBlocks small avoids consistent.total_le.2 (fun page inside => reserved page inside.1 inside.2)
    obtain rfl : result = area := Option.some.inj (returned.symm.trans completed)
    refine ⟨before, after, rfl, ⟨?_, sorted, consistent.livePositive, consistent.liveApart, ?_, ?_, ?_⟩,
      rfl, rfl⟩
    · have same : (fun page => Covered system.managed page ∨ (⟨base, n⟩ : Span).Covers page) =
          Covered (⟨base, n⟩ :: system.managed) := by
        funext page
        rw [covered_cons, or_comm]
      rwa [same] at represented
    · intro block member
      rcases List.mem_append.mp member with inBefore | inRest
      · exact consistent.apart block (List.mem_append_left _ inBefore)
      · rcases List.mem_cons.mp inRest with rfl | inAfter
        · exact apartLive
        · exact consistent.apart block (List.mem_append_right _ inAfter)
    · intro page
      have old := consistent.divided page
      simp only [covered_append, covered_cons] at old ⊢
      grind
    · intro page covered
      rcases (covered_cons _ _ _).mp covered with inRegion | inManaged
      · exact Nat.lt_of_lt_of_le inRegion.2 inArray
      · exact consistent.bounded page inManaged
  · cases taken

/-- An allocation keeps the invariant and acts on the list as the abstract one. -/
theorem allocPages_consistent {machine : Machine} {system next : System} {blocks : List Span} {n : Nat}
    (consistent : Consistent machine system blocks)
    (taken : step machine system (.allocPages n) = some next) :
    Consistent machine next (afterAlloc n blocks) ∧ next.managed = system.managed := by
  simp only [step] at taken
  obtain ⟨⟨page, area⟩, completed, rfl⟩ := Option.map_eq_some_iff.mp taken
  have positive : 0 < n := by
    by_contra empty
    simp [defaultAllocPages, show n = 0 by omega] at completed
  obtain ⟨result, returned, represented⟩ := defaultAllocPages_refines consistent.represented
    consistent.ordered positive consistent.total_le.2
  rw [returned] at completed
  obtain ⟨rfl, rfl⟩ := Prod.mk.inj (Option.some.inj completed)
  cases found : takeFirst n blocks with
  | none =>
    have same : afterAlloc n blocks = blocks := by simp [afterAlloc, found]
    rw [same] at represented ⊢
    exact ⟨⟨represented, consistent.ordered, consistent.livePositive, consistent.liveApart,
      consistent.apart, consistent.divided, consistent.bounded⟩, rfl⟩
  | some chosen =>
    obtain ⟨page, rest⟩ := chosen
    have same : afterAlloc n blocks = rest := by simp [afterAlloc, found]
    rw [same] at represented ⊢
    obtain ⟨before, block, after, rfl, fits, rfl, rfl, _⟩ := takeFirst_split found
    have ordered := consistent.ordered
    have whole : ∀ point, (⟨block.start, n⟩ : Span).Covers point → block.Covers point :=
      fun point inside => (remainder_covered fits point).mpr (Or.inl inside)
    have apartLive : ∀ live ∈ system.live, Apart ⟨block.start, n⟩ live := fun live member =>
      (consistent.apart block (by simp) live member).mono whole
    have others : ∀ other ∈ before ++ (remainder n block ++ after), Apart other ⟨block.start, n⟩ := by
      intro other member point inOther inTaken
      simp only [List.mem_append] at member
      rcases member with inBefore | inRemainder | inAfter
      · obtain rfl := ordered.covers_unique (by simp [inBefore]) (by simp) inOther (whole point inTaken)
        exact start_not_mem ordered (List.mem_map.mpr ⟨other, by simp [inBefore], rfl⟩)
      · exact remainder_apart point inTaken ⟨other, inRemainder, inOther⟩
      · obtain rfl := ordered.covers_unique (by simp [inAfter]) (by simp) inOther (whole point inTaken)
        exact start_not_mem ordered (List.mem_map.mpr ⟨other, by simp [inAfter], rfl⟩)
    refine ⟨⟨represented, remainder_ordered ordered positive, ?_, ?_, ?_, ?_, consistent.bounded⟩, rfl⟩
    · intro live member
      rcases List.mem_cons.mp member with rfl | member
      · exact positive
      · exact consistent.livePositive live member
    · exact List.pairwise_cons.mpr ⟨apartLive, consistent.liveApart⟩
    · intro other member live liveMember
      rcases List.mem_cons.mp liveMember with rfl | liveMember
      · exact others other member
      · intro point inOther inLive
        simp only [List.mem_append] at member
        rcases member with inBefore | inRemainder | inAfter
        · exact consistent.apart other (by simp [inBefore]) live liveMember point inOther inLive
        · exact consistent.apart block (by simp) live liveMember point
            ((remainder_covered fits point).mpr (Or.inr ⟨other, inRemainder, inOther⟩)) inLive
        · exact consistent.apart other (by simp [inAfter]) live liveMember point inOther inLive
    · intro point
      have old := consistent.divided point
      have split := remainder_covered fits point
      simp only [covered_append, covered_cons, Option.map_some] at old split ⊢
      grind

/-- Freeing a live block keeps the invariant and releases the block. -/
theorem freePages_consistent {machine : Machine} {system next : System} {blocks : List Span}
    {base n : Nat} (consistent : Consistent machine system blocks)
    (avoids : AvoidsTail system (.freePages base n))
    (taken : step machine system (.freePages base n) = some next) :
    ∃ before after, blocks = before ++ after ∧ Ordered (before ++ ⟨base, n⟩ :: after) ∧
      Consistent machine next (release before ⟨base, n⟩ after) ∧ next.managed = system.managed := by
  simp only [step] at taken
  split at taken
  · rename_i live
    obtain ⟨area, completed, rfl⟩ := Option.map_eq_some_iff.mp taken
    have positive : 0 < n := consistent.livePositive _ live
    have apartBlocks : ∀ other ∈ blocks, Apart ⟨base, n⟩ other := fun other member =>
      (consistent.apart other member _ live).symm
    have known : ∀ page, (⟨base, n⟩ : Span).Covers page → Covered system.managed page :=
      fun page inside => (consistent.divided page).mpr (Or.inr ⟨_, live, inside⟩)
    have inArray : base + n ≤ machine.npage := by
      have inside := consistent.bounded (base + n - 1) (known _ (by
        simp only [Span.Covers, Span.stop]
        omega))
      omega
    have small := consistent.room positive apartBlocks inArray
    obtain ⟨before, after, result, rfl, sorted, returned, represented⟩ :=
      defaultFreePages_refines ⟨base, n⟩ consistent.represented consistent.ordered positive
        apartBlocks small avoids consistent.total_le.2 known
    obtain rfl : result = area := Option.some.inj (returned.symm.trans completed)
    obtain ⟨releasedOrdered, releasedCovered⟩ := release_facts sorted
    have removed := List.perm_cons_erase live
    have pairwise := removed.pairwise consistent.liveApart Apart.symm
    obtain ⟨apartRest, restApart⟩ := List.pairwise_cons.mp pairwise
    have stillLive : ∀ other ∈ system.live.erase ⟨base, n⟩, other ∈ system.live := fun other member =>
      List.mem_of_mem_erase member
    refine ⟨before, after, rfl, sorted, ⟨represented, releasedOrdered, ?_, restApart, ?_, ?_,
      consistent.bounded⟩, rfl⟩
    · exact fun other member => consistent.livePositive other (stillLive other member)
    · intro block member other otherLive point inBlock inOther
      have covered := (releasedCovered point).mp ⟨block, member, inBlock⟩
      simp only [covered_append, covered_cons] at covered
      rcases covered with ⟨free, listed, inFree⟩ | inFreed | ⟨free, listed, inFree⟩
      · exact consistent.apart free (by simp [listed]) other (stillLive other otherLive) point inFree inOther
      · exact apartRest other otherLive point inFreed inOther
      · exact consistent.apart free (by simp [listed]) other (stillLive other otherLive) point inFree inOther
    · intro point
      have old := consistent.divided point
      have now := releasedCovered point
      have split : Covered system.live point ↔
          (⟨base, n⟩ : Span).Covers point ∨ Covered (system.live.erase ⟨base, n⟩) point := by
        rw [← covered_cons]
        exact ⟨fun ⟨other, member, inside⟩ => ⟨other, removed.mem_iff.mp member, inside⟩,
          fun ⟨other, member, inside⟩ => ⟨other, removed.mem_iff.mpr member, inside⟩⟩
      simp only [covered_append, covered_cons] at old now ⊢
      grind
  · cases taken

/-- Every operation that does not append keeps some consistent block list. -/
theorem step_consistent {machine : Machine} (system : System) (operation : Operation) (next : System)
    (consistent : ∃ blocks, Consistent machine system blocks) (avoids : AvoidsTail system operation)
    (taken : step machine system operation = some next) :
    ∃ blocks, Consistent machine next blocks := by
  obtain ⟨blocks, consistent⟩ := consistent
  cases operation with
  | initMemmap base n =>
    obtain ⟨before, after, _, kept, _⟩ := initMemmap_consistent consistent avoids taken
    exact ⟨_, kept⟩
  | allocPages n => exact ⟨_, (allocPages_consistent consistent taken).1⟩
  | freePages base n =>
    obtain ⟨before, after, _, _, kept, _⟩ := freePages_consistent consistent avoids taken
    exact ⟨_, kept⟩

/-- The invariant holds in every state of a run that never appends. -/
theorem reached_consistent {machine : Machine} {area : FreeArea} {system : System}
    (reached : Reaches (step machine) AvoidsTail (boot area) system) :
    ∃ blocks, Consistent machine system blocks :=
  reached.invariant ⟨[], boot_consistent machine area⟩ step_consistent

end Ucore.DefaultPmm
