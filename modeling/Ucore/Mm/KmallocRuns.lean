import Ucore.Mm.Kmalloc

/-!
# Runs of `kmalloc` and `kfree`

Every call leaves the blocks in order, whatever the size, so every state that calls reach
has them in order. `kfree` finds the note of pages and frees both; any other address that it
gets is behind the header of a small block, even if the address is the start of a page.
-/

namespace Ucore.Slob

open LinkedRing Spans DefaultPmm Transition

variable {arena : Nat} {allocator : Nat → Option Nat} {heap next : Heap} {state last : State}
  {free smalls slabs places : List Span} {size : BitVec 64} {region : Span} {operations : List Operation}

/-! ## `kfree` -/

/-- A region and its place, apart from the other ones. -/
theorem split_lies {live : List Span} (lies : List.Forall₂ Lies live places) (member : region ∈ live) :
    ∃ place front back, Lies region place ∧ places = front ++ place :: back ∧
      List.Forall₂ Lies (live.erase region) (front ++ back) := by
  induction lies with
  | nil => exact absurd member List.not_mem_nil
  | @cons head place live places here rest ih =>
    by_cases same : head = region
    · subst same
      rw [List.erase_cons_head]
      exact ⟨place, [], places, here, rfl, rest⟩
    · have inTail := (List.mem_cons.mp member).resolve_left (Ne.symm same)
      obtain ⟨found, front, back, lies', rfl, others⟩ := ih inTail
      rw [List.erase_cons_tail (by simpa using same)]
      exact ⟨found, place :: front, back, lies', rfl, List.Forall₂.cons here others⟩

/-- A small region does not start where noted pages start. -/
theorem StateOk.small_not_noted (ok : StateOk arena state free smalls slabs places) {b : Span} (member : b ∈ smalls) :
    ∀ note ∈ state.heap.bigblocks, note.pages ≠ b.start + slobUnit := by
  intro note isNote same
  have apart := (ok.heap.other_apart (List.mem_map_of_mem isNote)).2 b (List.mem_append_left _ member)
  have large := ok.heap.large b (List.mem_append_left _ member)
  refine apart note.pages (Span.covers_start ?_) ?_
  · exact Nat.mul_pos (by decide) (Nat.two_pow_pos _)
  · simp only [Span.Covers, Span.stop, same]
    omega

/-- `kfree` of a small region. -/
theorem StateOk.kfreeSmall (ok : StateOk arena state free smalls slabs places) {b : Span} {left right : List Span}
    (split : smalls = left ++ b :: right) :
    ∃ next free', Returns (fun rounds => kfree rounds state.heap (b.start + slobUnit)) next ∧
      HeapOk arena next free' ((left ++ right) ++ next.bigblocks.map Bigblock.block) slabs
        (next.bigblocks.map Bigblock.region) ∧
      Sized next (left ++ right) ∧ next.bigblocks = state.heap.bigblocks := by
  have member : b ∈ smalls := split ▸ by simp
  have front := ok.heap.perm (show _ from (split ▸ List.perm_middle.append_right _ :
    (smalls ++ state.heap.bigblocks.map Bigblock.block).Perm
      ((b :: (left ++ right)) ++ state.heap.bigblocks.map Bigblock.block)))
  rw [List.cons_append] at front
  obtain ⟨next, free', returns, ok', sameBig, same⟩ := front.freeBlock 0 (ok.sized b member)
  refine ⟨next, free', ?_, sameBig.symm ▸ ok', fun x isOther => ?_, sameBig⟩
  · have absent : (if (b.start + slobUnit) % pageSize = 0 then
        state.heap.bigblocks.find? (·.pages = b.start + slobUnit) else none) = none := by
      split
      · refine List.find?_eq_none.mpr fun note isNote => ?_
        simpa using ok.small_not_noted member note isNote
      · rfl
    have nonzero : b.start + slobUnit ≠ 0 := Nat.succ_ne_zero _
    simp only [kfree, if_neg nonzero, absent, Nat.add_sub_cancel]
    exact returns
  · have wasSmall : x ∈ smalls := by
      rw [split]
      simp only [List.mem_append, List.mem_cons] at isOther ⊢
      tauto
    exact (ok.sized x wasSmall).trans (congrArg (slobUnit * ·) (same x (List.mem_append_left _ isOther)).symm)

/-- `kfree` of noted pages. -/
theorem StateOk.kfreeLarge (ok : StateOk arena state free smalls slabs places) {note : Bigblock} {left right : List Bigblock}
    (split : state.heap.bigblocks = left ++ note :: right) :
    ∃ next free', Returns (fun rounds => kfree rounds state.heap note.pages) next ∧
      HeapOk arena next free' (smalls ++ next.bigblocks.map Bigblock.block) slabs (next.bigblocks.map Bigblock.region) ∧
      Sized next smalls ∧ next.bigblocks = left ++ right := by
  have member : note ∈ state.heap.bigblocks := split ▸ by simp
  have clear := ok.heap.other_clear (List.mem_map_of_mem (f := Bigblock.region) member)
  -- no other note has these pages
  have absent : ∀ other ∈ left, other.pages ≠ note.pages := by
    intro other isLeft same
    have apart := ok.heap.distinct_parts.2.1
    rw [split, List.map_append, List.map_cons] at apart
    have apart' := (List.pairwise_append.mp apart).2.2 other.region (List.mem_map_of_mem isLeft) note.region List.mem_cons_self
    refine apart' note.pages ?_ (Span.covers_start clear.1)
    rw [← same]
    exact Span.covers_start (show 0 < other.region.size from Nat.mul_pos (by decide) (Nat.two_pow_pos _))
  have found : state.heap.bigblocks.find? (·.pages = note.pages) = some note := by
    rw [split, List.find?_append, List.find?_eq_none.mpr fun other isLeft => by simpa using absent other isLeft]
    simp
  have removed : state.heap.bigblocks.eraseP (·.pages = note.pages) = left ++ right := by
    rw [split, List.eraseP_append_right _ fun other isLeft => by simpa using absent other isLeft]
    simp
  have front : HeapOk arena state.heap free (note.block :: (smalls ++ (left ++ right).map Bigblock.block)) slabs
      (note.region :: (left ++ right).map Bigblock.region) := by
    have whole := ok.heap
    rw [split] at whole
    refine (whole.perm ?_).perm_others ?_
    · rw [List.map_append, List.map_cons, List.map_append, ← List.append_assoc, ← List.append_assoc]
      exact List.perm_middle
    · rw [List.map_append, List.map_cons, List.map_append]
      exact List.perm_middle
  have given := front.giveBack.others_unused (left ++ right)
  obtain ⟨next, free', returns, ok', sameBig, same⟩ := given.freeBlock bigblockSize rfl
  refine ⟨next, free', ?_, sameBig.symm ▸ ok', fun x isSmall => ?_, sameBig⟩
  · have nonzero : note.pages ≠ 0 := clear.2.1
    have aligned : note.pages % pageSize = 0 := clear.2.2.1
    simp only [kfree, if_neg nonzero, if_pos aligned, found, removed]
    exact returns
  · exact (ok.sized x isSmall).trans (congrArg (slobUnit * ·) (same x (List.mem_append_left _ isSmall)).symm)

/-! ## Every state -/

/-- `kfree` of a region that a caller has returns. -/
theorem StateOk.kfree (ok : StateOk arena state free smalls slabs places) (member : region ∈ state.live) :
    ∃ next, Returns (fun rounds => kfree rounds state.heap region.start) next ∧
      ∃ free smalls slabs places, StateOk arena ⟨next, state.live.erase region⟩ free smalls slabs places := by
  obtain ⟨place, front, back, ⟨isStart, _⟩, rfl, others⟩ := split_lies ok.lies member
  have perm := List.perm_middle.symm.trans ok.perm
  rcases List.mem_append.mp (perm.subset List.mem_cons_self) with isSmall | isLarge
  · obtain ⟨b, isBlock, rfl⟩ := List.mem_map.mp isSmall
    obtain ⟨left, right, rfl⟩ := List.append_of_mem isBlock
    obtain ⟨next, free', returns, ok', sized, sameBig⟩ := ok.kfreeSmall rfl
    rw [isStart]
    refine ⟨next, returns, free', left ++ right, slabs, front ++ back, ok', sized, ?_, others⟩
    rw [List.map_append, List.map_cons, List.append_assoc, List.cons_append] at perm
    have rest := (perm.trans List.perm_middle).cons_inv
    rw [List.map_append, List.append_assoc, sameBig]
    exact rest
  · obtain ⟨note, isNote, rfl⟩ := List.mem_map.mp isLarge
    obtain ⟨left, right, split⟩ := List.append_of_mem isNote
    obtain ⟨next, free', returns, ok', sized, sameBig⟩ := ok.kfreeLarge split
    rw [isStart]
    refine ⟨next, returns, free', smalls, slabs, front ++ back, ok', sized, ?_, others⟩
    rw [split, List.map_append, List.map_cons, ← List.append_assoc] at perm
    have rest := (perm.trans List.perm_middle).cons_inv
    rw [sameBig, List.map_append, ← List.append_assoc]
    exact rest

/-- The assertion of `slob_alloc` fails for the argument of `__kmalloc`, and it does not return. -/
theorem kmalloc_asserts (small : size.toNat < pageSize - slobUnit) (large : pageSize ≤ size.toNat + slobUnit + slobUnit)
    (rounds : Nat) : kmalloc arena allocator rounds heap size = none := by
  simp only [kmalloc, if_pos small, slobAlloc, if_neg (Nat.not_lt_of_le large), Option.map_none]

/-- `kmalloc` returns, unless the assertion of `slob_alloc` fails. -/
theorem StateOk.kmalloc (ok : StateOk arena state free smalls slabs places) (allocator : Nat → Option Nat)
    (positive : 0 < size.toNat) (bound : size.toNat < pageSize - slobUnit → size.toNat + slobUnit + slobUnit < pageSize) :
    ∃ answer next, Returns (fun rounds => kmalloc arena allocator rounds state.heap size) (answer, next) ∧
      ∃ free smalls slabs places,
        StateOk arena ⟨next, (answer.toList.map fun block => ⟨block, size.toNat⟩) ++ state.live⟩ free smalls slabs places := by
  by_cases small : size.toNat < pageSize - slobUnit
  · exact ok.kmallocSmall allocator positive small (bound small)
  · exact ok.kmallocLarge allocator small

/-- A call that returns from `kmalloc` passed the assertion. -/
theorem kmalloc_passes {answer : Option Nat × Heap}
    (returns : Returns (fun rounds => kmalloc arena allocator rounds heap size) answer) (small : size.toNat < pageSize - slobUnit) : size.toNat + slobUnit + slobUnit < pageSize := by
  obtain ⟨enough, exact⟩ := returns
  by_contra large
  have failed := exact enough (Nat.le_refl _)
  simp only [kmalloc_asserts small (Nat.le_of_not_lt large), reduceCtorEq] at failed

/-- One call keeps the blocks in order. -/
theorem Step.ok {operation : Operation} (taken : Step arena allocator state operation last)
    (ok : StateOk arena state free smalls slabs places) :
    ∃ free smalls slabs places, StateOk arena last free smalls slabs places := by
  cases taken with
  | @kmalloc size next block positive returns =>
    obtain ⟨answer, heap, returns', ok'⟩ := ok.kmalloc allocator positive (kmalloc_passes returns)
    obtain ⟨rfl, rfl⟩ := Prod.mk.inj (returns.unique returns')
    exact ok'
  | @full size next positive returns =>
    obtain ⟨answer, heap, returns', ok'⟩ := ok.kmalloc allocator positive (kmalloc_passes returns)
    obtain ⟨rfl, rfl⟩ := Prod.mk.inj (returns.unique returns')
    exact ok'
  | @kfree region next live returns =>
    obtain ⟨heap, returns', ok'⟩ := ok.kfree live
    obtain rfl := returns.unique returns'
    exact ok'

/-- So does every run. -/
theorem Run.ok (run : Run arena allocator operations state) :
    ∃ free smalls slabs places, StateOk arena state free smalls slabs places := by
  induction run with
  | start => exact ⟨_, _, _, _, initial_ok arena⟩
  | step _ taken ih =>
    obtain ⟨free, smalls, slabs, places, ok⟩ := ih
    exact taken.ok ok

/-! ## The two checks of the boundary -/

/-- The size that `__kmalloc` sends to `slob_alloc`. -/
def slobSize (size : BitVec 64) : Nat := if size.toNat < pageSize - slobUnit then size.toNat + slobUnit else bigblockSize

/-- The pages for a size fit into an `int` as well. -/
theorem findOrder_bound (size : Int) (large : 4096 < size) : 4096 * 2 ^ findOrder size < 2 * size.toNat := by
  induction size using findOrder.induct with
  | case1 size isLarge ih =>
    rw [findOrder, if_pos isLarge, Nat.pow_succ]
    by_cases half : 4096 < size / 2
    · have below := ih half
      omega
    · rw [findOrder, if_neg half]
      omega
  | case2 size isSmall => exact absurd large isSmall

/-- `kmalloc` returns a pointer or `NULL`, the assertion of `slob_alloc` holds for the size that it
gets, and neither the size nor the number of pages of a large allocation loses bits as an `int`. -/
def NeverFails (arena : Nat) (allocator : Nat → Option Nat) (heap : Heap) (size : BitVec 64) : Prop :=
  (∃ answer next, Returns (fun rounds => kmalloc arena allocator rounds heap size) (answer, next)) ∧
    slobSize size + slobUnit < pageSize ∧
    (pageSize - slobUnit ≤ size.toNat → narrow size = size.toNat ∧ 2 ^ findOrder (narrow size) < 2 ^ 31)

/-- In every state that calls reach, `kmalloc` fails for the sizes between the two bounds, and it takes
a size from 2 ^ 31 on for another one. -/
theorem kmalloc_never_fails_exact {arena : Nat} {allocator : Nat → Option Nat} {operations : List Operation} {state : State}
    (run : Run arena allocator operations state) (size : BitVec 64) (positive : 0 < size.toNat) :
    NeverFails arena allocator state.heap size ↔
      size.toNat < pageSize - 2 * slobUnit ∨ pageSize - slobUnit ≤ size.toNat ∧ size.toNat < 2 ^ 31 := by
  obtain ⟨free, smalls, slabs, places, ok⟩ := run.ok
  constructor
  · rintro ⟨_, passes, exact⟩
    by_cases small : size.toNat < pageSize - slobUnit
    · rw [slobSize, if_pos small] at passes
      left
      simp only [pageSize, slobUnit] at passes ⊢
      omega
    · right
      have same := (exact (Nat.le_of_not_lt small)).1
      have below : narrow size < 2 ^ 31 := BitVec.toInt_lt
      refine ⟨Nat.le_of_not_lt small, ?_⟩
      omega
  · intro condition
    have bound : size.toNat < pageSize - slobUnit → size.toNat + slobUnit + slobUnit < pageSize := by
      intro small
      simp only [pageSize, slobUnit] at condition small ⊢
      omega
    obtain ⟨answer, next, returns, _⟩ := ok.kmalloc allocator positive bound
    refine ⟨⟨answer, next, returns⟩, ?_, fun large => ?_⟩
    · unfold slobSize
      split
      · rename_i small
        exact bound small
      · decide
    · have small : size.toNat < 2 ^ 31 := by
        simp only [pageSize, slobUnit] at condition large
        omega
      rw [narrow_exact small]
      refine ⟨rfl, ?_⟩
      by_cases isLarge : (4096 : Int) < size.toNat
      · have below := findOrder_bound size.toNat isLarge
        omega
      · rw [findOrder, if_neg isLarge]
        decide

/-- After one allocation the smallest size of pages is served. -/
theorem kmalloc_never_fails_page : ∃ state, Run 4096 (fun _ => some 65536) [.kmalloc 100] state ∧
    NeverFails 4096 (fun _ => some 65536) state.heap 4080 := by
  have initially : Run 4096 (fun _ => some 65536) [] ⟨initialHeap 4096, []⟩ := Run.start
  obtain ⟨⟨answer, next, returns⟩, _⟩ := (kmalloc_never_fails_exact initially 100 (by decide)).mpr (Or.inl (by decide))
  cases answer with
  | none =>
    have run := initially.step (Step.full (by decide) returns)
    exact ⟨_, run, (kmalloc_never_fails_exact run 4080 (by decide)).mpr (Or.inr (by decide))⟩
  | some block =>
    have run := initially.step (Step.kmalloc (by decide) returns)
    exact ⟨_, run, (kmalloc_never_fails_exact run 4080 (by decide)).mpr (Or.inr (by decide))⟩

/-- `kmalloc(4064)` fails the assertion, in the first state already. -/
theorem kmalloc_asserts_between : Run 4096 (fun _ => some 65536) [] ⟨initialHeap 4096, []⟩ ∧
    (∀ rounds, kmalloc 4096 (fun _ => some 65536) rounds (initialHeap 4096) 4064 = none) ∧
      ¬ NeverFails 4096 (fun _ => some 65536) (initialHeap 4096) 4064 := by
  refine ⟨Run.start, kmalloc_asserts (by decide) (by decide), ?_⟩
  rintro ⟨_, passes, _⟩
  revert passes
  decide

/-! ## The regions of the callers -/

/-- No region of a caller shares a byte with another one, with a free block or with a page that
the heap gave back. -/
structure Sound (arena : Nat) (state : State) : Prop where
  apart : state.live.Pairwise Apart
  unfree : ∃ free, FreeRing arena state.heap free ∧ ∀ region ∈ state.live, ∀ x ∈ free, Apart region x
  held : ∀ region ∈ state.live, ∀ point, region.Covers point → Covered state.heap.given point

/-- `find_order` halves until at most 4096 is left, and drops the rest of each division. -/
theorem findOrder_above (size : Int) : size.toNat < 4097 * 2 ^ findOrder size := by
  induction size using findOrder.induct with
  | case1 size isLarge ih =>
    rw [findOrder, if_pos isLarge, Nat.pow_succ]
    omega
  | case2 size isSmall =>
    rw [findOrder, if_neg isSmall]
    omega

/-- Sizes without a rest. -/
def Divides (size : Nat) : Prop :=
  size < pageSize - slobUnit ∨ size < 2 ^ 31 ∧ ∀ order, 4096 * 2 ^ order < size → 4097 * 2 ^ order ≤ size

theorem Divides.roomy {size : Nat} (divides : Divides size) : Roomy size := by
  refine divides.imp_right fun ⟨small, rest⟩ => ⟨small, ?_⟩
  by_contra large
  have above := rest _ (Nat.lt_of_not_le large)
  have below := findOrder_above size
  rw [Int.toNat_natCast] at below
  exact Nat.not_lt_of_le above below

/-- The regions have the sizes that were asked for. -/
theorem Run.sizes (run : Run arena allocator operations state) (member : region ∈ state.live) :
    ∃ size, .kmalloc size ∈ operations ∧ region.size = size.toNat := by
  induction run with
  | start => exact absurd member List.not_mem_nil
  | step _ taken ih =>
    have earlier : ∀ {operations : List Operation} {operation : Operation},
        (∃ size, .kmalloc size ∈ operations ∧ region.size = size.toNat) →
        ∃ size, .kmalloc size ∈ operations ++ [operation] ∧ region.size = size.toNat := by
      rintro operations operation ⟨size, asked, isSize⟩
      exact ⟨size, List.mem_append_left _ asked, isSize⟩
    cases taken with
    | @kmalloc size next block positive returns =>
      rcases List.mem_cons.mp member with rfl | isOld
      · exact ⟨size, List.mem_append_right _ (List.mem_singleton.mpr rfl), rfl⟩
      · exact earlier (ih isOld)
    | full positive returns => exact earlier (ih member)
    | kfree live returns => exact earlier (ih (List.mem_of_mem_erase member))

/-- The span has the points of the other one. -/
def Inside (part whole : Span) : Prop := ∀ point, part.Covers point → whole.Covers point

/-- Parts of spans that share no point share none. -/
theorem parts_apart {parts wholes : List Span} (inside : List.Forall₂ Inside parts wholes)
    (apart : wholes.Pairwise Apart) : parts.Pairwise Apart ∧ ∀ part ∈ parts, ∃ whole ∈ wholes, Inside part whole := by
  induction inside with
  | nil => exact ⟨List.Pairwise.nil, by simp⟩
  | @cons part whole parts wholes here rest ih =>
    obtain ⟨first, others⟩ := List.pairwise_cons.mp apart
    obtain ⟨restApart, restInside⟩ := ih others
    constructor
    · refine List.pairwise_cons.mpr ⟨fun other member => ?_, restApart⟩
      obtain ⟨around, aroundMember, inOther⟩ := restInside other member
      exact (((first around aroundMember).mono here).symm.mono inOther).symm
    · refine List.forall_mem_cons.mpr ⟨⟨whole, List.mem_cons_self, here⟩, fun other member => ?_⟩
      obtain ⟨around, aroundMember, inOther⟩ := restInside other member
      exact ⟨around, List.mem_cons_of_mem _ aroundMember, inOther⟩

/-- Regions for which there is room lie inside their places. -/
theorem lies_inside {live : List Span} (lies : List.Forall₂ Lies live places)
    (roomy : ∀ region ∈ live, Roomy region.size) : List.Forall₂ Inside live places := by
  induction lies with
  | nil => exact List.Forall₂.nil
  | cons here rest ih =>
    obtain ⟨first, others⟩ := List.forall_mem_cons.mp roomy
    refine List.Forall₂.cons (fun point covers => ?_) (ih others)
    have fits := here.size first
    have same := here.start
    simp only [Span.Covers, Span.stop] at covers ⊢
    omega

/-- The places of the regions share no point, with each other or with free blocks, and lie in given pages. -/
theorem StateOk.places_sound (ok : StateOk arena state free smalls slabs places) :
    places.Pairwise Apart ∧ (∀ place ∈ places, ∀ x ∈ free, Apart place x) ∧
      ∀ place ∈ places, ∀ point, place.Covers point → Covered state.heap.given point := by
  have behind : ∀ b ∈ smalls, ∀ point, (payload b).Covers point → b.Covers point := by
    intro b member point covers
    have large := ok.heap.large b (List.mem_append_left _ member)
    simp only [payload, Span.Covers, Span.stop] at covers ⊢
    omega
  refine ⟨(ok.perm.pairwise_iff fun {_ _} => Apart.symm).mpr ?_, ?_, ?_⟩
  · refine List.pairwise_append.mpr ⟨?_, ok.heap.distinct_parts.2.1, ?_⟩
    · have apart := (List.pairwise_append.mp ok.heap.apart).1
      refine List.pairwise_map.mpr (apart.imp_of_mem fun first second apart => ?_)
      exact ((apart.mono (behind _ first)).symm.mono (behind _ second)).symm
    · intro place isSmall pages isLarge
      obtain ⟨b, member, rfl⟩ := List.mem_map.mp isSmall
      exact ((ok.heap.other_apart isLarge).2 b (List.mem_append_left _ member)).symm.mono (behind b member)
  · intro place member x isFree
    rcases List.mem_append.mp (ok.perm.subset member) with isSmall | isLarge
    · obtain ⟨b, isBlock, rfl⟩ := List.mem_map.mp isSmall
      exact (ok.heap.away b (List.mem_append_left _ isBlock) x isFree).mono (behind b isBlock)
    · exact (ok.heap.other_apart isLarge).1 x isFree
  · intro place member point covers
    rcases List.mem_append.mp (ok.perm.subset member) with isSmall | isLarge
    · obtain ⟨b, isBlock, rfl⟩ := List.mem_map.mp isSmall
      obtain ⟨slab, isSlab, inSlab⟩ := ok.heap.used_inside (List.mem_append_left _ isBlock) (behind b isBlock point covers)
      exact ⟨slab, ok.heap.given.mem_iff.mpr (List.mem_append_left _ isSlab), inSlab⟩
    · exact ⟨place, ok.heap.given.mem_iff.mpr (List.mem_append_right _ isLarge), covers⟩

/-- In every run in which `find_order` drops no rest, every region has the size asked for, and it is the caller's alone. -/
theorem kmalloc_heap_sound {arena : Nat} {allocator : Nat → Option Nat} {operations : List Operation} {state : State}
    (run : Run arena allocator operations state) (divides : ∀ size, .kmalloc size ∈ operations → Divides size.toNat) :
    Sound arena state := by
  obtain ⟨free, smalls, slabs, places, ok⟩ := run.ok
  have roomy : ∀ region ∈ state.live, Roomy region.size := by
    intro region member
    obtain ⟨size, asked, isSize⟩ := run.sizes member
    exact isSize ▸ (divides size asked).roomy
  obtain ⟨placesApart, placesUnfree, placesHeld⟩ := ok.places_sound
  obtain ⟨apart, inside⟩ := parts_apart (lies_inside ok.lies roomy) placesApart
  refine ⟨apart, ⟨free, ok.heap.ring, fun region member x isFree => ?_⟩, fun region member point covers => ?_⟩
  · obtain ⟨place, isPlace, inPlace⟩ := inside region member
    exact (placesUnfree place isPlace x isFree).mono inPlace
  · obtain ⟨place, isPlace, inPlace⟩ := inside region member
    exact placesHeld place isPlace point (inPlace point covers)

/-! ## One byte more -/

/-- A page for the note, and then another address. -/
def twoAnswers (calls : Nat) : Option Nat := if calls = 0 then some 65536 else some 131072

/-- The heap after the allocation of two pages. -/
def twoPageHeap : Heap where
  units := Function.update (Function.update (Function.update (Function.update (fun _ => 1) 65536 256) 65568 254) 65536 2) 65536 1
  next := Function.update (Function.update (Function.update (Function.update (Function.update (fun _ => 4096) 65536 4096)
    4096 65536) 4096 65568) 65568 4096) 65536 131072
  slobfree := 4096
  bigblocks := [⟨65536, 1, 131072⟩]
  given := [⟨131072, 8192⟩, ⟨65536, 4096⟩]
  calls := 2

theorem kmalloc_two_pages (large : ¬ size.toNat < pageSize - slobUnit) (order : findOrder (narrow size) = 1) :
    Returns (fun rounds => kmalloc 4096 twoAnswers rounds (initialHeap 4096) size) (some 131072, twoPageHeap) := by
  refine ⟨3, fun rounds many => ?_⟩
  obtain ⟨more, rfl⟩ := Nat.exists_eq_add_of_le' many
  simp only [kmalloc, if_neg large, order]
  rfl

/-- Two pages are a region of 8192 bytes. -/
theorem kmalloc_heap_sound_pages : ∃ state, Run 4096 twoAnswers [.kmalloc 8192] state ∧
    state.live = [⟨131072, 8192⟩] ∧ Sound 4096 state := by
  have order : findOrder (narrow 8192) = 1 := by
    rw [narrow_exact (by decide), findOrder, if_pos (by decide), findOrder, if_neg (by decide)]
  have run : Run 4096 twoAnswers [.kmalloc 8192] ⟨twoPageHeap, [⟨131072, 8192⟩]⟩ :=
    Run.start.step (Step.kmalloc (by decide) (kmalloc_two_pages (by decide) order))
  refine ⟨_, run, rfl, kmalloc_heap_sound run fun size asked => ?_⟩
  obtain rfl := Operation.kmalloc.inj (List.mem_singleton.mp asked)
  refine Or.inr ⟨by decide, fun order above => ?_⟩
  have isNat : (8192 : BitVec 64).toNat = 8192 := rfl
  rw [isNat] at above ⊢
  cases order with
  | zero => decide
  | succ order =>
    have positive := Nat.two_pow_pos order
    rw [Nat.pow_succ] at above
    omega

/-- `kmalloc(8193)` returns two pages, and the last byte is in neither. -/
theorem kmalloc_short_region : ∃ state, Run 4096 twoAnswers [.kmalloc 8193] state ∧
    state.live = [⟨131072, 8193⟩] ∧ ¬ Sound 4096 state := by
  have order : findOrder (narrow 8193) = 1 := by
    rw [narrow_exact (by decide), findOrder, if_pos (by decide), findOrder, if_neg (by decide)]
  refine ⟨⟨twoPageHeap, [⟨131072, 8193⟩]⟩, Run.start.step (Step.kmalloc (by decide) (kmalloc_two_pages (by decide) order)),
    rfl, fun sound => ?_⟩
  obtain ⟨pages, member, lower, upper⟩ := sound.held _ (List.mem_singleton.mpr rfl) 139264 ⟨by decide, by decide⟩
  simp only [twoPageHeap, List.mem_cons, List.not_mem_nil, or_false] at member
  rcases member with rfl | rfl
  · simp only [Span.stop] at upper
    omega
  · simp only [Span.stop] at upper
    omega

end Ucore.Slob
