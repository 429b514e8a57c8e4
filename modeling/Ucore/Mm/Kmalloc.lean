import Ucore.Mm.SlobHeap
import Mathlib.Data.List.Forall2

/-!
# `kmalloc` and `kfree`

`__kmalloc` of `kern/mm/kmalloc.c` sends small sizes to `slob_alloc`, with a unit for the
header; for other sizes it asks for `1 << find_order(size)` pages and notes them in a
`bigblock_t`. `kfree` knows pages from small blocks by the address and the notes.

Both sides of the boundary compare: `__kmalloc` sends a size below 4080 with 16 more bytes,
and `slob_alloc` asserts that what it gets is below 4080. `find_order` takes an `int`.
-/

namespace Ucore.Slob

open LinkedRing Spans DefaultPmm Transition

/-- `sizeof(bigblock_t)` -/
def bigblockSize : Nat := 24

/-- A `size_t` as the argument of `find_order`. -/
def narrow (size : BitVec 64) : Int := (size.setWidth 32).toInt

/-- `find_order` -/
def findOrder (size : Int) : Nat := if 4096 < size then findOrder (size / 2) + 1 else 0
termination_by size.toNat

/-- `__kmalloc`; a `bigblock_t` lies where the header of its block was. -/
def kmalloc (arena : Nat) (allocator : Nat → Option Nat) (rounds : Nat) (heap : Heap) (size : BitVec 64) :
    Option (Option Nat × Heap) :=
  if size.toNat < pageSize - slobUnit then
    (slobAlloc arena allocator rounds heap (size.toNat + slobUnit)).map fun m => (m.1.map (· + slobUnit), m.2)
  else
    (slobAlloc arena allocator rounds heap bigblockSize).bind fun m =>
      match m.1 with
      | none => some (none, m.2)
      | some bb =>
          let order := findOrder (narrow size)
          let paged := slobGetFreePages arena allocator { m.2 with units := Function.update m.2.units bb order } order
          let heap := { paged.2 with next := Function.update paged.2.next bb (paged.1.getD 0) }
          match paged.1 with
          | some pages => some (some pages, { heap with bigblocks := ⟨bb, order, pages⟩ :: heap.bigblocks })
          | none => (slobFree rounds heap bb bigblockSize).map fun heap => (none, heap)

/-- `kfree`; of the pages that `free_pages` gets, the heap forgets. -/
def kfree (rounds : Nat) (heap : Heap) (block : Nat) : Option Heap :=
  if block = 0 then some heap
  else
    match if block % pageSize = 0 then heap.bigblocks.find? (·.pages = block) else none with
    | some bb =>
        slobFree rounds { heap with
          bigblocks := heap.bigblocks.eraseP (·.pages = block)
          given := heap.given.erase ⟨block, pageSize * 2 ^ bb.order⟩ } bb.bb bigblockSize
    | none => slobFree rounds heap (block - slobUnit) 0

/-- The heap, and the regions that callers of `kmalloc` have. -/
structure State where
  heap : Heap
  live : List Span

/-- The calls of the kernel. -/
inductive Operation where
  | kmalloc (size : BitVec 64)
  | kfree (block : Nat)

/-- A call that returns. `kfree` gets what `kmalloc` gave, once. -/
inductive Step (arena : Nat) (allocator : Nat → Option Nat) : State → Operation → State → Prop where
  | kmalloc {state : State} {size : BitVec 64} {next : Heap} {block : Nat} (positive : 0 < size.toNat)
      (returns : Returns (fun rounds => kmalloc arena allocator rounds state.heap size) (some block, next)) :
      Step arena allocator state (.kmalloc size) ⟨next, ⟨block, size.toNat⟩ :: state.live⟩
  | full {state : State} {size : BitVec 64} {next : Heap} (positive : 0 < size.toNat)
      (returns : Returns (fun rounds => kmalloc arena allocator rounds state.heap size) (none, next)) :
      Step arena allocator state (.kmalloc size) ⟨next, state.live⟩
  | kfree {state : State} {region : Span} {next : Heap} (live : region ∈ state.live)
      (returns : Returns (fun rounds => kfree rounds state.heap region.start) next) :
      Step arena allocator state (.kfree region.start) ⟨next, state.live.erase region⟩

/-- The states that calls reach from the start, with the calls. -/
inductive Run (arena : Nat) (allocator : Nat → Option Nat) : List Operation → State → Prop where
  | start : Run arena allocator [] ⟨initialHeap arena, []⟩
  | step {operations : List Operation} {operation : Operation} {state next : State}
      (run : Run arena allocator operations state) (taken : Step arena allocator state operation next) :
      Run arena allocator (operations ++ [operation]) next

/-! ## The regions and their blocks -/

/-- The block of a `bigblock_t`. -/
def Bigblock.block (b : Bigblock) : Span := ⟨b.bb, slobUnit * slobUnits bigblockSize⟩

/-- The pages of a `bigblock_t`. -/
def Bigblock.region (b : Bigblock) : Span := ⟨b.pages, pageSize * 2 ^ b.order⟩

/-- A block without its header. -/
def payload (b : Span) : Span := ⟨b.start + slobUnit, b.size - slobUnit⟩

/-- The sizes for which there is room in what `__kmalloc` asks for. -/
def Roomy (size : Nat) : Prop :=
  size < pageSize - slobUnit ∨ size < 2 ^ 31 ∧ size ≤ pageSize * 2 ^ findOrder size

/-- The region of a caller, and where it lies. -/
structure Lies (region place : Span) : Prop where
  start : region.start = place.start
  size : Roomy region.size → region.size ≤ place.size

/-- The used blocks are the ones of small allocations and of the notes, and each region of a
caller has its place in one of the small blocks or in the pages of a note. -/
structure StateOk (arena : Nat) (state : State) (free smalls slabs places : List Span) : Prop where
  heap : HeapOk arena state.heap free (smalls ++ state.heap.bigblocks.map Bigblock.block) slabs
    (state.heap.bigblocks.map Bigblock.region)
  sized : Sized state.heap smalls
  perm : places.Perm (smalls.map payload ++ state.heap.bigblocks.map Bigblock.region)
  lies : List.Forall₂ Lies state.live places

variable {arena rounds : Nat} {allocator : Nat → Option Nat} {heap next : Heap} {state last : State}
  {free smalls slabs others places : List Span} {size : BitVec 64} {region : Span}

theorem initial_ok (arena : Nat) : StateOk arena ⟨initialHeap arena, []⟩ [arenaBlock arena] [] [] [] where
  heap := initialHeap_ok arena
  sized := by simp [Sized]
  perm := List.Perm.refl _
  lies := List.Forall₂.nil

/-! ## `kmalloc` -/

/-- The place of a small region has room for it. -/
theorem payload_room (size : Nat) : size ≤ slobUnit * slobUnits (size + slobUnit) - slobUnit := by
  simp only [slobUnits, slobUnit]
  omega

/-- `__kmalloc` of a small size that passes the assertion. -/
theorem StateOk.kmallocSmall (ok : StateOk arena state free smalls slabs places) (allocator : Nat → Option Nat)
    (positive : 0 < size.toNat) (small : size.toNat < pageSize - slobUnit)
    (bound : size.toNat + slobUnit + slobUnit < pageSize) :
    ∃ answer next, Returns (fun rounds => kmalloc arena allocator rounds state.heap size) (answer, next) ∧
      ∃ free smalls slabs places,
        StateOk arena ⟨next, (answer.toList.map fun block => ⟨block, size.toNat⟩) ++ state.live⟩ free smalls slabs places := by
  obtain ⟨answer, next, returns, sameBig, same, outcome⟩ := ok.heap.slobAlloc allocator (size.toNat + slobUnit)
    (Nat.lt_add_of_pos_left positive) bound
  have sized : Sized next smalls := fun b member =>
    (ok.sized b member).trans (congrArg (slobUnit * ·) (same b (List.mem_append_left _ member)).symm)
  have returns' : Returns (fun rounds => kmalloc arena allocator rounds state.heap size) (answer.map (· + slobUnit), next) := by
    simp only [kmalloc, if_pos small]
    exact returns.map fun m => (m.1.map (· + slobUnit), m.2)
  refine ⟨_, next, returns', ?_⟩
  rcases outcome with ⟨rfl, ok'⟩ | ⟨m, free', slabs', rfl, isUnits, ok'⟩
  · refine ⟨free, smalls, slabs, places, ?_, sized, ?_, ok.lies⟩
    · simpa only [sameBig] using ok'
    · simpa only [sameBig] using ok.perm
  · have isSize : (⟨m, slobUnit * slobUnits (size.toNat + slobUnit)⟩ : Span).size = slobUnit * next.units m := by
      rw [isUnits]
    have lies : Lies ⟨m + slobUnit, size.toNat⟩ (payload ⟨m, slobUnit * slobUnits (size.toNat + slobUnit)⟩) :=
      ⟨rfl, fun _ => payload_room size.toNat⟩
    refine ⟨free', ⟨m, slobUnit * slobUnits (size.toNat + slobUnit)⟩ :: smalls, slabs',
      payload ⟨m, slobUnit * slobUnits (size.toNat + slobUnit)⟩ :: places, ?_, List.forall_mem_cons.mpr ⟨isSize, sized⟩, ?_,
      List.Forall₂.cons lies ok.lies⟩
    · simpa only [sameBig, List.cons_append] using ok'
    · simpa only [sameBig, List.map_cons, List.cons_append] using ok.perm.cons _

/-- The note of an allocation is a used block like those of small allocations. -/
theorem HeapOk.note {bb order pages : Nat} {bigblocks : List Bigblock}
    (ok : HeapOk arena heap free (⟨bb, slobUnit * slobUnits bigblockSize⟩ :: (smalls ++ bigblocks.map Bigblock.block)) slabs
      (⟨pages, pageSize * 2 ^ order⟩ :: bigblocks.map Bigblock.region)) :
    HeapOk arena { heap with bigblocks := ⟨bb, order, pages⟩ :: bigblocks } free
      (smalls ++ (⟨bb, order, pages⟩ :: bigblocks).map Bigblock.block) slabs
      ((⟨bb, order, pages⟩ :: bigblocks).map Bigblock.region) :=
  (ok.perm List.perm_middle.symm).others_unused _

theorem narrow_exact (small : size.toNat < 2 ^ 31) : narrow size = size.toNat := by
  have low : (size.setWidth 32).toNat = size.toNat := by
    rw [BitVec.toNat_setWidth]
    exact Nat.mod_eq_of_lt (by omega)
  rw [narrow, BitVec.toInt_eq_toNat_of_lt (by omega), low]

/-- `__kmalloc` of a size for which it asks for pages. -/
theorem StateOk.kmallocLarge (ok : StateOk arena state free smalls slabs places) (allocator : Nat → Option Nat)
    (large : ¬ size.toNat < pageSize - slobUnit) :
    ∃ answer next, Returns (fun rounds => kmalloc arena allocator rounds state.heap size) (answer, next) ∧
      ∃ free smalls slabs places,
        StateOk arena ⟨next, (answer.toList.map fun block => ⟨block, size.toNat⟩) ++ state.live⟩ free smalls slabs places := by
  obtain ⟨answer, taken, returns, sameBig, same, outcome⟩ := ok.heap.slobAlloc allocator bigblockSize
    (by decide) (by decide)
  have sized : Sized taken smalls := fun b member =>
    (ok.sized b member).trans (congrArg (slobUnit * ·) (same b (List.mem_append_left _ member)).symm)
  rcases outcome with ⟨rfl, ok'⟩ | ⟨bb, free', slabs', rfl, _, ok'⟩
  · -- there is no block for the note
    refine ⟨none, taken, ?_, free, smalls, slabs, places, ?_, sized, ?_, ok.lies⟩
    · simp only [kmalloc, if_neg large]
      exact returns.bind (Returns.pure _)
    · simpa only [sameBig] using ok'
    · simpa only [sameBig] using ok.perm
  · have others : ∀ b ∈ smalls, b.start ≠ bb := by
      intro b member
      have apart := (List.pairwise_cons.mp ok'.apart).1 b (List.mem_append_left _ member)
      have positive := ok'.large b (List.mem_cons_of_mem _ (List.mem_append_left _ member))
      exact apart_start apart (Nat.mul_pos (by decide) (by decide)) (by omega)
    have ordered := ok'.overwrite (Function.update taken.units bb (findOrder (narrow size))) taken.next
      List.mem_cons_self (fun address different => Function.update_of_ne different ..) fun _ _ => rfl
    cases given : slobGetFreePages arena allocator
      { taken with units := Function.update taken.units bb (findOrder (narrow size)) } (findOrder (narrow size)) with
    | mk pages paged =>
    obtain ⟨sameBig', sameUnits, got⟩ := ordered.getFreePages given
    have sized' : Sized paged smalls := by
      intro b member
      rw [sameUnits, sized b member]
      exact congrArg (slobUnit * ·) (Function.update_of_ne (others b member) ..).symm
    rcases got with ⟨rfl, ok''⟩ | ⟨page, rfl, ok''⟩
    · -- there are no pages, and the note is freed
      have written := ok''.overwrite paged.units (Function.update paged.next bb 0) List.mem_cons_self
        (fun _ _ => rfl) fun address different => Function.update_of_ne different ..
      obtain ⟨freed, free'', returnsFree, okFreed, sameBig'', same''⟩ := written.freeBlock bigblockSize rfl
      refine ⟨none, freed, ?_, free'', smalls, slabs', places, ?_, ?_, ?_, ok.lies⟩
      · simp only [kmalloc, if_neg large]
        refine returns.bind ?_
        simp only [given, Option.getD_none]
        exact returnsFree.map fun heap => (none, heap)
      · simpa only [sameBig'', sameBig', sameBig] using okFreed
      · intro b member
        exact (sized' b member).trans (congrArg (slobUnit * ·) (same'' b (List.mem_append_left _ member)).symm)
      · simpa only [sameBig'', sameBig', sameBig] using ok.perm
    · have written := ok''.overwrite paged.units (Function.update paged.next bb page) List.mem_cons_self
        (fun _ _ => rfl) fun address different => Function.update_of_ne different ..
      have lies : Lies ⟨page, size.toNat⟩ ⟨page, pageSize * 2 ^ findOrder (narrow size)⟩ := by
        refine ⟨rfl, fun roomy => ?_⟩
        obtain ⟨narrowed, room⟩ := roomy.resolve_left large
        rw [narrow_exact narrowed]
        exact room
      have isBig : paged.bigblocks = state.heap.bigblocks := sameBig'.trans sameBig
      have perm := (ok.perm.cons ⟨page, pageSize * 2 ^ findOrder (narrow size)⟩).trans List.perm_middle.symm
      rw [← isBig] at written perm
      refine ⟨some page, _, ?_, free', smalls, slabs', ⟨page, pageSize * 2 ^ findOrder (narrow size)⟩ :: places,
        written.note, sized', perm, List.Forall₂.cons lies ok.lies⟩
      simp only [kmalloc, if_neg large]
      refine returns.bind ?_
      simp only [given, Option.getD_some]
      exact Returns.pure _

end Ucore.Slob
