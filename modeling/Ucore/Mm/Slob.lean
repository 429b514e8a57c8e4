import Ucore.Library.LinkedRing
import Ucore.Mm.FreeBlocks

/-!
# The heap of small blocks

The free blocks of `kern/mm/kmalloc.c` are a ring in the order of their addresses, which
wraps once. A block begins with its size in units of 16 bytes and the address of the next
block. `slob_alloc` looks for a block from `slobfree` on and takes its front;
`slob_free` looks for the place of a block and joins it with its neighbours.

Addresses are numbers of bytes. `allocator` is what `alloc_pages` answers to each call; an
answer counts if it is a block of pages that nobody has, away from `arena`, which lies in
the image of the kernel. All callers pass 0 for `align`, so blocks are not aligned.
-/

namespace Ucore.Slob

open LinkedRing Spans DefaultPmm

/-- `SLOB_UNIT`, the size of `struct slob_block` -/
def slobUnit : Nat := 16

/-- `PAGE_SIZE` -/
def pageSize : Nat := 4096

/-- `SLOB_UNITS` -/
def slobUnits (size : Nat) : Nat := (size + slobUnit - 1) / slobUnit

/-- `bigblock_t`, with its own address. -/
structure Bigblock where
  bb : Nat
  order : Nat
  pages : Nat
deriving DecidableEq

/-- The fields of the blocks by address, `slobfree` and `bigblocks`; the blocks of pages that
`alloc_pages` gave and that are not given back, and the number of its calls. -/
structure Heap where
  units : Nat → Nat
  next : Nat → Nat
  slobfree : Nat
  bigblocks : List Bigblock
  given : List Span
  calls : Nat

/-- `arena` is the only block at the start. -/
def initialHeap (arena : Nat) : Heap where
  units := fun _ => 1
  next := fun _ => arena
  slobfree := arena
  bigblocks := []
  given := []
  calls := 0

/-- The pages are nobody's, and they do not touch `arena`. -/
def FreshPages (arena : Nat) (given : List Span) (pages : Span) : Prop :=
  pages.start ≠ 0 ∧ pages.start % pageSize = 0 ∧
    (∀ other ∈ given, other.stop ≤ pages.start ∨ pages.stop ≤ other.start) ∧
    (pages.stop < arena ∨ arena + slobUnit < pages.start)

instance (arena : Nat) (given : List Span) (pages : Span) : Decidable (FreshPages arena given pages) :=
  inferInstanceAs (Decidable (_ ∧ _ ∧ _ ∧ _))

/-- `__slob_get_free_pages` -/
def slobGetFreePages (arena : Nat) (allocator : Nat → Option Nat) (heap : Heap) (order : Nat) : Option Nat × Heap :=
  match allocator heap.calls with
  | some page =>
      if FreshPages arena heap.given ⟨page, pageSize * 2 ^ order⟩ then
        (some page, { heap with given := ⟨page, pageSize * 2 ^ order⟩ :: heap.given, calls := heap.calls + 1 })
      else (none, { heap with calls := heap.calls + 1 })
  | none => (none, { heap with calls := heap.calls + 1 })

/-- The loop of `slob_free` ends at the block before the place of `b`. -/
def StopsAt (next : Nat → Nat) (b cur : Nat) : Prop :=
  cur < b ∧ b < next cur ∨ next cur ≤ cur ∧ (cur < b ∨ b < next cur)

instance (next : Nat → Nat) (b : Nat) : DecidablePred (StopsAt next b) :=
  fun _ => inferInstanceAs (Decidable (_ ∨ _))

/-- `b` is put behind `cur`, and joined with the next block if they touch. -/
def Heap.joinNext (heap : Heap) (b cur : Nat) : Heap :=
  if b + slobUnit * heap.units b = heap.next cur then
    { heap with
      units := Function.update heap.units b (heap.units b + heap.units (heap.next cur))
      next := Function.update heap.next b (heap.next (heap.next cur)) }
  else { heap with next := Function.update heap.next b (heap.next cur) }

/-- `b` is joined with `cur` if they touch. -/
def Heap.joinPrev (heap : Heap) (b cur : Nat) : Heap :=
  if cur + slobUnit * heap.units cur = b then
    { heap with
      units := Function.update heap.units cur (heap.units cur + heap.units b)
      next := Function.update heap.next cur (heap.next b) }
  else { heap with next := Function.update heap.next cur b }

/-- `slob_free`; `rounds` bounds its loop. -/
def slobFree (rounds : Nat) (heap : Heap) (b size : Nat) : Option Heap :=
  if b = 0 then some heap
  else
    let heap := if size ≠ 0 then { heap with units := Function.update heap.units b (slobUnits size) } else heap
    (search heap.next (StopsAt heap.next b) rounds heap.slobfree).map fun cur =>
      { (heap.joinNext b cur).joinPrev b cur with slobfree := cur }

/-- The front of the block behind `prev` is taken. -/
def Heap.take (heap : Heap) (prev units : Nat) : Heap :=
  let cur := heap.next prev
  if heap.units cur = units then
    { heap with next := Function.update heap.next prev (heap.next cur), slobfree := prev }
  else
    let rest := cur + slobUnit * units
    let heap := { heap with
      next := Function.update heap.next prev rest
      units := Function.update heap.units rest (heap.units cur - units) }
    { heap with
      next := Function.update heap.next rest (heap.next cur)
      units := Function.update heap.units cur units
      slobfree := prev }

/-- The loop of `slob_alloc` ends at a block that is large enough, or when all have been seen. -/
def Fits (heap : Heap) (units prev : Nat) : Prop := units ≤ heap.units (heap.next prev) ∨ heap.next prev = heap.slobfree

instance (heap : Heap) (units : Nat) : DecidablePred (Fits heap units) :=
  fun _ => inferInstanceAs (Decidable (_ ∨ _))

/-- The loop of `slob_alloc`, which adds a page when no block is large enough and goes on. -/
def slobLoop (arena : Nat) (allocator : Nat → Option Nat) (rounds : Nat) (size : Nat) : Nat → Heap → Option (Option Nat × Heap)
  | 0, _ => none
  | pages + 1, heap =>
      (search heap.next (Fits heap (slobUnits size)) rounds heap.slobfree).bind fun prev =>
        if slobUnits size ≤ heap.units (heap.next prev) then
          some (some (heap.next prev), heap.take prev (slobUnits size))
        else if size = pageSize then some (none, heap)
        else
          match slobGetFreePages arena allocator heap 0 with
          | (some page, heap) =>
              (slobFree rounds heap page pageSize).bind fun heap =>
                slobLoop arena allocator rounds size pages heap
          | (none, heap) => some (none, heap)

/-- `slob_alloc`; `none` is a failed assertion, or more rounds. -/
def slobAlloc (arena : Nat) (allocator : Nat → Option Nat) (rounds : Nat) (heap : Heap) (size : Nat) :
    Option (Option Nat × Heap) :=
  if size + slobUnit < pageSize then slobLoop arena allocator rounds size rounds heap else none

end Ucore.Slob
