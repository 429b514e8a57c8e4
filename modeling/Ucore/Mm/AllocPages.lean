import Ucore.Mm.FirstFit
import Ucore.Mm.PageTable
import Ucore.Mm.SwapFifo
import Mathlib.Data.Finset.Sort
import Mathlib.Data.List.Rotate

/-!
# Allocation with swap-out

When the page manager has no page left, `alloc_pages` of `kern/mm/pmm.c` asks `swap_out` of
`kern/mm/swap.c` to save a page of `check_mm_struct` to the swap device and to free it, and
tries again. It does so for single pages only.

The page manager is called through `pmm_manager`. What the swap device answers to each write
is part of the machine. A step that has no defined result, or that stops the kernel, is a
fault.
-/

namespace Ucore.AllocPages

open CircularList EmbeddedList Paging SwapFifo

/-- `pmm_manager->alloc_pages`, on the set of free pages: the first page of a free block of
that many pages, or none, but never none for a single page while there is one. -/
structure PmmManager where
  allocPages : Finset Nat → Nat → Option Nat
  free : ∀ pages n page, allocPages pages n = some page → ∀ offset, offset < n → page + offset ∈ pages
  single : ∀ pages, allocPages pages 1 = none → pages = ∅

/-- `default_pmm` is such a manager: what it returns lies in its free blocks, and it has no
single page to return only when it has no block. -/
theorem defaultPmm_serves {managed : Nat → Prop} {area : DefaultPmm.FreeArea} {npage n : Nat}
    {blocks : List Spans.Span} (rep : DefaultPmm.Represents managed area blocks)
    (ordered : Spans.Ordered blocks) (positive : 0 < n) (short : blocks.length ≤ npage) :
    ∃ found after, DefaultPmm.defaultAllocPages npage n area = some (found, after) ∧
      (∀ page, found = some page → ∀ offset, offset < n → Spans.Covered blocks (page + offset)) ∧
      (n = 1 → found = none → ∀ page, ¬Spans.Covered blocks page) := by
  obtain ⟨after, returned, _⟩ := DefaultPmm.defaultAllocPages_refines rep ordered positive short
  refine ⟨_, after, returned, ?_, ?_⟩
  · intro page found offset inside
    obtain ⟨⟨start, rest⟩, taken, rfl⟩ := Option.map_eq_some_iff.mp found
    obtain ⟨before, block, after, rfl, fits, rfl, _⟩ := DefaultPmm.takeFirst_split taken
    refine ⟨block, by simp, ?_⟩
    constructor
    · exact Nat.le_add_right _ _
    · exact Nat.add_lt_add_left (Nat.lt_of_lt_of_le inside fits) _
  · rintro rfl none page ⟨block, member, _⟩
    have small := (DefaultPmm.takeFirst_none_iff 1 blocks).mp (Option.map_eq_none_iff.mp none) block member
    have := ordered.positive block member
    omega

/-- The first free block of that many pages. -/
def firstFit : PmmManager where
  allocPages pages n := ((pages.filter fun page => ∀ offset < n, page + offset ∈ pages).sort (· ≤ ·)).head?
  free pages n page found offset inside := by
    have member := List.mem_of_mem_head? found
    rw [Finset.mem_sort, Finset.mem_filter] at member
    exact member.2 offset inside
  single pages absent := by
    rw [List.head?_eq_none_iff, ← List.toFinset_eq_empty_iff, Finset.sort_toFinset] at absent
    refine Finset.eq_empty_of_forall_notMem ?_
    intro page member
    have kept : page ∈ pages.filter fun page => ∀ offset < 1, page + offset ∈ pages := by
      simpa using member
    rw [absent] at kept
    exact absurd kept (Finset.notMem_empty page)

/-- What ends a call without a return. -/
inductive Fault where
  /-- `mm->sm_priv` of a NULL `mm` -/
  | nullMm
  /-- `pra_vaddr` of a list head -/
  | notPage
  /-- `*ptep` of a NULL `ptep` -/
  | nullPte
  /-- `panic` of `swap_offset` -/
  | badEntry
  | assertion
deriving DecidableEq

variable {M : Type} [DecidableEq M]

/-- The `pgdir` of each `mm_struct`, `max_swap_offset`, and whether the swap device stores
the page of each write. -/
structure SwapMachine (M : Type) where
  pgdir : M → Nat
  maxSwapOffset : Nat
  stores : Nat → Bool

/-- The pages, the swap queue, the `pra_vaddr` of each page, `check_mm_struct` and the
writes to the swap device so far. -/
structure Kernel (M : Type) where
  mem : Memory
  fifo : Fifo M Nat
  praVaddr : Nat → Nat
  checkMmStruct : Option M
  writes : Nat

/-- `pra_vaddr/PGSIZE+1` -/
def swapSlot (v : Nat) : Nat := v / pgsize + 1

/-- The slot shifted left by eight, as an entry of a page table. -/
def swapEntry (slot : Nat) : Pte where
  ppn := slot / 4
  flags := BitVec.ofNat 10 (slot % 4 * 256)

variable (machine : SwapMachine M)

/-- The entry that `get_pte` finds for the page. -/
def findPte (kernel : Kernel M) (mm : M) (page : Nat) : Option (Nat × Fin 512) :=
  (getPte (fun _ => none) false kernel.mem (machine.pgdir mm) (kernel.praVaddr page)).1

/-- One round of `swap_out`, which tells whether there is a next one. -/
def swapOutOnce (mm : M) (kernel : Kernel M) : Except Fault (Bool × Kernel M) :=
  match fifoSwapOutVictim mm 0 kernel.fifo with
  | none => .error .assertion
  | some (ret, entry, fifo) =>
      if ret ≠ 0 then .ok (false, { kernel with fifo := fifo })
      else
        match entry with
        | .head => .error .notPage
        | .link page =>
            match findPte machine kernel mm page with
            | none => .error .nullPte
            | some (pt, index) =>
                if (kernel.mem.table pt index).flags &&& pteV = 0#10 then .error .assertion
                else if machine.maxSwapOffset ≤ swapSlot (kernel.praVaddr page) then .error .badEntry
                else if machine.stores kernel.writes then
                  match freePage (kernel.mem.setPte pt index (swapEntry (swapSlot (kernel.praVaddr page)))) page with
                  | none => .error .assertion
                  | some mem => .ok (true, { kernel with
                      mem := mem
                      fifo := fifo
                      writes := kernel.writes + 1 })
                else
                  match fifoMapSwappable mm page fifo with
                  | none => .error .assertion
                  | some fifo => .ok (true, { kernel with
                      fifo := fifo
                      writes := kernel.writes + 1 })

/-- `swap_out` -/
def swapOut (mm : Option M) : Nat → Kernel M → Except Fault (Kernel M)
  | 0, kernel => .ok kernel
  | n + 1, kernel =>
      match mm with
      | none => .error .nullMm
      | some mm =>
          match swapOutOnce machine mm kernel with
          | .error fault => .error fault
          | .ok (false, kernel) => .ok kernel
          | .ok (true, kernel) => swapOut (some mm) n kernel

variable (pmm : PmmManager)

/-- `alloc_pages`, of at least one page; `none` where its loop does not end within the
rounds given. -/
def allocPages (n : Nat) : Nat → Kernel M → Option (Except Fault (Option Nat × Kernel M))
  | 0, _ => none
  | rounds + 1, kernel =>
      match pmm.allocPages kernel.mem.free n with
      | some page => some (.ok (some page, { kernel with
          mem := { kernel.mem with
            free := kernel.mem.free.filter fun other => ¬(page ≤ other ∧ other < page + n) } }))
      | none =>
          if 1 < n ∨ kernel.fifo.swapInitOk = false then some (.ok (none, kernel))
          else
            match swapOut machine kernel.checkMmStruct n kernel with
            | .error fault => some (.error fault)
            | .ok kernel => allocPages n rounds kernel

/-! ## The pages that can be saved -/

/-- A page at whose `pra_vaddr` the `mm_struct` has a valid entry and the swap device a slot. -/
def Resident (kernel : Kernel M) (mm : M) (page : Nat) : Prop :=
  (∃ pt index, findPte machine kernel mm page = some (pt, index) ∧
    (kernel.mem.table pt index).flags &&& pteV ≠ 0#10) ∧
  swapSlot (kernel.praVaddr page) < machine.maxSwapOffset

/-- The page at the front of the queue goes to its end, as after a write that fails. -/
def requeue (mm : M) (fifo : Fifo M Nat) : Option (Nat × Fifo M Nat) :=
  match fifoSwapOutVictim mm 0 fifo with
  | some (_, .link page, fifo) => (fifoMapSwappable mm page fifo).map fun fifo => (page, fifo)
  | _ => none

/-- The page met after a number of rounds through the queue. -/
def pageAt (mm : M) : Nat → Fifo M Nat → Option Nat
  | 0, fifo => (requeue mm fifo).map Prod.fst
  | rounds + 1, fifo => (requeue mm fifo).bind fun (_, fifo) => pageAt mm rounds fifo

omit [DecidableEq M] in
/-- The front of a queue goes to its end. -/
theorem requeue_exact {mm : M} {fifo : Fifo M Nat} {page : Nat} {rest : List Nat}
    (named : fifo.smPriv mm = some .head) (ring : Ring fifo.links .head ((page :: rest).map Entry.link)) :
    ∃ after, requeue mm fifo = some (page, after) ∧ after.smPriv = fifo.smPriv ∧
      Ring after.links .head ((rest ++ [page]).map Entry.link) := by
  have front : listNext fifo.links .head = .link page := ring.next_head
  have split : Ring fifo.links .head ([] ++ .link page :: rest.map Entry.link) := ring
  have left := listDel_ring split
  have fresh : Entry.link page ∉ Entry.head :: rest.map Entry.link := by
    have distinct := (List.nodup_cons.mp (List.nodup_cons.mp ring.distinct).2).1
    simpa using distinct
  have added := listAddBefore_last (.link page) left fresh
  exact ⟨{ fifo with links := listAddBefore (listDel fifo.links (.link page)) .head (.link page) },
    by simp [requeue, fifoSwapOutVictim, fifoMapSwappable, named, front], rfl, by simpa using added⟩

omit [DecidableEq M] in
/-- The pages of a queue come round in their order. -/
theorem pageAt_exact {mm : M} {fifo : Fifo M Nat} {pages : List Nat} (rounds : Nat)
    (named : fifo.smPriv mm = some .head) (ring : Ring fifo.links .head (pages.map Entry.link)) :
    pageAt mm rounds fifo = (pages.rotate rounds).head? := by
  cases pages with
  | nil =>
    have front : listNext fifo.links .head = .head := ring.next_head
    have stuck : requeue mm fifo = none := by simp [requeue, fifoSwapOutVictim, named, front]
    cases rounds <;> simp [pageAt, stuck]
  | cons page rest =>
    induction rounds generalizing fifo page rest with
    | zero =>
      obtain ⟨after, front, _⟩ := requeue_exact named ring
      simp [pageAt, front]
    | succ rounds ih =>
      obtain ⟨after, front, same, turned⟩ := requeue_exact named ring
      cases rest with
      | nil => simpa [pageAt, front] using ih (same ▸ named) page [] turned
      | cons next rest => simpa [pageAt, front] using ih (same ▸ named) next (rest ++ [page]) turned

/-- A page of `check_mm_struct` that `swap_out` can choose and save, if the device does. -/
def Swappable (kernel : Kernel M) (page : Nat) : Prop :=
  ∃ mm, kernel.checkMmStruct = some mm ∧ (∃ rounds, pageAt mm rounds kernel.fifo = some page) ∧
    Resident machine kernel mm page

/-- The request can be satisfied after pages have been evicted. -/
def Satisfiable (n : Nat) (kernel : Kernel M) : Prop :=
  ∃ evicted : Finset Nat, (∀ page ∈ evicted, Swappable machine kernel page) ∧
    pmm.allocPages (kernel.mem.free ∪ evicted) n ≠ none

/-- The call returns, without a fault, and returns `NULL` when the request cannot be satisfied. -/
def OutOfMemorySafe (n : Nat) (kernel : Kernel M) : Prop :=
  ∃ rounds page after, allocPages machine pmm n rounds kernel = some (.ok (page, after)) ∧
    (¬Satisfiable machine pmm n kernel → page = none)

/-- Round the queue of `check_mm_struct` there is a page that the device stores, and every
page met up to it is resident. -/
def CanEvict (kernel : Kernel M) : Prop :=
  ∃ mm, kernel.checkMmStruct = some mm ∧ ∃ rounds, machine.stores (kernel.writes + rounds) = true ∧
    (∀ earlier, earlier < rounds → machine.stores (kernel.writes + earlier) = false) ∧
    ∀ earlier, earlier ≤ rounds →
      ∃ page, pageAt mm earlier kernel.fifo = some page ∧ Resident machine kernel mm page

/-! ## One round -/

variable {machine} {pmm}

omit [DecidableEq M] in
/-- A victim that is a page can be put back into the queue. -/
theorem victim_requeue {mm : M} {fifo after : Fifo M Nat} {ret : Int} {page : Nat}
    (chosen : fifoSwapOutVictim mm 0 fifo = some (ret, .link page, after)) :
    ret = 0 ∧ ∃ back, fifoMapSwappable mm page after = some back ∧ requeue mm fifo = some (page, back) := by
  obtain ⟨priv, named, taken⟩ := Option.bind_eq_some_iff.mp chosen
  simp only [if_true, Option.some.injEq, Prod.mk.injEq] at taken
  obtain ⟨rfl, _, rfl⟩ := taken
  have mapped : ∃ back, fifoMapSwappable mm page { fifo with
      links := listDel fifo.links (listNext fifo.links priv) } = some back := by
    simp [fifoMapSwappable, named]
  obtain ⟨back, mapped⟩ := mapped
  exact ⟨rfl, back, mapped, by simp [requeue, chosen, mapped]⟩

omit [DecidableEq M] in
/-- A round that returns found a resident page at the front of the queue. -/
theorem swapOutOnce_sound {mm : M} {kernel after : Kernel M} {goOn : Bool}
    (returned : swapOutOnce machine mm kernel = .ok (goOn, after)) :
    ∃ page fifo, requeue mm kernel.fifo = some (page, fifo) ∧ Resident machine kernel mm page := by
  unfold swapOutOnce at returned
  split at returned
  · cases returned
  · rename_i ret entry fifo chosen
    obtain ⟨priv, _, taken⟩ := Option.bind_eq_some_iff.mp chosen
    simp only [if_true, Option.some.injEq, Prod.mk.injEq] at taken
    obtain ⟨rfl, _⟩ := taken
    simp only [ne_eq, not_true_eq_false, if_false] at returned
    cases entry with
    | head => cases returned
    | link page =>
      obtain ⟨_, back, _, front⟩ := victim_requeue chosen
      refine ⟨page, back, front, ?_⟩
      dsimp only at returned
      cases found : findPte machine kernel mm page with
      | none => simp [found] at returned
      | some place =>
        obtain ⟨pt, index⟩ := place
        by_cases valid : (kernel.mem.table pt index).flags &&& pteV = 0#10
        · simp [found, valid] at returned
        · by_cases small : swapSlot (kernel.praVaddr page) < machine.maxSwapOffset
          · exact ⟨⟨pt, index, found, valid⟩, small⟩
          · simp [found, valid, Nat.le_of_not_lt small] at returned

omit [DecidableEq M] in
/-- A resident page at the front of the queue is saved and freed, or goes to the end. -/
theorem swapOutOnce_exact {mm : M} {kernel : Kernel M} {page : Nat} {fifo : Fifo M Nat}
    (front : requeue mm kernel.fifo = some (page, fifo)) (resident : Resident machine kernel mm page)
    (used : page ∉ kernel.mem.free) :
    if machine.stores kernel.writes then
      ∃ after, swapOutOnce machine mm kernel = .ok (true, after) ∧ after.mem.free = insert page kernel.mem.free
    else swapOutOnce machine mm kernel = .ok (true, { kernel with
      fifo := fifo
      writes := kernel.writes + 1 }) := by
  obtain ⟨⟨pt, index, found, valid⟩, small⟩ := resident
  unfold requeue at front
  split at front
  case h_2 => cases front
  case h_1 ret chosenPage after chosen =>
    obtain ⟨back, mapped, same⟩ := Option.map_eq_some_iff.mp front
    simp only [Prod.mk.injEq] at same
    obtain ⟨rfl, rfl⟩ := same
    obtain ⟨rfl, _⟩ := victim_requeue chosen
    by_cases stored : machine.stores kernel.writes = true
    · have freed : ∀ changed : Memory, changed.free = kernel.mem.free →
          freePage changed chosenPage = some { changed with
            free := insert chosenPage changed.free
            freed := changed.freed ++ [chosenPage] } := by
        intro changed kept
        simp [freePage, kept, used]
      simp [swapOutOnce, chosen, found, valid, Nat.not_le_of_lt small, stored, freed, Memory.setPte]
    · simp [swapOutOnce, chosen, found, valid, Nat.not_le_of_lt small, stored, mapped]

/-! ## The loop of `alloc_pages` -/

omit [DecidableEq M] in
/-- A page that is returned was free, or could be evicted. -/
theorem stored_satisfiable {kernel : Kernel M} (can : CanEvict machine kernel) :
    Satisfiable machine pmm 1 kernel := by
  obtain ⟨mm, checked, rounds, _, _, met⟩ := can
  obtain ⟨page, at_, resident⟩ := met rounds (Nat.le_refl _)
  refine ⟨{page}, ?_, ?_⟩
  · intro other member
    obtain rfl := Finset.mem_singleton.mp member
    exact ⟨mm, checked, ⟨rounds, at_⟩, resident⟩
  · intro none
    have empty := pmm.single _ none
    have member : page ∈ kernel.mem.free ∪ {page} := by simp
    simp [empty] at member

omit [DecidableEq M] in
/-- One round of the loop, when no page is free. -/
theorem swapOut_one (mm : M) (kernel : Kernel M) : swapOut machine (some mm) 1 kernel =
    match swapOutOnce machine mm kernel with
    | .error fault => .error fault
    | .ok (_, kernel) => .ok kernel := by
  cases taken : swapOutOnce machine mm kernel with
  | error fault => simp [swapOut, taken]
  | ok result =>
    obtain ⟨goOn, after⟩ := result
    cases goOn <;> simp [swapOut, taken]

omit [DecidableEq M] in
/-- A page met in the first round is at the front. -/
theorem pageAt_front {mm : M} {fifo : Fifo M Nat} {page : Nat} (first : pageAt mm 0 fifo = some page) :
    ∃ back, requeue mm fifo = some (page, back) := by
  obtain ⟨⟨front, back⟩, found, rfl⟩ := Option.map_eq_some_iff.mp first
  exact ⟨back, found⟩

/-- The kernel after a write that failed. -/
def Kernel.putBack (kernel : Kernel M) (fifo : Fifo M Nat) : Kernel M :=
  { kernel with
    fifo := fifo
    writes := kernel.writes + 1 }

omit [DecidableEq M] in
/-- The next write is the first one after a write that failed. -/
theorem stores_next (kernel : Kernel M) (back : Fifo M Nat) (rounds : Nat) :
    machine.stores ((kernel.putBack back).writes + rounds) = machine.stores (kernel.writes + (rounds + 1)) := by
  simp only [Kernel.putBack]
  congr 1
  omega

omit [DecidableEq M] in
/-- Free pages are returned at once. -/
theorem allocPages_found {kernel : Kernel M} {n page : Nat} (rounds : Nat)
    (found : pmm.allocPages kernel.mem.free n = some page) :
    ∃ after, allocPages machine pmm n (rounds + 1) kernel = some (.ok (some page, after)) := by
  simp [allocPages, found]

omit [DecidableEq M] in
/-- A round of `alloc_pages` that finds no page, with a resident page at the front. -/
theorem allocPages_round {kernel : Kernel M} {mm : M} {page : Nat} {back : Fifo M Nat} (rounds : Nat)
    (checked : kernel.checkMmStruct = some mm) (ready : kernel.fifo.swapInitOk = true)
    (full : pmm.allocPages kernel.mem.free 1 = none) (front : requeue mm kernel.fifo = some (page, back))
    (resident : Resident machine kernel mm page) :
    if machine.stores kernel.writes then
      ∃ after, after.mem.free = {page} ∧
        allocPages machine pmm 1 (rounds + 1) kernel = allocPages machine pmm 1 rounds after
    else allocPages machine pmm 1 (rounds + 1) kernel =
      allocPages machine pmm 1 rounds (kernel.putBack back) := by
  have empty := pmm.single _ full
  have taken := swapOutOnce_exact front resident (by simp [empty])
  by_cases stored : machine.stores kernel.writes = true
  · simp only [stored, if_true] at taken ⊢
    obtain ⟨after, evicted, free⟩ := taken
    refine ⟨after, by simp [free, empty], ?_⟩
    simp [allocPages, full, ready, checked, swapOut_one, evicted]
  · simp only [stored, if_false, Bool.false_eq_true] at taken ⊢
    simp [allocPages, full, ready, checked, swapOut_one, taken, Kernel.putBack]

omit [DecidableEq M] in
/-- What `requeue` leaves of the rest of the queue's state. -/
theorem requeue_ready {mm : M} {fifo back : Fifo M Nat} {page : Nat}
    (front : requeue mm fifo = some (page, back)) : back.swapInitOk = fifo.swapInitOk := by
  unfold requeue at front
  split at front
  case h_2 => cases front
  case h_1 ret chosenPage after chosen =>
    obtain ⟨priv, named, taken⟩ := Option.bind_eq_some_iff.mp chosen
    simp only [if_true, Option.some.injEq, Prod.mk.injEq] at taken
    obtain ⟨_, _, rfl⟩ := taken
    obtain ⟨_, mapped, same⟩ := Option.map_eq_some_iff.mp front
    obtain ⟨_, _, rfl⟩ := Option.map_eq_some_iff.mp mapped
    obtain ⟨_, rfl⟩ := Prod.mk.inj same
    rfl

omit [DecidableEq M] in
/-- Where writes fail the pages come round, and the first one stored is returned. -/
theorem allocPages_evicts {kernel : Kernel M} {mm : M} (rounds : Nat)
    (checked : kernel.checkMmStruct = some mm) (ready : kernel.fifo.swapInitOk = true)
    (full : pmm.allocPages kernel.mem.free 1 = none)
    (stored : machine.stores (kernel.writes + rounds) = true)
    (failed : ∀ earlier, earlier < rounds → machine.stores (kernel.writes + earlier) = false)
    (met : ∀ earlier, earlier ≤ rounds →
      ∃ page, pageAt mm earlier kernel.fifo = some page ∧ Resident machine kernel mm page) :
    ∃ page after, allocPages machine pmm 1 (rounds + 2) kernel = some (.ok (page, after)) := by
  induction rounds generalizing kernel with
  | zero =>
    obtain ⟨page, first, resident⟩ := met 0 (Nat.le_refl _)
    obtain ⟨back, front⟩ := pageAt_front first
    have taken := allocPages_round 1 checked ready full front resident
    rw [Nat.add_zero] at stored
    simp only [stored, if_true] at taken
    obtain ⟨after, free, same⟩ := taken
    have found : pmm.allocPages after.mem.free 1 ≠ none := by
      intro none
      have empty := pmm.single _ none
      simp [free] at empty
    obtain ⟨other, found⟩ := Option.ne_none_iff_exists'.mp found
    obtain ⟨last, returned⟩ := @allocPages_found _ machine pmm after 1 other 0 found
    exact ⟨some other, last, same.trans returned⟩
  | succ rounds ih =>
    obtain ⟨page, first, resident⟩ := met 0 (Nat.zero_le _)
    obtain ⟨back, front⟩ := pageAt_front first
    have taken := allocPages_round (rounds + 2) checked ready full front resident
    have refused : machine.stores kernel.writes = false := failed 0 (Nat.succ_pos _)
    simp only [refused, if_false, Bool.false_eq_true] at taken
    have rest : ∀ earlier, earlier ≤ rounds →
        ∃ page, pageAt mm earlier back = some page ∧ Resident machine kernel mm page := by
      intro earlier before
      simpa [pageAt, front] using met (earlier + 1) (Nat.succ_le_succ before)
    have refusedLater : ∀ earlier, earlier < rounds →
        machine.stores ((kernel.putBack back).writes + earlier) = false := by
      intro earlier before
      exact (stores_next kernel back earlier).trans (failed (earlier + 1) (Nat.succ_lt_succ before))
    obtain ⟨other, after, returned⟩ := @ih (kernel.putBack back) checked
      ((requeue_ready front).trans ready) full ((stores_next kernel back rounds).trans stored)
      refusedLater rest
    exact ⟨other, after, taken.trans returned⟩

omit [DecidableEq M] in
/-- A page that can be evicted after a write that failed can be evicted before it. -/
theorem canEvict_putBack {kernel : Kernel M} {mm : M} {page : Nat} {back : Fifo M Nat}
    (checked : kernel.checkMmStruct = some mm) (front : requeue mm kernel.fifo = some (page, back))
    (resident : Resident machine kernel mm page) (refused : machine.stores kernel.writes = false)
    (later : CanEvict machine (kernel.putBack back)) : CanEvict machine kernel := by
  obtain ⟨other, same, rounds, stored, failed, met⟩ := later
  obtain rfl : mm = other := Option.some.inj (checked.symm.trans same)
  refine ⟨mm, checked, rounds + 1, ?_, ?_, ?_⟩
  · exact (stores_next kernel back rounds).symm.trans stored
  · intro earlier before
    cases earlier with
    | zero => exact refused
    | succ earlier => exact (stores_next kernel back earlier).symm.trans (failed earlier (by omega))
  · intro earlier before
    cases earlier with
    | zero => exact ⟨page, by simp [pageAt, front], resident⟩
    | succ earlier =>
      have next : ∃ page, pageAt mm earlier back = some page ∧ Resident machine kernel mm page :=
        met earlier (by omega)
      simpa [pageAt, front] using next

omit [DecidableEq M] in
/-- A call for one page that returns found a free one, or could evict one. -/
theorem allocPages_returns {kernel after : Kernel M} {page : Option Nat} (rounds : Nat)
    (ready : kernel.fifo.swapInitOk = true)
    (returned : allocPages machine pmm 1 rounds kernel = some (.ok (page, after))) :
    pmm.allocPages kernel.mem.free 1 ≠ none ∨ CanEvict machine kernel := by
  induction rounds generalizing kernel with
  | zero => cases returned
  | succ rounds ih =>
    by_cases full : pmm.allocPages kernel.mem.free 1 = none
    swap
    · exact Or.inl full
    refine Or.inr ?_
    cases checked : kernel.checkMmStruct with
    | none => simp [allocPages, full, ready, checked, swapOut] at returned
    | some mm =>
      cases taken : swapOutOnce machine mm kernel with
      | error fault => simp [allocPages, full, ready, checked, swapOut_one, taken] at returned
      | ok result =>
        obtain ⟨front, back, first, resident⟩ := swapOutOnce_sound taken
        have round := allocPages_round rounds checked ready full first resident
        by_cases stored : machine.stores kernel.writes = true
        · refine ⟨mm, checked, 0, stored, by simp, ?_⟩
          intro earlier before
          obtain rfl := Nat.le_zero.mp before
          exact ⟨front, by simp [pageAt, first], resident⟩
        · simp only [stored, if_false, Bool.false_eq_true] at round
          have later := @ih (kernel.putBack back) ((requeue_ready first).trans ready) (round ▸ returned)
          rcases later with found | evicts
          · exact absurd full found
          · exact canEvict_putBack checked first resident (Bool.eq_false_iff.mpr stored) evicts

omit [DecidableEq M] in
/-- `alloc_pages` with swap-out is safe exactly where it finds free pages, is asked for more
than one page, or finds a page to evict. -/
theorem alloc_pages_out_of_memory (machine : SwapMachine M) (pmm : PmmManager) (n : Nat)
    (kernel : Kernel M) (positive : 0 < n) (ready : kernel.fifo.swapInitOk = true) :
    OutOfMemorySafe machine pmm n kernel ↔
      pmm.allocPages kernel.mem.free n ≠ none ∨ 1 < n ∨ CanEvict machine kernel := by
  constructor
  · rintro ⟨rounds, page, after, returned, _⟩
    by_cases single : n = 1
    · subst single
      rcases allocPages_returns rounds ready returned with found | evicts
      · exact Or.inl found
      · exact Or.inr (Or.inr evicts)
    · exact Or.inr (Or.inl (by omega))
  · intro condition
    by_cases full : pmm.allocPages kernel.mem.free n = none
    swap
    · obtain ⟨page, found⟩ := Option.ne_none_iff_exists'.mp full
      obtain ⟨after, returned⟩ := @allocPages_found _ machine pmm kernel n page 0 found
      refine ⟨1, some page, after, returned, ?_⟩
      intro unsatisfiable
      exact absurd ⟨∅, by simp, by simpa using full⟩ unsatisfiable
    by_cases single : n = 1
    · subst single
      obtain found | many | evicts := condition
      · exact absurd full found
      · exact absurd many (by decide)
      · obtain ⟨mm, checked, rounds, stored, failed, met⟩ := evicts
        obtain ⟨page, after, returned⟩ := allocPages_evicts rounds checked ready full stored failed met
        refine ⟨rounds + 2, page, after, returned, ?_⟩
        intro unsatisfiable
        exact absurd (stored_satisfiable ⟨mm, checked, rounds, stored, failed, met⟩) unsatisfiable
    · have many : 1 < n := by omega
      exact ⟨1, none, kernel, by simp [allocPages, full, many], fun _ => rfl⟩

/-- A device that stores every page but the first one it is given. -/
def oneRefusal : SwapMachine Nat where
  pgdir _ := 0
  maxSwapOffset := 56
  stores writes := decide (writes ≠ 0)

/-- No page is free; the pages 3 and 4 are mapped at 0x1000 and 0x2000, through the tables
0, 1 and 2, and wait in the queue of the `mm_struct` given. -/
def twoPages (checkMmStruct : Option Nat) : Kernel Nat where
  mem := {
    table := fun table index =>
      if table < 2 ∧ index.val = 0 then pteCreate (table + 1) pteV
      else if table = 2 ∧ 0 < index.val ∧ index.val < 3 then pteCreate (index.val + 2) pteU
      else .zero
    ref := fun _ => 1
    free := ∅
    calls := 0
    freed := [] }
  fifo := {
    links := {
      next := fun entry => if entry = .head then .link 3 else if entry = .link 3 then .link 4 else .head
      prev := fun entry => if entry = .head then .link 4 else if entry = .link 4 then .link 3 else .head }
    smPriv := fun mm => if mm = 1 then some .head else none
    swapInitOk := true }
  praVaddr page := if page = 3 then 0x1000 else 0x2000
  checkMmStruct := checkMmStruct
  writes := 0

/-- The first page is not stored and goes to the end of the queue; the second one is. -/
theorem alloc_pages_out_of_memory_refused : OutOfMemorySafe oneRefusal firstFit 1 (twoPages (some 1)) := by
  apply (alloc_pages_out_of_memory oneRefusal firstFit 1 (twoPages (some 1)) (by decide) rfl).mpr
  refine Or.inr (Or.inr ⟨1, rfl, 1, rfl, ?_, ?_⟩)
  · intro earlier before
    obtain rfl := Nat.lt_one_iff.mp before
    rfl
  · intro earlier before
    obtain rfl | rfl : earlier = 0 ∨ earlier = 1 := by omega
    · exact ⟨3, by decide, ⟨2, 1, by decide, by decide⟩, by decide⟩
    · exact ⟨4, by decide, ⟨2, 2, by decide, by decide⟩, by decide⟩

/-- After the checks at boot `check_mm_struct` is NULL, and without a free page a call for
one page dereferences it. -/
theorem alloc_page_null_mm :
    allocPages oneRefusal firstFit 1 1 (twoPages none) = some (.error .nullMm) ∧
      ¬OutOfMemorySafe oneRefusal firstFit 1 (twoPages none) := by
  have full : firstFit.allocPages (twoPages none).mem.free 1 = none := by simp [firstFit, twoPages]
  have ready : (twoPages none).fifo.swapInitOk = true := rfl
  have unchecked : (twoPages none).checkMmStruct = none := rfl
  refine ⟨by simp [allocPages, full, ready, unchecked, swapOut], ?_⟩
  rintro ⟨rounds, page, after, returned, _⟩
  rcases allocPages_returns rounds rfl returned with found | ⟨mm, checked, _⟩
  · exact found full
  · cases checked

end Ucore.AllocPages
