import Ucore.Libs.Memory
import Ucore.Mm.SwapFault

/-!
# Pages on the swap device

The functions of lab 3 that move pages between the memory and the swap device, with the contents
of both. There is one `mm_struct`, which is `check_mm_struct`.

The page manager and the swap manager are what they answer to each call, which may depend on the pages
that there are: a free page or none, and a page that was made swappable and is in the memory, or an
error. What a user does and sees is recorded.
-/

namespace Ucore.SwapPages

open AllocPages (swapSlot swapEntry)
open Paging hiding swapEntry
open Vmm (Mm findVma roundDown)
open SwapFault (Call asserted offsetOf)

/-- `SECTSIZE` -/
def sectsize : Nat := 512

/-- `PAGE_NSECT` -/
def pageNsect : Nat := pgsize / sectsize

/-- `MAX_DISK_NSECS` -/
def maxDiskNsecs : Nat := 56

/-- The `max_swap_offset` that `swapfs_init` stores. -/
def maxSwapOffset : Nat := maxDiskNsecs / (pgsize / sectsize)

/-- What happens to the memory of a user: a page gets its first content, or a byte is read or written. The last one is
an access that faults again after `do_pgfault` has returned 0. -/
inductive Event where
  | mapped (la : Nat) (content : Bytes)
  | read (la : Nat) (value : Fin 256)
  | wrote (la : Nat) (value : Fin 256)
  | faultsAgain (la : Nat)

/-- The page directory; the answers of the managers, by the number of the call and the free or the swappable pages; and
`swap_init_ok`. -/
structure Pager where
  pgdir : Nat
  allocator : Nat → Finset Nat → Option Nat
  victim : Nat → Finset Nat → Option Nat
  swapInitOk : Bool

/-- The tables and the free pages; the contents of the pages, and of `ide`; the `pra_vaddr` of each page; the pages that
the swap manager can return, and how often it was asked for one; the areas. The log is history, the last event first. -/
structure SwapState where
  mem : Memory
  data : Nat → Bytes
  ide : Bytes
  praVaddr : Nat → Nat
  swappable : Finset Nat
  victims : Nat
  mm : Mm
  log : List Event

/-- The contents of a page change. -/
def SwapState.fill (state : SwapState) (page : Nat) (bytes : Bytes) : SwapState :=
  { state with data := Function.update state.data page bytes }

/-- The contents of the swap device change. -/
def SwapState.store (state : SwapState) (ide : Bytes) : SwapState := { state with ide }

/-! ## The swap device -/

/-- `ide_read_secs`, which returns 0; an index of a sector that there is has less than 31 bits. -/
def ideReadSecs (ide : Bytes) (secno : Nat) (dst : Bytes) (nsecs : Nat) : Bytes :=
  memcpy dst 0 (fun index => ide (secno * sectsize + index)) (nsecs * sectsize)

/-- `ide_write_secs`, which returns 0. -/
def ideWriteSecs (ide : Bytes) (secno : Nat) (src : Bytes) (nsecs : Nat) : Bytes :=
  memcpy ide (secno * sectsize) src (nsecs * sectsize)

/-- `swap_offset` -/
def swapOffset (entry : Pte) : Call Nat :=
  if 0 < offsetOf entry ∧ offsetOf entry < maxSwapOffset then pure (offsetOf entry) else throw .badEntry

/-- `swapfs_read` -/
def swapfsRead (state : SwapState) (entry : Pte) (page : Nat) : Call (Int × SwapState) := do
  let offset ← swapOffset entry
  pure (0, state.fill page (ideReadSecs state.ide (offset * pageNsect) (state.data page) pageNsect))

/-- `swapfs_write` -/
def swapfsWrite (state : SwapState) (entry : Pte) (page : Nat) : Call (Int × SwapState) := do
  let offset ← swapOffset entry
  pure (0, state.store (ideWriteSecs state.ide (offset * pageNsect) (state.data page) pageNsect))

/-! ## Eviction -/

/-- `free_page`, which clears `ref`. -/
def freePage (mem : Memory) (page : Nat) : Option Memory :=
  (Paging.freePage mem page).map fun mem => { mem with ref := Function.update mem.ref page 0 }

/-- `swap_map_swappable` -/
def swapMapSwappable (state : SwapState) (page : Nat) : SwapState :=
  { state with swappable := insert page state.swappable }

variable (pager : Pager)

/-- `swap_out_victim` of the swap manager. -/
def swapOutVictim (state : SwapState) : Option Nat × SwapState :=
  match pager.victim state.victims state.swappable with
  | some page =>
      if page ∈ state.swappable then
        (some page, { state with
          swappable := state.swappable.erase page
          victims := state.victims + 1 })
      else (none, { state with victims := state.victims + 1 })
  | none => (none, { state with victims := state.victims + 1 })

/-- One round of `swap_out`, which tells whether there is a next one. -/
def swapOutOnce (state : SwapState) : Call (Bool × SwapState) :=
  match swapOutVictim pager state with
  | (none, state) => pure (false, state)
  | (some page, state) =>
      match (Paging.getPte (fun _ => none) false state.mem pager.pgdir (state.praVaddr page)).1 with
      | none => throw .nullPte
      | some (pt, index) =>
          if (state.mem.table pt index).flags &&& pteV = 0#10 then throw .assertion
          else do
            let (ret, state) ← swapfsWrite state (swapEntry (swapSlot (state.praVaddr page))) page
            if ret ≠ 0 then pure (true, swapMapSwappable state page)
            else
              let mem := state.mem.setPte pt index (swapEntry (swapSlot (state.praVaddr page)))
              let mem ← asserted (freePage mem page)
              pure (true, { state with mem })

/-- `swap_out` -/
def swapOut : Nat → SwapState → Call SwapState
  | 0, state => pure state
  | n + 1, state => do
      let (goOn, state) ← swapOutOnce pager state
      if goOn then swapOut n state else pure state

/-- `alloc_page`, if its loop ends within the rounds given. -/
def allocPage : Nat → SwapState → Call (Option Nat × SwapState)
  | 0, _ => ExceptT.mk none
  | rounds + 1, state =>
      match Paging.allocPage (fun calls => pager.allocator calls state.mem.free) state.mem with
      | (some page, mem) => pure (some page, { state with mem })
      | (none, mem) =>
          if pager.swapInitOk = false then pure (none, { state with mem })
          else do
            let state ← swapOut pager 1 { state with mem }
            allocPage rounds state

/-! ## Faults -/

variable (rounds : Nat)

/-- One level of `get_pte`, with `create`. -/
def getTable (state : SwapState) (table : Nat) (index : Fin 512) : Call (Option Nat × SwapState) :=
  match state.mem.entry table index with
  | some page => pure (some page, state)
  | none => do
      let (page, state) ← allocPage pager rounds state
      match page with
      | some page => pure (some page, { state.fill page fun _ => 0 with mem := state.mem.newTable table index page })
      | none => pure (none, state)

/-- `get_pte` with `create`. -/
def getPte (state : SwapState) (la : Nat) : Call (Option (Nat × Fin 512) × SwapState) := do
  let (pd0, state) ← getTable pager rounds state pager.pgdir (pdx1 la)
  match pd0 with
  | none => pure (none, state)
  | some pd0 =>
      let (pt, state) ← getTable pager rounds state pd0 (pdx0 la)
      pure (pt.map fun pt => (pt, ptx la), state)

/-- `page_insert` -/
def pageInsert (state : SwapState) (page la : Nat) (perm : BitVec 10) : Call (Int × SwapState) := do
  let (location, state) ← getPte pager rounds state la
  match location with
  | none => pure (-eNoMem, state)
  | some (pt, index) =>
      let mem := state.mem.addRef page 1
      let mem ← asserted (if mem.entry pt index = some page then some (mem.addRef page (-1))
        else pageRemovePte mem pt index)
      pure (0, { state with mem := mem.setPte pt index (pteCreate page (pteV ||| perm)) })

/-- `swap_map_swappable`, and `page->pra_vaddr = la`. -/
def track (state : SwapState) (page la : Nat) : SwapState :=
  { swapMapSwappable state page with praVaddr := Function.update state.praVaddr page la }

/-- `pgdir_alloc_page` -/
def pgdirAllocPage (state : SwapState) (la : Nat) (perm : BitVec 10) : Call (Option Nat × SwapState) := do
  let (page, state) ← allocPage pager rounds state
  match page with
  | none => pure (none, state)
  | some page =>
      let (ret, state) ← pageInsert pager rounds state page la perm
      if ret ≠ 0 then
        let mem ← asserted (freePage state.mem page)
        pure (none, { state with mem })
      else if pager.swapInitOk then
        if state.mem.ref page = 1 then pure (some page, track state page la) else throw .assertion
      else pure (some page, state)

/-- `swap_in` -/
def swapIn (state : SwapState) (la : Nat) : Call (Int × Nat × SwapState) := do
  let (page, state) ← allocPage pager rounds state
  match page with
  | none => throw .assertion
  | some page =>
      match (Paging.getPte (fun _ => none) false state.mem pager.pgdir la).1 with
      | none => throw .nullPte
      | some (pt, index) =>
          let (_, state) ← swapfsRead state (state.mem.table pt index) page
          pure (0, page, state)

/-- `do_pgfault` -/
def doPgfault (state : SwapState) (addr : BitVec 64) : Call (Int × SwapState) :=
  match findVma state.mm addr with
  | (none, mm) => pure (-eInval, { state with mm })
  | (some vma, mm) =>
      let state := { state with mm }
      if addr < vma.vmStart then pure (-eInval, state)
      else do
        let la := (roundDown addr).toNat
        let (location, state) ← getPte pager rounds state la
        match location with
        | none => pure (-eNoMem, state)
        | some (pt, index) =>
            if state.mem.table pt index = .zero then
              let (page, state) ← pgdirAllocPage pager rounds state la (SwapFault.pgfaultPerm vma)
              match page with
              | none => pure (-eNoMem, state)
              | some page => pure (0, { state with log := .mapped la (state.data page) :: state.log })
            else if pager.swapInitOk then
              let (ret, page, state) ← swapIn pager rounds state la
              if ret ≠ 0 then pure (ret, state)
              else
                let (_, state) ← pageInsert pager rounds state page la (SwapFault.pgfaultPerm vma)
                pure (0, track state page la)
            else pure (-eNoMem, state)

/-! ## Accesses -/

instance (pte : Pte) (flag : BitVec 10) : Decidable (pte.Permits flag) := inferInstanceAs (Decidable (_ ∧ _ ∧ _))

/-- The page that the processor finds for an access of a user with this permission. -/
def translate (state : SwapState) (addr : BitVec 64) (flag : BitVec 10) : Option Nat :=
  let pte := state.mem.leaf pager.pgdir (pathOf addr.toNat)
  if pte.Permits flag then some pte.ppn else none

/-- An access, which is made again after a fault. -/
def access (state : SwapState) (addr : BitVec 64) (flag : BitVec 10) : Call (Option Nat × SwapState) :=
  match translate pager state addr flag with
  | some page => pure (some page, state)
  | none => do
      let (ret, state) ← doPgfault pager rounds state addr
      if ret ≠ 0 then pure (none, state)
      else
        match translate pager state addr flag with
        | some page => pure (some page, state)
        | none => pure (none, { state with log := .faultsAgain addr.toNat :: state.log })

/-- A read of the user, a write, or `swap_out`. -/
inductive SwapOperation where
  | read (addr : BitVec 64)
  | write (addr : BitVec 64) (value : Fin 256)
  | swapOut (n : Nat)

/-- The place of an address in its page. -/
def pageOffset (addr : BitVec 64) : Nat := addr.toNat % pgsize

/-- The operation as a call; a fault that is not resolved ends an access. -/
def operate (state : SwapState) : SwapOperation → Call SwapState
  | .read addr => do
      let (page, state) ← access pager rounds state addr pteR
      match page with
      | none => pure state
      | some page => pure { state with log := .read addr.toNat (state.data page (pageOffset addr)) :: state.log }
  | .write addr value => do
      let (page, state) ← access pager rounds state addr pteW
      match page with
      | none => pure state
      | some page => pure { state.fill page (Function.update (state.data page) (pageOffset addr) value) with
          log := .wrote addr.toNat value :: state.log }
  | .swapOut n => swapOut pager n state

/-- One operation that returns. -/
def swapStep (state : SwapState) (operation : SwapOperation) : Option SwapState :=
  match (operate pager rounds state operation).run with
  | some (.ok state) => some state
  | _ => none

end Ucore.SwapPages
