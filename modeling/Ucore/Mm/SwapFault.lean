import Ucore.Mm.AllocPages
import Ucore.Mm.PgFault

/-!
# Page faults with swapping

In `do_pgfault` of lab 3 an entry that is not 0 stands for a page on the swap device:
`swap_in` takes a page, reads the slot that the entry names into it, and the page is mapped
and made swappable. `swap.h` says that bit 0 of such an entry is 0, which is `PTE_V`, but
`do_pgfault` does not look at it.

A call is bounded by the rounds of the loop in `alloc_pages`. The contents of pages and of
the swap device, and `pgfault_num`, are left out; the slots that were read are history.
-/

namespace Ucore.SwapFault

open AllocPages Paging SwapFifo Transition Vmm

variable {M : Type} [DecidableEq M]

/-- A call, which may end in a fault. -/
abbrev Call (α : Type) := ExceptT Fault Option α

/-- The kernel, the areas of each `mm_struct`, and the slots read from the swap device. -/
structure FaultState (M : Type) where
  kernel : Kernel M
  mms : M → Mm
  reads : List Nat

/-- A result, or a failed assertion. -/
def asserted {α : Type} : Option α → Call α
  | some result => pure result
  | none => throw .assertion

variable (machine : SwapMachine M) (pmm : PmmManager) (rounds : Nat)

/-- `alloc_page` -/
def allocPage (kernel : Kernel M) : Call (Option Nat × Kernel M) := ExceptT.mk (allocPages machine pmm 1 rounds kernel)

/-- One level of `get_pte`, with `create`. -/
def getTable (kernel : Kernel M) (table : Nat) (index : Fin 512) : Call (Option Nat × Kernel M) :=
  match kernel.mem.entry table index with
  | some page => pure (some page, kernel)
  | none => do
      let (page, kernel) ← allocPage machine pmm rounds kernel
      match page with
      | some page => pure (some page, { kernel with mem := kernel.mem.newTable table index page })
      | none => pure (none, kernel)

/-- `get_pte` with `create`. -/
def getPte (kernel : Kernel M) (pgdir la : Nat) : Call (Option (Nat × Fin 512) × Kernel M) := do
  let (pd0, kernel) ← getTable machine pmm rounds kernel pgdir (pdx1 la)
  match pd0 with
  | none => pure (none, kernel)
  | some pd0 =>
      let (pt, kernel) ← getTable machine pmm rounds kernel pd0 (pdx0 la)
      pure (pt.map fun pt => (pt, ptx la), kernel)

/-- `page_insert` -/
def pageInsert (kernel : Kernel M) (pgdir page la : Nat) (perm : BitVec 10) : Call (Int × Kernel M) := do
  let (location, kernel) ← getPte machine pmm rounds kernel pgdir la
  match location with
  | none => pure (-eNoMem, kernel)
  | some (pt, index) =>
      let mem := kernel.mem.addRef page 1
      let mem ← asserted (if mem.entry pt index = some page then some (mem.addRef page (-1))
        else pageRemovePte mem pt index)
      pure (0, { kernel with mem := mem.setPte pt index (pteCreate page (pteV ||| perm)) })

/-- `swap_map_swappable`, and `page->pra_vaddr = la`. -/
def swapMapSwappable (kernel : Kernel M) (mm : M) (page la : Nat) : Call (Kernel M) := do
  let fifo ← asserted (fifoMapSwappable mm page kernel.fifo)
  pure { kernel with
    fifo := fifo
    praVaddr := Function.update kernel.praVaddr page la }

/-- `pgdir_alloc_page` -/
def pgdirAllocPage (kernel : Kernel M) (pgdir la : Nat) (perm : BitVec 10) : Call (Option Nat × Kernel M) := do
  let (page, kernel) ← allocPage machine pmm rounds kernel
  match page with
  | none => pure (none, kernel)
  | some page =>
      let (ret, kernel) ← pageInsert machine pmm rounds kernel pgdir page la perm
      if ret ≠ 0 then
        let mem ← asserted (freePage kernel.mem page)
        pure (none, { kernel with mem })
      else if kernel.fifo.swapInitOk then
        match kernel.checkMmStruct with
        | none => throw .nullMm
        | some mm =>
            let kernel ← swapMapSwappable kernel mm page la
            if kernel.mem.ref page = 1 then pure (some page, kernel) else throw .assertion
      else pure (some page, kernel)

/-- `entry >> 8` -/
def offsetOf (entry : Pte) : Nat := entry.ppn * 4 + entry.flags.toNat / 256

/-- `swap_offset` -/
def swapOffset (entry : Pte) : Call Nat :=
  if 0 < offsetOf entry ∧ offsetOf entry < machine.maxSwapOffset then pure (offsetOf entry) else throw .badEntry

/-- `swap_in`; `swapfs_read` returns 0. -/
def swapIn (state : FaultState M) (mm : M) (la : Nat) : Call (Int × Nat × FaultState M) := do
  let (page, kernel) ← allocPage machine pmm rounds state.kernel
  match page with
  | none => throw .assertion
  | some page =>
      match (Paging.getPte (fun _ => none) false kernel.mem (machine.pgdir mm) la).1 with
      | none => throw .nullPte
      | some (pt, index) =>
          let slot ← swapOffset machine (kernel.mem.table pt index)
          pure (0, page, { state with
            kernel := kernel
            reads := state.reads ++ [slot] })

/-- The flags of the entry that `do_pgfault` makes in an area. -/
def pgfaultPerm (vma : Vma) : BitVec 10 := if vma.vmFlags &&& vmWrite ≠ 0#32 then pteU ||| (pteR ||| pteW) else pteU

/-- `do_pgfault` -/
def doPgfault (state : FaultState M) (mm : M) (addr : BitVec 64) : Call (Int × FaultState M) :=
  match findVma (state.mms mm) addr with
  | (none, found) => pure (-eInval, { state with mms := Function.update state.mms mm found })
  | (some vma, found) =>
      let state := { state with mms := Function.update state.mms mm found }
      if addr < vma.vmStart then pure (-eInval, state)
      else do
        let la := (roundDown addr).toNat
        let (location, kernel) ← getPte machine pmm rounds state.kernel (machine.pgdir mm) la
        match location with
        | none => pure (-eNoMem, { state with kernel })
        | some (pt, index) =>
            if kernel.mem.table pt index = .zero then
              let (page, kernel) ← pgdirAllocPage machine pmm rounds kernel (machine.pgdir mm) la (pgfaultPerm vma)
              pure (if page = none then -eNoMem else 0, { state with kernel })
            else if kernel.fifo.swapInitOk then
              let (ret, page, state) ← swapIn machine pmm rounds { state with kernel } mm la
              if ret ≠ 0 then pure (ret, state)
              else
                let (_, kernel) ← pageInsert machine pmm rounds state.kernel (machine.pgdir mm) page la (pgfaultPerm vma)
                let kernel ← swapMapSwappable kernel mm page la
                pure (0, { state with kernel })
            else pure (-eNoMem, { state with kernel })

/-! ## What a call returns -/

variable {machine} {pmm} {rounds} {α β : Type}

theorem pure_run (result : α) : (pure result : Call α).run = some (.ok result) := rfl

/-- A call that returns after another one. -/
theorem bind_returns {call : Call α} {rest : α → Call β} {result : β} (returned : (call >>= rest).run = some (.ok result)) :
    ∃ middle, call.run = some (.ok middle) ∧ (rest middle).run = some (.ok result) := by
  rw [ExceptT.run_bind] at returned
  cases ran : call.run with
  | none =>
    rw [ran] at returned
    cases returned
  | some outcome =>
    rw [ran] at returned
    cases outcome with
    | error fault => cases returned
    | ok middle => exact ⟨middle, rfl, returned⟩

/-- A call goes on where a call before it returns. -/
theorem bind_run {call : Call α} {rest : α → Call β} {middle : α} (returned : call.run = some (.ok middle)) :
    (call >>= rest).run = (rest middle).run := by
  rw [ExceptT.run_bind, returned]
  rfl

/-! ## An entry that is present -/

variable {state after : FaultState M} {kernel : Kernel M} {mm : M} {vma : Vma} {addr : BitVec 64} {pgdir la pt page : Nat}

omit [DecidableEq M] in
/-- `swap_in` returns no error. -/
theorem swapIn_zero {next : FaultState M} {ret : Int}
    (returned : (swapIn machine pmm rounds state mm la).run = some (.ok (ret, page, next))) : ret = 0 := by
  obtain ⟨⟨taken, kernel⟩, _, returned⟩ := bind_returns returned
  cases taken with
  | none => cases returned
  | some taken =>
    dsimp only at returned
    split at returned
    · cases returned
    · obtain ⟨slot, _, returned⟩ := bind_returns returned
      cases returned
      rfl

omit [DecidableEq M] in
/-- `get_pte` finds the entry in the tables that are there. -/
theorem getPte_found (isLast : kernel.mem.lastTable pgdir (pdx1 la) (pdx0 la) = some pt) :
    (getPte machine pmm rounds kernel pgdir la).run = some (.ok (some (pt, ptx la), kernel)) := by
  obtain ⟨pd0, first, second⟩ := Option.bind_eq_some_iff.mp isLast
  have firstRun : (getTable machine pmm rounds kernel pgdir (pdx1 la)).run = some (.ok (some pd0, kernel)) := by
    simp only [getTable, first, pure_run]
  have secondRun : (getTable machine pmm rounds kernel pd0 (pdx0 la)).run = some (.ok (some pt, kernel)) := by
    simp only [getTable, second, pure_run]
  rw [getPte, bind_run firstRun]
  dsimp only
  rw [bind_run secondRun, pure_run]
  rfl

/-- A present page, at an address of an area. -/
structure Present (machine : SwapMachine M) (state : FaultState M) (mm : M) (vma : Vma) (addr : BitVec 64) : Prop where
  disjoint : (state.mms mm).Disjoint
  member : vma ∈ (state.mms mm).mmapList
  contains : vma.Contains addr
  valid : (state.kernel.mem.leaf (machine.pgdir mm) (pathOf addr.toNat)).flags &&& pteV ≠ 0#10

/-- The area becomes the one that was found last. -/
def FaultState.found (state : FaultState M) (mm : M) (addr : BitVec 64) : FaultState M :=
  { state with mms := Function.update state.mms mm (findVma (state.mms mm) addr).2 }

omit [DecidableEq M] in
/-- The entry is in a table that is there. -/
theorem Present.last (present : Present machine state mm vma addr) :
    ∃ pt, state.kernel.mem.lastTable (machine.pgdir mm) (pdx1 (roundDown addr).toNat) (pdx0 (roundDown addr).toNat) = some pt ∧
      state.kernel.mem.leaf (machine.pgdir mm) (pathOf addr.toNat) =
        state.kernel.mem.table pt (ptx (roundDown addr).toNat) := by
  have valid := present.valid
  rw [← pathOf_roundDown] at valid ⊢
  cases isLast : state.kernel.mem.lastTable (machine.pgdir mm) (pdx1 (roundDown addr).toNat) (pdx0 (roundDown addr).toNat) with
  | none =>
    have isZero : state.kernel.mem.leaf (machine.pgdir mm) (pathOf (roundDown addr).toNat) = .zero := leaf_none isLast _
    rw [isZero] at valid
    exact absurd rfl valid
  | some pt => exact ⟨pt, rfl, leaf_table isLast _⟩

/-- `do_pgfault` goes on to `swap_in` when the manager is ready, and refuses when it is not. -/
theorem Present.doPgfault_run (present : Present machine state mm vma addr) :
    (doPgfault machine pmm rounds state mm addr).run =
      if state.kernel.fifo.swapInitOk then
        (do
          let (ret, page, state) ← swapIn machine pmm rounds (state.found mm addr) mm (roundDown addr).toNat
          if ret ≠ 0 then pure (ret, state)
          else
            let (_, kernel) ← pageInsert machine pmm rounds state.kernel (machine.pgdir mm) page (roundDown addr).toNat
              (pgfaultPerm vma)
            let kernel ← swapMapSwappable kernel mm page (roundDown addr).toNat
            pure (0, { state with kernel }) : Call (Int × FaultState M)).run
      else some (.ok (-eNoMem, state.found mm addr)) := by
  have covers := Vma.contains_iff.mp present.contains
  rcases present.disjoint.find_cases addr with ⟨found, inList, coversToo, isFound⟩ | ⟨absent, _⟩
  · obtain rfl := present.disjoint.unique inList present.member coversToo covers
    obtain ⟨pt, isLast, isLeaf⟩ := present.last
    have nonzero : state.kernel.mem.table pt (ptx (roundDown addr).toNat) ≠ .zero := by
      intro isZero
      refine present.valid ?_
      rw [isLeaf, isZero]
      rfl
    rw [doPgfault, isFound]
    dsimp only
    rw [if_neg (BitVec.not_lt.mpr present.contains.1), bind_run (getPte_found isLast)]
    dsimp only
    rw [if_neg nonzero, FaultState.found, isFound]
    split
    · rfl
    · rfl
  · exact absurd covers (absent vma present.member)

/-! ## Refused faults -/

/-- `do_pgfault` returns an error; the tables, the references, the list of swappable pages and the
free pages are as before, and no slot was read. -/
def Refuses (machine : SwapMachine M) (pmm : PmmManager) (state : FaultState M) (mm : M) (addr : BitVec 64) : Prop :=
  ∃ ret after, Returns (fun rounds => (doPgfault machine pmm rounds state mm addr).run) (.ok (ret, after)) ∧ ret ≠ 0 ∧
    after.kernel.mem.table = state.kernel.mem.table ∧ after.kernel.mem.ref = state.kernel.mem.ref ∧
    after.kernel.fifo.links = state.kernel.fifo.links ∧ after.kernel.mem.free = state.kernel.mem.free ∧
    after.reads = state.reads

/-- A fault on a present page is refused only while swapping is not initialised. -/
theorem do_pgfault_present_exact (present : Present machine state mm vma addr) :
    Refuses machine pmm state mm addr ↔ state.kernel.fifo.swapInitOk = false := by
  constructor
  · rintro ⟨ret, after, ⟨enough, exact⟩, isError, _⟩
    by_contra ready
    have returned := exact enough (Nat.le_refl _)
    simp only [present.doPgfault_run, if_pos (Bool.not_eq_false _ ▸ ready)] at returned
    -- `swap_in` returns 0, so the call does
    obtain ⟨⟨read, page, middle⟩, swapped, returned⟩ := bind_returns returned
    obtain rfl := swapIn_zero swapped
    obtain ⟨⟨_, inserted⟩, _, returned⟩ := bind_returns returned
    obtain ⟨mapped, _, returned⟩ := bind_returns returned
    simp only [pure_run, Option.some.injEq, Except.ok.injEq, Prod.mk.injEq] at returned
    exact isError returned.1.symm
  · intro off
    refine ⟨-eNoMem, state.found mm addr, ⟨0, fun rounds _ => ?_⟩, by decide, rfl, rfl, rfl, rfl, rfl⟩
    simp only [present.doPgfault_run, off, Bool.false_eq_true, if_false]

/-- When there is a free page, the number of the page that is mapped is taken for a slot. -/
theorem Present.badEntry (present : Present machine state mm vma addr) (ready : state.kernel.fifo.swapInitOk = true)
    (free : state.kernel.mem.free ≠ ∅)
    (high : machine.maxSwapOffset ≤ offsetOf (state.kernel.mem.leaf (machine.pgdir mm) (pathOf addr.toNat)))
    (rounds : Nat) : (doPgfault machine pmm (rounds + 1) state mm addr).run = some (.error .badEntry) := by
  rw [present.doPgfault_run, if_pos ready]
  obtain ⟨page, isFree⟩ := Option.ne_none_iff_exists'.mp (mt (pmm.single state.kernel.mem.free) free)
  have allocated : (allocPage machine pmm (rounds + 1) (state.found mm addr).kernel).run =
      some (.ok (some page, { state.kernel with
        mem := { state.kernel.mem with
          free := state.kernel.mem.free.filter fun other => ¬(page ≤ other ∧ other < page + 1) } })) := by
    rw [allocPage, ExceptT.run_mk, allocPages]
    simp only [FaultState.found, isFree]
  obtain ⟨pt, isLast, isLeaf⟩ := present.last
  rw [isLeaf] at high
  have refused : ¬ (0 < offsetOf (state.kernel.mem.table pt (ptx (roundDown addr).toNat)) ∧
      offsetOf (state.kernel.mem.table pt (ptx (roundDown addr).toNat)) < machine.maxSwapOffset) :=
    fun inside => Nat.not_lt_of_le high inside.2
  have failed : (swapIn machine pmm (rounds + 1) (state.found mm addr) mm (roundDown addr).toNat).run =
      some (.error .badEntry) := by
    rw [swapIn, bind_run allocated]
    dsimp only
    have located := congrArg Prod.fst (getPte_lookup (fun _ => none) { state.kernel.mem with
      free := state.kernel.mem.free.filter fun other => ¬(page ≤ other ∧ other < page + 1) } (machine.pgdir mm)
      (roundDown addr).toNat)
    rw [show Memory.lastTable { state.kernel.mem with
      free := state.kernel.mem.free.filter fun other => ¬(page ≤ other ∧ other < page + 1) } (machine.pgdir mm)
      (pdx1 (roundDown addr).toNat) (pdx0 (roundDown addr).toNat) = some pt from isLast] at located
    rw [located]
    dsimp only [Option.map_some]
    rw [swapOffset, if_neg refused]
    rfl
  rw [ExceptT.run_bind, failed]
  rfl

/-! ## One page -/

/-- Seven slots. -/
def sevenSlots : SwapMachine Nat where
  pgdir _ := 0x80300
  maxSwapOffset := 7
  stores _ := true

/-- A page that may be read, in an area of two megabytes, and a free page. -/
def onePresent (swapInitOk : Bool) : FaultState Nat where
  kernel := {
    mem := {
      table := fun table index =>
        if table = 0x80300 ∧ index.val = 0 then pteCreate 0x80301 pteU
        else if table = 0x80301 ∧ index.val = 1 then pteCreate 0x80302 pteU
        else if table = 0x80302 ∧ index.val = 0 then pteCreate 0x80303 (pteU ||| pteR)
        else .zero
      ref := fun _ => 1
      free := {0x80304}
      calls := 0
      freed := [] }
    fifo := {
      links := {
        next := fun entry => if entry = .head then .link 0x80303 else .head
        prev := fun entry => if entry = .head then .link 0x80303 else .head }
      smPriv := fun mm => if mm = 1 then some .head else none
      swapInitOk := swapInitOk }
    praVaddr := fun _ => 0x200000
    checkMmStruct := some 1
    writes := 0 }
  mms := fun _ => oneArea 1#32
  reads := []

theorem onePresent_present (swapInitOk : Bool) :
    Present sevenSlots (onePresent swapInitOk) 1 ⟨0x200000#64, 0x400000#64, 1#32⟩ 0x200010#64 where
  disjoint := oneArea_disjoint 1#32
  member := List.mem_cons_self
  contains := by decide
  valid := by cases swapInitOk <;> decide

/-- Before `swap_init` the fault is refused. -/
theorem do_pgfault_present_off : Refuses sevenSlots firstFit (onePresent false) 1 0x200010#64 :=
  (do_pgfault_present_exact (onePresent_present false)).mpr rfl

/-- After it, the kernel stops. -/
theorem do_pgfault_present_panics :
    (∀ rounds, (doPgfault sevenSlots firstFit (rounds + 1) (onePresent true) 1 0x200010#64).run = some (.error .badEntry)) ∧
      ¬ Refuses sevenSlots firstFit (onePresent true) 1 0x200010#64 := by
  have stops : ∀ rounds, (doPgfault sevenSlots firstFit (rounds + 1) (onePresent true) 1 0x200010#64).run =
      some (.error .badEntry) := (onePresent_present true).badEntry rfl (by decide) (by decide)
  refine ⟨stops, ?_⟩
  rintro ⟨ret, after, ⟨enough, exact⟩, _⟩
  have returned := exact (enough + 1) (Nat.le_succ _)
  simp only [stops] at returned
  cases returned

end Ucore.SwapFault
