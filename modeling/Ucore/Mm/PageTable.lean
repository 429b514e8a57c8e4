import Mathlib.Data.Finset.Insert
import Mathlib.Data.Fintype.Basic
import Ucore.Libs.Error
import Ucore.Mm.Vmm

/-!
# Page tables

The page tables of `kern/mm/pmm.c` are pages of 512 entries, in three levels. An entry has
the number of a page and ten flags. Pages count the entries of the last level that name
them.

The page allocator gives free pages, in any order, or none; `allocator` is what it answers
to each call. The entries only hold numbers of pages, so `KADDR` and `pa2page` succeed.
-/

namespace Ucore.Paging

open Vmm

/-- `USER_ACCESS`, of addresses as numbers; no address in the range wraps. -/
def UserRange (start stop : Nat) : Prop := 0x200000 ≤ start ∧ start < stop ∧ stop ≤ 0x80000000

instance (start stop : Nat) : Decidable (UserRange start stop) := inferInstanceAs (Decidable (_ ∧ _ ∧ _))

/-- `PGSIZE`, `PTSIZE` and `PDSIZE`, the sizes of what an entry of each level maps. -/
def pgsize : Nat := 4096
def ptsize : Nat := 512 * pgsize
def pdsize : Nat := 512 * ptsize

/-- A loop that goes on inside its range ends. -/
theorem advance_lt {start size stop : Nat} (positive : 0 < size) (inside : start + size < stop) :
    stop - (start + size) < stop - start := by
  omega

/-- The start of the next table is behind. -/
theorem next_gt {start size : Nat} (positive : 0 < size) : start < (start + size) / size * size := by
  have rest := Nat.div_add_mod (start + size) size
  have small := Nat.mod_lt (start + size) positive
  rw [Nat.mul_comm] at rest
  omega

/-- `PDX1`, `PDX0` and `PTX` -/
def pdx1 (la : Nat) : Fin 512 := Fin.ofNat 512 (la / pdsize)
def pdx0 (la : Nat) : Fin 512 := Fin.ofNat 512 (la / ptsize)
def ptx (la : Nat) : Fin 512 := Fin.ofNat 512 (la / pgsize)

/-- An entry of a page table. -/
structure Pte where
  ppn : Nat
  flags : BitVec 10
deriving DecidableEq

/-- `PTE_V` and `PTE_U` -/
def pteV : BitVec 10 := 0x001#10
def pteU : BitVec 10 := 0x010#10

/-- The entry 0. -/
def Pte.zero : Pte where
  ppn := 0
  flags := 0#10

/-- `pte_create` -/
def pteCreate (ppn : Nat) (type : BitVec 10) : Pte where
  ppn := ppn
  flags := pteV ||| type

/-- The page of an entry that has `PTE_V`. -/
def Pte.page? (pte : Pte) : Option Nat := if pte.flags &&& pteV ≠ 0#10 then some pte.ppn else none

/-- The pages, by number: their entries, if they are tables, and their `ref`; the pages that
are free, and the calls of the allocator so far. The last field is history: the pages given
to `free_page`. -/
structure Memory where
  table : Nat → Fin 512 → Pte
  ref : Nat → Int
  free : Finset Nat
  calls : Nat
  freed : List Nat

variable (allocator : Nat → Option Nat)

/-- `alloc_page` -/
def allocPage (mem : Memory) : Option Nat × Memory :=
  match allocator mem.calls with
  | some page =>
      if page ∈ mem.free then (some page, { mem with free := mem.free.erase page, calls := mem.calls + 1 })
      else (none, { mem with calls := mem.calls + 1 })
  | none => (none, { mem with calls := mem.calls + 1 })

/-- `free_page`; `none` is a page that is free, or a failed assertion, here and below. -/
def freePage (mem : Memory) (page : Nat) : Option Memory :=
  if page ∈ mem.free then none
  else some { mem with free := insert page mem.free, freed := mem.freed ++ [page] }

/-- An entry of a table is stored. -/
def Memory.setPte (mem : Memory) (table : Nat) (index : Fin 512) (pte : Pte) : Memory :=
  { mem with table := Function.update mem.table table (Function.update (mem.table table) index pte) }

/-- `page->ref` changes. -/
def Memory.addRef (mem : Memory) (page : Nat) (change : Int) : Memory :=
  { mem with ref := Function.update mem.ref page (mem.ref page + change) }

/-- The page that an entry names. -/
def Memory.entry (mem : Memory) (table : Nat) (index : Fin 512) : Option Nat := (mem.table table index).page?

/-- A new table, in an entry of another one. -/
def Memory.newTable (mem : Memory) (table : Nat) (index : Fin 512) (page : Nat) : Memory :=
  ({ mem with
    ref := Function.update mem.ref page 1
    table := Function.update mem.table page fun _ => Pte.zero } : Memory).setPte table index (pteCreate page (pteU ||| pteV))

/-- The table that an entry names, or a new one: one level of `get_pte`. -/
def getTable (create : Bool) (mem : Memory) (table : Nat) (index : Fin 512) : Option Nat × Memory :=
  match mem.entry table index with
  | some page => (some page, mem)
  | none =>
      if create then
        match allocPage allocator mem with
        | (some page, mem) => (some page, mem.newTable table index page)
        | (none, mem) => (none, mem)
      else (none, mem)

/-- `get_pte`, with the table and the index of the entry. -/
def getPte (create : Bool) (mem : Memory) (pgdir la : Nat) : Option (Nat × Fin 512) × Memory :=
  match getTable allocator create mem pgdir (pdx1 la) with
  | (some pd0, mem) =>
      match getTable allocator create mem pd0 (pdx0 la) with
      | (some pt, mem) => (some (pt, ptx la), mem)
      | (none, mem) => (none, mem)
  | (none, mem) => (none, mem)

/-- `get_page` -/
def getPage (mem : Memory) (pgdir la : Nat) : Option Nat :=
  (getPte allocator false mem pgdir la).1.bind fun (pt, index) => mem.entry pt index

/-- `page_remove_pte` -/
def pageRemovePte (mem : Memory) (pt : Nat) (index : Fin 512) : Option Memory :=
  match mem.entry pt index with
  | some page => do
      let mem := mem.addRef page (-1)
      let mem ← if mem.ref page = 0 then freePage mem page else some mem
      some (mem.setPte pt index .zero)
  | none => some mem

/-- `page_remove` -/
def pageRemove (mem : Memory) (pgdir la : Nat) : Option Memory :=
  match getPte allocator false mem pgdir la with
  | (some (pt, index), mem) => pageRemovePte mem pt index
  | (none, mem) => some mem

/-- `page_insert` -/
def pageInsert (mem : Memory) (pgdir page la : Nat) (perm : BitVec 10) : Option (Int × Memory) :=
  match getPte allocator true mem pgdir la with
  | (some (pt, index), mem) =>
      (if (mem.addRef page 1).entry pt index = some page then some ((mem.addRef page 1).addRef page (-1))
        else pageRemovePte (mem.addRef page 1) pt index).map fun mem =>
          (0, mem.setPte pt index (pteCreate page (pteV ||| perm)))
  | (none, mem) => some (-eNoMem, mem)

/-- `pgdir_alloc_page`, when pages are not swapped. -/
def pgdirAllocPage (mem : Memory) (pgdir la : Nat) (perm : BitVec 10) : Option (Option Nat × Memory) :=
  match allocPage allocator mem with
  | (some page, mem) => do
      let (ret, mem) ← pageInsert allocator mem pgdir page la perm
      if ret ≠ 0 then (freePage mem page).map fun mem => (none, mem) else some (some page, mem)
  | (none, mem) => some (none, mem)

/-- The loop of `unmap_range`. -/
def unmapLoop (mem : Memory) (pgdir start stop : Nat) : Option Memory :=
  match getPte allocator false mem pgdir start with
  | (none, mem) =>
      if (start + ptsize) / ptsize * ptsize < stop then
        unmapLoop mem pgdir ((start + ptsize) / ptsize * ptsize) stop
      else some mem
  | (some (pt, index), mem) =>
      (if mem.table pt index ≠ .zero then pageRemovePte mem pt index else some mem).bind fun mem =>
        if start + pgsize < stop then unmapLoop mem pgdir (start + pgsize) stop else some mem
termination_by stop - start
decreasing_by
  · rename_i inside
    exact Nat.sub_lt_sub_left (Nat.lt_trans (next_gt (by decide)) inside) (next_gt (by decide))
  · rename_i inside
    exact @advance_lt start pgsize stop (by decide) inside

/-- `unmap_range` -/
def unmapRange (mem : Memory) (pgdir start stop : Nat) : Option Memory :=
  if start % pgsize = 0 ∧ stop % pgsize = 0 ∧ UserRange start stop then unmapLoop allocator mem pgdir start stop
  else none

/-- How many rounds a loop makes that advances by a size. -/
def rounds (start stop size : Nat) : Nat := (stop - start + size - 1) / size

/-- The inner loop of `exit_range`, from `d0start` on: the tables of a directory that have no
valid entry are freed. With it goes `free_pd0`. -/
def exitTables (mem : Memory) (pd0 d0start : Nat) (freePd0 : Bool) : Nat → Option (Bool × Memory)
  | 0 => some (freePd0, mem)
  | rounds + 1 =>
      match mem.entry pd0 (pdx0 d0start) with
      | some pt =>
          if ∀ index, mem.entry pt index = none then
            (freePage mem pt).bind fun mem =>
              exitTables (mem.setPte pd0 (pdx0 d0start) .zero) pd0 (d0start + ptsize) freePd0 rounds
          else exitTables mem pd0 (d0start + ptsize) freePd0 rounds
      | none => exitTables mem pd0 (d0start + ptsize) false rounds

/-- A round of the outer loop of `exit_range`. -/
def exitDir (mem : Memory) (pgdir d1start d0start stop : Nat) : Option Memory :=
  match mem.entry pgdir (pdx1 d1start) with
  | some pd0 => do
      let (freePd0, mem) ← exitTables mem pd0 d0start true (rounds d0start (min (d1start + pdsize) stop) ptsize)
      if freePd0 then (freePage mem pd0).map fun mem => mem.setPte pgdir (pdx1 d1start) .zero else some mem
  | none => some mem

/-- The outer loop of `exit_range`. -/
def exitDirs (mem : Memory) (pgdir d1start d0start stop : Nat) : Nat → Option Memory
  | 0 => some mem
  | rounds + 1 =>
      (exitDir mem pgdir d1start d0start stop).bind fun mem =>
        exitDirs mem pgdir (d1start + pdsize) (d1start + pdsize) stop rounds

/-- `exit_range` -/
def exitRange (mem : Memory) (pgdir start stop : Nat) : Option Memory :=
  if start % pgsize = 0 ∧ stop % pgsize = 0 ∧ UserRange start stop then
    exitDirs mem pgdir (start / pdsize * pdsize) (start / ptsize * ptsize) stop
      (rounds (start / pdsize * pdsize) stop pdsize)
  else none

/-- The loops of `exit_mmap` over the areas. -/
def overAreas (body : Memory → Nat → Nat → Option Memory) : Memory → List Vma → Option Memory
  | mem, [] => some mem
  | mem, vma :: rest => (body mem vma.vmStart.toNat vma.vmEnd.toNat).bind fun mem => overAreas body mem rest

/-- `exit_mmap` -/
def exitMmap (mem : Memory) (pgdir : Nat) (mmapList : List Vma) : Option Memory := do
  let mem ← overAreas (fun mem start stop => unmapRange allocator mem pgdir start stop) mem mmapList
  overAreas (fun mem start stop => exitRange mem pgdir start stop) mem mmapList

end Ucore.Paging
