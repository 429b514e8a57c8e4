import Ucore.Libs.EmbeddedList
import Ucore.Library.Spans
import Mathlib.Data.Nat.Basic

/-!
# The first-fit page allocator

`kern/mm/default_pmm.c` keeps free blocks in a circular list through the
`page_link` fields of their first pages. The operations below follow the source
statement by statement on the page array, the link fields and the counter; page
pointers are indices into `pages`, and `le2page` is the owner of a list entry.

A failed assertion and a loop that does not end within the fuel of the page
array are refusals. The `unsigned int` fields wrap at 32 bits; `page_init`
builds an array of far fewer pages, which is the only bound used by the proofs.
-/

namespace Ucore.DefaultPmm

open CircularList EmbeddedList

/-- `&free_list` or `&pages[i].page_link` -/
abbrev Le := Entry Nat

/-- The fields of `struct Page` that the allocator reads or writes, without its link. -/
structure Page where
  ref : Int
  flags : BitVec 64
  property : Nat
deriving DecidableEq

def pgReserved : Nat := 0
def pgProperty : Nat := 1

def setBit (nr : Nat) (flags : BitVec 64) : BitVec 64 := flags ||| (1#64 <<< nr)

def clearBit (nr : Nat) (flags : BitVec 64) : BitVec 64 := flags &&& ~~~(1#64 <<< nr)

def testBit (nr : Nat) (flags : BitVec 64) : Bool := ((flags >>> nr) &&& 1#64) != 0#64

def setPageProperty (page : Page) : Page := { page with flags := setBit pgProperty page.flags }

def clearPageProperty (page : Page) : Page := { page with flags := clearBit pgProperty page.flags }

def pageProperty (page : Page) : Bool := testBit pgProperty page.flags

def pageReserved (page : Page) : Bool := testBit pgReserved page.flags

def setPageRef (page : Page) (value : Int) : Page := { page with ref := value }

/-- A value stored in an `unsigned int`. -/
def uint (value : Nat) : Nat := value % 2 ^ 32

/-- The page array, the list links and `nr_free`. -/
structure FreeArea where
  pages : Nat → Page
  links : Links Le
  nrFree : Nat

def FreeArea.setPage (area : FreeArea) (index : Nat) (page : Page) : FreeArea :=
  { area with pages := Function.update area.pages index page }

def FreeArea.setLinks (area : FreeArea) (links : Links Le) : FreeArea := { area with links := links }

def defaultInit (area : FreeArea) : FreeArea :=
  { area with links := listInit area.links .head, nrFree := 0 }

/-- The page loop of `default_init_memmap` from `p` on. -/
def initPages : Nat → Nat → (Nat → Page) → Option (Nat → Page)
  | _, 0, pages => some pages
  | p, n + 1, pages =>
      if pageReserved (pages p) then
        initPages (p + 1) n
          (Function.update pages p (setPageRef { pages p with flags := 0, property := 0 } 0))
      else none

/-- The page loop of `default_free_pages` from `p` on. -/
def clearPages : Nat → Nat → (Nat → Page) → Option (Nat → Page)
  | _, 0, pages => some pages
  | p, n + 1, pages =>
      if !pageReserved (pages p) && !pageProperty (pages p) then
        clearPages (p + 1) n (Function.update pages p (setPageRef { pages p with flags := 0 } 0))
      else none

/-- The loop over the list that inserts `base`. The branch that appends behind
the last entry has no `break`, so the loop goes on with the entry it inserted. -/
def insertLoop : Nat → Le → Nat → Links Le → Option (Links Le)
  | 0, _, _, _ => none
  | fuel + 1, le, base, links =>
      match listNext links le with
      | .head => some links
      | .link page =>
          if base < page then some (listAddBefore links (.link page) (.link base))
          else if listNext links (.link page) = .head then
            insertLoop fuel (.link page) base (listAdd links (.link page) (.link base))
          else insertLoop fuel (.link page) base links

/-- The insertion that `default_init_memmap` and `default_free_pages` share. -/
def insertPage (npage base : Nat) (links : Links Le) : Option (Links Le) :=
  if listEmpty links .head then some (listAdd links .head (.link base))
  else insertLoop (npage + 2) .head base links

def defaultInitMemmap (npage base n : Nat) (area : FreeArea) : Option FreeArea :=
  if n = 0 then none else do
    let pages ← initPages base n area.pages
    let pages := Function.update pages base { pages base with property := uint n }
    let pages := Function.update pages base (setPageProperty (pages base))
    let nrFree := uint (area.nrFree + n)
    let links ← insertPage npage base area.links
    some { pages := pages, links := links, nrFree := nrFree }

/-- The search loop of `default_alloc_pages`; the result is the page found, if any. -/
def searchLoop (n : Nat) (area : FreeArea) : Nat → Le → Option (Option Nat)
  | 0, _ => none
  | fuel + 1, le =>
      match listNext area.links le with
      | .head => some none
      | .link p => if n ≤ (area.pages p).property then some (some p)
          else searchLoop n area fuel (.link p)

/-- Take the first `n` pages of the block found and put the rest back in its place. -/
def takePages (n page : Nat) (area : FreeArea) : FreeArea :=
  let prev := listPrev area.links (.link page)
  let area := area.setLinks (listDel area.links (.link page))
  let area :=
    if n < (area.pages page).property then
      let p := page + n
      let area := area.setPage p
        { area.pages p with property := (area.pages page).property - n }
      let area := area.setPage p (setPageProperty (area.pages p))
      area.setLinks (listAdd area.links prev (.link p))
    else area
  let area := { area with nrFree := area.nrFree - n }
  area.setPage page (clearPageProperty (area.pages page))

/-- The first component is the page returned, `none` for `NULL`. -/
def defaultAllocPages (npage n : Nat) (area : FreeArea) : Option (Option Nat × FreeArea) :=
  if n = 0 then none
  else if area.nrFree < n then some (none, area)
  else do
    let found ← searchLoop n area (npage + 1) .head
    match found with
    | none => some (none, area)
    | some page => some (some page, takePages n page area)

/-- Join `base` to the block listed before it when that block ends at `base`;
the first component is the new value of `base`. -/
def mergeBackward (base : Nat) (area : FreeArea) : Nat × FreeArea :=
  match listPrev area.links (.link base) with
  | .head => (base, area)
  | .link p =>
      if p + (area.pages p).property = base then
        let area := area.setPage p
          { area.pages p with property := uint ((area.pages p).property + (area.pages base).property) }
        let area := area.setPage base (clearPageProperty (area.pages base))
        (p, area.setLinks (listDel area.links (.link base)))
      else (base, area)

/-- Join the block listed after `base` to it when `base` ends there. -/
def mergeForward (base : Nat) (area : FreeArea) : FreeArea :=
  match listNext area.links (.link base) with
  | .head => area
  | .link p =>
      if base + (area.pages base).property = p then
        let area := area.setPage base
          { area.pages base with
            property := uint ((area.pages base).property + (area.pages p).property) }
        let area := area.setPage p (clearPageProperty (area.pages p))
        area.setLinks (listDel area.links (.link p))
      else area

def defaultFreePages (npage base n : Nat) (area : FreeArea) : Option FreeArea :=
  if n = 0 then none else do
    let pages ← clearPages base n area.pages
    let pages := Function.update pages base { pages base with property := uint n }
    let pages := Function.update pages base (setPageProperty (pages base))
    let nrFree := uint (area.nrFree + n)
    let links ← insertPage npage base area.links
    let (base, area) := mergeBackward base { pages := pages, links := links, nrFree := nrFree }
    some (mergeForward base area)

end Ucore.DefaultPmm
