import Ucore.Mm.FreeBlocks

/-!
# The allocator operations on a represented free list

Each statement group of `default_pmm.c` is carried from a memory that represents
a block list to one that represents the list the abstract operation computes.
The page loops and the list walks are shown to run to their ends.

The insertion is represented only when it does not take the branch behind the
last entry of a nonempty list. That branch adds the entry to itself.
-/

namespace Ucore.DefaultPmm

open CircularList EmbeddedList Spans

/-- First pages of an ordered list are told apart by their position. -/
theorem start_not_mem {before after : List Span} {block : Span}
    (ordered : Ordered (before ++ block :: after)) :
    block.start ∉ (before ++ after).map Span.start := by
  have distinct := ordered.starts_nodup
  rw [List.map_append, List.map_cons] at distinct
  have front := List.nodup_middle.mp distinct
  rw [List.map_append]
  exact (List.nodup_cons.mp front).1

/-! ## Taking pages -/

/-- The page array after `takePages`: the first page loses its flag, the first
page of the rest becomes the head of a block. -/
theorem takePages_pages (n page tested : Nat) (area : FreeArea) (positive : 0 < n) :
    (takePages n page area).pages tested =
      if tested = page then clearPageProperty (area.pages page)
      else if n < (area.pages page).property ∧ tested = page + n then
        setPageProperty { area.pages (page + n) with property := (area.pages page).property - n }
      else area.pages tested := by
  have different : page ≠ page + n := by omega
  by_cases larger : n < (area.pages page).property
  · by_cases atPage : tested = page
    · subst atPage
      simp [takePages, larger, FreeArea.setPage, FreeArea.setLinks, Function.update_of_ne different]
    · simp [takePages, larger, FreeArea.setPage, FreeArea.setLinks, Function.update_apply, atPage]
  · by_cases atPage : tested = page
    · subst atPage
      simp [takePages, larger, FreeArea.setPage, FreeArea.setLinks]
    · simp [takePages, larger, FreeArea.setPage, FreeArea.setLinks, atPage]

/-- The links after `takePages`: the block leaves the list and what is left of
it enters at the same position. -/
theorem takePages_ring {managed : Nat → Prop} {area : FreeArea} {n : Nat}
    {before after : List Span} {block : Span}
    (rep : Represents managed area (before ++ block :: after))
    (ordered : Ordered (before ++ block :: after)) (positive : 0 < n) :
    Ring (takePages n block.start area).links .head
      (entries (before ++ (remainder n block ++ after))) := by
  have size : (area.pages block.start).property = block.size := rep.stored block (by simp)
  have whole : Ring area.links .head (entries before ++ .link block.start :: entries after) := by
    simpa using rep.ring
  have removed := listDel_ring whole
  have before_eq : listPrev area.links (.link block.start) = (entries before).getLastD .head :=
    whole.prev_node
  by_cases larger : n < block.size
  · have kept := remainder_ordered ordered positive
    simp only [remainder, larger, if_true, List.singleton_append] at kept
    have fresh := start_not_mem kept
    have inserted := listAdd_front (.link (block.start + n)) removed (by
      rw [← entries_append, List.mem_cons, link_mem_entries]
      simp only [reduceCtorEq, false_or]
      exact fresh)
    rw [← before_eq] at inserted
    simpa [takePages, size, larger, remainder, FreeArea.setPage, FreeArea.setLinks] using inserted
  · simpa [takePages, size, larger, remainder, FreeArea.setPage, FreeArea.setLinks] using removed

/-- Taking pages from a listed block leaves the memory representing the list in
which that block is replaced by what is left of it. -/
theorem takePages_represents {managed : Nat → Prop} {area : FreeArea} {n : Nat}
    {before after : List Span} {block : Span}
    (rep : Represents managed area (before ++ block :: after))
    (ordered : Ordered (before ++ block :: after)) (positive : 0 < n) (fits : n ≤ block.size) :
    Represents managed (takePages n block.start area) (before ++ (remainder n block ++ after)) := by
  have size : (area.pages block.start).property = block.size := rep.stored block (by simp)
  have absent := start_not_mem ordered
  have kept := remainder_ordered ordered positive
  have pages := fun tested => takePages_pages n block.start tested area positive
  have notAgain : ∀ other ∈ before ++ after, other.start ≠ block.start := fun other member same =>
    absent (List.mem_map.mpr ⟨other, member, same⟩)
  refine ⟨takePages_ring rep ordered positive, ?_, ?_, ?_, ?_⟩
  · intro other member
    by_cases larger : n < block.size
    · simp only [remainder, larger, if_true, List.singleton_append] at member kept
      have freshRest := start_not_mem kept
      rcases List.mem_append.mp member with inBefore | inRest
      · have apart : other.start ≠ block.start + n := fun same =>
          freshRest (List.mem_map.mpr ⟨other, List.mem_append_left _ inBefore, same⟩)
        rw [pages, if_neg (notAgain other (List.mem_append_left _ inBefore)),
          if_neg (fun both => apart both.2)]
        exact rep.stored other (List.mem_append_left _ inBefore)
      · rcases List.mem_cons.mp inRest with rfl | inAfter
        · rw [pages, if_neg (by simp only; omega), if_pos ⟨by omega, rfl⟩]
          simp [size]
        · have apart : other.start ≠ block.start + n := fun same =>
            freshRest (List.mem_map.mpr ⟨other, List.mem_append_right _ inAfter, same⟩)
          rw [pages, if_neg (notAgain other (List.mem_append_right _ inAfter)),
            if_neg (fun both => apart both.2)]
          exact rep.stored other (by simp [inAfter])
    · simp only [remainder, larger, if_false, List.nil_append] at member
      rw [pages, if_neg (notAgain other member), if_neg (fun both => larger (size ▸ both.1))]
      exact rep.stored other (by simp at member ⊢; tauto)
  · have counted := rep.counted
    have after_nr : (takePages n block.start area).nrFree = area.nrFree - n := by
      by_cases larger : n < (area.pages block.start).property <;>
        simp [takePages, larger, FreeArea.setPage, FreeArea.setLinks]
    rw [after_nr, counted]
    by_cases larger : n < block.size
    · simp only [remainder, larger, if_true, total_append, total_cons, total_nil]
      omega
    · simp only [remainder, larger, if_false, total_append, total_cons, total_nil]
      omega
  · intro page inManaged
    have old := rep.heads page inManaged
    rw [pages]
    by_cases larger : n < block.size
    · simp only [remainder, larger, if_true, List.singleton_append] at kept ⊢
      by_cases atPage : page = block.start
      · subst atPage
        have gone : block.start ∉ (before ++ (⟨block.start + n, block.size - n⟩ : Span) :: after).map
            Span.start := by
          intro listed
          simp only [List.map_append, List.map_cons, List.mem_append, List.mem_cons] at absent listed
          rcases listed with inBefore | same | inAfter
          · exact absent (Or.inl inBefore)
          · omega
          · exact absent (Or.inr inAfter)
        simp only [if_true, pageProperty_clear, Bool.false_eq_true, false_iff]
        exact gone
      · by_cases atRest : page = block.start + n
        · subst atRest
          simp [larger, size, show n ≠ 0 by omega]
        · rw [if_neg atPage, if_neg (fun both => atRest both.2), old]
          simp [atPage, atRest]
    · simp only [remainder, larger, if_false, List.nil_append]
      by_cases atPage : page = block.start
      · subst atPage
        simp only [if_true, pageProperty_clear, Bool.false_eq_true, false_iff]
        exact absent
      · rw [if_neg atPage, if_neg (fun both => larger (size ▸ both.1)), old]
        simp [atPage]
  · intro page inManaged
    rw [pages]
    split
    · next same => simpa [same] using rep.usable page inManaged
    · split
      · next both => simpa [both.2] using rep.usable page inManaged
      · exact rep.usable page inManaged

/-! ## Allocation -/

/-- The search loop finds the first block that is large enough. It has `before`
behind it and stops at the latest after the blocks in `after`. -/
theorem searchLoop_exact {area : FreeArea} {n : Nat} (before after : List Span) (fuel : Nat)
    (ring : Ring area.links .head (entries (before ++ after)))
    (stored : ∀ block ∈ after, (area.pages block.start).property = block.size)
    (enough : after.length < fuel) :
    searchLoop n area fuel ((entries before).getLastD .head) =
      some ((takeFirst n after).map Prod.fst) := by
  induction after generalizing before fuel with
  | nil =>
    obtain ⟨fuel, rfl⟩ := Nat.exists_eq_succ_of_ne_zero (by omega : fuel ≠ 0)
    have atEnd : listNext area.links ((entries before).getLastD .head) = .head := by
      rw [entries_append] at ring
      exact ring.next_front
    simp only [searchLoop, atEnd, takeFirst, Option.map_none]
  | cons block rest ih =>
    obtain ⟨fuel, rfl⟩ := Nat.exists_eq_succ_of_ne_zero (by omega : fuel ≠ 0)
    have next : listNext area.links ((entries before).getLastD .head) = .link block.start := by
      rw [entries_append] at ring
      exact ring.next_front
    have size := stored block List.mem_cons_self
    by_cases fits : n ≤ block.size
    · simp only [searchLoop, next, size, fits, if_true, takeFirst, Option.map_some]
    · have further := ih (before ++ [block]) fuel (by simpa using ring)
        (fun later member => stored later (List.mem_cons_of_mem _ member))
        (by simp only [List.length_cons] at enough; omega)
      have position : (entries (before ++ [block])).getLastD .head = .link block.start := by
        rw [entries_append]
        exact List.getLastD_concat ..
      rw [position] at further
      simp only [searchLoop, next, size, fits, if_false, further, takeFirst, Option.map_map]
      rfl

/-- The blocks left after an allocation of `n` pages; a failed one leaves all. -/
def afterAlloc (n : Nat) (blocks : List Span) : List Span :=
  match takeFirst n blocks with
  | none => blocks
  | some taken => taken.2

/-- `default_alloc_pages` returns, and takes the pages the abstract free list
takes. The early exit on `nr_free` agrees with the search: a total below `n`
leaves no single block of size `n`. -/
theorem defaultAllocPages_refines {managed : Nat → Prop} {area : FreeArea} {npage n : Nat}
    {blocks : List Span} (rep : Represents managed area blocks) (ordered : Ordered blocks)
    (positive : 0 < n) (short : blocks.length ≤ npage) :
    ∃ after, defaultAllocPages npage n area = some ((takeFirst n blocks).map Prod.fst, after) ∧
      Represents managed after (afterAlloc n blocks) := by
  have searched := searchLoop_exact (n := n) [] blocks (npage + 1) rep.ring rep.stored (by omega)
  simp only [entries, List.map_nil, List.getLastD_nil] at searched
  by_cases scarce : area.nrFree < n
  · have none_fits : takeFirst n blocks = none := by
      rw [takeFirst_none_iff]
      intro block member
      have part : block.size ≤ total blocks := size_le_total member
      have counted := rep.counted
      omega
    refine ⟨area, ?_, ?_⟩
    · simp [defaultAllocPages, show n ≠ 0 by omega, scarce, none_fits]
    · simpa [afterAlloc, none_fits] using rep
  · cases taken : takeFirst n blocks with
    | none =>
      refine ⟨area, ?_, by simpa [afterAlloc, taken] using rep⟩
      simp [defaultAllocPages, show n ≠ 0 by omega, scarce, searched, taken]
    | some result =>
      obtain ⟨page, rest⟩ := result
      obtain ⟨before, block, after, rfl, fits, rfl, rfl, _⟩ := takeFirst_split taken
      refine ⟨takePages n block.start area, ?_, ?_⟩
      · simp [defaultAllocPages, show n ≠ 0 by omega, scarce, searched, taken]
      · simpa [afterAlloc, taken] using takePages_represents rep ordered positive fits

/-! ## Page loops -/

/-- The pages of a block after one of the page loops. -/
def reset (p n : Nat) (change : Page → Page) (pages : Nat → Page) (tested : Nat) : Page :=
  if p ≤ tested ∧ tested < p + n then change (pages tested) else pages tested

theorem reset_succ (p n : Nat) (change : Page → Page) (pages : Nat → Page) :
    reset (p + 1) n change (Function.update pages p (change (pages p))) =
      reset p (n + 1) change pages := by
  funext tested
  by_cases same : tested = p
  · subst same
    simp [reset]
  · have bounds : (p + 1 ≤ tested ∧ tested < p + 1 + n) ↔ (p ≤ tested ∧ tested < p + (n + 1)) := by
      omega
    simp only [reset, bounds, Function.update_of_ne same]

/-- The loop of `default_init_memmap` runs to its end exactly on reserved pages. -/
theorem initPages_iff (p n : Nat) (pages result : Nat → Page) :
    initPages p n pages = some result ↔
      (∀ page, p ≤ page → page < p + n → pageReserved (pages page) = true) ∧
      reset p n (fun page => { page with ref := 0, flags := 0, property := 0 }) pages = result := by
  induction n generalizing p pages with
  | zero =>
    have unchanged : reset p 0 (fun page => { page with ref := 0, flags := 0, property := 0 }) pages =
        pages := by
      funext tested
      simp only [reset, show ¬ (p ≤ tested ∧ tested < p + 0) by omega, if_false]
    simp only [initPages, Option.some.injEq, unchanged]
    constructor
    · intro same
      exact ⟨fun page lower upper => by omega, same⟩
    · exact fun both => both.2
  | succ n ih =>
    by_cases reserved : pageReserved (pages p) = true
    · simp only [initPages, reserved, if_true, ih, setPageRef, reset_succ]
      refine and_congr_left fun _ => ⟨?_, ?_⟩
      · intro later page lower upper
        by_cases same : page = p
        · exact same ▸ reserved
        · have found := later page (by omega) (by omega)
          rwa [Function.update_of_ne same] at found
      · intro every page lower upper
        rw [Function.update_of_ne (by omega)]
        exact every page (by omega) (by omega)
    · simp only [initPages, reserved]
      constructor
      · intro impossible
        cases impossible
      · intro both
        exact absurd (both.1 p (Nat.le_refl _) (by omega)) reserved

/-- The loop of `default_free_pages` runs to its end on pages without flags. -/
theorem clearPages_exact (p n : Nat) (pages : Nat → Page)
    (plain : ∀ page, p ≤ page → page < p + n →
      pageReserved (pages page) = false ∧ pageProperty (pages page) = false) :
    clearPages p n pages = some (reset p n (fun page => { page with ref := 0, flags := 0 }) pages) := by
  induction n generalizing p pages with
  | zero =>
    have unchanged : reset p 0 (fun page => { page with ref := 0, flags := 0 }) pages = pages := by
      funext tested
      simp only [reset, show ¬ (p ≤ tested ∧ tested < p + 0) by omega, if_false]
    simp only [clearPages, unchanged]
  | succ n ih =>
    obtain ⟨unreserved, headless⟩ := plain p (Nat.le_refl _) (by omega)
    simp only [clearPages, unreserved, headless, Bool.not_false, Bool.and_self, if_true, setPageRef]
    rw [ih, ← reset_succ]
    intro page lower upper
    rw [Function.update_of_ne (by omega)]
    exact plain page (by omega) (by omega)

/-! ## Insertion -/

/-- The insertion loop stops before the first block behind `base`. It has
`before` behind it, and some block ahead of it starts after `base`, so the
branch behind the last entry is never taken. -/
theorem insertLoop_exact {links : Links Le} (block : Span) (before after : List Span) (fuel : Nat)
    (ring : Ring links .head (entries (before ++ after)))
    (fresh : block.start ∉ (before ++ after).map Span.start)
    (stops : ∃ later ∈ after, block.start < later.start) (enough : after.length < fuel) :
    ∃ inserted, insertLoop fuel ((entries before).getLastD .head) block.start links = some inserted ∧
      Ring inserted .head (entries (before ++ place block after)) := by
  induction after generalizing before fuel with
  | nil => simp at stops
  | cons first rest ih =>
    obtain ⟨fuel, rfl⟩ := Nat.exists_eq_succ_of_ne_zero (by omega : fuel ≠ 0)
    have next : listNext links ((entries before).getLastD .head) = .link first.start := by
      rw [entries_append] at ring
      exact ring.next_front
    have whole : Ring links .head (entries before ++ .link first.start :: entries rest) := by
      simpa using ring
    by_cases below : block.start < first.start
    · refine ⟨listAddBefore links (.link first.start) (.link block.start), ?_, ?_⟩
      · simp only [insertLoop, next, below, if_true]
      · have added := listAddBefore_node (.link block.start) whole (by
          rw [← entries_cons, ← entries_append, List.mem_cons, link_mem_entries]
          simpa using fresh)
        simpa [place, below] using added
    · obtain ⟨later, member, above⟩ := stops
      have inRest : later ∈ rest := by
        rcases List.mem_cons.mp member with rfl | inRest
        · exact absurd above below
        · exact inRest
      have notLast : listNext links (.link first.start) ≠ .head := by
        have found : listNext links (.link first.start) = (entries rest).headD .head := whole.next_node
        rw [found]
        cases rest with
        | nil => simp at inRest
        | cons second remaining => simp
      have further := ih (before ++ [first]) fuel (by simpa using ring) (by simpa using fresh)
        ⟨later, inRest, above⟩ (by simp only [List.length_cons] at enough; omega)
      have position : (entries (before ++ [first])).getLastD .head = .link first.start := by
        rw [entries_append]
        exact List.getLastD_concat ..
      rw [position] at further
      obtain ⟨inserted, returned, placed⟩ := further
      refine ⟨inserted, ?_, by simpa [place, below] using placed⟩
      simp only [insertLoop, next, below, if_false, notLast, returned]

/-- `base` is inserted into an empty list or before some listed block. -/
def InsertsBefore (links : Links Le) (base : Nat) : Prop :=
  listEmpty links .head = true ∨
    ∃ steps page, links.next^[steps] .head = .link page ∧ base < page

/-- The shared insertion returns and places the block at its address, unless it
would append to a nonempty list. -/
theorem insertPage_exact {links : Links Le} {npage : Nat} (block : Span) (blocks : List Span)
    (ring : Ring links .head (entries blocks)) (fresh : block.start ∉ blocks.map Span.start)
    (inside : InsertsBefore links block.start) (short : blocks.length ≤ npage) :
    ∃ inserted, insertPage npage block.start links = some inserted ∧
      Ring inserted .head (entries (place block blocks)) := by
  by_cases empty : listEmpty links .head = true
  · have none_listed : blocks = [] := by simpa [entries] using (listEmpty_iff ring).mp empty
    subst none_listed
    refine ⟨listAdd links .head (.link block.start), by simp [insertPage, empty], ?_⟩
    exact listAdd_first _ ring (by simp)
  · obtain ⟨steps, page, reached, above⟩ := inside.resolve_left empty
    have member := ring.iterate_mem steps
    rw [reached, List.mem_cons, link_mem_entries] at member
    obtain ⟨later, listed, rfl⟩ := List.mem_map.mp (member.resolve_left (by simp))
    have walked := insertLoop_exact block [] blocks (npage + 2) ring (by simpa using fresh)
      ⟨later, listed, above⟩ (by omega)
    simp only [entries, List.map_nil, List.getLastD_nil, List.nil_append] at walked
    obtain ⟨inserted, returned, placed⟩ := walked
    exact ⟨inserted, by simp [insertPage, empty, returned], placed⟩

/-- The two writes that turn the first page of a block into its head. -/
theorem head_update (pages : Nat → Page) (base n tested : Nat) :
    Function.update (Function.update pages base { pages base with property := uint n }) base
      (setPageProperty (Function.update pages base { pages base with property := uint n } base)) tested =
      if tested = base then setPageProperty { pages base with property := uint n } else pages tested := by
  by_cases same : tested = base
  · subst same
    simp
  · simp [same]

/-- A block whose pages have lost their flags enters the free list: its head is
marked, its entry is linked and its size is counted. -/
theorem enlist_represents {managed : Nat → Prop} {area : FreeArea} {links : Links Le}
    {before after : List Span} {block : Span} (enlarged : Nat → Prop) (change : Page → Page)
    (plain : ∀ page, (change page).flags = 0)
    (rep : Represents managed area (before ++ after))
    (ordered : Ordered (before ++ block :: after))
    (small : total (before ++ block :: after) < 2 ^ 32)
    (ring : Ring links .head (entries (before ++ block :: after)))
    (known : ∀ page, enlarged page → managed page ∨ block.Covers page) :
    Represents enlarged
      { pages := Function.update (Function.update (reset block.start block.size change area.pages)
          block.start { reset block.start block.size change area.pages block.start with
            property := uint block.size }) block.start
          (setPageProperty (Function.update (reset block.start block.size change area.pages)
            block.start { reset block.start block.size change area.pages block.start with
              property := uint block.size } block.start))
        links := links, nrFree := uint (area.nrFree + block.size) }
      (before ++ block :: after) := by
  have fresh := start_not_mem ordered
  have apart : ∀ other ∈ before ++ after, Apart block other := by
    intro other member point inBlock inOther
    have blockListed : block ∈ before ++ block :: after := by simp
    have otherListed : other ∈ before ++ block :: after := by simp at member ⊢; tauto
    obtain rfl := ordered.covers_unique otherListed blockListed inOther inBlock
    exact fresh (List.mem_map.mpr ⟨other, member, rfl⟩)
  have blockPositive : 0 < block.size := ordered.positive block (by simp)
  have outside : ∀ other ∈ before ++ after, ¬ block.Covers other.start := by
    intro other member inBlock
    have otherPositive : 0 < other.size := ordered.positive other (by simp at member ⊢; tauto)
    exact apart other member other.start inBlock (Span.covers_start otherPositive)
  have cleared : ∀ page, block.Covers page →
      reset block.start block.size change area.pages page = change (area.pages page) := by
    intro page inside
    exact if_pos inside
  have kept : ∀ page, ¬ block.Covers page →
      reset block.start block.size change area.pages page = area.pages page := by
    intro page notInside
    exact if_neg notInside
  refine ⟨ring, ?_, ?_, ?_, ?_⟩
  · intro other member
    simp only [head_update]
    by_cases same : other = block
    · subst same
      have fits : other.size < 2 ^ 32 := by
        simp only [total_append, total_cons] at small
        omega
      simp [uint_small fits]
    · have listed : other ∈ before ++ after := by simp at member ⊢; tauto
      have notHead : other.start ≠ block.start := fun equal =>
        fresh (List.mem_map.mpr ⟨other, listed, equal⟩)
      rw [if_neg notHead, kept _ (outside other listed)]
      exact rep.stored other listed
  · have counted := rep.counted
    simp only [total_append, total_cons] at counted small ⊢
    rw [counted, uint_small (by omega)]
    omega
  · intro page inManaged
    simp only [head_update]
    by_cases atHead : page = block.start
    · subst atHead
      simp
    · rw [if_neg atHead]
      by_cases inside : block.Covers page
      · have unflagged : pageProperty (change (area.pages page)) = false := by
          simp [pageProperty, testBit_eq, plain]
        have notStart : page ∉ (before ++ block :: after).map Span.start := by
          intro listed
          obtain ⟨other, member, rfl⟩ := List.mem_map.mp listed
          have listed : other ∈ before ++ after := by
            have different : other ≠ block := fun equal => atHead (by rw [equal])
            simp at member ⊢; tauto
          exact outside other listed inside
        rw [cleared page inside, unflagged]
        simp only [Bool.false_eq_true, false_iff]
        exact notStart
      · rw [kept page inside, rep.heads page ((known page inManaged).resolve_right inside)]
        simp [atHead]
  · intro page inManaged
    simp only [head_update]
    have unreserved : pageReserved (reset block.start block.size change area.pages page) = false := by
      by_cases inside : block.Covers page
      · rw [cleared page inside]
        simp [pageReserved, testBit_eq, plain]
      · rw [kept page inside]
        exact rep.usable page ((known page inManaged).resolve_right inside)
    split
    · next same => simpa [same] using unreserved
    · exact unreserved

/-! ## Joins -/

/-- The memory after two touching blocks are joined: the first page of the left
one holds both sizes, that of the right one loses its flag and its list entry. -/
def joinedArea (left right : Span) (area : FreeArea) : FreeArea where
  pages := fun page =>
    if page = right.start then clearPageProperty (area.pages page)
    else if page = left.start then
      { area.pages page with property := uint (left.size + right.size) }
    else area.pages page
  links := listDel area.links (.link right.start)
  nrFree := area.nrFree

/-- Both joins of `default_free_pages` have this effect on the block list. -/
theorem join_represents {managed : Nat → Prop} {area : FreeArea} {before after : List Span}
    {left right : Span} (rep : Represents managed area (before ++ left :: right :: after))
    (ordered : Ordered (before ++ left :: right :: after))
    (small : total (before ++ left :: right :: after) < 2 ^ 32) :
    Represents managed (joinedArea left right area)
      (before ++ ⟨left.start, left.size + right.size⟩ :: after) := by
  have leftFresh := start_not_mem ordered
  have rightFresh : right.start ∉ ((before ++ [left]) ++ after).map Span.start :=
    start_not_mem (by simpa using ordered)
  have different : left.start ≠ right.start := by
    intro same
    exact leftFresh (by simp [same])
  have fits : uint (left.size + right.size) = left.size + right.size := by
    apply uint_small
    simp only [total_append, total_cons] at small
    omega
  refine ⟨?_, ?_, ?_, ?_, ?_⟩
  · have whole : Ring area.links .head
        (entries (before ++ [left]) ++ .link right.start :: entries after) := by
      simpa using rep.ring
    simpa [joinedArea] using listDel_ring whole
  · intro other member
    simp only [List.mem_append, List.mem_cons] at member
    rcases member with inBefore | rfl | inAfter
    · have notRight : other.start ≠ right.start := fun same =>
        rightFresh (List.mem_map.mpr ⟨other, by simp [inBefore], same⟩)
      have notLeft : other.start ≠ left.start := fun same =>
        leftFresh (List.mem_map.mpr ⟨other, by simp [inBefore], same⟩)
      simpa [joinedArea, notRight, notLeft] using rep.stored other (by simp [inBefore])
    · simp [joinedArea, different, fits]
    · have notRight : other.start ≠ right.start := fun same =>
        rightFresh (List.mem_map.mpr ⟨other, by simp [inAfter], same⟩)
      have notLeft : other.start ≠ left.start := fun same =>
        leftFresh (List.mem_map.mpr ⟨other, by simp [inAfter], same⟩)
      simpa [joinedArea, notRight, notLeft] using rep.stored other (by simp [inAfter])
  · have counted := rep.counted
    simp only [joinedArea, total_append, total_cons] at counted ⊢
    omega
  · intro page inManaged
    have old := rep.heads page inManaged
    by_cases atRight : page = right.start
    · subst atRight
      have gone : right.start ∉ (before ++ (⟨left.start, left.size + right.size⟩ : Span) :: after).map
          Span.start := by simpa using rightFresh
      simp only [joinedArea, if_true, pageProperty_clear, Bool.false_eq_true, false_iff]
      exact gone
    · by_cases atLeft : page = left.start
      · subst atLeft
        simp only [joinedArea, atRight, if_false, if_true, pageProperty_property, old]
        simp
      · simp only [joinedArea, atRight, atLeft, if_false, old]
        simp [atRight, atLeft]
  · intro page inManaged
    have old := rep.usable page inManaged
    simp only [joinedArea]
    split
    · simpa using old
    · split
      · simpa using old
      · exact old

/-- The join with the block before keeps the memory representing the list. -/
theorem mergeBackward_represents {managed : Nat → Prop} {area : FreeArea} {before after : List Span}
    {block : Span} (rep : Represents managed area (before ++ block :: after))
    (ordered : Ordered (before ++ block :: after))
    (small : total (before ++ block :: after) < 2 ^ 32) :
    ∃ joined, mergeBackward block.start area = ((joinBackward before block).2.start, joined) ∧
      Represents managed joined
        ((joinBackward before block).1 ++ (joinBackward before block).2 :: after) := by
  have whole : Ring area.links .head (entries before ++ .link block.start :: entries after) := by
    simpa using rep.ring
  have previous : listPrev area.links (.link block.start) = (entries before).getLastD .head :=
    whole.prev_node
  rcases List.eq_nil_or_concat' before with rfl | ⟨front, last, rfl⟩
  · refine ⟨area, ?_, by simpa [joinBackward] using rep⟩
    simp only [entries, List.map_nil, List.getLastD_nil] at previous
    simp [mergeBackward, previous, joinBackward]
  · have atLast : listPrev area.links (.link block.start) = .link last.start := by
      rw [previous, entries_append]
      exact List.getLastD_concat ..
    have lastSize := rep.stored last (by simp)
    have blockSize := rep.stored block (by simp)
    by_cases touches : last.stop = block.start
    · have touching : last.start + last.size = block.start := touches
      have distinct : block.start ≠ last.start := by
        intro same
        exact start_not_mem ordered (by simp [same])
      refine ⟨joinedArea last block area, ?_, ?_⟩
      · simp only [mergeBackward, atLast, lastSize, blockSize, touching, if_true, joinBackward,
          List.getLast?_append, List.getLast?_singleton, Option.some_or, touches, Prod.mk.injEq,
          true_and, FreeArea.setPage, FreeArea.setLinks, joinedArea, FreeArea.mk.injEq, and_true]
        funext page
        by_cases atBlock : page = block.start
        · subst atBlock
          simp [distinct]
        · by_cases atLast' : page = last.start
          · subst atLast'
            simp [atBlock]
          · simp [atBlock, atLast']
      · have listed : Represents managed area (front ++ last :: block :: after) := by simpa using rep
        have sorted : Ordered (front ++ last :: block :: after) := by simpa using ordered
        have bounded : total (front ++ last :: block :: after) < 2 ^ 32 := by simpa using small
        simpa [joinBackward, touches] using join_represents listed sorted bounded
    · have apart : last.start + last.size ≠ block.start := touches
      refine ⟨area, ?_, by simpa [joinBackward, touches] using rep⟩
      simp [mergeBackward, atLast, lastSize, apart, joinBackward, touches]

/-- The join with the block after keeps the memory representing the list. -/
theorem mergeForward_represents {managed : Nat → Prop} {area : FreeArea} {before after : List Span}
    {block : Span} (rep : Represents managed area (before ++ block :: after))
    (ordered : Ordered (before ++ block :: after))
    (small : total (before ++ block :: after) < 2 ^ 32) :
    Represents managed (mergeForward block.start area)
      (before ++ (joinForward block after).1 :: (joinForward block after).2) := by
  have whole : Ring area.links .head (entries before ++ .link block.start :: entries after) := by
    simpa using rep.ring
  have next : listNext area.links (.link block.start) = (entries after).headD .head :=
    whole.next_node
  have blockSize := rep.stored block (by simp)
  cases after with
  | nil =>
    have atEnd : listNext area.links (.link block.start) = .head := by simpa [entries] using next
    simpa [mergeForward, atEnd, joinForward] using rep
  | cons first rest =>
    have atFirst : listNext area.links (.link block.start) = .link first.start := by
      simpa using next
    have firstSize := rep.stored first (by simp)
    by_cases touches : block.stop = first.start
    · have touching : block.start + block.size = first.start := touches
      have distinct : first.start ≠ block.start := by
        intro same
        exact start_not_mem ordered (by simp [same])
      have joined := join_represents rep ordered small
      have same : mergeForward block.start area = joinedArea block first area := by
        simp only [mergeForward, atFirst, blockSize, firstSize, touching, if_true,
          FreeArea.setPage, FreeArea.setLinks, joinedArea, FreeArea.mk.injEq, and_true]
        funext page
        by_cases isFirst : page = first.start
        · subst isFirst
          simp [distinct]
        · by_cases atBlock : page = block.start
          · subst atBlock
            simp [isFirst]
          · simp [isFirst, atBlock]
      rw [same]
      simpa [joinForward, touches] using joined
    · have apart : block.start + block.size ≠ first.start := touches
      simpa [mergeForward, atFirst, blockSize, apart, joinForward, touches] using rep

/-! ## Whole operations -/

/-- A block apart from an ordered list enters it at its address. -/
theorem place_ordered {block : Span} {blocks : List Span} (ordered : Ordered blocks)
    (positive : 0 < block.size) (apart : ∀ other ∈ blocks, Apart block other) :
    ∃ before after, blocks = before ++ after ∧ place block blocks = before ++ block :: after ∧
      Ordered (before ++ block :: after) := by
  obtain ⟨before, after, rfl, placed, lower, upper⟩ := place_split block ordered
  exact ⟨before, after, rfl, placed, ordered.between positive apart lower
    (fun other member => Nat.le_of_lt (upper other member))⟩

/-- The start of a nonempty block is not the start of a block apart from it. -/
theorem start_fresh {block : Span} {blocks : List Span} (ordered : Ordered blocks)
    (positive : 0 < block.size) (apart : ∀ other ∈ blocks, Apart block other) :
    block.start ∉ blocks.map Span.start := by
  intro listed
  obtain ⟨other, member, same⟩ := List.mem_map.mp listed
  apply apart other member block.start (Span.covers_start positive)
  rw [← same]
  exact Span.covers_start (ordered.positive other member)

/-- `default_init_memmap` returns exactly on reserved pages, unless it appends
to a nonempty list; then it lists the new block at its address. -/
theorem defaultInitMemmap_refines {managed : Nat → Prop} {area : FreeArea} {npage : Nat}
    {blocks : List Span} (block : Span) (rep : Represents managed area blocks)
    (ordered : Ordered blocks) (positive : 0 < block.size)
    (apart : ∀ other ∈ blocks, Apart block other) (small : total blocks + block.size < 2 ^ 32)
    (inside : InsertsBefore area.links block.start) (short : blocks.length ≤ npage)
    (reserved : ∀ page, block.Covers page → pageReserved (area.pages page) = true) :
    ∃ before after result, blocks = before ++ after ∧ Ordered (before ++ block :: after) ∧
      defaultInitMemmap npage block.start block.size area = some result ∧
      Represents (fun page => managed page ∨ block.Covers page) result
        (before ++ block :: after) := by
  obtain ⟨before, after, rfl, placed, sorted⟩ := place_ordered ordered positive apart
  obtain ⟨links, inserted, ring⟩ := insertPage_exact block (before ++ after) rep.ring
    (start_fresh ordered positive apart) inside short
  rw [placed] at ring
  have looped := (initPages_iff block.start block.size area.pages _).mpr
    ⟨fun page lower upper => reserved page ⟨lower, upper⟩, rfl⟩
  have bounded : total (before ++ block :: after) < 2 ^ 32 := by
    simp only [total_append, total_cons] at small ⊢
    omega
  refine ⟨before, after, _, rfl, sorted, ?_, enlist_represents
    _ (fun page => { page with ref := 0, flags := 0, property := 0 }) (fun page => rfl) rep sorted
    bounded ring (fun page known => known)⟩
  simp [defaultInitMemmap, show block.size ≠ 0 by omega, looped, inserted]

/-- A completed `default_init_memmap` has met only reserved pages. -/
theorem defaultInitMemmap_reserved {npage base n : Nat} {area result : FreeArea}
    (completed : defaultInitMemmap npage base n area = some result) :
    0 < n ∧ ∀ page, base ≤ page → page < base + n → pageReserved (area.pages page) = true := by
  by_cases empty : n = 0
  · simp [defaultInitMemmap, empty] at completed
  · refine ⟨by omega, ?_⟩
    cases looped : initPages base n area.pages with
    | none => simp [defaultInitMemmap, empty, looped] at completed
    | some pages => exact ((initPages_iff base n area.pages pages).mp looped).1

/-- `default_free_pages` returns on a managed block apart from the free list,
unless it appends to a nonempty list; then it releases the block between the
blocks around it. -/
theorem defaultFreePages_refines {managed : Nat → Prop} {area : FreeArea} {npage : Nat}
    {blocks : List Span} (block : Span) (rep : Represents managed area blocks)
    (ordered : Ordered blocks) (positive : 0 < block.size)
    (apart : ∀ other ∈ blocks, Apart block other) (small : total blocks + block.size < 2 ^ 32)
    (inside : InsertsBefore area.links block.start) (short : blocks.length ≤ npage)
    (known : ∀ page, block.Covers page → managed page) :
    ∃ before after result, blocks = before ++ after ∧ Ordered (before ++ block :: after) ∧
      defaultFreePages npage block.start block.size area = some result ∧
      Represents managed result (release before block after) := by
  obtain ⟨before, after, rfl, placed, sorted⟩ := place_ordered ordered positive apart
  obtain ⟨links, inserted, ring⟩ := insertPage_exact block (before ++ after) rep.ring
    (start_fresh ordered positive apart) inside short
  rw [placed] at ring
  have plain : ∀ page, block.start ≤ page → page < block.start + block.size →
      pageReserved (area.pages page) = false ∧ pageProperty (area.pages page) = false := by
    intro page lower upper
    have inManaged := known page ⟨lower, upper⟩
    refine ⟨rep.usable page inManaged, ?_⟩
    have notHead : page ∉ (before ++ after).map Span.start := by
      intro listed
      obtain ⟨other, member, rfl⟩ := List.mem_map.mp listed
      exact apart other member other.start ⟨lower, upper⟩
        (Span.covers_start (ordered.positive other member))
    exact Bool.eq_false_iff.mpr fun flagged => notHead ((rep.heads page inManaged).mp flagged)
  have looped := clearPages_exact block.start block.size area.pages plain
  have bounded : total (before ++ block :: after) < 2 ^ 32 := by
    simp only [total_append, total_cons] at small ⊢
    omega
  have listed := enlist_represents managed (fun page => { page with ref := 0, flags := 0 })
    (fun page => rfl) rep sorted bounded ring (fun page known => Or.inl known)
  obtain ⟨joined, merged, back⟩ := mergeBackward_represents listed sorted bounded
  obtain ⟨backOrdered, _, backTotal⟩ := joinBackward_facts sorted
  have forward := mergeForward_represents back backOrdered (by rw [backTotal]; exact bounded)
  refine ⟨before, after, _, rfl, sorted, ?_, forward⟩
  simp only [defaultFreePages, show block.size ≠ 0 by omega, if_false, looped, inserted,
    Option.bind_eq_bind, Option.bind_some, merged]

end Ucore.DefaultPmm
