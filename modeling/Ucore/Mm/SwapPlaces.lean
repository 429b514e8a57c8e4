import Ucore.Mm.PageMap
import Ucore.Mm.SwapPages

/-!
# Where the pages of a user are

A page of the user is where its entry says: nowhere, in a page of the memory, or in the slot of
its address. Each of them holds the values of its address. A page goes to its slot and comes back,
tables are made, bytes are written: the values stay where they belong.
-/

namespace Ucore.SwapPages

open AllocPages (swapSlot swapEntry)
open Paging hiding swapEntry
open SwapFault (offsetOf)

/-- The first address of a page that has a slot. -/
def UserPage (la : Nat) : Prop := la % pgsize = 0 ∧ swapSlot la < maxSwapOffset

/-- The entry of a page in the memory. -/
def userPte (page : Nat) : Pte := pteCreate page (pteV ||| (pteU ||| (pteR ||| pteW)))

/-- The page at an address is where its entry says. -/
inductive Entry (data : Nat → Bytes) (ide : Bytes) (value : Nat → Option (Fin 256)) (la : Nat) : Pte → Prop where
  | untouched (nothing : ∀ offset < pgsize, value (la + offset) = none) : Entry data ide value la .zero
  | resident {page : Nat} (holds : ∀ offset < pgsize, value (la + offset) = some (data page offset)) :
      Entry data ide value la (userPte page)
  | swapped (holds : ∀ offset < pgsize, value (la + offset) = some (ide (swapSlot la * pgsize + offset))) :
      Entry data ide value la (swapEntry (swapSlot la))

/-- The roots of the tables. -/
def Pager.roots (pager : Pager) : Finset Nat := {pager.pgdir}

/-- What the entry of an address is. -/
def Pager.leaf (pager : Pager) (state : SwapState) (la : Nat) : Pte := state.mem.leaf pager.pgdir (pathOf la)

/-- The memory of the user has these values, wherever its pages are. Nothing else is mapped to its pages. -/
structure Kept (pager : Pager) (state : SwapState) (value : Nat → Option (Fin 256)) : Prop where
  tree : Tree pager.roots state.mem
  once : ∀ la, UserPage la → ∀ path page, state.mem.mapped pager.pgdir (pathOf la) = some page →
    state.mem.mapped pager.pgdir path = some page → path = pathOf la
  entries : ∀ la, UserPage la → Entry state.data state.ide value la (pager.leaf state la)
  tracked : ∀ page ∈ state.swappable,
    UserPage (state.praVaddr page) ∧ pager.leaf state (state.praVaddr page) = userPte page
  unused : ∀ page ∈ state.mem.free, state.mem.ref page = 0

/-- The pages that are free, or can be. -/
def SwapState.supply (state : SwapState) : Nat := state.mem.free.card + state.swappable.card

/-- The tables stay, and only pages in the memory move. -/
structure Evicts (pager : Pager) (state next : SwapState) : Prop where
  tables : next.mem.tables pager.roots = state.mem.tables pager.roots
  leaf : ∀ path, state.mem.mapped pager.pgdir path = none →
    next.mem.leaf pager.pgdir path = state.mem.leaf pager.pgdir path
  mm : next.mm = state.mm
  log : next.log = state.log
  supply : next.supply = state.supply

/-- There may be new tables besides, in so many pages. -/
structure Quiet (pager : Pager) (state next : SwapState) (pages : Nat) : Prop where
  persists : ∀ place table, state.mem.tables pager.roots pager.pgdir place = some table →
    next.mem.tables pager.roots pager.pgdir place = some table
  leaf : ∀ path, state.mem.mapped pager.pgdir path = none →
    next.mem.leaf pager.pgdir path = state.mem.leaf pager.pgdir path
  mm : next.mm = state.mm
  log : next.log = state.log
  supply : state.supply ≤ next.supply + pages

/-- A page is at the address, which may have any values that agree with its content. -/
structure Placed (pager : Pager) (value : Nat → Option (Fin 256)) (la page : Nat) (state next : SwapState) : Prop where
  leaf : pager.leaf next la = userPte page
  mm : next.mm = state.mm
  log : next.log = state.log
  kept : ∀ value' : Nat → Option (Fin 256), (∀ offset < pgsize, value' (la + offset) = some (next.data page offset)) →
    (∀ other, other / pgsize ≠ la / pgsize → value' other = value other) → Kept pager next value'

variable {pager : Pager} {state middle next : SwapState} {value value' : Nat → Option (Fin 256)} {la page pt slot : Nat}
  {index : Fin 512} {pte : Pte}

/-! ## Entries -/

theorem pgdir_root (pager : Pager) : pager.pgdir ∈ pager.roots := Finset.mem_singleton_self _

theorem userPte_page (page : Nat) : (userPte page).page? = some page := page?_create ..

theorem userPte_valid (page : Nat) : (userPte page).flags &&& pteV ≠ 0#10 := by
  have isFlags : (userPte page).flags = 0x17#10 := rfl
  rw [isFlags]
  decide

theorem userPte_ne_zero (page : Nat) : userPte page ≠ .zero := by
  intro isZero
  have noPage := congrArg Pte.page? isZero
  rw [userPte_page, page?_zero] at noPage
  cases noPage

/-- The page of an entry is mapped. -/
theorem Pager.mapped (isLeaf : pager.leaf state la = userPte page) :
    state.mem.mapped pager.pgdir (pathOf la) = some page :=
  (congrArg Pte.page? isLeaf).trans (userPte_page page)

/-- The number of the slot comes back. -/
theorem offsetOf_swapEntry (slot : Nat) : offsetOf (swapEntry slot) = slot := by
  simp only [offsetOf, swapEntry, BitVec.toNat_ofNat]
  omega

theorem swapEntry_silent (slot : Nat) : (swapEntry slot).flags &&& pteV = 0#10 := by
  have four : slot % 4 = 0 ∨ slot % 4 = 1 ∨ slot % 4 = 2 ∨ slot % 4 = 3 := by omega
  simp only [swapEntry]
  obtain isZero | isOne | isTwo | isThree := four
  · rw [isZero]
    rfl
  · rw [isOne]
    rfl
  · rw [isTwo]
    rfl
  · rw [isThree]
    rfl

/-- An entry that names a slot names no page. -/
theorem swapEntry_page (slot : Nat) : (swapEntry slot).page? = none := if_neg (not_not.mpr (swapEntry_silent slot))

theorem swapEntry_ne_zero (positive : 0 < slot) : swapEntry slot ≠ .zero := by
  intro isZero
  have same := congrArg offsetOf isZero
  rw [offsetOf_swapEntry] at same
  have zero : offsetOf .zero = 0 := by decide
  omega

theorem swapSlot_pos (la : Nat) : 0 < swapSlot la := Nat.succ_pos _

/-- The addresses of user pages have 39 bits. -/
theorem UserPage.small (user : UserPage la) : la < vaSize := by
  have bound := user.2
  simp only [swapSlot, maxSwapOffset, maxDiskNsecs, sectsize, vaSize, pdsize, ptsize, pgsize] at bound ⊢
  omega

/-- Two user pages have two paths, and two slots. -/
theorem UserPage.apart {other : Nat} (user : UserPage la) (isOther : UserPage other) (different : other ≠ la) :
    pathOf other ≠ pathOf la ∧ swapSlot other ≠ swapSlot la := by
  have pages : other / pgsize ≠ la / pgsize := by
    have aligned := user.1
    have alignedToo := isOther.1
    simp only [pgsize] at aligned alignedToo ⊢
    omega
  refine ⟨fun same => pages ((pathOf_inj isOther.small user.small).mp same), fun same => pages ?_⟩
  exact Nat.succ.inj same

/-- A page in the memory holds the values of its address. -/
theorem Entry.holds {data : Nat → Bytes} {ide : Bytes} (entry : Entry data ide value la (userPte page)) {offset : Nat}
    (inside : offset < pgsize) : value (la + offset) = some (data page offset) := by
  generalize isPte : userPte page = pte at entry
  have isPage : pte.page? = some page := isPte ▸ userPte_page page
  cases entry with
  | untouched nothing =>
    rw [page?_zero] at isPage
    cases isPage
  | resident holds =>
    rw [userPte_page] at isPage
    cases isPage
    exact holds offset inside
  | swapped holds =>
    rw [swapEntry_page] at isPage
    cases isPage

/-- A page in its slot holds the values of its address. -/
theorem Entry.inSlot {data : Nat → Bytes} {ide : Bytes} (entry : Entry data ide value la (swapEntry (swapSlot la)))
    {offset : Nat} (inside : offset < pgsize) : value (la + offset) = some (ide (swapSlot la * pgsize + offset)) := by
  generalize isPte : swapEntry (swapSlot la) = pte at entry
  cases entry with
  | untouched nothing => exact absurd isPte (swapEntry_ne_zero (swapSlot_pos la))
  | @resident page holds =>
    have noPage := congrArg Pte.page? isPte
    rw [swapEntry_page, userPte_page] at noPage
    cases noPage
  | swapped holds => exact holds offset inside

/-- A page that has no entry has no values. -/
theorem Entry.nothing {data : Nat → Bytes} {ide : Bytes} (entry : Entry data ide value la .zero) :
    ∀ offset < pgsize, value (la + offset) = none := by
  generalize isPte : Pte.zero = pte at entry
  cases entry with
  | untouched nothing => exact nothing
  | @resident page holds => exact absurd isPte.symm (userPte_ne_zero page)
  | swapped holds => exact absurd isPte.symm (swapEntry_ne_zero (swapSlot_pos la))

/-- An entry that names a page is one of the user. -/
theorem Entry.present {data : Nat → Bytes} {ide : Bytes} (entry : Entry data ide value la pte)
    (isPage : pte.page? = some page) :
    pte = userPte page := by
  cases entry with
  | untouched =>
    rw [page?_zero] at isPage
    cases isPage
  | @resident other holds =>
    rw [userPte_page] at isPage
    cases isPage
    rfl
  | swapped =>
    rw [swapEntry_page] at isPage
    cases isPage

/-- A page that is not in the memory was not touched, or it is in its slot. -/
theorem Entry.absent {data : Nat → Bytes} {ide : Bytes} (entry : Entry data ide value la pte)
    (noPage : pte.page? = none) :
    pte = .zero ∨ pte = swapEntry (swapSlot la) := by
  cases entry with
  | untouched => exact Or.inl rfl
  | @resident page holds =>
    rw [userPte_page] at noPage
    cases noPage
  | swapped => exact Or.inr rfl

/-- A page that is not the one at an address lies elsewhere. -/
theorem Entry.elsewhere {data data' : Nat → Bytes} {ide ide' : Bytes} (entry : Entry data ide value la pte)
    (sameValue : ∀ offset < pgsize, value' (la + offset) = value (la + offset))
    (sameData : ∀ page, pte.page? = some page → data' page = data page)
    (sameIde : ∀ offset < pgsize, ide' (swapSlot la * pgsize + offset) = ide (swapSlot la * pgsize + offset)) :
    Entry data' ide' value' la pte := by
  cases entry with
  | untouched nothing => exact .untouched fun offset inside => (sameValue offset inside).trans (nothing offset inside)
  | @resident page holds =>
    refine .resident fun offset inside => ?_
    rw [sameValue offset inside, sameData page (userPte_page page)]
    exact holds offset inside
  | swapped holds =>
    refine .swapped fun offset inside => ?_
    rw [sameValue offset inside, sameIde offset inside]
    exact holds offset inside

/-! ## One address -/

theorem sets_leaf {path : Path} {mem after : Memory} (sets : Sets pager.roots pager.pgdir path pte mem after)
    (path' : Path) :
    after.leaf pager.pgdir path' = if path' = path then pte else mem.leaf pager.pgdir path' := by
  rw [sets.leaf pager.pgdir (pgdir_root pager)]
  exact if_congr (and_iff_right rfl) rfl rfl

theorem sets_mapped {path : Path} {mem after : Memory} (sets : Sets pager.roots pager.pgdir path pte mem after)
    (path' : Path) :
    after.mapped pager.pgdir path' = if path' = path then pte.page? else mem.mapped pager.pgdir path' := by
  rw [Memory.mapped, sets_leaf sets]
  split <;> rfl

/-- What a tree of tables needs when an entry of the last level changes. -/
theorem sets_tree {path : Path} (tree : Tree pager.roots state.mem)
    (sets : Sets pager.roots pager.pgdir path pte state.mem next.mem)
    (inUse : ∀ table, state.mem.IsTable pager.roots table → table ∉ next.mem.free)
    (mapped : ∀ path page, next.mem.mapped pager.pgdir path = some page →
      page ∉ next.mem.free ∧ ¬ state.mem.IsTable pager.roots page) : Tree pager.roots next.mem where
  owned := by
    rw [sets.tables]
    exact tree.owned.keep fun pgdir place table names => inUse table ⟨pgdir, place, names⟩
  mapped := by
    intro pgdir isRoot path page isMapped
    rw [Finset.mem_singleton.mp isRoot] at isMapped
    rw [sets.isTable]
    exact mapped path page isMapped

/-- The page at one address goes elsewhere, or its bytes change. -/
theorem Kept.set (kept : Kept pager state value) (user : UserPage la) (tree : Tree pager.roots next.mem)
    (sets : Sets pager.roots pager.pgdir (pathOf la) pte state.mem next.mem)
    (single : ∀ page, pte.page? = some page → ∀ path, path ≠ pathOf la → state.mem.mapped pager.pgdir path ≠ some page)
    (here : Entry next.data next.ide value' la pte)
    (sameValue : ∀ other, other / pgsize ≠ la / pgsize → value' other = value other)
    (sameData : ∀ path page, path ≠ pathOf la → state.mem.mapped pager.pgdir path = some page →
      next.data page = state.data page)
    (sameIde : ∀ slot offset, slot ≠ swapSlot la → offset < pgsize →
      next.ide (slot * pgsize + offset) = state.ide (slot * pgsize + offset))
    (tracked : ∀ page ∈ next.swappable,
      UserPage (next.praVaddr page) ∧ pager.leaf next (next.praVaddr page) = userPte page)
    (unused : ∀ page ∈ next.mem.free, next.mem.ref page = 0) : Kept pager next value' := by
  refine ⟨tree, fun other isUser path page first second => ?_, fun other isUser => ?_, tracked, unused⟩
  · rw [sets_mapped sets] at first second
    by_cases isHere : pathOf other = pathOf la
    · rw [if_pos isHere] at first
      by_contra elsewhere
      have notHere : path ≠ pathOf la := fun same => elsewhere (same.trans isHere.symm)
      rw [if_neg notHere] at second
      exact single page first path notHere second
    · rw [if_neg isHere] at first
      split at second
      · exact absurd first (single page second _ isHere)
      · exact kept.once other isUser path page first second
  · rw [Pager.leaf, sets_leaf sets]
    by_cases same : other = la
    · rw [same, if_pos rfl]
      exact here
    · obtain ⟨otherPath, otherSlot⟩ := user.apart isUser same
      rw [if_neg otherPath]
      refine (kept.entries other isUser).elsewhere (fun offset inside => sameValue _ ?_) (fun page isPage => ?_)
        fun offset inside => sameIde _ offset otherSlot inside
      · have aligned := user.1
        have alignedToo := isUser.1
        simp only [pgsize] at aligned alignedToo inside ⊢
        omega
      · exact sameData (pathOf other) page otherPath isPage

/-- Nothing changes for the pages that are mapped. -/
theorem Kept.unmoved (kept : Kept pager state value) (tree : Tree pager.roots next.mem)
    (leaf : ∀ path, next.mem.leaf pager.pgdir path = state.mem.leaf pager.pgdir path)
    (sameData : ∀ path page, state.mem.mapped pager.pgdir path = some page → next.data page = state.data page)
    (sameIde : next.ide = state.ide) (samePra : next.praVaddr = state.praVaddr)
    (sameSwappable : next.swappable = state.swappable) (unused : ∀ page ∈ next.mem.free, next.mem.ref page = 0) :
    Kept pager next value := by
  have mapped : ∀ path, next.mem.mapped pager.pgdir path = state.mem.mapped pager.pgdir path := fun path =>
    congrArg Pte.page? (leaf path)
  refine ⟨tree, fun other isUser path page first second => ?_, fun la user => ?_, fun page member => ?_, unused⟩
  · rw [mapped] at first second
    exact kept.once other isUser path page first second
  · rw [Pager.leaf, leaf, sameIde]
    exact (kept.entries la user).elsewhere (fun _ _ => rfl) (fun page isPage => sameData (pathOf la) page isPage)
      fun _ _ => rfl
  · rw [sameSwappable] at member
    rw [Pager.leaf, leaf, samePra]
    exact kept.tracked page member

/-! ## Eviction -/

theorem Evicts.refl (pager : Pager) (state : SwapState) : Evicts pager state state :=
  ⟨rfl, fun _ _ => rfl, rfl, rfl, rfl⟩

theorem Evicts.quiet (evicts : Evicts pager state next) : Quiet pager state next 0 where
  persists _ _ names := evicts.tables ▸ names
  leaf := evicts.leaf
  mm := evicts.mm
  log := evicts.log
  supply := evicts.supply.ge

theorem Evicts.trans (first : Evicts pager state middle) (second : Evicts pager middle next) :
    Evicts pager state next where
  tables := second.tables.trans first.tables
  leaf path unmapped := by
    have same := first.leaf path unmapped
    exact (second.leaf path ((congrArg Pte.page? same).trans unmapped)).trans same
  mm := second.mm.trans first.mm
  log := second.log.trans first.log
  supply := second.supply.trans first.supply

theorem Quiet.trans {pages pages' : Nat} (first : Quiet pager state middle pages)
    (second : Quiet pager middle next pages') :
    Quiet pager state next (pages + pages') where
  persists place table names := second.persists place table (first.persists place table names)
  leaf path unmapped := by
    have same := first.leaf path unmapped
    exact (second.leaf path ((congrArg Pte.page? same).trans unmapped)).trans same
  mm := second.mm.trans first.mm
  log := second.log.trans first.log
  supply := by
    have before := first.supply
    have after := second.supply
    omega

theorem Evicts.unmapped (evicts : Evicts pager state next) {path : Path}
    (unmapped : state.mem.mapped pager.pgdir path = none) :
    next.mem.mapped pager.pgdir path = none :=
  (congrArg Pte.page? (evicts.leaf path unmapped)).trans unmapped

theorem Evicts.last (evicts : Evicts pager state next) {d1 d0 : Fin 512}
    (isLast : state.mem.lastTable pager.pgdir d1 d0 = some pt) :
    next.mem.lastTable pager.pgdir d1 d0 = some pt := by
  rw [← tables_last (pgdir_root pager), evicts.tables, tables_last (pgdir_root pager)]
  exact isLast

theorem freePage_run {mem : Memory} (inUse : page ∉ mem.free) : ∃ after, freePage mem page = some after :=
  ⟨_, congrArg (Option.map _) (if_neg inUse)⟩

theorem freePage_exact {mem after : Memory} (freed : freePage mem page = some after) :
    after.table = mem.table ∧ after.free = insert page mem.free ∧ after.ref = Function.update mem.ref page 0 := by
  obtain ⟨middle, isFreed, isAfter⟩ := Option.map_eq_some_iff.mp freed
  rw [Paging.freePage] at isFreed
  split at isFreed
  · cases isFreed
  · cases isFreed
    cases isAfter
    exact ⟨rfl, rfl, rfl⟩

/-- A page of the memory goes to its slot. -/
theorem Kept.evicted {mem : Memory} (kept : Kept pager state value) (member : page ∈ state.swappable)
    (isLast : state.mem.lastTable pager.pgdir (pdx1 (state.praVaddr page)) (pdx0 (state.praVaddr page)) = some pt)
    (freed : freePage (state.mem.setPte pt (ptx (state.praVaddr page))
      (swapEntry (swapSlot (state.praVaddr page)))) page = some mem)
    (isMem : next.mem = mem) (isData : next.data = state.data)
    (isIde : ∀ slot offset, offset < pgsize → next.ide (slot * pgsize + offset) =
      if slot = swapSlot (state.praVaddr page) then state.data page offset else state.ide (slot * pgsize + offset))
    (isPra : next.praVaddr = state.praVaddr) (isSwappable : next.swappable = state.swappable.erase page)
    (isMm : next.mm = state.mm) (isLog : next.log = state.log) : Kept pager next value ∧ Evicts pager state next := by
  obtain ⟨user, isPte⟩ := kept.tracked page member
  have isMapped := Pager.mapped isPte
  obtain ⟨pageInUse, pageNotTable⟩ := kept.tree.mapped pager.pgdir (pgdir_root pager) _ _ isMapped
  obtain ⟨isTable, isFree, isRef⟩ := freePage_exact freed
  have sets : Sets pager.roots pager.pgdir (pathOf (state.praVaddr page)) (swapEntry (swapSlot (state.praVaddr page)))
      state.mem next.mem := kept.tree.onePlace.sets (pgdir_root pager) isLast (isMem ▸ isTable)
  have nextFree : next.mem.free = insert page state.mem.free := isMem ▸ isFree
  have inUse : ∀ other, other ≠ page → other ∉ state.mem.free → other ∉ next.mem.free := by
    intro other different notFree
    rw [nextFree, Finset.mem_insert, not_or]
    exact ⟨different, notFree⟩
  constructor
  · refine kept.set user (sets_tree kept.tree sets ?_ ?_) sets ?_ ?_ (fun _ _ => rfl)
      (fun _ _ _ _ => by rw [isData]) ?_ ?_ ?_
    · rintro table ⟨root, place, names⟩
      refine inUse table ?_ (kept.tree.inUse names)
      rintro rfl
      exact pageNotTable ⟨root, place, names⟩
    · intro path other names
      rw [sets_mapped sets] at names
      split at names
      · rw [swapEntry_page] at names
        cases names
      · rename_i elsewhere
        obtain ⟨otherInUse, notTable⟩ := kept.tree.mapped pager.pgdir (pgdir_root pager) _ other names
        refine ⟨inUse other ?_ otherInUse, notTable⟩
        rintro rfl
        exact elsewhere (kept.once _ user _ _ isMapped names)
    · intro other isPage
      rw [swapEntry_page] at isPage
      cases isPage
    · have entry := kept.entries (state.praVaddr page) user
      rw [isPte] at entry
      refine .swapped fun offset inside => ?_
      rw [isIde _ offset inside, if_pos rfl]
      exact entry.holds inside
    · intro slot offset different inside
      rw [isIde slot offset inside, if_neg different]
    · intro other memberToo
      rw [isSwappable, Finset.mem_erase] at memberToo
      obtain ⟨userToo, isPteToo⟩ := kept.tracked other memberToo.2
      rw [isPra, Pager.leaf, sets_leaf sets, if_neg]
      · exact ⟨userToo, isPteToo⟩
      · intro same
        have samePte : userPte other = userPte page :=
          isPteToo.symm.trans ((congrArg (state.mem.leaf pager.pgdir) same).trans isPte)
        exact memberToo.1 (congrArg Pte.ppn samePte)
    · intro other otherFree
      rw [isMem, isRef]
      by_cases same : other = page
      · rw [same, Function.update_self]
      · rw [Function.update_of_ne same]
        rw [nextFree, Finset.mem_insert] at otherFree
        exact kept.unused other (otherFree.resolve_left same)
  · refine ⟨sets.tables, fun path unmapped => ?_, isMm, isLog, ?_⟩
    · rw [sets_leaf sets, if_neg]
      rintro rfl
      rw [isMapped] at unmapped
      cases unmapped
    · rw [SwapState.supply, nextFree, Finset.card_insert_of_notMem pageInUse, isSwappable, SwapState.supply,
        ← Finset.card_erase_add_one member]
      omega

/-! ## New tables and pages -/

variable {place : TablePlace} {table : Nat}

/-- The number of free pages goes down by one when a page is taken. -/
theorem supply_taken (isFree : page ∈ state.mem.free) (isFreeAfter : next.mem.free = state.mem.free.erase page)
    (sameSwappable : next.swappable = state.swappable) : state.supply = next.supply + 1 := by
  rw [SwapState.supply, SwapState.supply, isFreeAfter, sameSwappable, ← Finset.card_erase_add_one isFree]
  omega

/-- A page that was free becomes a table. -/
theorem Kept.newTable (kept : Kept pager state value) (upper : place.IsUpper)
    (names : state.mem.tables pager.roots pager.pgdir place = some table) (empty : state.mem.entry table index = none)
    (fresh : page ∈ state.mem.free) (onWay : OnWay la (place.child index))
    (isMem : next.mem = (state.mem.taken page).newTable table index page)
    (isData : ∀ other, other ≠ page → next.data other = state.data other) (sameIde : next.ide = state.ide)
    (samePra : next.praVaddr = state.praVaddr) (sameSwappable : next.swappable = state.swappable)
    (sameMm : next.mm = state.mm) (sameLog : next.log = state.log) :
    Kept pager next value ∧ Quiet pager state next 1 ∧
      next.mem.tables pager.roots pager.pgdir (place.child index) = some page := by
  have grows : Grows pager.roots pager.pgdir la state.mem next.mem := by
    rw [isMem]
    exact kept.tree.grows upper names empty fresh onWay
  have isFree : next.mem.free = state.mem.free.erase page := by
    rw [isMem]
    rfl
  refine ⟨?_, ⟨grows.persists pager.pgdir, fun path _ => grows.leaf _ (pgdir_root pager) path, sameMm, sameLog,
    (supply_taken fresh isFree sameSwappable).le⟩, ?_⟩
  · refine kept.unmoved grows.tree (grows.leaf _ (pgdir_root pager))
      (fun path other isMapped => isData other ?_) sameIde
      samePra sameSwappable fun other otherFree => ?_
    · rintro rfl
      exact (kept.tree.mapped _ (pgdir_root pager) path other isMapped).1 fresh
    · rw [isFree, Finset.mem_erase] at otherFree
      rw [isMem]
      exact (Function.update_of_ne otherFree.1 ..).trans (kept.unused other otherFree.2)
  · rw [isMem]
    exact (kept.tree.tables_newTable upper names empty fresh _ _).trans (if_pos ⟨rfl, rfl⟩)

theorem Placed.after (placed : Placed pager value la page middle next) (evicts : Evicts pager state middle) :
    Placed pager value la page state next :=
  ⟨placed.leaf, placed.mm.trans evicts.mm, placed.log.trans evicts.log, placed.kept⟩

/-- A page that was free is mapped at an address that had none in the memory. -/
theorem Kept.placed (kept : Kept pager state value) (user : UserPage la) (fresh : page ∈ state.mem.free)
    (isLast : state.mem.lastTable pager.pgdir (pdx1 la) (pdx0 la) = some pt)
    (isMem : next.mem = ((state.mem.taken page).addRef page 1).setPte pt (ptx la) (userPte page))
    (unmapped : state.mem.mapped pager.pgdir (pathOf la) = none)
    (sameData : ∀ other, other ≠ page → next.data other = state.data other) (sameIde : next.ide = state.ide)
    (sameMm : next.mm = state.mm) (sameLog : next.log = state.log)
    (tracked : ∀ other ∈ next.swappable, other = page ∧ next.praVaddr other = la ∨
      other ∈ state.swappable ∧ next.praVaddr other = state.praVaddr other) :
    Placed pager value la page state next := by
  have sets : Sets pager.roots pager.pgdir (pathOf la) (userPte page) state.mem next.mem :=
    kept.tree.onePlace.sets (pgdir_root pager) isLast (isMem ▸ rfl)
  have here : pager.leaf next la = userPte page := (sets_leaf sets _).trans (if_pos rfl)
  have isFree : next.mem.free = state.mem.free.erase page := isMem ▸ rfl
  have inUse : ∀ other, other ∉ state.mem.free → other ∉ next.mem.free := by
    intro other notFree
    rw [isFree]
    exact fun member => notFree (Finset.mem_of_mem_erase member)
  have notFresh : ∀ path other, state.mem.mapped pager.pgdir path = some other → other ≠ page := by
    rintro path other names rfl
    exact (kept.tree.mapped pager.pgdir (pgdir_root pager) path other names).1 fresh
  refine ⟨here, sameMm, sameLog, fun value' holds sameValue => ?_⟩
  refine kept.set user (sets_tree kept.tree sets ?_ ?_) sets ?_ (.resident holds) sameValue ?_ ?_ ?_ ?_
  · rintro table ⟨root, place, names⟩
    exact inUse table (kept.tree.inUse names)
  · intro path other names
    rw [sets_mapped sets] at names
    split at names
    · rw [userPte_page] at names
      cases names
      refine ⟨isFree ▸ Finset.notMem_erase page _, ?_⟩
      rintro ⟨root, place, names⟩
      exact kept.tree.inUse names fresh
    · obtain ⟨otherInUse, notTable⟩ := kept.tree.mapped pager.pgdir (pgdir_root pager) path other names
      exact ⟨inUse other otherInUse, notTable⟩
  · intro other isPage path _ names
    rw [userPte_page] at isPage
    cases isPage
    exact notFresh path page names rfl
  · intro path other _ names
    exact sameData other (notFresh path other names)
  · intro slot offset _ _
    rw [sameIde]
  · intro other member
    obtain ⟨rfl, isLa⟩ | ⟨memberToo, samePra⟩ := tracked other member
    · rw [isLa]
      exact ⟨user, here⟩
    · obtain ⟨userToo, isPte⟩ := kept.tracked other memberToo
      rw [samePra, Pager.leaf, sets_leaf sets, if_neg]
      · exact ⟨userToo, isPte⟩
      · intro same
        have isLeaf : state.mem.leaf pager.pgdir (pathOf (state.praVaddr other)) = userPte other := isPte
        rw [Memory.mapped, ← same, isLeaf, userPte_page] at unmapped
        cases unmapped
  · intro other otherFree
    rw [isFree, Finset.mem_erase] at otherFree
    rw [isMem]
    exact (Function.update_of_ne otherFree.1 ..).trans (kept.unused other otherFree.2)

end Ucore.SwapPages
