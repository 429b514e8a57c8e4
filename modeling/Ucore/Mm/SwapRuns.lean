import Ucore.Library.SafeCalls
import Ucore.Mm.SwapPlaces

/-!
# Runs with swapping

A user who reads and writes does not notice where the pages are. No call fails an assertion: the
pages that are evicted are in the memory, the slots are on the device, and a page that was taken is
nowhere else.
-/

namespace Ucore.SwapPages

open AllocPages (swapSlot swapEntry)
open Paging hiding swapEntry
open SafeCalls
open SwapFault (Call asserted pure_run bind_run)
open Transition
open Vmm (Mm Vma findVma roundDown roundDown_toNat vmWrite)

/-- What an address holds: the value last written to it, or its first content. -/
def lastValue : List Event → Nat → Option (Fin 256)
  | [], _ => none
  | .mapped start content :: earlier, la =>
      if start ≤ la ∧ la < start + pgsize then some (content (la - start)) else lastValue earlier la
  | .wrote other value :: earlier, la => if la = other then some value else lastValue earlier la
  | .read .. :: earlier, la | .faultsAgain _ :: earlier, la => lastValue earlier la

/-- Every value that was read is the last one of its address, and a page gets its first content once. No access faults
again. -/
def Transparent : List Event → Prop
  | [] => True
  | .mapped start _ :: earlier => (∀ offset < pgsize, lastValue earlier (start + offset) = none) ∧ Transparent earlier
  | .read la value :: earlier => lastValue earlier la = some value ∧ Transparent earlier
  | .wrote .. :: earlier => Transparent earlier
  | .faultsAgain _ :: _ => False

/-- The managers have an answer whenever there is a page. -/
structure Pager.Prompt (pager : Pager) : Prop where
  allocator : ∀ calls free, free.Nonempty → ∃ page ∈ free, pager.allocator calls free = some page
  victim : ∀ calls swappable, swappable.Nonempty → ∃ page ∈ swappable, pager.victim calls swappable = some page

/-- There are pages for so many calls of `alloc_page`. -/
def Plenty (pager : Pager) (rounds : Nat) (state : SwapState) (pages : Nat) : Prop :=
  pager.Prompt ∧ 2 ≤ rounds ∧ pages ≤ state.supply

variable {pager : Pager} {state middle next : SwapState} {value : Nat → Option (Fin 256)} {la page pt slot rounds : Nat}
  {index : Fin 512}

/-! ## The swap device -/

theorem ideWriteSecs_exact (ide src : Bytes) (slot other : Nat) {offset : Nat} (inside : offset < pgsize) :
    ideWriteSecs ide (slot * pageNsect) src pageNsect (other * pgsize + offset) =
      if other = slot then src offset else ide (other * pgsize + offset) := by
  simp only [ideWriteSecs, memcpy_exact, pageNsect, sectsize, pgsize] at inside ⊢
  by_cases same : other = slot
  · rw [if_pos same, if_pos (by omega)]
    exact congrArg src (by omega)
  · rw [if_neg same, if_neg (by omega)]

theorem ideReadSecs_exact (ide dst : Bytes) (slot : Nat) {offset : Nat} (inside : offset < pgsize) :
    ideReadSecs ide (slot * pageNsect) dst pageNsect offset = ide (slot * pgsize + offset) := by
  simp only [ideReadSecs, memcpy_exact, pageNsect, sectsize, pgsize] at inside ⊢
  rw [if_pos (by omega)]
  exact congrArg ide (by omega)

/-- The slot of an entry is on the device. -/
theorem swapOffset_run (positive : 0 < slot) (inside : slot < maxSwapOffset) :
    (swapOffset (swapEntry slot)).run = some (.ok slot) := by
  rw [swapOffset, offsetOf_swapEntry, if_pos ⟨positive, inside⟩]
  rfl

/-- `swapfs_write` to the slot of an entry. -/
theorem swapfsWrite_run (state : SwapState) (page : Nat) (positive : 0 < slot) (inside : slot < maxSwapOffset) :
    ∃ ide, (swapfsWrite state (swapEntry slot) page).run = some (.ok (0, state.store ide)) ∧
      ∀ other offset, offset < pgsize →
        ide (other * pgsize + offset) =
          if other = slot then state.data page offset else state.ide (other * pgsize + offset) := by
  refine ⟨ideWriteSecs state.ide (slot * pageNsect) (state.data page) pageNsect, ?_,
    fun other offset inside => ideWriteSecs_exact _ _ _ _ inside⟩
  rw [swapfsWrite, bind_run (swapOffset_run positive inside)]
  rfl

/-- `swapfs_read` from the slot of an entry. -/
theorem swapfsRead_run (state : SwapState) (page : Nat) (positive : 0 < slot) (inside : slot < maxSwapOffset) :
    ∃ content, (swapfsRead state (swapEntry slot) page).run = some (.ok (0, state.fill page content)) ∧
      ∀ offset < pgsize, content offset = state.ide (slot * pgsize + offset) := by
  refine ⟨ideReadSecs state.ide (slot * pageNsect) (state.data page) pageNsect, ?_,
    fun offset inside => ideReadSecs_exact _ _ _ inside⟩
  rw [swapfsRead, bind_run (swapOffset_run positive inside)]
  rfl

/-! ## Calls that evict pages -/

theorem asserted_run {α : Type} {result : Option α} {found : α} (isFound : result = some found) :
    (asserted result).run = some (.ok found) := by
  rw [isFound]
  rfl

/-- The swap manager returns a page that it can return, or an error. -/
theorem swapOutVictim_cases (pager : Pager) (state : SwapState) :
    (∃ page ∈ state.swappable, swapOutVictim pager state = (some page, { state with
      swappable := state.swappable.erase page
      victims := state.victims + 1 })) ∨
    swapOutVictim pager state = (none, { state with victims := state.victims + 1 }) ∧
      ¬ (pager.Prompt ∧ state.swappable.Nonempty) := by
  rw [swapOutVictim]
  cases answer : pager.victim state.victims state.swappable with
  | some page =>
    by_cases member : page ∈ state.swappable
    · exact Or.inl ⟨page, member, if_pos member⟩
    · refine Or.inr ⟨if_neg member, fun ⟨prompt, nonempty⟩ => ?_⟩
      obtain ⟨other, memberToo, same⟩ := prompt.victim state.victims state.swappable nonempty
      rw [answer] at same
      exact member (Option.some.inj same ▸ memberToo)
  | none =>
    refine Or.inr ⟨rfl, fun ⟨prompt, nonempty⟩ => ?_⟩
    obtain ⟨other, _, same⟩ := prompt.victim state.victims state.swappable nonempty
    rw [answer] at same
    cases same

/-- An entry that is not 0 is in a table that is there. -/
theorem leaf_last {mem : Memory} {pgdir : Nat} (nonzero : mem.leaf pgdir (pathOf la) ≠ .zero) :
    ∃ pt, mem.lastTable pgdir (pdx1 la) (pdx0 la) = some pt ∧ mem.table pt (ptx la) = mem.leaf pgdir (pathOf la) := by
  cases isLast : mem.lastTable pgdir (pdx1 la) (pdx0 la) with
  | none => exact absurd (leaf_none isLast _) nonzero
  | some pt => exact ⟨pt, rfl, (leaf_table isLast _).symm⟩

variable {forever : Prop}

/-- A round of `swap_out` evicts a page, or none. -/
theorem swapOutOnce_safe (kept : Kept pager state value) :
    Safe forever (swapOutOnce pager state) fun result => Kept pager result.2 value ∧ Evicts pager state result.2 ∧
      (pager.Prompt → state.swappable.Nonempty → result.2.mem.free.Nonempty) := by
  obtain ⟨page, member, chosen⟩ | ⟨refused, notPrompt⟩ := swapOutVictim_cases pager state
  · obtain ⟨user, isPte⟩ := kept.tracked page member
    have inUse := (kept.tree.mapped pager.pgdir (pgdir_root pager) _ _ (Pager.mapped isPte)).1
    obtain ⟨pt, isLast, isEntry⟩ := leaf_last fun isZero => userPte_ne_zero page (isPte.symm.trans isZero)
    have valid : (state.mem.table pt (ptx (state.praVaddr page))).flags &&& pteV ≠ 0#10 :=
      isEntry.trans isPte ▸ userPte_valid page
    obtain ⟨mem, freed⟩ : ∃ mem, freePage (state.mem.setPte pt (ptx (state.praVaddr page))
        (swapEntry (swapSlot (state.praVaddr page)))) page = some mem := freePage_run inUse
    simp only [swapOutOnce, chosen, getPte_lookup, isLast, Option.map_some, if_neg valid]
    obtain ⟨ide, written, isIde⟩ := swapfsWrite_run { state with
      swappable := state.swappable.erase page
      victims := state.victims + 1 } page (swapSlot_pos _) user.2
    refine Safe.after written ?_
    dsimp only
    rw [if_neg (not_not.mpr rfl)]
    refine Safe.after (asserted_run freed) (safe_pure ?_)
    obtain ⟨keptOn, evicts⟩ := @Kept.evicted pager state { state with
      mem
      ide
      swappable := state.swappable.erase page
      victims := state.victims + 1 } value page pt mem kept member isLast freed rfl rfl isIde rfl rfl rfl rfl
    exact ⟨keptOn, evicts, fun _ _ => ⟨page, (freePage_exact freed).2.1 ▸ Finset.mem_insert_self ..⟩⟩
  · simp only [swapOutOnce, refused]
    exact safe_pure ⟨⟨kept.tree, kept.once, kept.entries, kept.tracked, kept.unused⟩,
      ⟨rfl, fun _ _ => rfl, rfl, rfl, rfl⟩,
      fun prompt nonempty => (notPrompt ⟨prompt, nonempty⟩).elim⟩

theorem swapOut_safe {n : Nat} (kept : Kept pager state value) :
    Safe forever (swapOut pager n state) fun next => Kept pager next value ∧ Evicts pager state next := by
  induction n generalizing state with
  | zero => exact safe_pure ⟨kept, .refl pager state⟩
  | succ n ih =>
    apply Safe.bind (swapOutOnce_safe kept)
    rintro ⟨goOn, middle⟩ ⟨keptOn, evicts, _⟩
    cases goOn with
    | false => exact safe_pure ⟨keptOn, evicts⟩
    | true => exact (ih keptOn).mono id fun next done => ⟨done.1, evicts.trans done.2⟩

/-- With one round there is a free page after it, if a page can be evicted. -/
theorem swapOut_one (kept : Kept pager state value) :
    Safe forever (swapOut pager 1 state) fun next => Kept pager next value ∧ Evicts pager state next ∧
      (pager.Prompt → state.swappable.Nonempty → next.mem.free.Nonempty) := by
  apply Safe.bind (swapOutOnce_safe kept)
  rintro ⟨goOn, next⟩ done
  cases goOn with
  | false => exact safe_pure done
  | true => exact safe_pure done

/-- A page may have been evicted before `alloc_page` returns a page that was free. It returns none only if pages are not
swapped. -/
def Allocates (pager : Pager) (value : Nat → Option (Fin 256)) (state : SwapState)
    (result : Option Nat × SwapState) : Prop :=
  ∃ middle, Kept pager middle value ∧ Evicts pager state middle ∧
    ((∃ page ∈ middle.mem.free, result = (some page, { middle with mem := middle.mem.taken page })) ∨
      result = (none, middle) ∧ pager.swapInitOk = false)

/-- The page manager answers at once if there is a free page, and after an eviction otherwise. -/
theorem allocPage_safe (kept : Kept pager state value) :
    Safe (¬ (pager.Prompt ∧ (state.mem.free.Nonempty ∧ 1 ≤ rounds ∨ state.swappable.Nonempty ∧ 2 ≤ rounds)))
      (allocPage pager rounds state) (Allocates pager value state) := by
  induction rounds generalizing state with
  | zero =>
    rintro ⟨_, ⟨_, few⟩ | ⟨_, few⟩⟩
    · omega
    · omega
  | succ rounds ih =>
    rw [allocPage]
    obtain ⟨page, isFree, alloc⟩ | alloc :=
      allocPage_cases (fun calls => pager.allocator calls state.mem.free) state.mem
    · simp only [alloc]
      exact safe_pure ⟨state, kept, .refl pager state, Or.inl ⟨page, isFree, rfl⟩⟩
    · simp only [alloc]
      have keptOn : Kept pager { state with mem := { state.mem with calls := state.mem.calls + 1 } } value :=
        kept.unmoved ⟨kept.tree.owned, kept.tree.mapped⟩ (fun _ => rfl) (fun _ _ _ => rfl) rfl rfl rfl kept.unused
      have evicts : Evicts pager state { state with mem := { state.mem with calls := state.mem.calls + 1 } } :=
        ⟨rfl, fun _ _ => rfl, rfl, rfl, rfl⟩
      have noAnswer : ¬ (pager.Prompt ∧ state.mem.free.Nonempty) := by
        rintro ⟨prompt, nonempty⟩
        obtain ⟨page, isFree, answer⟩ := prompt.allocator state.mem.calls state.mem.free nonempty
        simp only [Paging.allocPage, answer, if_pos isFree] at alloc
        cases alloc
      split
      · rename_i off
        exact safe_pure ⟨_, keptOn, evicts, Or.inr ⟨rfl, off⟩⟩
      · apply Safe.bind (swapOut_one keptOn)
        rintro next ⟨keptToo, evictsToo, nonempty⟩
        refine (ih keptToo).mono ?_ ?_
        · rintro noEnd ⟨prompt, ⟨isFree, _⟩ | ⟨victims, few⟩⟩
          · exact noAnswer ⟨prompt, isFree⟩
          · exact noEnd ⟨prompt, Or.inl ⟨nonempty prompt victims, by omega⟩⟩
        · rintro result ⟨middle, keptLast, evictsLast, isResult⟩
          exact ⟨middle, keptLast, (evicts.trans evictsToo).trans evictsLast, isResult⟩

/-- `alloc_page` ends when there is a page for it. -/
theorem allocPage_ends (kept : Kept pager state value) :
    Safe (¬ Plenty pager rounds state 1) (allocPage pager rounds state) (Allocates pager value state) := by
  refine (allocPage_safe kept).mono ?_ fun _ => id
  rintro noEnd ⟨prompt, many, supply⟩
  refine noEnd ⟨prompt, ?_⟩
  rw [SwapState.supply] at supply
  by_cases isFree : state.mem.free.Nonempty
  · exact Or.inl ⟨isFree, by omega⟩
  · rw [Finset.not_nonempty_iff_eq_empty.mp isFree, Finset.card_empty] at supply
    exact Or.inr ⟨Finset.card_pos.mp (by omega), many⟩

variable {place : TablePlace} {table : Nat}

/-- What is left after some pages were taken. -/
theorem Plenty.later {pages pages' : Nat} (plenty : Plenty pager rounds state (pages + pages'))
    (quiet : Quiet pager state next pages) : Plenty pager rounds next pages' := by
  obtain ⟨prompt, many, supply⟩ := plenty
  have before := quiet.supply
  exact ⟨prompt, many, by omega⟩

/-- One level of `get_pte` returns the table, with which nothing else changes. -/
theorem getTable_safe (kept : Kept pager state value) (upper : place.IsUpper)
    (names : state.mem.tables pager.roots pager.pgdir place = some table) (onWay : OnWay la (place.child index)) :
    Safe (¬ Plenty pager rounds state 1) (getTable pager rounds state table index) fun result =>
      Kept pager result.2 value ∧ Quiet pager state result.2 1 ∧
        (∀ page, result.1 = some page → result.2.mem.tables pager.roots pager.pgdir (place.child index) = some page) ∧
          (result.1 = none → pager.swapInitOk = false) := by
  rw [getTable]
  cases isEntry : state.mem.entry table index with
  | some page =>
    have quiet : Quiet pager state state 1 :=
      ⟨fun _ _ => id, fun _ _ => rfl, rfl, rfl, Nat.le_succ _⟩
    refine safe_pure ⟨kept, quiet, fun other same => ?_, fun absent => ?_⟩
    · cases same
      exact (tables_child upper names).trans isEntry
    · cases absent
  | none =>
    apply Safe.bind (allocPage_ends kept)
    rintro _ ⟨middle, keptOn, evicts, ⟨page, isFree, rfl⟩ | ⟨rfl, off⟩⟩
    · have stillNamed : middle.mem.tables pager.roots pager.pgdir place = some table := evicts.tables ▸ names
      have stillEmpty : middle.mem.entry table index = none := by
        rw [← tables_child upper stillNamed, evicts.tables, tables_child upper names, isEntry]
      apply safe_pure
      obtain ⟨keptToo, quiet, isTable⟩ := @Kept.newTable pager middle
        { SwapState.fill { middle with mem := middle.mem.taken page } page fun _ => 0 with
          mem := (middle.mem.taken page).newTable table index page }
        value la page index place table keptOn upper stillNamed stillEmpty isFree onWay rfl
        (fun _ different => Function.update_of_ne different ..) rfl rfl rfl rfl rfl
      refine ⟨keptToo, ?_, fun other same => ?_, fun absent => ?_⟩
      · exact Nat.zero_add 1 ▸ evicts.quiet.trans quiet
      · cases same
        exact isTable
      · cases absent
    · refine safe_pure ⟨keptOn, ⟨evicts.quiet.persists, evicts.leaf, evicts.mm, evicts.log, ?_⟩,
        fun other same => ?_, fun _ => off⟩
      · exact evicts.supply.ge.trans (Nat.le_succ _)
      · cases same

/-- `get_pte` returns the place of the entry. -/
theorem getPte_safe (kept : Kept pager state value) :
    Safe (¬ Plenty pager rounds state 2) (getPte pager rounds state la) fun result =>
      Kept pager result.2 value ∧ Quiet pager state result.2 2 ∧
        (∀ pt index, result.1 = some (pt, index) →
          index = ptx la ∧ result.2.mem.lastTable pager.pgdir (pdx1 la) (pdx0 la) = some pt) ∧
          (result.1 = none → pager.swapInitOk = false) := by
  have first : Safe (¬ Plenty pager rounds state 1) (getTable pager rounds state pager.pgdir (pdx1 la)) _ :=
    getTable_safe kept isUpper_root (tables_root (pgdir_root pager)) (Or.inl rfl : OnWay la _)
  apply Safe.bind (first.mono (fun few plenty => few ⟨plenty.1, plenty.2.1, Nat.le_of_succ_le plenty.2.2⟩) fun _ => id)
  rintro ⟨pd0, middle⟩ ⟨keptOn, quiet, isDir, absent⟩
  cases pd0 with
  | none =>
    refine safe_pure ⟨keptOn, ⟨quiet.persists, quiet.leaf, quiet.mm, quiet.log, quiet.supply.trans (Nat.le_succ _)⟩,
      fun pt index same => ?_, fun _ => absent rfl⟩
    cases same
  | some pd0 =>
    have second : Safe (¬ Plenty pager rounds middle 1) (getTable pager rounds middle pd0 (pdx0 la)) _ :=
      getTable_safe keptOn (isUpper_dir _) (isDir pd0 rfl) (Or.inr rfl : OnWay la _)
    apply Safe.bind (second.mono (fun few plenty => few (plenty.later quiet)) fun _ => id)
    rintro ⟨pt, last⟩ ⟨keptToo, quietToo, isLast, absentToo⟩
    refine safe_pure ⟨keptToo, quiet.trans quietToo, fun found index same => ?_, fun isNone => ?_⟩
    · obtain ⟨_, isSome, isPlace⟩ := Option.map_eq_some_iff.mp same
      cases isPlace
      exact ⟨rfl, (tables_last (pgdir_root pager)).symm.trans (isLast _ isSome)⟩
    · exact absentToo (Option.map_eq_none_iff.mp isNone)

/-! ## Calls that map pages -/

/-- `get_pte` finds the entry in the tables that are there. -/
theorem getPte_found (isLast : state.mem.lastTable pager.pgdir (pdx1 la) (pdx0 la) = some pt) :
    (getPte pager rounds state la).run = some (.ok (some (pt, ptx la), state)) := by
  obtain ⟨pd0, first, second⟩ := Option.bind_eq_some_iff.mp isLast
  have firstRun : (getTable pager rounds state pager.pgdir (pdx1 la)).run = some (.ok (some pd0, state)) := by
    simp only [getTable, first, pure_run]
  have secondRun : (getTable pager rounds state pd0 (pdx0 la)).run = some (.ok (some pt, state)) := by
    simp only [getTable, second, pure_run]
  rw [getPte, bind_run firstRun]
  dsimp only
  rw [bind_run secondRun, pure_run]
  rfl

/-- `page_insert` at an address that has no page in the memory. -/
theorem pageInsert_run (isLast : state.mem.lastTable pager.pgdir (pdx1 la) (pdx0 la) = some pt)
    (unmapped : state.mem.mapped pager.pgdir (pathOf la) = none) :
    (pageInsert pager rounds state page la (pteU ||| (pteR ||| pteW))).run =
      some (.ok (0, { state with mem := (state.mem.addRef page 1).setPte pt (ptx la) (userPte page) })) := by
  have empty : (state.mem.addRef page 1).entry pt (ptx la) = none := (entry_leaf isLast (ptx la)).trans unmapped
  have isRemoved : (if (state.mem.addRef page 1).entry pt (ptx la) = some page then
      some ((state.mem.addRef page 1).addRef page (-1)) else pageRemovePte (state.mem.addRef page 1) pt (ptx la)) =
        some (state.mem.addRef page 1) := by
    rw [empty, if_neg (by simp), pageRemovePte, empty]
  rw [pageInsert, bind_run (getPte_found isLast)]
  dsimp only
  rw [bind_run (asserted_run isRemoved)]
  rfl

/-- A page that is made swappable, or not. -/
theorem track_tracked {other : Nat} (member : other ∈ (track state page la).swappable) :
    other = page ∧ (track state page la).praVaddr other = la ∨
      other ∈ state.swappable ∧ (track state page la).praVaddr other = state.praVaddr other := by
  by_cases same : other = page
  · rw [same]
    exact Or.inl ⟨rfl, Function.update_self ..⟩
  · exact Or.inr ⟨Finset.mem_of_mem_insert_of_ne member same, Function.update_of_ne same ..⟩

/-- `pgdir_alloc_page` at an address that has no page in the memory. -/
theorem pgdirAllocPage_safe (kept : Kept pager state value) (user : UserPage la)
    (isLast : state.mem.lastTable pager.pgdir (pdx1 la) (pdx0 la) = some pt)
    (unmapped : state.mem.mapped pager.pgdir (pathOf la) = none) :
    Safe (¬ Plenty pager rounds state 1) (pgdirAllocPage pager rounds state la (pteU ||| (pteR ||| pteW))) fun result =>
      (∀ page, result.1 = some page → Placed pager value la page state result.2) ∧
        (result.1 = none → pager.swapInitOk = false ∧ Kept pager result.2 value ∧ result.2.mm = state.mm ∧
          result.2.log = state.log) := by
  apply Safe.bind (allocPage_ends kept)
  rintro _ ⟨middle, keptOn, evicts, ⟨page, isFree, rfl⟩ | ⟨rfl, off⟩⟩
  · have isLastOn := evicts.last isLast
    have unmappedOn := evicts.unmapped unmapped
    dsimp only
    refine Safe.after (@pageInsert_run pager { middle with mem := middle.mem.taken page } la page pt rounds
      isLastOn unmappedOn) ?_
    dsimp only
    rw [if_neg (not_not.mpr rfl)]
    have placed : ∀ next : SwapState,
        next.mem = ((middle.mem.taken page).addRef page 1).setPte pt (ptx la) (userPte page) →
        next.data = middle.data → next.ide = middle.ide → next.mm = middle.mm → next.log = middle.log →
        (∀ other ∈ next.swappable, other = page ∧ next.praVaddr other = la ∨
          other ∈ middle.swappable ∧ next.praVaddr other = middle.praVaddr other) →
        Placed pager value la page state next := by
      intro next isMem isData sameIde sameMm sameLog tracked
      exact (keptOn.placed user isFree isLastOn isMem unmappedOn (fun _ _ => by rw [isData]) sameIde sameMm sameLog
        tracked).after evicts
    split
    · have single : (((middle.mem.taken page).addRef page 1).setPte pt (ptx la) (userPte page)).ref page = 1 :=
        (Function.update_self ..).trans (congrArg (· + 1) (keptOn.unused page isFree))
      rw [if_pos single]
      refine safe_pure ⟨fun found same => ?_, fun absent => ?_⟩
      · cases same
        exact placed _ rfl rfl rfl rfl rfl fun other member => track_tracked member
      · cases absent
    · refine safe_pure ⟨fun found same => ?_, fun absent => ?_⟩
      · cases same
        exact placed _ rfl rfl rfl rfl rfl fun other member => Or.inr ⟨member, rfl⟩
      · cases absent
  · refine safe_pure ⟨fun page same => ?_, fun _ => ⟨off, keptOn, evicts.mm, evicts.log⟩⟩
    cases same

/-- `swap_in` at an address whose page is in its slot returns a page with the values of the address. -/
theorem swapIn_safe (kept : Kept pager state value) (user : UserPage la)
    (isLast : state.mem.lastTable pager.pgdir (pdx1 la) (pdx0 la) = some pt)
    (swapped : pager.leaf state la = swapEntry (swapSlot la)) (ready : pager.swapInitOk = true) :
    Safe (¬ Plenty pager rounds state 1) (swapIn pager rounds state la) fun result =>
      ∃ middle, Kept pager middle value ∧ Evicts pager state middle ∧ ∃ page ∈ middle.mem.free, ∃ content,
        (∀ offset < pgsize, value (la + offset) = some (content offset)) ∧
          result = (0, page, { middle with mem := middle.mem.taken page }.fill page content) := by
  apply Safe.bind (allocPage_ends kept)
  rintro _ ⟨middle, keptOn, evicts, ⟨page, isFree, rfl⟩ | ⟨rfl, off⟩⟩
  · have unmapped : state.mem.mapped pager.pgdir (pathOf la) = none :=
      (congrArg Pte.page? swapped).trans (swapEntry_page _)
    have isLastOn : (middle.mem.taken page).lastTable pager.pgdir (pdx1 la) (pdx0 la) = some pt := evicts.last isLast
    have isLeaf : pager.leaf middle la = swapEntry (swapSlot la) := (evicts.leaf _ unmapped).trans swapped
    have isEntry : (middle.mem.taken page).table pt (ptx la) = swapEntry (swapSlot la) :=
      (leaf_table isLastOn _).symm.trans isLeaf
    have entry := keptOn.entries la user
    rw [isLeaf] at entry
    obtain ⟨content, read, holds⟩ := swapfsRead_run { middle with mem := middle.mem.taken page } page
      (swapSlot_pos la) user.2
    dsimp only
    rw [getPte_lookup, isLastOn]
    dsimp only [Option.map_some]
    rw [isEntry]
    refine Safe.after read (safe_pure ⟨middle, keptOn, evicts, page, isFree, content, fun offset inside => ?_, rfl⟩)
    rw [holds offset inside]
    exact entry.inSlot inside
  · rw [ready] at off
    cases off

/-! ## Faults -/

/-- A user has not noticed anything yet. -/
structure Sound (pager : Pager) (areas : List Vma) (state : SwapState) : Prop where
  kept : Kept pager state (lastValue state.log)
  transparent : Transparent state.log
  isList : state.mm.mmapList = areas
  disjoint : state.mm.Disjoint

variable {areas : List Vma} {addr : BitVec 64} {vma : Vma}

/-- The history is no part of the memory. -/
theorem Kept.logged (kept : Kept pager state value) (log : List Event) : Kept pager { state with log } value :=
  ⟨kept.tree, kept.once, kept.entries, kept.tracked, kept.unused⟩

theorem Sound.goesOn (sound : Sound pager areas state) (kept : Kept pager next (lastValue state.log))
    (sameMm : next.mm = state.mm) (sameLog : next.log = state.log) : Sound pager areas next where
  kept := sameLog ▸ kept
  transparent := sameLog ▸ sound.transparent
  isList := sameMm ▸ sound.isList
  disjoint := sameMm ▸ sound.disjoint

theorem userPage_roundDown (hasSlot : swapSlot addr.toNat < maxSwapOffset) : UserPage (roundDown addr).toNat := by
  rw [UserPage, roundDown_toNat]
  simp only [swapSlot, pgsize] at hasSlot ⊢
  exact ⟨by omega, by omega⟩

/-- The history of a page that is mapped. -/
theorem lastValue_mapped (aligned : la % pgsize = 0) (content : Bytes) (log : List Event) :
    (∀ offset < pgsize, lastValue (.mapped la content :: log) (la + offset) = some (content offset)) ∧
      ∀ other, other / pgsize ≠ la / pgsize → lastValue (.mapped la content :: log) other = lastValue log other := by
  constructor
  · intro offset inside
    rw [lastValue, if_pos ⟨Nat.le_add_right .., Nat.add_lt_add_left inside _⟩, Nat.add_sub_cancel_left]
  · intro other elsewhere
    rw [lastValue, if_neg]
    simp only [pgsize] at *
    omega

/-- The first fault on a page, when its entry is 0. -/
theorem Sound.firstTouch (sound : Sound pager areas state) (user : UserPage la)
    (isLast : state.mem.lastTable pager.pgdir (pdx1 la) (pdx0 la) = some pt) (isZero : pager.leaf state la = .zero) :
    Safe (¬ Plenty pager rounds state 1) (pgdirAllocPage pager rounds state la (pteU ||| (pteR ||| pteW))) fun result =>
      (∀ page, result.1 = some page →
        Sound pager areas { result.2 with log := .mapped la (result.2.data page) :: result.2.log } ∧
          pager.leaf result.2 la = userPte page) ∧
        (result.1 = none → pager.swapInitOk = false ∧ Sound pager areas result.2) := by
  have unmapped : state.mem.mapped pager.pgdir (pathOf la) = none := (congrArg Pte.page? isZero).trans page?_zero
  refine (pgdirAllocPage_safe sound.kept user isLast unmapped).mono id ?_
  rintro ⟨found, next⟩ ⟨mapped, absent⟩
  refine ⟨fun page isSome => ?_, fun isNone => ?_⟩
  · have placed := mapped page isSome
    obtain ⟨here, elsewhere⟩ := lastValue_mapped user.1 (next.data page) state.log
    have entry := sound.kept.entries la user
    rw [isZero] at entry
    have kept := placed.kept _ here elsewhere
    dsimp only
    rw [placed.log]
    refine ⟨⟨kept.logged _, ⟨entry.nothing, sound.transparent⟩, ?_, ?_⟩, placed.leaf⟩
    · exact placed.mm ▸ sound.isList
    · exact placed.mm ▸ sound.disjoint
  · obtain ⟨off, kept, sameMm, sameLog⟩ := absent isNone
    exact ⟨off, sound.goesOn kept sameMm sameLog⟩

/-- A later fault on a page, which comes back from its slot. -/
theorem Sound.swapBack (sound : Sound pager areas state) (user : UserPage la)
    (isLast : state.mem.lastTable pager.pgdir (pdx1 la) (pdx0 la) = some pt)
    (swapped : pager.leaf state la = swapEntry (swapSlot la)) (ready : pager.swapInitOk = true) :
    Safe (¬ Plenty pager rounds state 1)
      (do
        let (ret, page, state) ← swapIn pager rounds state la
        if ret ≠ 0 then pure (ret, state)
        else
          let (_, state) ← pageInsert pager rounds state page la (pteU ||| (pteR ||| pteW))
          pure (0, track state page la) : Call (Int × SwapState))
      fun result => result.1 = 0 ∧ Sound pager areas result.2 ∧ ∃ page, pager.leaf result.2 la = userPte page := by
  apply Safe.bind (swapIn_safe sound.kept user isLast swapped ready)
  rintro _ ⟨middle, kept, evicts, page, isFree, content, holds, rfl⟩
  have unmapped : state.mem.mapped pager.pgdir (pathOf la) = none :=
    (congrArg Pte.page? swapped).trans (swapEntry_page _)
  have isLastOn := evicts.last isLast
  have unmappedOn := evicts.unmapped unmapped
  dsimp only
  rw [if_neg (not_not.mpr rfl)]
  refine Safe.after (@pageInsert_run pager (SwapState.fill { middle with mem := middle.mem.taken page } page content)
    la page pt rounds isLastOn unmappedOn) (safe_pure ⟨rfl, ?_⟩)
  have placed : Placed pager (lastValue state.log) la page middle (track { SwapState.fill
      { middle with mem := middle.mem.taken page } page content with
        mem := ((middle.mem.taken page).addRef page 1).setPte pt (ptx la) (userPte page) } page la) :=
    kept.placed user isFree isLastOn rfl unmappedOn (fun _ different => Function.update_of_ne different ..) rfl rfl rfl
      fun other member => track_tracked member
  have placed := placed.after evicts
  refine ⟨sound.goesOn (placed.kept _ (fun offset inside => ?_) fun _ _ => rfl) placed.mm placed.log, page, placed.leaf⟩
  rw [holds offset inside]
  simp only [track, swapMapSwappable, SwapState.fill, Function.update_self]

/-- The area that is found becomes the one that was found last. -/
theorem Sound.found (sound : Sound pager areas state) (member : vma ∈ areas) :
    Sound pager areas { state with mm := { state.mm with mmapCache := some vma } } where
  kept := ⟨sound.kept.tree, sound.kept.once, sound.kept.entries, sound.kept.tracked, sound.kept.unused⟩
  transparent := sound.transparent
  isList := sound.isList
  disjoint := sound.disjoint.cached (sound.isList ▸ member)

theorem pgfaultPerm_writable (writable : vma.vmFlags &&& vmWrite ≠ 0#32) :
    SwapFault.pgfaultPerm vma = pteU ||| (pteR ||| pteW) := if_pos writable

/-- A fault on a page that is not in the memory is resolved in every area, if pages are swapped. -/
theorem doPgfault_safe (sound : Sound pager areas state) (writable : ∀ vma ∈ areas, vma.vmFlags &&& vmWrite ≠ 0#32)
    (hasSlot : swapSlot addr.toNat < maxSwapOffset)
    (unmapped : state.mem.mapped pager.pgdir (pathOf addr.toNat) = none) :
    Safe (¬ Plenty pager rounds state 3) (doPgfault pager rounds state addr) fun result =>
      Sound pager areas result.2 ∧ (result.1 = 0 → ∃ page, pager.leaf result.2 addr.toNat = userPte page) ∧
        (pager.swapInitOk = true → (∃ vma ∈ areas, vma.Contains addr) → result.1 = 0) := by
  have user := userPage_roundDown hasSlot
  have sameLeaf : ∀ next, pager.leaf next (roundDown addr).toNat = pager.leaf next addr.toNat := fun next =>
    congrArg (next.mem.leaf pager.pgdir) (pathOf_roundDown addr)
  rw [doPgfault]
  obtain ⟨vma, inList, covers, isFound⟩ | ⟨absent, isFound⟩ := sound.disjoint.find_cases addr
  · have member : vma ∈ areas := sound.isList ▸ inList
    have started : ¬ addr < vma.vmStart := BitVec.not_lt.mpr covers.1
    rw [isFound]
    dsimp only
    rw [if_neg started, pgfaultPerm_writable (writable vma member)]
    have found := sound.found member
    apply Safe.bind ((getPte_safe found.kept).mono
      (fun few plenty => few ⟨plenty.1, plenty.2.1, Nat.le_of_succ_le plenty.2.2⟩) fun _ => id)
    rintro ⟨location, next⟩ ⟨kept, quiet, located, absent⟩
    have soundOn : Sound pager areas next := found.goesOn kept quiet.mm quiet.log
    cases location with
    | none =>
      refine safe_pure ⟨soundOn, fun zero => ?_, fun ready _ => ?_⟩
      · cases zero
      · rw [absent rfl] at ready
        cases ready
    | some place =>
      obtain ⟨pt, index⟩ := place
      obtain ⟨rfl, isLast⟩ := located pt index rfl
      have isEntry : next.mem.table pt (ptx (roundDown addr).toNat) = pager.leaf next (roundDown addr).toNat :=
        (leaf_table isLast _).symm
      have noPage : (pager.leaf next (roundDown addr).toNat).page? = none := by
        rw [← pathOf_roundDown] at unmapped
        exact (congrArg Pte.page? (quiet.leaf _ unmapped)).trans unmapped
      have enough : Plenty pager rounds state 3 → Plenty pager rounds next 1 := by
        intro plenty
        have given : Plenty pager rounds { state with mm := { state.mm with mmapCache := some vma } } (2 + 1) := plenty
        exact given.later quiet
      dsimp only
      rw [isEntry]
      obtain isZero | swapped := (kept.entries _ user).absent noPage
      · rw [if_pos isZero]
        apply Safe.bind ((soundOn.firstTouch user isLast isZero).mono (mt enough) fun _ => id)
        rintro ⟨page, last⟩ ⟨mapped, absentToo⟩
        cases page with
        | none =>
          obtain ⟨off, soundToo⟩ := absentToo rfl
          refine safe_pure ⟨soundToo, fun zero => ?_, fun ready _ => ?_⟩
          · cases zero
          · rw [off] at ready
            cases ready
        | some page =>
          obtain ⟨soundToo, isLeaf⟩ := mapped page rfl
          exact safe_pure ⟨soundToo, fun _ => ⟨page, (sameLeaf last).symm.trans isLeaf⟩, fun _ _ => rfl⟩
      · have nonzero : pager.leaf next (roundDown addr).toNat ≠ .zero := fun isZero =>
          swapEntry_ne_zero (swapSlot_pos _) (swapped.symm.trans isZero)
        rw [if_neg nonzero]
        split
        · rename_i ready
          refine (soundOn.swapBack user isLast swapped ready).mono (mt enough) ?_
          rintro result ⟨zero, soundToo, page, isLeaf⟩
          exact ⟨soundToo, fun _ => ⟨page, sameLeaf _ ▸ isLeaf⟩, fun _ _ => zero⟩
        · rename_i off
          refine safe_pure ⟨soundOn, fun zero => ?_, fun ready _ => absurd ready off⟩
          cases zero
  · rw [isFound]
    refine safe_pure ⟨sound, fun zero => ?_, fun _ ⟨vma, member, contains⟩ => ?_⟩
    · cases zero
    · exact absurd (Vmm.Vma.contains_iff.mp contains) (absent vma (sound.isList ▸ member))

/-! ## Accesses -/

/-- The two permissions of an access. -/
def IsAccess (flag : BitVec 10) : Prop := flag = pteR ∨ flag = pteW

variable {flag : BitVec 10}

/-- The entry of a page in the memory permits both. -/
theorem userPte_permits (isAccess : IsAccess flag) : (userPte page).Permits flag := by
  have isFlags : (userPte page).flags = 0x17#10 := rfl
  rw [Pte.Permits, isFlags]
  obtain rfl | rfl := isAccess
  · decide
  · decide

theorem translate_present (isAccess : IsAccess flag) (present : pager.leaf state addr.toNat = userPte page) :
    translate pager state addr flag = some page := by
  have permits : (state.mem.leaf pager.pgdir (pathOf addr.toNat)).Permits flag := by
    rw [show state.mem.leaf pager.pgdir (pathOf addr.toNat) = userPte page from present]
    exact userPte_permits isAccess
  rw [translate]
  exact (if_pos permits).trans (congrArg (fun pte : Pte => some pte.ppn) present)

theorem translate_absent (absent : state.mem.mapped pager.pgdir (pathOf addr.toNat) = none) :
    translate pager state addr flag = none := by
  refine if_neg fun permits => ?_
  rw [Memory.mapped, Pte.page?, if_pos permits.1] at absent
  cases absent

/-- An access finds the page of its address, if pages are swapped and the address is in an area. -/
theorem access_safe (sound : Sound pager areas state) (writable : ∀ vma ∈ areas, vma.vmFlags &&& vmWrite ≠ 0#32)
    (hasSlot : swapSlot addr.toNat < maxSwapOffset) (isAccess : IsAccess flag) :
    Safe (¬ Plenty pager rounds state 3) (access pager rounds state addr flag) fun result =>
      Sound pager areas result.2 ∧ (∀ page, result.1 = some page → pager.leaf result.2 addr.toNat = userPte page) ∧
        (pager.swapInitOk = true → (∃ vma ∈ areas, vma.Contains addr) → result.1 ≠ none) := by
  have user := userPage_roundDown hasSlot
  rw [access]
  cases isMapped : state.mem.mapped pager.pgdir (pathOf addr.toNat) with
  | some page =>
    have entry := sound.kept.entries _ user
    rw [Pager.leaf, pathOf_roundDown] at entry
    have present : pager.leaf state addr.toNat = userPte page := entry.present isMapped
    rw [translate_present isAccess present]
    refine safe_pure ⟨sound, fun other same => ?_, fun _ _ => Option.some_ne_none page⟩
    cases same
    exact present
  | none =>
    rw [translate_absent isMapped]
    apply Safe.bind (doPgfault_safe sound writable hasSlot isMapped)
    rintro ⟨ret, next⟩ ⟨soundOn, isLeaf, resolved⟩
    dsimp only
    by_cases zero : ret = 0
    · obtain ⟨page, present⟩ := isLeaf zero
      rw [if_neg (not_not.mpr zero), translate_present isAccess present]
      refine safe_pure ⟨soundOn, fun other same => ?_, fun _ _ => Option.some_ne_none page⟩
      cases same
      exact present
    · rw [if_pos zero]
      refine safe_pure ⟨soundOn, fun other same => ?_, fun ready inArea => absurd (resolved ready inArea) zero⟩
      cases same

/-- An address is in its page. -/
theorem roundDown_offset (addr : BitVec 64) :
    (roundDown addr).toNat + pageOffset addr = addr.toNat ∧ pageOffset addr < pgsize := by
  rw [roundDown_toNat, pageOffset, pgsize]
  exact ⟨by omega, by omega⟩

/-- The page of an address holds its value. -/
theorem Sound.holds (sound : Sound pager areas state) (hasSlot : swapSlot addr.toNat < maxSwapOffset)
    (present : pager.leaf state addr.toNat = userPte page) :
    lastValue state.log addr.toNat = some (state.data page (pageOffset addr)) := by
  have entry := sound.kept.entries _ (userPage_roundDown hasSlot)
  have isLeaf : state.mem.leaf pager.pgdir (pathOf addr.toNat) = userPte page := present
  rw [Pager.leaf, pathOf_roundDown, isLeaf] at entry
  obtain ⟨isAddr, inside⟩ := roundDown_offset addr
  rw [← entry.holds inside, isAddr]

/-- A read is answered with the value of its address. -/
theorem Sound.read (sound : Sound pager areas state) (hasSlot : swapSlot addr.toNat < maxSwapOffset)
    (present : pager.leaf state addr.toNat = userPte page) :
    Sound pager areas { state with log := .read addr.toNat (state.data page (pageOffset addr)) :: state.log } where
  kept := sound.kept.logged _
  transparent := ⟨sound.holds hasSlot present, sound.transparent⟩
  isList := sound.isList
  disjoint := sound.disjoint

/-- A byte of a page in the memory changes. -/
theorem Sound.write (sound : Sound pager areas state) (hasSlot : swapSlot addr.toNat < maxSwapOffset)
    (present : pager.leaf state addr.toNat = userPte page) (byte : Fin 256) :
    Sound pager areas { state.fill page (Function.update (state.data page) (pageOffset addr) byte) with
      log := .wrote addr.toNat byte :: state.log } := by
  have user := userPage_roundDown hasSlot
  obtain ⟨isAddr, _⟩ := roundDown_offset addr
  have isLeaf : state.mem.leaf pager.pgdir (pathOf (roundDown addr).toNat) = userPte page := by
    rw [pathOf_roundDown]
    exact present
  have isMapped : state.mem.mapped pager.pgdir (pathOf (roundDown addr).toNat) = some page := Pager.mapped isLeaf
  have sets : Sets pager.roots pager.pgdir (pathOf (roundDown addr).toNat) (userPte page) state.mem state.mem := by
    refine ⟨rfl, fun other isOther path => ?_⟩
    split
    · rename_i here
      rw [here.1, here.2, isLeaf]
    · rfl
  refine ⟨?_, sound.transparent, sound.isList, sound.disjoint⟩
  refine sound.kept.set user ⟨sound.kept.tree.owned, sound.kept.tree.mapped⟩ sets ?_
    (.resident fun offset inside => ?_) ?_ ?_
    (fun _ _ _ _ => rfl) sound.kept.tracked sound.kept.unused
  · intro other isPage path elsewhere names
    rw [userPte_page] at isPage
    cases isPage
    exact elsewhere (sound.kept.once _ user path page isMapped names)
  · have entry := sound.kept.entries _ user
    rw [Pager.leaf, isLeaf] at entry
    dsimp only [SwapState.fill]
    rw [lastValue, Function.update_self]
    by_cases same : offset = pageOffset addr
    · rw [same, if_pos isAddr, Function.update_self]
    · rw [Function.update_of_ne same, if_neg, entry.holds inside]
      omega
  · intro other elsewhere
    refine if_neg ?_
    rintro rfl
    rw [roundDown_toNat] at elsewhere
    simp only [pgsize] at elsewhere
    omega
  · intro path other elsewhere names
    refine Function.update_of_ne ?_ ..
    rintro rfl
    exact elsewhere (sound.kept.once _ user path other isMapped names)

/-! ## Runs -/

/-- The address of an access has a slot. -/
def HasSlot : SwapOperation → Prop
  | .read addr | .write addr _ => swapSlot addr.toNat < maxSwapOffset
  | .swapOut _ => True

/-- The read is answered, with the last value of its address. -/
def Answered (addr : BitVec 64) (next : SwapState) : Prop :=
  ∃ value earlier, next.log = .read addr.toNat value :: earlier ∧ lastValue earlier addr.toNat = some value

theorem read_safe (sound : Sound pager areas state) (writable : ∀ vma ∈ areas, vma.vmFlags &&& vmWrite ≠ 0#32)
    (hasSlot : swapSlot addr.toNat < maxSwapOffset) :
    Safe (¬ Plenty pager rounds state 3) (operate pager rounds state (.read addr)) fun next => Sound pager areas next ∧
      (pager.swapInitOk = true → (∃ vma ∈ areas, vma.Contains addr) → Answered addr next) := by
  apply Safe.bind (access_safe sound writable hasSlot (Or.inl rfl))
  rintro ⟨page, middle⟩ ⟨soundOn, isLeaf, found⟩
  cases page with
  | none => exact safe_pure ⟨soundOn, fun ready inArea => absurd rfl (found ready inArea)⟩
  | some page =>
    have present := isLeaf page rfl
    exact safe_pure ⟨soundOn.read hasSlot present, fun _ _ => ⟨_, _, rfl, soundOn.holds hasSlot present⟩⟩

/-- No operation fails, or lets the user notice anything. -/
theorem operate_safe (sound : Sound pager areas state) (writable : ∀ vma ∈ areas, vma.vmFlags &&& vmWrite ≠ 0#32)
    {operation : SwapOperation} (hasSlot : HasSlot operation) :
    Safe (¬ Plenty pager rounds state 3) (operate pager rounds state operation) (Sound pager areas) := by
  cases operation with
  | read addr => exact (read_safe sound writable hasSlot).mono id fun _ => And.left
  | write addr byte =>
    apply Safe.bind (access_safe sound writable hasSlot (Or.inr rfl))
    rintro ⟨page, middle⟩ ⟨soundOn, isLeaf, _⟩
    cases page with
    | none => exact safe_pure soundOn
    | some page => exact safe_pure (soundOn.write hasSlot (isLeaf page rfl) byte)
  | swapOut n => exact (swapOut_safe sound.kept).mono id fun _ ⟨kept, evicts⟩ => sound.goesOn kept evicts.mm evicts.log

theorem swapStep_sound (sound : Sound pager areas state) (writable : ∀ vma ∈ areas, vma.vmFlags &&& vmWrite ≠ 0#32)
    {operation : SwapOperation} (hasSlot : HasSlot operation)
    (stepped : swapStep pager rounds state operation = some next) :
    Sound pager areas next := by
  rw [swapStep] at stepped
  split at stepped
  · rename_i ran
    cases stepped
    exact (operate_safe sound writable hasSlot).returned ran
  · cases stepped

/-- At the start no page of the user was touched. -/
structure Untouched (pager : Pager) (state : SwapState) : Prop where
  tree : Tree pager.roots state.mem
  zero : ∀ la, UserPage la → pager.leaf state la = .zero
  swappable : state.swappable = ∅
  unused : ∀ page ∈ state.mem.free, state.mem.ref page = 0
  disjoint : state.mm.Disjoint
  log : state.log = []

variable {start : SwapState}

theorem Untouched.sound (untouched : Untouched pager start) : Sound pager start.mm.mmapList start where
  kept := by
    refine ⟨untouched.tree, fun la user path page names => ?_, fun la user => ?_, fun page member => ?_,
      untouched.unused⟩
    · rw [Memory.mapped, show start.mem.leaf pager.pgdir (pathOf la) = .zero from untouched.zero la user,
        page?_zero] at names
      cases names
    · rw [untouched.zero la user, untouched.log]
      exact .untouched fun _ _ => rfl
    · rw [untouched.swappable] at member
      exact absurd member (Finset.notMem_empty page)
  transparent := untouched.log ▸ trivial
  isList := rfl
  disjoint := untouched.disjoint

/-- Swapping is transparent: in every run the user reads what was last written, or the first content of the page. No
operation fails an assertion, and with `swap_init_ok` a read in an area is answered; it ends when the managers have an
answer and there are three pages for it, two of them for tables. -/
theorem swap_transparent (untouched : Untouched pager start)
    (writable : ∀ vma ∈ start.mm.mmapList, vma.vmFlags &&& vmWrite ≠ 0#32)
    (reached : Reaches (swapStep pager rounds) (fun _ => HasSlot) start state) :
    Transparent state.log ∧
      (∀ operation fault, HasSlot operation → (operate pager rounds state operation).run ≠ some (.error fault)) ∧
      (pager.swapInitOk = true → ∀ addr, HasSlot (.read addr) → (∃ vma ∈ start.mm.mmapList, vma.Contains addr) →
        Safe (¬ Plenty pager rounds state 3) (operate pager rounds state (.read addr)) (Answered addr)) := by
  have sound : Sound pager start.mm.mmapList state :=
    reached.invariant untouched.sound fun _ _ _ sound hasSlot stepped => swapStep_sound sound writable hasSlot stepped
  refine ⟨sound.transparent, fun operation fault hasSlot failed => ?_, fun ready addr hasSlot inArea => ?_⟩
  · have safe : Safe (¬ Plenty pager rounds state 3) (operate pager rounds state operation) _ :=
      operate_safe sound writable hasSlot
    rw [Safe, failed] at safe
    exact safe
  · exact (read_safe sound writable hasSlot).mono id fun next both => both.2 ready inArea

/-- The first page that is free, and the first one that is swappable. -/
def leastPage : Pager where
  pgdir := 0
  allocator := fun _ free => ([1, 2, 3].find? fun page => page ∈ free)
  victim := fun _ swappable => ([1, 2, 3].find? fun page => page ∈ swappable)
  swapInitOk := true

/-- An area of three pages, in a memory with three pages besides the directory. -/
def threePages : SwapState where
  mem := { Paging.emptyDirectory with free := {1, 2, 3} }
  data := fun _ _ => 0
  ide := fun _ => 0
  praVaddr := fun _ => 0
  swappable := ∅
  victims := 0
  mm := {
    mmapList := [{ vmStart := 0, vmEnd := 0x3000, vmFlags := vmWrite }]
    mmapCache := none
    mapCount := 1 }
  log := []

theorem threePages_untouched : Untouched leastPage threePages := by
  have starts : Starts leastPage.roots threePages.mem := by
    refine ⟨fun _ _ _ => rfl, fun pgdir isRoot => ?_, fun _ _ => rfl⟩
    rw [Finset.mem_singleton.mp isRoot]
    decide
  refine ⟨starts.counted.toTree, fun la _ => ?_, rfl, fun _ _ => rfl, ⟨?_, ?_⟩, rfl⟩
  · have noTable : threePages.mem.entry 0 (pdx1 la) = none := page?_zero
    have noLast : threePages.mem.lastTable 0 (pdx1 la) (pdx0 la) = none := by
      rw [Memory.lastTable, noTable]
      rfl
    exact leaf_none noLast _
  · intro vma member other memberToo different
    rw [List.mem_singleton.mp member, List.mem_singleton.mp memberToo] at different
    exact absurd rfl different
  · intro vma member
    cases member

/-- Two of the three pages become tables, so the page at 0 goes to its slot and comes back. -/
theorem swap_transparent_evicted : ∃ state next earlier,
    run (swapStep leastPage 2) [.write 0x10#64 7, .write 0x1010#64 8] threePages = some state ∧
      leastPage.leaf state 0x10 = swapEntry 1 ∧ swapStep leastPage 2 state (.read 0x10#64) = some next ∧
      next.log = .read 0x10 7 :: earlier := by
  have shape : ((run (swapStep leastPage 2) [.write 0x10#64 7, .write 0x1010#64 8] threePages).bind fun state =>
      (swapStep leastPage 2 state (.read 0x10#64)).map fun next =>
        (leastPage.leaf state 0x10, lastValue next.log 0x10)) =
        some (swapEntry 1, some 7) := by
    decide +kernel
  obtain ⟨state, ran, shape⟩ := Option.bind_eq_some_iff.mp shape
  obtain ⟨next, read, shape⟩ := Option.map_eq_some_iff.mp shape
  obtain ⟨isLeaf, isSeven⟩ := Prod.mk.inj shape
  obtain ⟨first, wrote, rest⟩ := Option.bind_eq_some_iff.mp ran
  obtain ⟨second, wroteToo, rest⟩ := Option.bind_eq_some_iff.mp rest
  cases rest
  have writable : ∀ vma ∈ threePages.mm.mmapList, vma.vmFlags &&& vmWrite ≠ 0#32 := by decide
  have inArea : ∃ vma ∈ threePages.mm.mmapList, vma.Contains 0x10#64 :=
    ⟨_, List.mem_cons_self, by decide, by decide⟩
  have hasSlot : HasSlot (.write 0x10#64 7) := (by decide : swapSlot (0x10#64).toNat < maxSwapOffset)
  have hasSlotToo : HasSlot (.write 0x1010#64 8) := (by decide : swapSlot (0x1010#64).toNat < maxSwapOffset)
  have reached : Reaches (swapStep leastPage 2) (fun _ => HasSlot) threePages state :=
    .step (.step .start hasSlot wrote) hasSlotToo wroteToo
  obtain ⟨_, _, answered⟩ := swap_transparent threePages_untouched writable reached
  have returned : (operate leastPage 2 state (.read 0x10#64)).run = some (.ok next) := by
    rw [swapStep] at read
    split at read
    · rename_i ran
      cases read
      exact ran
    · cases read
  obtain ⟨value, earlier, isLog, isValue⟩ := (answered rfl 0x10#64 hasSlot inArea).returned returned
  rw [isLog] at isSeven
  have seven : value = 7 := Option.some.inj (isValue.symm.trans isSeven)
  exact ⟨state, next, earlier, ran, isLeaf, read, seven ▸ isLog⟩

end Ucore.SwapPages
