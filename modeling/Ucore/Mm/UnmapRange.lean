import Ucore.Mm.PageRefs

/-!
# Unmapping a range

`unmap_range` visits every entry of the last level in its range and calls `page_remove_pte`
for those that are not 0. A valid entry is cleared. The entry that `swap_out` stores for a
page on the disk is not valid and stays.
-/

namespace Ucore.Paging

open Tally

/-- An entry as a word. -/
def Pte.ofWord (word : Nat) : Pte where
  ppn := word / 2 ^ 10
  flags := BitVec.ofNat 10 word

/-- The entry that `swap_out` stores for the page of an address. -/
def swapEntry (vaddr : Nat) : Pte := .ofWord ((vaddr / pgsize + 1) * 2 ^ 8)

variable (roots : Finset Nat)

/-- The pages count the entries that name them. -/
structure Referenced (mem : Memory) : Prop extends Tree roots mem where
  refs : ∀ page, ¬ mem.IsTable roots page → mem.ref page = count roots mem page

/-- The entries of the range are 0, and no other entry of the last level changes. -/
def Unmapped (pgdir start stop : Nat) (mem next : Memory) : Prop :=
  (∀ la, start ≤ la → la < stop → next.leaf pgdir (pathOf la) = .zero) ∧
  ∀ other ∈ roots, ∀ path, other ≠ pgdir ∨ ¬ InRange start stop path → next.leaf other path = mem.leaf other path

/-- The entries of the range are 0 or valid. -/
def NoSwapEntries (pgdir start stop : Nat) (mem : Memory) : Prop :=
  ∀ la, start ≤ la → la < stop → mem.leaf pgdir (pathOf la) = .zero ∨ mem.mapped pgdir (pathOf la) ≠ none

/-- The valid entries among some of a directory are cleared, and no other entry of the last
level changes. -/
structure Clears (pgdir : Nat) (gone : Path → Prop) (mem next : Memory) : Prop where
  tables : next.tables roots = mem.tables roots
  cleared : ∀ path, gone path → mem.mapped pgdir path ≠ none → next.leaf pgdir path = .zero
  kept : ∀ other ∈ roots, ∀ path, other ≠ pgdir ∨ ¬ gone path ∨ mem.mapped pgdir path = none →
    next.leaf other path = mem.leaf other path

variable {roots} {allocator : Nat → Option Nat} {mem middle next : Memory} {pgdir pt start stop : Nat}
variable {d1 d0 index : Fin 512} {gone gone' : Path → Prop}

/-! ## Swap entries -/

/-- A swap entry is not valid and not 0. -/
theorem swapEntry_exact (vaddr : Nat) : (swapEntry vaddr).page? = none ∧ swapEntry vaddr ≠ .zero := by
  unfold swapEntry
  have positive : 0 < vaddr / pgsize + 1 := Nat.succ_pos _
  revert positive
  generalize vaddr / pgsize + 1 = number
  intro positive
  refine ⟨?_, fun isZero => ?_⟩
  · apply if_neg
    rw [not_not]
    apply BitVec.eq_of_toNat_eq
    have even : number * 2 ^ 8 % 2 ^ 10 % 2 = 0 := by omega
    simp only [Pte.ofWord, pteV, BitVec.toNat_and, BitVec.toNat_ofNat]
    rw [Nat.mod_eq_of_lt (by decide : 1 < 2 ^ 10), Nat.and_one_is_mod, even]
  · have isPpn : number * 2 ^ 8 / 2 ^ 10 = 0 := congrArg Pte.ppn isZero
    have isFlags : number * 2 ^ 8 % 2 ^ 10 = 0 := by
      have same := congrArg (fun pte => pte.flags.toNat) isZero
      simpa only [Pte.ofWord, Pte.zero, BitVec.toNat_ofNat] using same
    omega

/-! ## What is cleared -/

theorem Clears.refl (nothing : ∀ path, gone path → mem.mapped pgdir path = none) : Clears roots pgdir gone mem mem where
  tables := rfl
  cleared := fun path isGone isMapped => absurd (nothing path isGone) isMapped
  kept := fun _ _ _ _ => rfl

theorem Clears.congr (clears : Clears roots pgdir gone mem next) (same : ∀ path, gone path ↔ gone' path) :
    Clears roots pgdir gone' mem next := by
  rwa [← funext fun path => propext (same path)]

theorem Clears.trans (isRoot : pgdir ∈ roots) (first : Clears roots pgdir gone mem middle)
    (second : Clears roots pgdir gone' middle next) : Clears roots pgdir (fun path => gone path ∨ gone' path) mem next where
  tables := second.tables.trans first.tables
  cleared := by
    intro path isGone isMapped
    by_cases before : gone path
    · have isZero := first.cleared path before isMapped
      have silent : middle.mapped pgdir path = none := by
        rw [Memory.mapped, isZero, page?_zero]
      rw [second.kept pgdir isRoot path (Or.inr (Or.inr silent)), isZero]
    · have same := first.kept pgdir isRoot path (Or.inr (Or.inl before))
      refine second.cleared path (isGone.resolve_left before) ?_
      rwa [Memory.mapped, same]
  kept := by
    intro other isOther path outside
    have same : middle.leaf other path = mem.leaf other path := by
      refine first.kept other isOther path (outside.imp_right fun here => here.imp_left fun notGone isGone => ?_)
      exact notGone (Or.inl isGone)
    rw [← same]
    refine second.kept other isOther path ?_
    rcases outside with different | notGone | silent
    · exact Or.inl different
    · exact Or.inr (Or.inl fun isGone => notGone (Or.inr isGone))
    · refine Or.inr (Or.inr ?_)
      rwa [Memory.mapped, first.kept pgdir isRoot path (Or.inr (Or.inr silent))]

theorem OnePlace.congr (once : OnePlace roots mem) (same : next.tables roots = mem.tables roots) : OnePlace roots next := by
  rwa [OnePlace, same]

/-- What `page_remove_pte` does to the words of the tables. -/
theorem pageRemovePte_table (removed : pageRemovePte mem pt index = some next) :
    next.table = if mem.entry pt index = none then mem.table else (mem.setPte pt index .zero).table := by
  unfold pageRemovePte at removed
  cases names : mem.entry pt index with
  | none =>
    rw [names] at removed
    rw [if_pos rfl, Option.some.inj removed]
  | some page =>
    rw [names] at removed
    rw [if_neg (Option.some_ne_none page)]
    dsimp only [freePage] at removed
    split at removed
    · split at removed
      · cases removed
      · cases removed
        rfl
    · cases removed
      rfl

/-- `page_remove_pte` clears the entry if it is valid. -/
theorem pageRemovePte_clears (once : OnePlace roots mem) (isRoot : pgdir ∈ roots)
    (isLast : mem.lastTable pgdir d1 d0 = some pt) (removed : pageRemovePte mem pt index = some next) :
    Clears roots pgdir (· = (d1, d0, index)) mem next := by
  have same := pageRemovePte_table removed
  rw [entry_leaf isLast index] at same
  split at same
  · rename_i silent
    refine ⟨tables_of_table same, ?_, fun _ _ _ _ => leaf_of_table same⟩
    rintro path rfl isMapped
    exact absurd silent isMapped
  · rename_i isMapped
    have sets : Sets roots pgdir (d1, d0, index) .zero mem next := once.sets isRoot isLast same
    refine ⟨sets.tables, ?_, ?_⟩
    · rintro path rfl _
      rw [sets.leaf pgdir isRoot, if_pos ⟨rfl, rfl⟩]
    · intro other isOther path outside
      rw [sets.leaf other isOther, if_neg]
      rintro ⟨rfl, rfl⟩
      rcases outside with different | notHere | silent
      · exact different rfl
      · exact notHere rfl
      · exact isMapped silent

/-! ## The loop -/

/-- An entry that is 0 is left alone, whether the loop looks at it or not. -/
theorem visit_exact (mem : Memory) (pt : Nat) (index : Fin 512) :
    (if mem.table pt index ≠ .zero then pageRemovePte mem pt index else some mem) = pageRemovePte mem pt index := by
  by_cases isZero : mem.table pt index = .zero
  · have silent : mem.entry pt index = none := by
      rw [Memory.entry, isZero, page?_zero]
    rw [if_neg (not_not.mpr isZero), pageRemovePte, silent]
  · rw [if_pos isZero]

/-- A round of the loop. -/
theorem unmapLoop_round (allocator : Nat → Option Nat) (mem : Memory) (pgdir start stop : Nat) :
    unmapLoop allocator mem pgdir start stop =
      match mem.lastTable pgdir (pdx1 start) (pdx0 start) with
      | none =>
          if (start + ptsize) / ptsize * ptsize < stop then
            unmapLoop allocator mem pgdir ((start + ptsize) / ptsize * ptsize) stop
          else some mem
      | some pt =>
          (pageRemovePte mem pt (ptx start)).bind fun mem =>
            if start + pgsize < stop then unmapLoop allocator mem pgdir (start + pgsize) stop else some mem := by
  rw [unmapLoop, getPte_lookup]
  cases mem.lastTable pgdir (pdx1 start) (pdx0 start) with
  | none => rfl
  | some pt => simp only [Option.map_some, visit_exact]

/-- The loop of `unmap_range` clears the valid entries of the range. -/
theorem unmapLoop_clears (once : OnePlace roots mem) (isRoot : pgdir ∈ roots) (aligned : start % pgsize = 0)
    (ends : stop % pgsize = 0) (nonempty : start < stop) (ran : unmapLoop allocator mem pgdir start stop = some next) :
    Clears roots pgdir (InRange start stop) mem next := by
  induction rest : stop - start using Nat.strong_induction_on generalizing mem start with
  | h rest' ih =>
    subst rest
    rw [unmapLoop_round] at ran
    cases isLast : mem.lastTable pgdir (pdx1 start) (pdx0 start) with
    | none =>
      simp only [isLast] at ran
      have skips : ∀ {stop}, stop ≤ (start + ptsize) / ptsize * ptsize → Clears roots pgdir (InRange start stop) mem mem := by
        intro stop short
        refine .refl fun path inside => ?_
        rw [Memory.mapped, inRange_empty isLast short path inside, page?_zero]
      split at ran
      · rename_i inside
        have behind : start < (start + ptsize) / ptsize * ptsize := next_gt (by decide)
        have aligned' : (start + ptsize) / ptsize * ptsize % pgsize = 0 := by
          simp only [ptsize, pgsize]
          omega
        have clears := ih _ (Nat.sub_lt_sub_left nonempty behind) once aligned' inside ran rfl
        exact ((skips (Nat.le_refl _)).trans isRoot clears).congr (inRange_split (Nat.le_of_lt behind) (Nat.le_of_lt inside))
      · rename_i outside
        cases ran
        exact skips (Nat.not_lt.mp outside)
    | some pt =>
      simp only [isLast] at ran
      obtain ⟨middle, removed, later⟩ := Option.bind_eq_some_iff.mp ran
      have page := (pageRemovePte_clears once isRoot isLast removed).congr fun path => (inRange_page aligned path).symm
      split at later
      · rename_i inside
        have aligned' : (start + pgsize) % pgsize = 0 := by
          rw [Nat.add_mod_right, aligned]
        have behind : start < start + pgsize := Nat.lt_add_of_pos_right (by decide)
        have clears := ih _ (Nat.sub_lt_sub_left nonempty behind) (once.congr page.tables) aligned' inside later rfl
        exact (page.trans isRoot clears).congr (inRange_split (Nat.le_of_lt behind) (Nat.le_of_lt inside))
      · rename_i outside
        cases later
        have isEnd : stop = start + pgsize := by
          simp only [pgsize] at *
          omega
        exact isEnd ▸ page

/-! ## The loop returns -/

/-- The memory with 0 for the entries that are not valid. -/
def Memory.live (mem : Memory) : Memory :=
  { mem with table := fun table index => if mem.entry table index = none then .zero else mem.table table index }

theorem entry_live (mem : Memory) (table : Nat) (index : Fin 512) : mem.live.entry table index = mem.entry table index := by
  have word : mem.live.table table index = if mem.entry table index = none then .zero else mem.table table index := rfl
  rw [Memory.entry, word]
  split
  · rename_i silent
    rw [silent, page?_zero]
  · rfl

theorem lastTable_live (mem : Memory) (pgdir : Nat) (d1 d0 : Fin 512) :
    mem.live.lastTable pgdir d1 d0 = mem.lastTable pgdir d1 d0 := by
  simp only [Memory.lastTable, entry_live]

theorem setPte_live (mem : Memory) (table : Nat) (index : Fin 512) :
    mem.live.setPte table index .zero = (mem.setPte table index .zero).live := by
  have words : (mem.live.setPte table index .zero).table = (mem.setPte table index .zero).live.table := by
    funext other index'
    simp only [Memory.live, entry_setPte]
    by_cases here : other = table ∧ index' = index
    · obtain ⟨rfl, rfl⟩ := here
      simp [Memory.setPte, page?_zero]
    · rw [if_neg here]
      by_cases sameTable : other = table
      · have different : index' ≠ index := fun same => here ⟨sameTable, same⟩
        simp [Memory.setPte, sameTable, different]
      · simp [Memory.setPte, sameTable]
  exact congrArg (fun words => { mem with table := words }) words

/-- `page_remove_pte` does not depend on entries that are not valid. -/
theorem pageRemovePte_live (mem : Memory) (pt : Nat) (index : Fin 512) :
    pageRemovePte mem.live pt index = (pageRemovePte mem pt index).map Memory.live := by
  unfold pageRemovePte
  rw [entry_live]
  cases mem.entry pt index with
  | none => rfl
  | some page =>
    have sameRef : mem.live.addRef page (-1) = (mem.addRef page (-1)).live := rfl
    dsimp only
    rw [sameRef]
    by_cases isLast : (mem.addRef page (-1)).ref page = 0
    · have isLast' : (mem.addRef page (-1)).live.ref page = 0 := isLast
      rw [if_pos isLast, if_pos isLast']
      by_cases isFree : page ∈ (mem.addRef page (-1)).free
      · have isFree' : page ∈ (mem.addRef page (-1)).live.free := isFree
        rw [freePage, freePage, if_pos isFree, if_pos isFree']
        rfl
      · have notFree' : page ∉ (mem.addRef page (-1)).live.free := isFree
        rw [freePage, freePage, if_neg isFree, if_neg notFree']
        exact congrArg some (setPte_live { mem.addRef page (-1) with
          free := insert page (mem.addRef page (-1)).free
          freed := (mem.addRef page (-1)).freed ++ [page] } pt index)
    · have notLast' : (mem.addRef page (-1)).live.ref page ≠ 0 := isLast
      rw [if_neg isLast, if_neg notLast']
      exact congrArg some (setPte_live _ pt index)

theorem unmapLoop_live (allocator : Nat → Option Nat) (mem : Memory) (pgdir start stop : Nat) :
    unmapLoop allocator mem.live pgdir start stop = (unmapLoop allocator mem pgdir start stop).map Memory.live := by
  induction rest : stop - start using Nat.strong_induction_on generalizing mem start with
  | h rest' ih =>
    subst rest
    rw [unmapLoop_round allocator mem.live, unmapLoop_round allocator mem, lastTable_live]
    cases mem.lastTable pgdir (pdx1 start) (pdx0 start) with
    | none =>
      dsimp only
      split
      · rename_i inside
        have behind : start < (start + ptsize) / ptsize * ptsize := next_gt (by decide)
        exact ih _ (Nat.sub_lt_sub_left (Nat.lt_trans behind inside) behind) mem _ rfl
      · rfl
    | some pt =>
      dsimp only
      rw [pageRemovePte_live]
      cases pageRemovePte mem pt (ptx start) with
      | none => rfl
      | some middle =>
        simp only [Option.map_some, Option.bind_some]
        split
        · rename_i inside
          have behind : start < start + pgsize := Nat.lt_add_of_pos_right (by decide)
          exact ih _ (Nat.sub_lt_sub_left (Nat.lt_trans behind inside) behind) middle _ rfl
        · rfl

theorem Referenced.live (referenced : Referenced roots mem) : Counted roots mem.live := by
  have sameTables : mem.live.tables roots = mem.tables roots := tables_congr fun _ _ _ _ _ _ => entry_live ..
  have sameMapped : ∀ pgdir path, mem.live.mapped pgdir path = mem.mapped pgdir path := by
    intro pgdir path
    unfold Memory.mapped Memory.leaf
    rw [lastTable_live]
    cases mem.lastTable pgdir path.1 path.2.1 with
    | none => rfl
    | some pt => exact entry_live mem pt path.2.2
  have sameTable : ∀ page, mem.live.IsTable roots page ↔ mem.IsTable roots page := by
    intro page
    rw [Memory.IsTable, Memory.IsTable, sameTables]
  refine ⟨⟨sameTables ▸ referenced.owned, ?_⟩, ?_, ?_⟩
  · intro pgdir isRoot path page names
    rw [sameTable]
    exact referenced.mapped pgdir isRoot path page (sameMapped pgdir path ▸ names)
  · intro page notTable
    have sameCount : count roots mem.live page = count roots mem page :=
      tally_congr fun position _ => sameMapped position.1 position.2
    rw [sameCount]
    exact referenced.refs page (mt (sameTable page).mpr notTable)
  · intro pgdir _ path silent
    rw [sameMapped] at silent
    cases isLast : mem.lastTable pgdir path.1 path.2.1 with
    | none => exact leaf_none ((lastTable_live ..).trans isLast) path.2.2
    | some pt =>
      rw [show path = (path.1, path.2.1, path.2.2) from rfl, leaf_table ((lastTable_live ..).trans isLast)]
      exact if_pos ((entry_leaf isLast path.2.2).trans silent)

/-! ## The range -/

/-- `unmap_range` leaves its range empty and everything else as it was exactly when there is
no swap entry in the range. It returns when the pages count their entries. -/
theorem unmap_range_exact (once : OnePlace roots mem) (isRoot : pgdir ∈ roots) (aligned : start % pgsize = 0)
    (ends : stop % pgsize = 0) (user : UserRange start stop) :
    (∀ next, unmapRange allocator mem pgdir start stop = some next →
      (Unmapped roots pgdir start stop mem next ↔ NoSwapEntries pgdir start stop mem)) ∧
    (Referenced roots mem → ∃ next, unmapRange allocator mem pgdir start stop = some next) := by
  have accepted : unmapRange allocator mem pgdir start stop = unmapLoop allocator mem pgdir start stop :=
    if_pos ⟨aligned, ends, user⟩
  rw [accepted]
  refine ⟨fun next ran => ?_, fun referenced => ?_⟩
  · have clears := unmapLoop_clears once isRoot aligned ends user.2.1 ran
    constructor
    · intro unmapped la first last
      by_cases silent : mem.mapped pgdir (pathOf la) = none
      · left
        rw [← clears.kept pgdir isRoot _ (Or.inr (Or.inr silent))]
        exact unmapped.1 la first last
      · exact Or.inr silent
    · intro noSwap
      refine ⟨fun la first last => ?_, fun other isOther path outside => ?_⟩
      · by_cases silent : mem.mapped pgdir (pathOf la) = none
        · rw [clears.kept pgdir isRoot _ (Or.inr (Or.inr silent))]
          exact (noSwap la first last).resolve_right (not_not.mpr silent)
        · exact clears.cleared _ ⟨la, first, last, rfl⟩ silent
      · exact clears.kept other isOther path (outside.imp_right Or.inl)
  · have returns : ∃ next dead, unmapLoop allocator mem.live pgdir start stop = some next ∧
        Removes roots pgdir (InRange start stop) dead mem.live next :=
      unmapLoop_removes referenced.live isRoot aligned ends user.2.1
    obtain ⟨next, _, ran, _⟩ := returns
    rw [unmapLoop_live] at ran
    obtain ⟨last, isLast, _⟩ := Option.map_eq_some_iff.mp ran
    exact ⟨last, isLast⟩

/-- A directory with one page, which is on the disk. -/
def swappedMemory : Memory where
  table := fun
    | 0, 0 => pteCreate 1 (pteU ||| pteV)
    | 1, 1 => pteCreate 2 (pteU ||| pteV)
    | 2, 0 => swapEntry 0x200000
    | _, _ => .zero
  ref := fun _ => 0
  free := ∅
  calls := 0
  freed := []

theorem swappedMemory_entry {table page : Nat} (names : swappedMemory.entry table index = some page) :
    table = 0 ∧ index = 0 ∧ page = 1 ∨ table = 1 ∧ index = 1 ∧ page = 2 := by
  unfold Memory.entry swappedMemory at names
  dsimp only at names
  split at names
  · rw [page?_create] at names
    exact Or.inl ⟨rfl, rfl, (Option.some.inj names).symm⟩
  · rw [page?_create] at names
    exact Or.inr ⟨rfl, rfl, (Option.some.inj names).symm⟩
  · rw [(swapEntry_exact _).1] at names
    cases names
  · rw [page?_zero] at names
    cases names

theorem swappedMemory_tables {place : TablePlace} {table : Nat}
    (names : swappedMemory.tables {0} pgdir place = some table) :
    pgdir = 0 ∧ (place = .root ∧ table = 0 ∨ place = .dir 0 ∧ table = 1 ∨ place = .last 0 1 ∧ table = 2) := by
  have isRoot := isRoot_of_tables names
  obtain rfl : pgdir = 0 := Finset.mem_singleton.mp isRoot
  refine ⟨rfl, ?_⟩
  cases place with
  | root =>
    rw [tables_root isRoot] at names
    exact Or.inl ⟨rfl, (Option.some.inj names).symm⟩
  | dir d1 =>
    rw [tables_dir isRoot] at names
    rcases swappedMemory_entry names with ⟨_, rfl, rfl⟩ | ⟨isOne, _⟩
    · exact Or.inr (Or.inl ⟨rfl, rfl⟩)
    · cases isOne
  | last d1 d0 =>
    rw [tables_last isRoot] at names
    obtain ⟨pd0, isDir, isLast⟩ := Option.bind_eq_some_iff.mp names
    rcases swappedMemory_entry isDir with ⟨_, rfl, rfl⟩ | ⟨isOne, _⟩
    · rcases swappedMemory_entry isLast with ⟨isZero, _⟩ | ⟨_, rfl, rfl⟩
      · cases isZero
      · exact Or.inr (Or.inr ⟨rfl, rfl⟩)
    · cases isOne

theorem swappedMemory_once : OnePlace {0} swappedMemory := by
  intro pgdir other place place' table first second
  obtain ⟨rfl, isPlace⟩ := swappedMemory_tables first
  obtain ⟨rfl, isPlace'⟩ := swappedMemory_tables second
  refine ⟨rfl, ?_⟩
  rcases isPlace with ⟨rfl, rfl⟩ | ⟨rfl, rfl⟩ | ⟨rfl, rfl⟩
  · rcases isPlace' with ⟨rfl, same⟩ | ⟨_, same⟩ | ⟨_, same⟩
    · rfl
    · cases same
    · cases same
  · rcases isPlace' with ⟨_, same⟩ | ⟨rfl, same⟩ | ⟨_, same⟩
    · cases same
    · rfl
    · cases same
  · rcases isPlace' with ⟨_, same⟩ | ⟨_, same⟩ | ⟨rfl, same⟩
    · cases same
    · cases same
    · rfl

/-- The page on the disk, and its range of one page. -/
theorem unmap_range_exact_swapped :
    (∀ next, unmapRange (fun _ => none) swappedMemory 0 0x200000 0x201000 = some next →
      (Unmapped {0} 0 0x200000 0x201000 swappedMemory next ↔ NoSwapEntries 0 0x200000 0x201000 swappedMemory)) ∧
    (Referenced {0} swappedMemory → ∃ next, unmapRange (fun _ => none) swappedMemory 0 0x200000 0x201000 = some next) :=
  unmap_range_exact swappedMemory_once (Finset.mem_singleton_self 0) (by decide) (by decide) (by decide)

/-- The entry of the page on the disk stays. -/
theorem swapped_page_stays :
    ∃ next, unmapRange (fun _ => none) swappedMemory 0 0x200000 0x201000 = some next ∧
      ¬ Unmapped {0} 0 0x200000 0x201000 swappedMemory next := by
  have isLast : swappedMemory.lastTable 0 (pdx1 0x200000) (pdx0 0x200000) = some 2 := by decide
  have isEntry : swappedMemory.leaf 0 (pathOf 0x200000) = swapEntry 0x200000 := leaf_table isLast _
  have silent : swappedMemory.entry 2 (ptx 0x200000) = none := (swapEntry_exact 0x200000).1
  refine ⟨swappedMemory, ?_, fun unmapped => ?_⟩
  · rw [unmapRange, if_pos (by decide), unmapLoop_round, isLast]
    simp only [pageRemovePte, silent, Option.bind_some]
    exact if_neg (by decide)
  · have isZero := unmapped.1 0x200000 (Nat.le_refl _) (by decide)
    exact (swapEntry_exact 0x200000).2 (isEntry.symm.trans isZero)

end Ucore.Paging
