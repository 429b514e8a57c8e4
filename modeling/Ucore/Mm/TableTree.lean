import Mathlib.Data.Fintype.Prod
import Ucore.Library.Ownership
import Ucore.Library.Tally
import Ucore.Mm.PageTable

/-!
# The tree of tables

The tables below a page directory form a tree, and no two directories share a table. So
the entries of the last level are those of a map from the directories and paths, where a
path is an index in each level.
-/

namespace Ucore.Paging

open Ownership Tally

/-- The indices of an address in the three levels. -/
abbrev Path := Fin 512 × Fin 512 × Fin 512

def pathOf (la : Nat) : Path := (pdx1 la, pdx0 la, ptx la)

/-- A table of the last level. -/
def Memory.lastTable (mem : Memory) (pgdir : Nat) (d1 d0 : Fin 512) : Option Nat :=
  (mem.entry pgdir d1).bind fun pd0 => mem.entry pd0 d0

/-- The entry of the last level at a path, which is 0 if there is no table. -/
def Memory.leaf (mem : Memory) (pgdir : Nat) (path : Path) : Pte :=
  match mem.lastTable pgdir path.1 path.2.1 with
  | some pt => mem.table pt path.2.2
  | none => .zero

/-- The page mapped at a path. -/
def Memory.mapped (mem : Memory) (pgdir : Nat) (path : Path) : Option Nat := (mem.leaf pgdir path).page?

/-- The places of a directory that name tables. -/
inductive TablePlace where
  | root
  | dir (d1 : Fin 512)
  | last (d1 d0 : Fin 512)
deriving DecidableEq

/-- The place of the table in an entry of the table at a place of the upper levels. -/
def TablePlace.child : TablePlace → Fin 512 → TablePlace
  | .root, index => .dir index
  | .dir d1, index => .last d1 index
  | .last d1 d0, _ => .last d1 d0

def TablePlace.IsUpper : TablePlace → Prop
  | .last .. => False
  | _ => True

theorem isUpper_root : TablePlace.root.IsUpper := trivial

theorem isUpper_dir (d1 : Fin 512) : (TablePlace.dir d1).IsUpper := trivial

/-- The tables of a page directory. -/
def Memory.tablesOf (mem : Memory) (pgdir : Nat) : TablePlace → Option Nat
  | .root => some pgdir
  | .dir d1 => mem.entry pgdir d1
  | .last d1 d0 => mem.lastTable pgdir d1 d0

variable (roots : Finset Nat)

/-- The tables of the page directories. -/
def Memory.tables (mem : Memory) (pgdir : Nat) (place : TablePlace) : Option Nat :=
  if pgdir ∈ roots then mem.tablesOf pgdir place else none

def Memory.IsTable (mem : Memory) (page : Nat) : Prop := ∃ pgdir place, mem.tables roots pgdir place = some page

/-- No table has two places. -/
def OnePlace (mem : Memory) : Prop := ∀ pgdir other place place' table,
  mem.tables roots pgdir place = some table → mem.tables roots other place' = some table → pgdir = other ∧ place = place'

/-- Every table has one place, and none is free; mapped pages are not free and no tables. -/
structure Tree (mem : Memory) : Prop where
  owned : Partitioned (mem.tables roots) (· ∉ mem.free)
  mapped : ∀ pgdir ∈ roots, ∀ path page, mem.mapped pgdir path = some page →
    page ∉ mem.free ∧ ¬ mem.IsTable roots page

variable {roots} {allocator : Nat → Option Nat} {mem middle next : Memory} {pgdir table page la pt : Nat}
variable {index d1 d0 : Fin 512} {place : TablePlace} {pte : Pte}

/-! ## Single entries -/

theorem page?_zero : Pte.zero.page? = none := if_neg (by decide)

theorem page?_create (ppn : Nat) (type : BitVec 10) : (pteCreate ppn type).page? = some ppn := by
  apply if_pos
  intro none
  have bit := congrArg (fun flags => flags.getLsbD 0) none
  simp [pteCreate, pteV] at bit

theorem entry_setPte (other : Nat) (index' : Fin 512) : (mem.setPte table index pte).entry other index' =
    if other = table ∧ index' = index then pte.page? else mem.entry other index' := by
  unfold Memory.entry Memory.setPte
  by_cases sameTable : other = table
  · subst sameTable
    by_cases sameIndex : index' = index
    · simp [sameIndex]
    · simp [sameIndex]
  · simp [sameTable]

theorem table_setPte (other : Nat) (different : other ≠ table) : (mem.setPte table index pte).table other = mem.table other :=
  Function.update_of_ne different ..

theorem entry_newTable (fresh : table ≠ page) (other : Nat) (index' : Fin 512) :
    (mem.newTable table index page).entry other index' =
      if other = page then none else if other = table ∧ index' = index then some page else mem.entry other index' := by
  rw [Memory.newTable, entry_setPte, page?_create]
  by_cases isPage : other = page
  · subst isPage
    simp [Ne.symm fresh, Memory.entry, page?_zero]
  · simp [isPage, Memory.entry]

theorem table_newTable (other : Nat) (notTable : other ≠ table) : (mem.newTable table index page).table other =
    if other = page then fun _ => .zero else mem.table other := by
  rw [Memory.newTable, table_setPte other notTable]
  by_cases isPage : other = page
  · simp [isPage]
  · simp [isPage]

/-! ## The tables of a directory -/

theorem tables_root (isRoot : pgdir ∈ roots) : mem.tables roots pgdir .root = some pgdir := if_pos isRoot

theorem tables_dir (isRoot : pgdir ∈ roots) : mem.tables roots pgdir (.dir d1) = mem.entry pgdir d1 := if_pos isRoot

theorem tables_last (isRoot : pgdir ∈ roots) : mem.tables roots pgdir (.last d1 d0) = mem.lastTable pgdir d1 d0 :=
  if_pos isRoot

theorem isRoot_of_tables (names : mem.tables roots pgdir place = some table) : pgdir ∈ roots := by
  by_contra notRoot
  rw [Memory.tables, if_neg notRoot] at names
  cases names

/-- A table has one place. -/
theorem Tree.once (tree : Tree roots mem) {other : Nat} {place' : TablePlace}
    (first : mem.tables roots pgdir place = some table) (second : mem.tables roots other place' = some table) :
    pgdir = other ∧ place = place' := tree.owned.once first second

theorem Tree.onePlace (tree : Tree roots mem) : OnePlace roots mem := fun _ _ _ _ _ first second =>
  tree.once first second

theorem Tree.inUse (tree : Tree roots mem) (names : mem.tables roots pgdir place = some table) : table ∉ mem.free :=
  (tree.owned pgdir).inUse place table names

/-- What an entry of an upper table names has the place below. -/
theorem tables_child (upper : place.IsUpper) (names : mem.tables roots pgdir place = some table) :
    mem.tables roots pgdir (place.child index) = mem.entry table index := by
  have isRoot := isRoot_of_tables names
  cases place with
  | root =>
    rw [tables_root isRoot] at names
    cases names
    exact tables_dir isRoot
  | dir d1 =>
    rw [tables_dir isRoot] at names
    rw [TablePlace.child, tables_last isRoot, Memory.lastTable, names]
    rfl
  | last d1 d0 => exact upper.elim

/-- The tables do not change when the entries of the upper ones do not. -/
theorem tables_congr (same : ∀ pgdir place table index, place.IsUpper → mem.tables roots pgdir place = some table →
    next.entry table index = mem.entry table index) : next.tables roots = mem.tables roots := by
  funext pgdir place
  by_cases isRoot : pgdir ∈ roots
  · have sameDir : ∀ d1, next.entry pgdir d1 = mem.entry pgdir d1 := fun d1 =>
      same pgdir .root pgdir d1 trivial (tables_root isRoot)
    cases place with
    | root => rw [tables_root isRoot, tables_root isRoot]
    | dir d1 => rw [tables_dir isRoot, tables_dir isRoot, sameDir]
    | last d1 d0 =>
      rw [tables_last isRoot, tables_last isRoot, Memory.lastTable, Memory.lastTable, sameDir]
      cases isDir : mem.entry pgdir d1 with
      | none => rfl
      | some pd0 => exact same pgdir (.dir d1) pd0 d0 trivial ((tables_dir isRoot).trans isDir)
  · rw [Memory.tables, Memory.tables, if_neg isRoot, if_neg isRoot]

theorem leaf_table (isLast : mem.lastTable pgdir d1 d0 = some pt) (index : Fin 512) :
    mem.leaf pgdir (d1, d0, index) = mem.table pt index := by
  simp only [Memory.leaf, isLast]

theorem leaf_none (isLast : mem.lastTable pgdir d1 d0 = none) (index : Fin 512) :
    mem.leaf pgdir (d1, d0, index) = .zero := by
  simp only [Memory.leaf, isLast]

/-- The entries of the last level do not change when the tables and their words do not. -/
theorem leaf_congr (isRoot : pgdir ∈ roots) (sameTables : next.tables roots = mem.tables roots)
    (path : Path) (same : ∀ pt, mem.lastTable pgdir path.1 path.2.1 = some pt →
      next.table pt path.2.2 = mem.table pt path.2.2) : next.leaf pgdir path = mem.leaf pgdir path := by
  have sameLast : next.lastTable pgdir path.1 path.2.1 = mem.lastTable pgdir path.1 path.2.1 := by
    rw [← tables_last isRoot, ← tables_last isRoot, sameTables]
  unfold Memory.leaf
  rw [sameLast]
  split
  · rename_i pt isLast
    exact same pt isLast
  · rfl

/-! ## A new table -/

/-- A free page becomes a table of its own place. -/
theorem Tree.tables_newTable (tree : Tree roots mem) (upper : place.IsUpper)
    (names : mem.tables roots pgdir place = some table) (empty : mem.entry table index = none)
    (fresh : page ∈ mem.free) (other : Nat) (place' : TablePlace) :
    (mem.newTable table index page).tables roots other place' =
      if other = pgdir ∧ place' = place.child index then some page else mem.tables roots other place' := by
  have notPage : ∀ {other place' table}, mem.tables roots other place' = some table → table ≠ page :=
    fun named same => tree.inUse named (same ▸ fresh)
  have entries := @entry_newTable mem table page index (notPage names)
  by_cases isRoot : other ∈ roots
  · cases place' with
    | root =>
      rw [tables_root isRoot, tables_root isRoot, if_neg]
      rintro ⟨_, isChild⟩
      cases place <;> cases isChild
    | dir d =>
      rw [tables_dir isRoot, tables_dir isRoot, entries, if_neg (notPage (tables_root isRoot))]
      refine if_congr ?_ rfl rfl
      constructor
      · rintro ⟨rfl, rfl⟩
        obtain ⟨rfl, rfl⟩ := tree.once names (tables_root isRoot)
        exact ⟨rfl, rfl⟩
      · rintro ⟨rfl, isChild⟩
        cases place with
        | root =>
          cases isChild
          rw [tables_root isRoot] at names
          exact ⟨Option.some.inj names, rfl⟩
        | dir d1 => cases isChild
        | last d1 d0 => exact upper.elim
    | last d e =>
      rw [tables_last isRoot, tables_last isRoot, Memory.lastTable, Memory.lastTable, entries,
        if_neg (notPage (tables_root isRoot))]
      cases isDir : mem.entry other d with
      | none =>
        have notChild : ¬ (other = pgdir ∧ TablePlace.last d e = place.child index) := by
          rintro ⟨rfl, isChild⟩
          cases place with
          | root => cases isChild
          | dir d1 =>
            cases isChild
            rw [tables_dir isRoot, isDir] at names
            cases names
          | last d1 d0 => exact upper.elim
        rw [if_neg notChild]
        split
        · rw [Option.bind_some, entries, if_pos rfl]
          rfl
        · rfl
      | some pd0 =>
        have isUpper := (@tables_dir roots mem other d isRoot).trans isDir
        have notHere : ¬ (other = table ∧ d = index) := by
          rintro ⟨rfl, rfl⟩
          rw [isDir] at empty
          cases empty
        rw [if_neg notHere, Option.bind_some, Option.bind_some, entries, if_neg (notPage isUpper)]
        refine if_congr ?_ rfl rfl
        constructor
        · rintro ⟨rfl, rfl⟩
          obtain ⟨rfl, rfl⟩ := tree.once names isUpper
          exact ⟨rfl, rfl⟩
        · rintro ⟨rfl, isChild⟩
          cases place with
          | root => cases isChild
          | dir d1 =>
            cases isChild
            rw [isUpper] at names
            exact ⟨Option.some.inj names, rfl⟩
          | last d1 d0 => exact upper.elim
  · have notHere : ¬ (other = pgdir ∧ place' = place.child index) := fun ⟨same, _⟩ =>
      isRoot (same ▸ isRoot_of_tables names)
    rw [if_neg notHere, Memory.tables, Memory.tables, if_neg isRoot, if_neg isRoot]

/-- A new table is empty, so it maps nothing. -/
theorem Tree.leaf_newTable (tree : Tree roots mem) (upper : place.IsUpper)
    (names : mem.tables roots pgdir place = some table) (empty : mem.entry table index = none)
    (fresh : page ∈ mem.free) {other : Nat} (isRoot : other ∈ roots) (path : Path) :
    (mem.newTable table index page).leaf other path = mem.leaf other path := by
  obtain ⟨d1, d0, t⟩ := path
  have isTables := tree.tables_newTable upper names empty fresh other (.last d1 d0)
  rw [tables_last isRoot, tables_last isRoot] at isTables
  split at isTables
  · rename_i here
    have wasNone : mem.lastTable other d1 d0 = none := by
      rw [← tables_last isRoot, here.2, here.1, tables_child upper names, empty]
    have notTable : page ≠ table := fun same => tree.inUse names (same ▸ fresh)
    rw [leaf_table isTables, leaf_none wasNone, table_newTable page notTable, if_pos rfl]
  · cases wasLast : mem.lastTable other d1 d0 with
    | none => rw [leaf_none (isTables.trans wasLast), leaf_none wasLast]
    | some pt =>
      have named := (@tables_last roots mem other d1 d0 isRoot).trans wasLast
      have notTable : pt ≠ table := by
        rintro rfl
        obtain ⟨_, rfl⟩ := tree.once names named
        exact upper
      have notPage : pt ≠ page := fun same => tree.inUse named (same ▸ fresh)
      rw [leaf_table (isTables.trans wasLast), leaf_table wasLast, table_newTable pt notTable, if_neg notPage]

/-! ## The way to an entry -/

/-- The places of the tables on the way to an address. -/
def OnWay (la : Nat) (place : TablePlace) : Prop := place = .dir (pdx1 la) ∨ place = .last (pdx1 la) (pdx0 la)

variable (roots) in
/-- Tables may be added on the way to an address, from pages that were free. -/
structure Grows (pgdir la : Nat) (mem next : Memory) : Prop where
  tree : Tree roots next
  leaf : ∀ other ∈ roots, ∀ path, next.leaf other path = mem.leaf other path
  persists : ∀ other place page, mem.tables roots other place = some page → next.tables roots other place = some page
  fresh : ∀ other place page, next.tables roots other place = some page →
    mem.tables roots other place = some page ∨ other = pgdir ∧ OnWay la place ∧ page ∈ mem.free
  free : ∀ page, page ∈ next.free ↔ page ∈ mem.free ∧ ¬ next.IsTable roots page
  ref : ∀ page, ¬ next.IsTable roots page → next.ref page = mem.ref page
  freed : next.freed = mem.freed

theorem Grows.refl (tree : Tree roots mem) : Grows roots pgdir la mem mem where
  tree := tree
  leaf := fun _ _ _ => rfl
  persists := fun _ _ _ names => names
  fresh := fun _ _ _ names => Or.inl names
  free := fun _ => ⟨fun inside => ⟨inside, fun ⟨_, _, names⟩ => tree.inUse names inside⟩, And.left⟩
  ref := fun _ _ => rfl
  freed := rfl

theorem Grows.isTable (grows : Grows roots pgdir la mem next) (isTable : mem.IsTable roots page) :
    next.IsTable roots page :=
  isTable.imp fun other ⟨place, names⟩ => ⟨place, grows.persists other place page names⟩

theorem Grows.trans (first : Grows roots pgdir la mem middle) (second : Grows roots pgdir la middle next) :
    Grows roots pgdir la mem next where
  tree := second.tree
  leaf := fun other isRoot path => (second.leaf other isRoot path).trans (first.leaf other isRoot path)
  persists := fun other place page names => second.persists other place page (first.persists other place page names)
  fresh := by
    intro other place page names
    rcases second.fresh other place page names with old | ⟨isHere, onWay, isFree⟩
    · exact first.fresh other place page old
    · exact Or.inr ⟨isHere, onWay, ((first.free page).mp isFree).1⟩
  free := by
    intro page
    rw [second.free, first.free]
    constructor
    · exact fun ⟨⟨isFree, _⟩, notTable⟩ => ⟨isFree, notTable⟩
    · exact fun ⟨isFree, notTable⟩ => ⟨⟨isFree, mt second.isTable notTable⟩, notTable⟩
  ref := fun page notTable => (second.ref page notTable).trans (first.ref page (mt second.isTable notTable))
  freed := second.freed.trans first.freed

/-- The page that the allocator gives goes. -/
def Memory.taken (mem : Memory) (page : Nat) : Memory :=
  { mem with free := mem.free.erase page, calls := mem.calls + 1 }

theorem allocPage_cases (allocator : Nat → Option Nat) (mem : Memory) :
    (∃ page ∈ mem.free, allocPage allocator mem = (some page, mem.taken page)) ∨
      allocPage allocator mem = (none, { mem with calls := mem.calls + 1 }) := by
  unfold allocPage
  split
  · rename_i page _
    by_cases isFree : page ∈ mem.free
    · exact Or.inl ⟨page, isFree, if_pos isFree⟩
    · exact Or.inr (if_neg isFree)
  · exact Or.inr rfl

/-- A new table is taken from the allocator. -/
theorem Tree.grows (tree : Tree roots mem) (upper : place.IsUpper) (names : mem.tables roots pgdir place = some table)
    (empty : mem.entry table index = none) (fresh : page ∈ mem.free) (onWay : OnWay la (place.child index)) :
    Grows roots pgdir la mem ((mem.taken page).newTable table index page) := by
  have isTables : ∀ other place', ((mem.taken page).newTable table index page).tables roots other place' = _ :=
    tree.tables_newTable upper names empty fresh
  have isTable : ∀ other, ((mem.taken page).newTable table index page).IsTable roots other ↔
      mem.IsTable roots other ∨ other = page := by
    intro other
    constructor
    · rintro ⟨pgdir', place', named⟩
      rw [isTables] at named
      split at named
      · exact Or.inr (Option.some.inj named).symm
      · exact Or.inl ⟨pgdir', place', named⟩
    · rintro (⟨pgdir', place', named⟩ | rfl)
      · refine ⟨pgdir', place', ?_⟩
        rw [isTables, if_neg]
        · exact named
        · rintro ⟨rfl, rfl⟩
          rw [tables_child upper names, empty] at named
          cases named
      · exact ⟨pgdir, place.child index, (isTables _ _).trans (if_pos ⟨rfl, rfl⟩)⟩
  have leaf : ∀ other ∈ roots, ∀ path, ((mem.taken page).newTable table index page).leaf other path = mem.leaf other path :=
    fun other isRoot path => tree.leaf_newTable upper names empty fresh isRoot path
  have inUse : ∀ other, other ∉ mem.free.erase page ↔ other ∉ mem.free ∨ other = page := by
    intro other
    rw [Finset.mem_erase]
    tauto
  constructor
  case tree =>
    constructor
    case owned =>
      have isHere : ((mem.taken page).newTable table index page).tables roots pgdir =
          Function.update (mem.tables roots pgdir) (place.child index) (some page) := by
        funext place'
        rw [isTables, Function.update_apply]
        simp
      have owns := (tree.owned pgdir).assign (place.child index) (fun used => used fresh) fun other => (inUse other).mpr
      rw [← isHere] at owns
      refine tree.owned.step (fun other different => ?_) owns
      funext place'
      rw [isTables, if_neg fun same => different same.1]
    case mapped =>
      intro other isRoot path page' isMapped
      rw [Memory.mapped, leaf other isRoot path] at isMapped
      obtain ⟨notFree, notTable⟩ := tree.mapped other isRoot path page' isMapped
      have different : page' ≠ page := fun same => notFree (same ▸ fresh)
      exact ⟨(inUse page').mpr (Or.inl notFree), fun isIt => ((isTable page').mp isIt).elim notTable different⟩
  case leaf => exact leaf
  case persists =>
    intro other place' page' named
    rw [isTables, if_neg]
    · exact named
    · rintro ⟨rfl, rfl⟩
      rw [tables_child upper names, empty] at named
      cases named
  case fresh =>
    intro other place' page' named
    rw [isTables] at named
    split at named
    · rename_i here
      exact Or.inr ⟨here.1, here.2 ▸ onWay, Option.some.inj named ▸ fresh⟩
    · exact Or.inl named
  case free =>
    intro other
    rw [isTable]
    change other ∈ mem.free.erase page ↔ _
    rw [Finset.mem_erase]
    constructor
    · rintro ⟨different, isFree⟩
      exact ⟨isFree, fun isIt => isIt.elim (fun ⟨_, _, named⟩ => tree.inUse named isFree) different⟩
    · rintro ⟨isFree, notTable⟩
      exact ⟨fun same => notTable (Or.inr same), isFree⟩
  case ref =>
    intro other notTable
    have different : other ≠ page := fun same => notTable ((isTable other).mpr (Or.inr same))
    exact Function.update_of_ne different ..
  case freed => rfl

/-- One level of `get_pte`. -/
theorem getTable_grows {create : Bool} {result : Option Nat} (tree : Tree roots mem) (upper : place.IsUpper)
    (names : mem.tables roots pgdir place = some table) (onWay : OnWay la (place.child index))
    (called : getTable allocator create mem table index = (result, next)) :
    Grows roots pgdir la mem next ∧ (∀ page, result = some page → next.tables roots pgdir (place.child index) = some page) := by
  unfold getTable at called
  split at called
  · rename_i page isEntry
    cases called
    refine ⟨.refl tree, fun page' same => ?_⟩
    cases same
    exact (tables_child upper names).trans isEntry
  · rename_i empty
    split at called
    · rcases allocPage_cases allocator mem with ⟨page, fresh, alloc⟩ | alloc
      · rw [alloc] at called
        cases called
        refine ⟨tree.grows upper names empty fresh onWay, fun page' same => ?_⟩
        cases same
        exact (tree.tables_newTable upper names empty fresh _ _).trans (if_pos ⟨rfl, rfl⟩)
      · rw [alloc] at called
        cases called
        have same : Grows roots pgdir la mem mem := .refl tree
        exact ⟨⟨⟨tree.owned, tree.mapped⟩, same.leaf, same.persists, same.fresh, same.free, same.ref, rfl⟩,
          fun page same => (nomatch same)⟩
    · cases called
      exact ⟨.refl tree, fun page same => (nomatch same)⟩

/-- `get_pte` finds the entry of the address, and only adds tables on the way. -/
theorem getPte_grows {create : Bool} {result : Option (Nat × Fin 512)} (tree : Tree roots mem) (isRoot : pgdir ∈ roots)
    (called : getPte allocator create mem pgdir la = (result, next)) :
    Grows roots pgdir la mem next ∧ (∀ pt index, result = some (pt, index) →
      index = ptx la ∧ next.lastTable pgdir (pdx1 la) (pdx0 la) = some pt) := by
  unfold getPte at called
  split at called
  · rename_i pd0 middle first
    obtain ⟨grows, isDir⟩ := getTable_grows tree isUpper_root (tables_root isRoot) (Or.inl rfl) first
    split at called
    · rename_i pt last second
      cases called
      obtain ⟨grows', isLast⟩ := getTable_grows grows.tree (isUpper_dir _) (isDir pd0 rfl) (Or.inr rfl) second
      refine ⟨grows.trans grows', fun pt' index same => ?_⟩
      cases same
      exact ⟨rfl, (tables_last isRoot).symm.trans (isLast pt rfl)⟩
    · rename_i last second
      cases called
      obtain ⟨grows', _⟩ := getTable_grows grows.tree (isUpper_dir _) (isDir pd0 rfl) (Or.inr rfl) second
      exact ⟨grows.trans grows', fun pt index same => (nomatch same)⟩
  · rename_i middle first
    cases called
    obtain ⟨grows, _⟩ := getTable_grows tree isUpper_root (tables_root isRoot) (Or.inl rfl) first
    exact ⟨grows, fun pt index same => (nomatch same)⟩

/-- A lookup with `get_pte` changes nothing. -/
theorem getPte_lookup (allocator : Nat → Option Nat) (mem : Memory) (pgdir la : Nat) :
    getPte allocator false mem pgdir la =
      ((mem.lastTable pgdir (pdx1 la) (pdx0 la)).map fun pt => (pt, ptx la), mem) := by
  have noTable : ∀ table index, getTable allocator false mem table index = (mem.entry table index, mem) := by
    intro table index
    unfold getTable
    cases mem.entry table index <;> rfl
  rw [getPte, noTable, Memory.lastTable]
  cases mem.entry pgdir (pdx1 la) with
  | none => rfl
  | some pd0 =>
    simp only [noTable, Option.bind_some]
    cases mem.entry pd0 (pdx0 la) <;> rfl

end Ucore.Paging
