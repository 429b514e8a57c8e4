import Ucore.Mm.PageMap

/-!
# Freeing tables

`exit_range` frees the tables of the last level that have no valid entry, and then the
table above them. Whether that one goes is decided by `free_pd0`, which becomes 0 at an
entry that is not valid: so a table of the second level is freed when all its entries in
the range were valid, and not when all its entries are invalid.

A table that is freed is not written afterwards, so what it has at the end of the call
is what it had when it was freed.
-/

namespace Ucore.Paging

variable {roots : Finset Nat} {allocator : Nat → Option Nat} {mem middle next : Memory}
variable {pgdir pd0 table page pt steps : Nat} {d1 d0 : Fin 512} {dead dead' : List Nat}

/-- A table without a valid entry. -/
def Memory.EmptyTable (mem : Memory) (table : Nat) : Prop := ∀ index, mem.entry table index = none

instance (mem : Memory) (table : Nat) : Decidable (mem.EmptyTable table) :=
  inferInstanceAs (Decidable (∀ index, mem.entry table index = none))

/-- A page is given to `free_page`. -/
def Memory.release (mem : Memory) (page : Nat) : Memory :=
  { mem with free := insert page mem.free, freed := mem.freed ++ [page] }

theorem freePage_release (inUse : page ∉ mem.free) : freePage mem page = some (mem.release page) := if_neg inUse

theorem entry_congr {index : Fin 512} (same : next.table table = mem.table table) :
    next.entry table index = mem.entry table index := congrArg (fun table => (table index).page?) same

/-- A directory of the second level and its tables: none is free, and no two of them and the page
directory are the same. -/
structure OwnsDir (pgdir pd0 : Nat) (mem : Memory) : Prop where
  notRoot : pd0 ≠ pgdir
  inUse : pd0 ∉ mem.free
  lastInUse : ∀ d0 pt, mem.entry pd0 d0 = some pt → pt ∉ mem.free
  lastOnce : ∀ d0 d0' pt, mem.entry pd0 d0 = some pt → mem.entry pd0 d0' = some pt → d0 = d0'
  apart : ∀ d0 pt, mem.entry pd0 d0 = some pt → pt ≠ pd0 ∧ pt ≠ pgdir

theorem Tree.ownsDir (tree : Tree roots mem) (isRoot : pgdir ∈ roots) (isDir : mem.entry pgdir d1 = some pd0) :
    OwnsDir pgdir pd0 mem := by
  have dirPlace := (@tables_dir roots mem pgdir d1 isRoot).trans isDir
  have lastPlace : ∀ {d0 pt}, mem.entry pd0 d0 = some pt → mem.tables roots pgdir (.last d1 d0) = some pt := by
    intro d0 pt isLast
    rw [tables_last isRoot, Memory.lastTable, isDir]
    exact isLast
  constructor
  case notRoot =>
    rintro rfl
    cases (tree.once dirPlace (tables_root isRoot)).2
  case inUse => exact tree.inUse dirPlace
  case lastInUse => exact fun d0 pt isLast => tree.inUse (lastPlace isLast)
  case lastOnce =>
    intro d0 d0' pt first second
    cases (tree.once (lastPlace first) (lastPlace second)).2
    rfl
  case apart =>
    intro d0 pt isLast
    constructor
    · rintro rfl
      cases (tree.once (lastPlace isLast) dirPlace).2
    · rintro rfl
      cases (tree.once (lastPlace isLast) (tables_root isRoot)).2

/-! ## The inner loop -/

/-- Of the entries visited, those go that name empty tables, and these tables are freed. -/
structure ExitsTables (pd0 : Nat) (visited : Fin 512 → Prop) (dead : List Nat) (mem next : Memory) : Prop where
  others : ∀ table, table ≠ pd0 → next.table table = mem.table table
  cleared : ∀ d0 pt, visited d0 → mem.entry pd0 d0 = some pt → mem.EmptyTable pt → next.entry pd0 d0 = none
  kept : ∀ d0, ¬ visited d0 ∨ (∀ pt, mem.entry pd0 d0 = some pt → ¬ mem.EmptyTable pt) →
    next.entry pd0 d0 = mem.entry pd0 d0
  freed : next.freed = mem.freed ++ dead
  free : ∀ page, page ∈ next.free ↔ page ∈ mem.free ∨ page ∈ dead
  exact : ∀ page, page ∈ dead ↔ ∃ d0, visited d0 ∧ mem.entry pd0 d0 = some page ∧ mem.EmptyTable page

variable {visited visited' : Fin 512 → Prop}

theorem ExitsTables.refl (nothing : ∀ d0, visited d0 → ∀ pt, mem.entry pd0 d0 = some pt → ¬ mem.EmptyTable pt) :
    ExitsTables pd0 visited [] mem mem where
  others := fun _ _ => rfl
  cleared := fun d0 pt here names empty => absurd empty (nothing d0 here pt names)
  kept := fun _ _ => rfl
  freed := (List.append_nil _).symm
  free := fun page => by simp
  exact := fun page => by
    simp only [List.not_mem_nil, false_iff]
    rintro ⟨d0, here, names, empty⟩
    exact nothing d0 here page names empty

theorem ExitsTables.congr (exits : ExitsTables pd0 visited dead mem next) (same : ∀ d0, visited d0 ↔ visited' d0) :
    ExitsTables pd0 visited' dead mem next := by
  rwa [← funext fun d0 => propext (same d0)]

/-- An entry that remains was there before. -/
theorem ExitsTables.shrinks (exits : ExitsTables pd0 visited dead mem next) (names : next.entry pd0 d0 = some pt) :
    mem.entry pd0 d0 = some pt ∧ (visited d0 → ¬ mem.EmptyTable pt) := by
  by_cases stays : ¬ visited d0 ∨ (∀ pt, mem.entry pd0 d0 = some pt → ¬ mem.EmptyTable pt)
  · rw [exits.kept d0 stays] at names
    exact ⟨names, fun here => (stays.resolve_left (not_not.mpr here)) pt names⟩
  · simp only [not_or, not_not, not_forall] at stays
    obtain ⟨here, old, isOld, empty⟩ := stays
    rw [exits.cleared d0 old here isOld empty] at names
    cases names

theorem ExitsTables.emptyTable (exits : ExitsTables pd0 visited dead mem next) (different : table ≠ pd0) :
    next.EmptyTable table ↔ mem.EmptyTable table :=
  forall_congr' fun _ => by rw [entry_congr (exits.others table different)]

theorem ExitsTables.ownsDir (exits : ExitsTables pd0 visited dead mem next) (owns : OwnsDir pgdir pd0 mem) :
    OwnsDir pgdir pd0 next where
  notRoot := owns.notRoot
  inUse := by
    intro isFree
    rcases (exits.free pd0).mp isFree with old | isDead
    · exact owns.inUse old
    · obtain ⟨d0, _, names, _⟩ := (exits.exact pd0).mp isDead
      exact (owns.apart d0 pd0 names).1 rfl
  lastInUse := by
    intro d0 pt names isFree
    obtain ⟨isOld, alive⟩ := exits.shrinks names
    rcases (exits.free pt).mp isFree with old | isDead
    · exact owns.lastInUse d0 pt isOld old
    · obtain ⟨d0', here, names', empty⟩ := (exits.exact pt).mp isDead
      cases owns.lastOnce d0 d0' pt isOld names'
      exact alive here empty
  lastOnce := fun d0 d0' pt first second =>
    owns.lastOnce d0 d0' pt (exits.shrinks first).1 (exits.shrinks second).1
  apart := fun d0 pt names => owns.apart d0 pt (exits.shrinks names).1

theorem ExitsTables.trans (owns : OwnsDir pgdir pd0 mem) (first : ExitsTables pd0 visited dead mem middle)
    (second : ExitsTables pd0 visited' dead' middle next) (disjoint : ∀ d0, visited d0 → ¬ visited' d0) :
    ExitsTables pd0 (fun d0 => visited d0 ∨ visited' d0) (dead ++ dead') mem next := by
  have later : ∀ {d0}, visited' d0 → middle.entry pd0 d0 = mem.entry pd0 d0 := fun there =>
    first.kept _ (Or.inl fun here => disjoint _ here there)
  have empty : ∀ {d0 pt}, mem.entry pd0 d0 = some pt → (middle.EmptyTable pt ↔ mem.EmptyTable pt) := fun names =>
    first.emptyTable (owns.apart _ _ names).1
  constructor
  case others => exact fun table different => (second.others table different).trans (first.others table different)
  case cleared =>
    intro d0 pt here names isEmpty
    by_cases there : visited' d0
    · exact second.cleared d0 pt there ((later there).trans names) ((empty names).mpr isEmpty)
    · rw [second.kept d0 (Or.inl there)]
      exact first.cleared d0 pt (here.resolve_right there) names isEmpty
  case kept =>
    intro d0 stays
    have stays' : middle.entry pd0 d0 = mem.entry pd0 d0 :=
      first.kept d0 (stays.imp_left fun nowhere here => nowhere (Or.inl here))
    rw [second.kept d0, stays']
    rw [stays']
    refine stays.imp (fun nowhere there => nowhere (Or.inr there)) fun used pt names => ?_
    rw [empty names]
    exact used pt names
  case freed => rw [second.freed, first.freed, List.append_assoc]
  case free =>
    intro page
    rw [second.free, first.free, List.mem_append, or_assoc]
  case exact =>
    intro page
    rw [List.mem_append, first.exact, second.exact]
    constructor
    · rintro (⟨d0, here, names, isEmpty⟩ | ⟨d0, there, names, isEmpty⟩)
      · exact ⟨d0, Or.inl here, names, isEmpty⟩
      · rw [later there] at names
        exact ⟨d0, Or.inr there, names, (empty names).mp isEmpty⟩
    · rintro ⟨d0, here | there, names, isEmpty⟩
      · exact Or.inl ⟨d0, here, names, isEmpty⟩
      · exact Or.inr ⟨d0, there, (later there).trans names, (empty names).mpr isEmpty⟩

/-- The entries that the inner loop visits in some rounds. -/
def Visits (d0start steps : Nat) (d0 : Fin 512) : Prop := ∃ round, round < steps ∧ pdx0 (d0start + round * ptsize) = d0

theorem visits_succ (d0start steps : Nat) (d0 : Fin 512) :
    Visits d0start (steps + 1) d0 ↔ d0 = pdx0 d0start ∨ Visits (d0start + ptsize) steps d0 := by
  constructor
  · rintro ⟨round, inside, rfl⟩
    cases round with
    | zero =>
      left
      rw [Nat.zero_mul, Nat.add_zero]
    | succ round =>
      refine Or.inr ⟨round, by omega, ?_⟩
      rw [Nat.succ_mul, Nat.add_comm (round * ptsize), Nat.add_assoc]
  · rintro (rfl | ⟨round, inside, rfl⟩)
    · exact ⟨0, by omega, by rw [Nat.zero_mul, Nat.add_zero]⟩
    · refine ⟨round + 1, by omega, ?_⟩
      rw [Nat.succ_mul, Nat.add_comm (round * ptsize), Nat.add_assoc]

/-- The loop comes to an entry once. -/
theorem visits_once {d0start : Nat} (few : steps < 512) : ¬ Visits (d0start + ptsize) steps (pdx0 d0start) := by
  rintro ⟨round, inside, same⟩
  have same := congrArg Fin.val same
  simp only [pdx0, Fin.ofNat, ptsize, pgsize] at same
  omega

/-- A visit of one entry. -/
theorem visit_exits {flag : Bool} {d0start : Nat} (owns : OwnsDir pgdir pd0 mem) (steps : Nat) :
    ∃ middle dead, exitTables mem pd0 d0start flag (steps + 1) =
      exitTables middle pd0 (d0start + ptsize) (flag && (mem.entry pd0 (pdx0 d0start)).isSome) steps ∧
      ExitsTables pd0 (· = pdx0 d0start) dead mem middle ∧ dead.Nodup := by
  rw [exitTables]
  cases names : mem.entry pd0 (pdx0 d0start) with
  | none =>
    refine ⟨mem, [], by rw [Option.isSome_none, Bool.and_false], .refl ?_, List.nodup_nil⟩
    rintro d0 rfl pt isLast
    rw [names] at isLast
    cases isLast
  | some pt =>
    simp only [Option.isSome_some, Bool.and_true]
    by_cases empty : ∀ index, mem.entry pt index = none
    · rw [if_pos empty, freePage_release (owns.lastInUse _ pt names), Option.bind_some]
      refine ⟨_, [pt], rfl, ?_, List.nodup_singleton pt⟩
      constructor
      case others => exact fun table different => table_setPte table different
      case cleared =>
        rintro d0 pt rfl _ _
        rw [entry_setPte, if_pos ⟨rfl, rfl⟩, page?_zero]
      case kept =>
        intro d0 stays
        rw [entry_setPte, if_neg]
        · rfl
        · rintro ⟨_, rfl⟩
          exact stays.elim (absurd rfl) fun used => used pt names empty
      case freed => rfl
      case free =>
        intro page
        show page ∈ insert pt mem.free ↔ _
        rw [Finset.mem_insert, List.mem_singleton, or_comm]
      case exact =>
        intro page
        rw [List.mem_singleton]
        constructor
        · rintro rfl
          exact ⟨_, rfl, names, empty⟩
        · rintro ⟨_, rfl, isLast, _⟩
          rw [names] at isLast
          exact (Option.some.inj isLast).symm
    · rw [if_neg empty]
      refine ⟨mem, [], rfl, .refl ?_, List.nodup_nil⟩
      rintro d0 rfl pt' isLast
      rw [names] at isLast
      cases isLast
      exact empty

/-- The inner loop frees the empty tables of its entries. `free_pd0` stays as it is exactly if all
these entries are valid. -/
theorem exitTables_exits {flag : Bool} {d0start : Nat} (owns : OwnsDir pgdir pd0 mem) (few : steps ≤ 512) :
    ∃ next dead valid, exitTables mem pd0 d0start flag steps = some (flag && valid, next) ∧
      ExitsTables pd0 (Visits d0start steps) dead mem next ∧ dead.Nodup ∧
      (valid = true ↔ ∀ d0, Visits d0start steps d0 → mem.entry pd0 d0 ≠ none) := by
  induction steps generalizing mem d0start flag with
  | zero =>
    have nowhere : ∀ d0, ¬ Visits d0start 0 d0 := fun d0 ⟨_, inside, _⟩ => by omega
    refine ⟨mem, [], true, by rw [exitTables, Bool.and_true], .refl fun d0 here => absurd here (nowhere d0), List.nodup_nil, ?_⟩
    exact ⟨fun _ d0 here => absurd here (nowhere d0), fun _ => rfl⟩
  | succ steps ih =>
    obtain ⟨middle, dead, step, first, distinct⟩ := @visit_exits mem pgdir pd0 flag d0start owns steps
    obtain ⟨next, dead', valid, rest, second, distinct', isValid⟩ := ih (first.ownsDir owns) (by omega)
    have once := @visits_once steps d0start (by omega)
    refine ⟨next, dead ++ dead', (mem.entry pd0 (pdx0 d0start)).isSome && valid, ?_, ?_, ?_, ?_⟩
    · rw [step, rest, Bool.and_assoc]
    · refine (first.trans owns second ?_).congr fun d0 => (visits_succ d0start steps d0).symm
      rintro d0 rfl
      exact once
    · -- what an earlier round has freed names no entry any more
      refine List.nodup_append'.mpr ⟨distinct, distinct', fun page inFirst inSecond => ?_⟩
      obtain ⟨d0, _, names, _⟩ := (second.exact page).mp inSecond
      exact (first.ownsDir owns).lastInUse d0 page names ((first.free page).mpr (Or.inr inFirst))
    · rw [Bool.and_eq_true, isValid, Option.isSome_iff_ne_none]
      constructor
      · rintro ⟨head, tail⟩ d0 here
        rcases (visits_succ d0start steps d0).mp here with rfl | there
        · exact head
        · rw [← first.kept d0 (Or.inl fun same => once (same ▸ there))]
          exact tail d0 there
      · intro all
        refine ⟨all _ ((visits_succ d0start steps _).mpr (Or.inl rfl)), fun d0 there => ?_⟩
        rw [first.kept d0 (Or.inl fun same => once (same ▸ there))]
        exact all d0 ((visits_succ d0start steps d0).mpr (Or.inr there))

/-! ## Trees that lose tables -/

/-- Every valid entry was there before. -/
def Shrinks (mem next : Memory) : Prop := ∀ table index page, next.entry table index = some page →
  mem.entry table index = some page

theorem Shrinks.lastTable (shrinks : Shrinks mem next) (isLast : next.lastTable pgdir d1 d0 = some pt) :
    mem.lastTable pgdir d1 d0 = some pt := by
  obtain ⟨pd0, isDir, names⟩ := Option.bind_eq_some_iff.mp isLast
  rw [Memory.lastTable, shrinks pgdir d1 pd0 isDir]
  exact shrinks pd0 d0 pt names

theorem Shrinks.tables (shrinks : Shrinks mem next) {place : TablePlace}
    (names : next.tables roots pgdir place = some table) : mem.tables roots pgdir place = some table := by
  have isRoot := isRoot_of_tables names
  cases place with
  | root =>
    rw [tables_root isRoot] at names ⊢
    exact names
  | dir d1 =>
    rw [tables_dir isRoot] at names ⊢
    exact shrinks pgdir d1 table names
  | last d1 d0 =>
    rw [tables_last isRoot] at names ⊢
    exact shrinks.lastTable names

/-- What is mapped is found with two tables and an entry. -/
theorem mapped_lookup (mem : Memory) (pgdir : Nat) (path : Path) : mem.mapped pgdir path =
    (mem.lastTable pgdir path.1 path.2.1).bind fun pt => mem.entry pt path.2.2 := by
  cases isLast : mem.lastTable pgdir path.1 path.2.1 with
  | none => rw [Memory.mapped, leaf_none isLast, page?_zero, Option.bind_none]
  | some pt => rw [Memory.mapped, leaf_table isLast, Option.bind_some, Memory.entry]

theorem Shrinks.mapped (shrinks : Shrinks mem next) {path : Path} (names : next.mapped pgdir path = some page) :
    mem.mapped pgdir path = some page := by
  rw [mapped_lookup] at names ⊢
  obtain ⟨pt, isLast, isPage⟩ := Option.bind_eq_some_iff.mp names
  rw [shrinks.lastTable isLast]
  exact shrinks pt path.2.2 page isPage

/-- Tables that are freed have lost their place. -/
theorem Tree.shrink (tree : Tree roots mem) (shrinks : Shrinks mem next) (free : ∀ page, page ∈ next.free →
    page ∈ mem.free ∨ mem.IsTable roots page ∧ ¬ next.IsTable roots page) : Tree roots next where
  owned := by
    have inUse : ∀ pgdir place table, next.tables roots pgdir place = some table → table ∉ next.free := by
      intro pgdir place table names isFree
      rcases free table isFree with old | ⟨_, gone⟩
      · exact tree.inUse (shrinks.tables names) old
      · exact gone ⟨pgdir, place, names⟩
    intro pgdir
    constructor
    case inUse => exact inUse pgdir
    case once => exact fun place other table first second =>
      (tree.once (shrinks.tables first) (shrinks.tables second)).2
    case apart =>
      rintro place table names ⟨other, different, place', names'⟩
      exact different (tree.once (shrinks.tables names') (shrinks.tables names)).1
    case framed =>
      rintro table ⟨other, _, place, names⟩
      exact inUse other place table names
  mapped := by
    intro pgdir isRoot path page names
    obtain ⟨inUse, notTable⟩ := tree.mapped pgdir isRoot path page (shrinks.mapped names)
    refine ⟨fun isFree => ?_, fun ⟨other, place, isTable⟩ => notTable ⟨other, place, shrinks.tables isTable⟩⟩
    rcases free page isFree with old | ⟨isTable, _⟩
    · exact inUse old
    · exact notTable isTable

/-- The page mapped at a path is the same when the three entries on the way are. -/
theorem mapped_congr {path : Path} (dir : next.entry pgdir path.1 = mem.entry pgdir path.1)
    (last : ∀ pd0, mem.entry pgdir path.1 = some pd0 → next.entry pd0 path.2.1 = mem.entry pd0 path.2.1)
    (leaf : ∀ pt, mem.lastTable pgdir path.1 path.2.1 = some pt → next.entry pt path.2.2 = mem.entry pt path.2.2) :
    next.mapped pgdir path = mem.mapped pgdir path := by
  have sameLast : next.lastTable pgdir path.1 path.2.1 = mem.lastTable pgdir path.1 path.2.1 := by
    rw [Memory.lastTable, Memory.lastTable, dir]
    cases isDir : mem.entry pgdir path.1 with
    | none => rfl
    | some pd0 => exact last pd0 isDir
  rw [mapped_lookup, mapped_lookup, sameLast]
  cases isLast : mem.lastTable pgdir path.1 path.2.1 with
  | none => rfl
  | some pt => exact leaf pt isLast

/-! ## The outer loop -/

/-- A table of the second level stays, since an entry visited is invalid, or it has no valid entry
when its empty tables are gone. -/
def KeepsUsed (visited : Fin 512 → Prop) (mem : Memory) (pd0 : Nat) : Prop :=
  (∃ d0, visited d0 ∧ mem.entry pd0 d0 = none) ∨ ∀ d0 pt, mem.entry pd0 d0 = some pt → visited d0 ∧ mem.EmptyTable pt

/-- Some entries of a page directory are visited, each with some entries of the table below. -/
structure Exits (roots : Finset Nat) (pgdir : Nat) (visited : Fin 512 → Fin 512 → Prop) (dead : List Nat)
    (mem next : Memory) : Prop where
  tree : Tree roots next
  shrinks : Shrinks mem next
  others : ∀ table, table ≠ pgdir → (∀ d1 d0, visited d1 d0 → mem.entry pgdir d1 ≠ some table) →
    ∀ index, next.entry table index = mem.entry table index
  root : ∀ d1, (∀ d0, ¬ visited d1 d0) → next.entry pgdir d1 = mem.entry pgdir d1
  freed : next.freed = mem.freed ++ dead
  below : ∀ page ∈ dead, ∃ d1 d0, visited d1 d0 ∧
    (mem.entry pgdir d1 = some page ∨ ∃ d0, mem.lastTable pgdir d1 d0 = some page)
  safe : (∀ page ∈ dead, next.EmptyTable page) ↔
    ∀ d1 d0 pd0, visited d1 d0 → mem.entry pgdir d1 = some pd0 → KeepsUsed (visited d1) mem pd0
  kept : (∀ page ∈ dead, next.EmptyTable page) → ∀ path, next.mapped pgdir path = mem.mapped pgdir path

section Rounds

variable {visits visits' : Fin 512 → Fin 512 → Prop}

theorem Exits.congr (exits : Exits roots pgdir visits dead mem next) (same : ∀ d1 d0, visits d1 d0 ↔ visits' d1 d0) :
    Exits roots pgdir visits' dead mem next := by
  rwa [← funext fun d1 => funext fun d0 => propext (same d1 d0)]

theorem Exits.refl (tree : Tree roots mem) (nothing : ∀ d1 d0, visits d1 d0 → mem.entry pgdir d1 = none) :
    Exits roots pgdir visits [] mem mem where
  tree := tree
  shrinks := fun _ _ _ names => names
  others := fun _ _ _ _ => rfl
  root := fun _ _ => rfl
  freed := (List.append_nil _).symm
  below := fun page member => absurd member List.not_mem_nil
  safe := by
    refine ⟨fun _ d1 d0 pd0 here isDir => ?_, fun _ page member => absurd member List.not_mem_nil⟩
    rw [nothing d1 d0 here] at isDir
    cases isDir
  kept := fun _ _ => rfl

/-- Only the page directory and the tables of the second level that are visited are written. -/
theorem Exits.sameEntries (exits : Exits roots pgdir visits dead mem next) (tree : Tree roots mem)
    {place : TablePlace} (names : mem.tables roots pgdir place = some table) (notRoot : place ≠ .root)
    (notDir : ∀ d1 d0, visits d1 d0 → place ≠ .dir d1) (index : Fin 512) :
    next.entry table index = mem.entry table index := by
  have isRoot := isRoot_of_tables names
  apply exits.others
  · rintro rfl
    exact notRoot (tree.once names (tables_root isRoot)).2
  · intro d1 d0 here isDir
    exact notDir d1 d0 here (tree.once names ((tables_dir isRoot).trans isDir)).2

/-- What is below an entry that is not visited stays in use as it is. -/
theorem Exits.keepsUsed (exits : Exits roots pgdir visits dead mem next) (tree : Tree roots mem)
    (isRoot : pgdir ∈ roots) (isDir : mem.entry pgdir d1 = some pd0) (nowhere : ∀ d0, ¬ visits d1 d0) :
    KeepsUsed visited next pd0 ↔ KeepsUsed visited mem pd0 := by
  have dirPlace := (@tables_dir roots mem pgdir d1 isRoot).trans isDir
  have entries : ∀ d0, next.entry pd0 d0 = mem.entry pd0 d0 := by
    refine exits.sameEntries tree dirPlace (by simp) ?_
    rintro d1' d0 here ⟨⟩
    exact nowhere d0 here
  have empty : ∀ d0 pt, mem.entry pd0 d0 = some pt → (next.EmptyTable pt ↔ mem.EmptyTable pt) := by
    intro d0 pt isLast
    have lastPlace : mem.tables roots pgdir (.last d1 d0) = some pt := by
      rw [tables_last isRoot, Memory.lastTable, isDir]
      exact isLast
    exact forall_congr' fun index => by rw [exits.sameEntries tree lastPlace (by simp) (by simp) index]
  unfold KeepsUsed
  simp only [entries]
  refine or_congr Iff.rfl (forall_congr' fun d0 => forall_congr' fun pt => forall_congr' fun isLast => ?_)
  rw [empty d0 pt isLast]

theorem Exits.trans (tree : Tree roots mem) (isRoot : pgdir ∈ roots)
    (first : Exits roots pgdir visits dead mem middle) (second : Exits roots pgdir visits' dead' middle next)
    (disjoint : ∀ d1 d0 d0', visits d1 d0 → ¬ visits' d1 d0') :
    Exits roots pgdir (fun d1 d0 => visits d1 d0 ∨ visits' d1 d0) (dead ++ dead') mem next := by
  have later : ∀ {d1 d0}, visits' d1 d0 → ∀ d0', ¬ visits d1 d0' := fun there d0' here => disjoint _ d0' _ here there
  have sameDir : ∀ {d1 d0}, visits' d1 d0 → middle.entry pgdir d1 = mem.entry pgdir d1 := fun there =>
    first.root _ (later there)
  have stays : ∀ page ∈ dead, ∀ index, next.entry page index = middle.entry page index := by
    intro page member
    obtain ⟨d1, d0, here, isTable⟩ := first.below page member
    have place : ∃ place, mem.tables roots pgdir place = some page ∧ place ≠ .root ∧
        ∀ d1' d0', visits' d1' d0' → place ≠ .dir d1' := by
      rcases isTable with isDir | ⟨d0', isLast⟩
      · refine ⟨.dir d1, (tables_dir isRoot).trans isDir, by simp, ?_⟩
        rintro d1' d0' there ⟨⟩
        exact later there d0 here
      · exact ⟨.last d1 d0', (tables_last isRoot).trans isLast, by simp, by simp⟩
    obtain ⟨place, names, notRoot, notDir⟩ := place
    apply second.others
    · rintro rfl
      exact notRoot (tree.once names (tables_root isRoot)).2
    · intro d1' d0' there isDir
      rw [sameDir there] at isDir
      exact notDir d1' d0' there (tree.once names ((tables_dir isRoot).trans isDir)).2
  have both : (∀ page ∈ dead ++ dead', next.EmptyTable page) ↔
      (∀ page ∈ dead, middle.EmptyTable page) ∧ ∀ page ∈ dead', next.EmptyTable page := by
    rw [List.forall_mem_append]
    refine and_congr_left fun _ => forall_congr' fun page => forall_congr' fun member => ?_
    exact forall_congr' fun index => by rw [stays page member index]
  constructor
  case tree => exact second.tree
  case shrinks => exact fun table index page names => first.shrinks table index page (second.shrinks table index page names)
  case others =>
    intro table different unvisited index
    rw [second.others table different ?_ index]
    · exact first.others table different (fun d1 d0 here => unvisited d1 d0 (Or.inl here)) index
    · intro d1 d0 there
      rw [sameDir there]
      exact unvisited d1 d0 (Or.inr there)
  case root =>
    intro d1 nowhere
    rw [second.root d1 fun d0 there => nowhere d0 (Or.inr there)]
    exact first.root d1 fun d0 here => nowhere d0 (Or.inl here)
  case freed => rw [second.freed, first.freed, List.append_assoc]
  case below =>
    intro page member
    rcases List.mem_append.mp member with inFirst | inSecond
    · obtain ⟨d1, d0, here, isTable⟩ := first.below page inFirst
      exact ⟨d1, d0, Or.inl here, isTable⟩
    · obtain ⟨d1, d0, there, isTable⟩ := second.below page inSecond
      refine ⟨d1, d0, Or.inr there, isTable.imp (first.shrinks pgdir d1 page) ?_⟩
      exact fun ⟨d0', isLast⟩ => ⟨d0', first.shrinks.lastTable isLast⟩
  case safe =>
    rw [both, first.safe, second.safe]
    constructor
    · rintro ⟨inFirst, inSecond⟩ d1 d0 pd0 (here | there) isDir
      · have nowhere : ∀ d0, ¬ visits' d1 d0 := fun d0' => disjoint d1 d0 d0' here
        have same : (fun d0 => visits d1 d0 ∨ visits' d1 d0) = visits d1 := by
          funext d0
          simp only [nowhere d0, or_false]
        rw [same]
        exact inFirst d1 d0 pd0 here isDir
      · have same : (fun d0 => visits d1 d0 ∨ visits' d1 d0) = visits' d1 := by
          funext d0
          simp only [later there d0, false_or]
        rw [same, ← first.keepsUsed tree isRoot isDir (later there)]
        exact inSecond d1 d0 pd0 there ((sameDir there).trans isDir)
    · intro all
      constructor
      · intro d1 d0 pd0 here isDir
        have nowhere : ∀ d0, ¬ visits' d1 d0 := fun d0' => disjoint d1 d0 d0' here
        have kept := all d1 d0 pd0 (Or.inl here) isDir
        simpa only [nowhere, or_false] using kept
      · intro d1 d0 pd0 there isDir
        rw [sameDir there] at isDir
        have kept := all d1 d0 pd0 (Or.inr there) isDir
        rw [first.keepsUsed tree isRoot isDir (later there)]
        simpa only [later there, false_or] using kept
  case kept =>
    intro safe path
    obtain ⟨inFirst, inSecond⟩ := both.mp safe
    rw [second.kept inSecond, first.kept inFirst]

theorem ExitsTables.all_shrink (exits : ExitsTables pd0 visited dead mem next) : Shrinks mem next := by
  intro table index page names
  by_cases isPd0 : table = pd0
  · subst isPd0
    exact (exits.shrinks names).1
  · rwa [entry_congr (exits.others table isPd0)] at names

theorem lastTable_of_entry (isDir : mem.entry pgdir d1 = some pd0) (isLast : mem.entry pd0 d0 = some pt) :
    mem.lastTable pgdir d1 d0 = some pt := by
  rw [Memory.lastTable, isDir]
  exact isLast

/-- The inner loop alone, on the table of an entry of the page directory. -/
theorem ExitsTables.exits (tree : Tree roots mem) (isRoot : pgdir ∈ roots) (isDir : mem.entry pgdir d1 = some pd0)
    (exits : ExitsTables pd0 visited dead mem next) (invalid : ∃ d0, visited d0 ∧ mem.entry pd0 d0 = none) :
    Exits roots pgdir (fun index d0 => index = d1 ∧ visited d0) dead mem next := by
  have owns := tree.ownsDir isRoot isDir
  have shrinks := exits.all_shrink
  have sameRoot : ∀ index, next.entry pgdir index = mem.entry pgdir index := fun index =>
    entry_congr (exits.others pgdir (Ne.symm owns.notRoot))
  have isEmpty : ∀ page ∈ dead, next.EmptyTable page := by
    intro page member
    obtain ⟨d0, _, names, empty⟩ := (exits.exact page).mp member
    exact (exits.emptyTable (owns.apart d0 page names).1).mpr empty
  constructor
  case tree =>
    refine tree.shrink shrinks fun page isFree => ?_
    refine ((exits.free page).mp isFree).imp_right fun member => ?_
    obtain ⟨d0, here, names, empty⟩ := (exits.exact page).mp member
    have place := (@tables_last roots mem pgdir d1 d0 isRoot).trans (lastTable_of_entry isDir names)
    refine ⟨⟨pgdir, _, place⟩, ?_⟩
    rintro ⟨other, place', isTable⟩
    obtain ⟨rfl, rfl⟩ := tree.once place (shrinks.tables isTable)
    rw [tables_last isRoot, Memory.lastTable, sameRoot, isDir, Option.bind_some,
      exits.cleared d0 page here names empty] at isTable
    cases isTable
  case shrinks => exact shrinks
  case others =>
    intro table _ unvisited index
    obtain ⟨d0, here, _⟩ := invalid
    apply entry_congr (exits.others table ?_)
    rintro rfl
    exact unvisited d1 d0 ⟨rfl, here⟩ isDir
  case root => exact fun index _ => sameRoot index
  case freed => exact exits.freed
  case below =>
    intro page member
    obtain ⟨d0, here, names, _⟩ := (exits.exact page).mp member
    exact ⟨d1, d0, ⟨rfl, here⟩, Or.inr ⟨d0, lastTable_of_entry isDir names⟩⟩
  case safe =>
    refine ⟨?_, fun _ => isEmpty⟩
    rintro _ index d0 other ⟨rfl, _⟩ isOther
    rw [isDir] at isOther
    cases isOther
    obtain ⟨d0', there, none⟩ := invalid
    exact Or.inl ⟨d0', ⟨rfl, there⟩, none⟩
  case kept =>
    intro _ path
    obtain ⟨index, d0, last⟩ := path
    by_cases isCleared : index = d1 ∧ visited d0 ∧ ∃ pt, mem.entry pd0 d0 = some pt ∧ mem.EmptyTable pt
    · obtain ⟨rfl, here, pt, names, empty⟩ := isCleared
      have none : next.lastTable pgdir index d0 = none := by
        rw [Memory.lastTable, sameRoot, isDir]
        exact exits.cleared d0 pt here names empty
      rw [mapped_lookup, mapped_lookup, none, lastTable_of_entry isDir names]
      exact (empty last).symm
    · refine mapped_congr (sameRoot index) ?_ ?_
      · intro other isOther
        by_cases isPd0 : other = pd0
        · subst isPd0
          have same : index = d1 := by
            have once := (tree.once ((tables_dir isRoot).trans isOther) ((tables_dir isRoot).trans isDir)).2
            cases once
            rfl
          apply exits.kept
          simpa only [same, true_and, not_and_or, not_exists, imp_iff_not_or] using isCleared
        · exact entry_congr (exits.others other isPd0)
      · intro pt isLast
        apply entry_congr (exits.others pt ?_)
        rintro rfl
        cases (tree.once ((tables_last isRoot).trans isLast) ((tables_dir isRoot).trans isDir)).2

/-- The inner loop, and the table itself is freed. -/
theorem ExitsTables.exits_freed (tree : Tree roots mem) (isRoot : pgdir ∈ roots) (isDir : mem.entry pgdir d1 = some pd0)
    (exits : ExitsTables pd0 visited dead mem middle) (valid : ∀ d0, visited d0 → mem.entry pd0 d0 ≠ none)
    (nonempty : ∃ d0, visited d0) : Exits roots pgdir (fun index d0 => index = d1 ∧ visited d0) (dead ++ [pd0]) mem
      ((middle.release pd0).setPte pgdir d1 .zero) := by
  have owns := tree.ownsDir isRoot isDir
  have dirPlace := (@tables_dir roots mem pgdir d1 isRoot).trans isDir
  have entries : ∀ table index, ((middle.release pd0).setPte pgdir d1 .zero).entry table index =
      if table = pgdir ∧ index = d1 then none else middle.entry table index := by
    intro table index
    rw [entry_setPte, page?_zero]
    rfl
  have away : ∀ {table index}, table ≠ pgdir →
      ((middle.release pd0).setPte pgdir d1 .zero).entry table index = middle.entry table index := by
    intro table index different
    rw [entries, if_neg fun here => different here.1]
  have gone : ((middle.release pd0).setPte pgdir d1 .zero).entry pgdir d1 = none := by
    rw [entries, if_pos ⟨rfl, rfl⟩]
  have shrinks : Shrinks mem ((middle.release pd0).setPte pgdir d1 .zero) := by
    intro table index page names
    rw [entries] at names
    split at names
    · cases names
    · exact exits.all_shrink table index page names
  have noPlace : ∀ {page place}, mem.tables roots pgdir place = some page →
      (place = .dir d1 ∨ ∃ d0, place = .last d1 d0) →
      ¬ ((middle.release pd0).setPte pgdir d1 .zero).IsTable roots page := by
    rintro page place names below ⟨other, place', isTable⟩
    obtain ⟨rfl, rfl⟩ := tree.once names (shrinks.tables isTable)
    rcases below with rfl | ⟨d0, rfl⟩
    · rw [tables_dir isRoot, gone] at isTable
      cases isTable
    · rw [tables_last isRoot, Memory.lastTable, gone] at isTable
      cases isTable
  have isEmpty : ∀ page ∈ dead, ((middle.release pd0).setPte pgdir d1 .zero).EmptyTable page := by
    intro page member index
    obtain ⟨d0, _, names, empty⟩ := (exits.exact page).mp member
    rw [away (owns.apart d0 page names).2]
    exact (exits.emptyTable (owns.apart d0 page names).1).mpr empty index
  -- the table that is freed has no valid entry exactly if the loop has cleared all of them
  have emptyDir : ((middle.release pd0).setPte pgdir d1 .zero).EmptyTable pd0 ↔
      ∀ d0 pt, mem.entry pd0 d0 = some pt → visited d0 ∧ mem.EmptyTable pt := by
    constructor
    · intro empty d0 pt names
      by_contra stays
      have kept := exits.kept d0 ((not_and_or.mp stays).imp_right fun used pt' names' => by
        rw [names] at names'
        cases names'
        exact used)
      rw [← away owns.notRoot, empty d0, names] at kept
      cases kept
    · intro all d0
      rw [away owns.notRoot]
      cases names : mem.entry pd0 d0 with
      | none => rw [exits.kept d0 (Or.inr fun pt isLast => by rw [names] at isLast; cases isLast), names]
      | some pt => exact exits.cleared d0 pt (all d0 pt names).1 names (all d0 pt names).2
  constructor
  case tree =>
    refine tree.shrink shrinks fun page isFree => ?_
    rcases Finset.mem_insert.mp (show page ∈ insert pd0 middle.free from isFree) with rfl | isFree
    · exact Or.inr ⟨⟨pgdir, _, dirPlace⟩, noPlace dirPlace (Or.inl rfl)⟩
    · refine ((exits.free page).mp isFree).imp_right fun member => ?_
      obtain ⟨d0, _, names, _⟩ := (exits.exact page).mp member
      have place := (@tables_last roots mem pgdir d1 d0 isRoot).trans (lastTable_of_entry isDir names)
      exact ⟨⟨pgdir, _, place⟩, noPlace place (Or.inr ⟨d0, rfl⟩)⟩
  case shrinks => exact shrinks
  case others =>
    intro table different unvisited index
    obtain ⟨d0, here⟩ := nonempty
    rw [away different]
    apply entry_congr (exits.others table ?_)
    rintro rfl
    exact unvisited d1 d0 ⟨rfl, here⟩ isDir
  case root =>
    intro index nowhere
    obtain ⟨d0, here⟩ := nonempty
    rw [entries, if_neg fun same => nowhere d0 ⟨same.2, here⟩]
    exact entry_congr (exits.others pgdir (Ne.symm owns.notRoot))
  case freed =>
    show middle.freed ++ [pd0] = _
    rw [exits.freed, List.append_assoc]
  case below =>
    intro page member
    obtain ⟨d0, here⟩ := nonempty
    refine ⟨d1, d0, ⟨rfl, here⟩, ?_⟩
    rcases List.mem_append.mp member with isLast | isPd0
    · obtain ⟨d0', _, names, _⟩ := (exits.exact page).mp isLast
      exact Or.inr ⟨d0', lastTable_of_entry isDir names⟩
    · rw [List.mem_singleton.mp isPd0]
      exact Or.inl isDir
  case safe =>
    rw [List.forall_mem_append, List.forall_mem_singleton, emptyDir]
    constructor
    · rintro ⟨_, all⟩ index d0 other ⟨rfl, _⟩ isOther
      rw [isDir] at isOther
      cases isOther
      exact Or.inr fun d0 pt names => ⟨⟨rfl, (all d0 pt names).1⟩, (all d0 pt names).2⟩
    · intro keeps
      obtain ⟨d0, here⟩ := nonempty
      refine ⟨isEmpty, fun d0' pt names => ?_⟩
      rcases keeps d1 d0 pd0 ⟨rfl, here⟩ isDir with ⟨d0', ⟨_, there⟩, none⟩ | all
      · exact absurd none (valid d0' there)
      · exact ⟨(all d0' pt names).1.2, (all d0' pt names).2⟩
  case kept =>
    intro safe path
    obtain ⟨index, d0, last⟩ := path
    have all := emptyDir.mp (safe pd0 (List.mem_append_right _ (List.mem_singleton_self pd0)))
    by_cases here : index = d1
    · subst here
      have none : ((middle.release pd0).setPte pgdir index .zero).lastTable pgdir index d0 = none := by
        rw [Memory.lastTable, gone]
        rfl
      rw [mapped_lookup, mapped_lookup, none]
      cases names : mem.entry pd0 d0 with
      | none =>
        rw [Memory.lastTable, isDir, Option.bind_some, names]
        rfl
      | some pt =>
        rw [lastTable_of_entry isDir names]
        exact ((all d0 pt names).2 last).symm
    · refine mapped_congr ?_ ?_ ?_
      · rw [entries, if_neg fun same => here same.2]
        exact entry_congr (exits.others pgdir (Ne.symm owns.notRoot))
      · intro other isOther
        have otherPlace := (@tables_dir roots mem pgdir index isRoot).trans isOther
        rw [away (tree.ownsDir isRoot isOther).notRoot]
        apply entry_congr (exits.others other ?_)
        rintro rfl
        cases (tree.once otherPlace dirPlace).2
        exact here rfl
      · intro pt isLast
        have lastPlace := (@tables_last roots mem pgdir index d0 isRoot).trans isLast
        rw [away]
        · apply entry_congr (exits.others pt ?_)
          rintro rfl
          cases (tree.once lastPlace dirPlace).2
        · rintro rfl
          cases (tree.once lastPlace (tables_root isRoot)).2

end Rounds

/-! ## The range -/

/-- The entries above the addresses of a range. -/
def Visited (start stop : Nat) (d1 d0 : Fin 512) : Prop := ∃ la, start ≤ la ∧ la < stop ∧ pdx1 la = d1 ∧ pdx0 la = d0

variable {start stop d1start d0start last : Nat}

theorem pdx1_congr {la other : Nat} (same : la / pdsize = other / pdsize) : pdx1 la = pdx1 other := by
  rw [pdx1, pdx1, same]

/-- The rounds of the inner loop are the tables that the range meets below one entry. -/
theorem visits_visited (aligned1 : d1start % pdsize = 0) (aligned0 : d0start % ptsize = 0) (low : d1start ≤ d0start)
    (high : last ≤ d1start + pdsize) (inside : d0start < last) (d1 d0 : Fin 512) :
    d1 = pdx1 d1start ∧ Visits d0start (rounds d0start last ptsize) d0 ↔ Visited d0start last d1 d0 := by
  constructor
  · rintro ⟨rfl, round, less, rfl⟩
    refine ⟨d0start + round * ptsize, by omega, ?_, ?_, rfl⟩
    · simp only [rounds, ptsize, pgsize] at *
      omega
    · apply pdx1_congr
      simp only [rounds, pdsize, ptsize, pgsize] at *
      omega
  · rintro ⟨la, first, before, rfl, rfl⟩
    refine ⟨pdx1_congr ?_, (la - d0start) / ptsize, ?_, ?_⟩
    · simp only [pdsize, ptsize, pgsize] at *
      omega
    · simp only [rounds, pdsize, ptsize, pgsize] at *
      omega
    · have same : (d0start + (la - d0start) / ptsize * ptsize) / ptsize = la / ptsize := by
        simp only [pdsize, ptsize, pgsize] at *
        omega
      rw [pdx0, pdx0, same]

theorem visited_split {middle : Nat} (lower : start ≤ middle) (upper : middle ≤ stop) (d1 d0 : Fin 512) :
    Visited start middle d1 d0 ∨ Visited middle stop d1 d0 ↔ Visited start stop d1 d0 := by
  constructor
  · rintro (⟨la, first, before, isDir⟩ | ⟨la, first, before, isDir⟩)
    · exact ⟨la, first, by omega, isDir⟩
    · exact ⟨la, by omega, before, isDir⟩
  · rintro ⟨la, first, before, isDir⟩
    rcases Nat.lt_or_ge la middle with below | above
    · exact Or.inl ⟨la, first, below, isDir⟩
    · exact Or.inr ⟨la, above, before, isDir⟩

/-- A table is met by a range when the range from the start of its first table meets it. -/
theorem visited_start (nonempty : start < stop) (d1 d0 : Fin 512) :
    Visited (start / ptsize * ptsize) stop d1 d0 ↔ Visited start stop d1 d0 := by
  constructor
  · rintro ⟨la, first, before, rfl, rfl⟩
    rcases Nat.lt_or_ge la start with below | above
    · have same : start / ptsize = la / ptsize := by
        simp only [ptsize, pgsize] at *
        omega
      exact ⟨start, Nat.le_refl _, nonempty, same_table same⟩
    · exact ⟨la, above, before, rfl, rfl⟩
  · rintro ⟨la, first, before, isDir⟩
    exact ⟨la, Nat.le_trans (Nat.div_mul_le_self start ptsize) first, before, isDir⟩

/-- The rest of a gigabyte and what follows it are below different entries. -/
theorem visited_apart (aligned1 : d1start % pdsize = 0) (low : d1start ≤ d0start) (small : stop ≤ vaSize) (d1 d0 d0' : Fin 512)
    (here : Visited d0start (min (d1start + pdsize) stop) d1 d0) : ¬ Visited (d1start + pdsize) stop d1 d0' := by
  rintro ⟨la', lower', upper', same, _⟩
  obtain ⟨la, lower, upper, rfl, _⟩ := here
  have same := congrArg Fin.val same
  simp only [pdx1, Fin.ofNat, vaSize, pdsize, ptsize, pgsize] at *
  omega

/-- A range is the rest of a gigabyte and what follows it. -/
theorem visited_gigabyte (high : d0start ≤ d1start + pdsize) (d1 d0 : Fin 512) :
    Visited d0start (min (d1start + pdsize) stop) d1 d0 ∨ Visited (d1start + pdsize) stop d1 d0 ↔
      Visited d0start stop d1 d0 := by
  rcases Nat.le_total (d1start + pdsize) stop with further | done
  · rw [Nat.min_eq_left further]
    exact visited_split high further d1 d0
  · have nothing : ¬ Visited (d1start + pdsize) stop d1 d0 := by
      rintro ⟨la, lower, upper, _⟩
      omega
    rw [Nat.min_eq_right done]
    simp only [nothing, or_false]

theorem exitDir_exits (tree : Tree roots mem) (isRoot : pgdir ∈ roots) (aligned1 : d1start % pdsize = 0)
    (aligned0 : d0start % ptsize = 0) (low : d1start ≤ d0start) (high : d0start < d1start + pdsize)
    (inside : d0start < stop) : ∃ next dead, exitDir mem pgdir d1start d0start stop = some next ∧
      Exits roots pgdir (Visited d0start (min (d1start + pdsize) stop)) dead mem next := by
  have below : d0start < min (d1start + pdsize) stop := by omega
  have isVisited := visits_visited aligned1 aligned0 low (Nat.min_le_left _ stop) below
  rw [exitDir]
  cases isDir : mem.entry pgdir (pdx1 d1start) with
  | none =>
    refine ⟨mem, [], rfl, .refl tree fun d1 d0 here => ?_⟩
    rw [((isVisited d1 d0).mpr here).1]
    exact isDir
  | some pd0 =>
    have few : rounds d0start (min (d1start + pdsize) stop) ptsize ≤ 512 := by
      simp only [rounds, pdsize, ptsize, pgsize] at *
      omega
    have nonempty : ∃ d0, Visits d0start (rounds d0start (min (d1start + pdsize) stop) ptsize) d0 :=
      ⟨pdx0 d0start, ((isVisited (pdx1 d1start) (pdx0 d0start)).mpr
        ⟨d0start, Nat.le_refl _, below, pdx1_congr (by simp only [pdsize, ptsize, pgsize] at *; omega), rfl⟩).2⟩
    obtain ⟨middle, dead, valid, looped, exits, _, isValid⟩ :=
      @exitTables_exits mem pgdir pd0 _ true d0start (tree.ownsDir isRoot isDir) few
    simp only [looped, Option.bind_eq_bind, Option.bind_some, Bool.true_and]
    cases valid with
    | true =>
      have owns := exits.ownsDir (tree.ownsDir isRoot isDir)
      rw [if_pos rfl, freePage_release owns.inUse]
      exact ⟨_, _, rfl, (exits.exits_freed tree isRoot isDir (isValid.mp rfl) nonempty).congr isVisited⟩
    | false =>
      rw [if_neg (by decide)]
      have invalid := mt isValid.mpr (by decide)
      simp only [not_forall, not_not] at invalid
      obtain ⟨d0, here, none⟩ := invalid
      exact ⟨_, _, rfl, (exits.exits tree isRoot isDir ⟨d0, here, none⟩).congr isVisited⟩

/-- The outer loop visits the rest of the range, one gigabyte a round. -/
theorem exitDirs_exits (number : Nat) (tree : Tree roots mem) (isRoot : pgdir ∈ roots) (aligned1 : d1start % pdsize = 0)
    (aligned0 : d0start % ptsize = 0) (low : d1start ≤ d0start) (high : d0start < d1start + pdsize)
    (inside : d1start < stop → d0start < stop) (small : stop ≤ vaSize) (isNumber : number = rounds d1start stop pdsize) :
    ∃ next dead, exitDirs mem pgdir d1start d0start stop number = some next ∧
      Exits roots pgdir (Visited d0start stop) dead mem next := by
  induction number generalizing mem d1start d0start with
  | zero =>
    refine ⟨mem, [], rfl, .refl tree ?_⟩
    rintro d1 d0 ⟨la, first, before, _⟩
    simp only [rounds, pdsize, ptsize, pgsize] at *
    omega
  | succ number ih =>
    have isInside : d0start < stop := inside (by
      simp only [rounds, pdsize, ptsize, pgsize] at *
      omega)
    obtain ⟨middle, dead, called, first⟩ := @exitDir_exits roots mem pgdir stop d1start d0start tree isRoot aligned1 aligned0
      low high isInside
    obtain ⟨next, dead', rest, second⟩ := @ih middle (d1start + pdsize) (d1start + pdsize) first.tree
      (by rw [Nat.add_mod_right, aligned1])
      (by simp only [pdsize, ptsize, pgsize] at *; omega) (Nat.le_refl _) (Nat.lt_add_of_pos_right (by decide)) id
      (by simp only [rounds, pdsize, ptsize, pgsize] at *; omega)
    refine ⟨next, dead ++ dead', by rw [exitDirs, called, Option.bind_some, rest], ?_⟩
    refine (first.trans tree isRoot second (visited_apart aligned1 low small)).congr fun d1 d0 => ?_
    exact visited_gigabyte (Nat.le_of_lt high) d1 d0

/-- Tables are freed that have no valid entry, and every address keeps its page. -/
def FreesUnused (allocator : Nat → Option Nat) (pgdir : Nat) (mem next : Memory) : Prop :=
  (∃ dead, next.freed = mem.freed ++ dead ∧ ∀ page ∈ dead, next.EmptyTable page) ∧
  ∀ la, getPage allocator next pgdir la = getPage allocator mem pgdir la

/-- Every table of the second level that the range meets has an invalid entry there, or all its valid
entries are there and name empty tables. -/
def KeepsTables (mem : Memory) (pgdir start stop : Nat) : Prop := ∀ d1 d0 pd0, Visited start stop d1 d0 →
  mem.entry pgdir d1 = some pd0 → KeepsUsed (Visited start stop d1) mem pd0

/-- `exit_range` returns, and it frees unused tables only if and only if no table of the second level is
taken for unused. -/
theorem exit_range_exact (tree : Tree roots mem) (isRoot : pgdir ∈ roots) (aligned : start % pgsize = 0)
    (ends : stop % pgsize = 0) (access : UserRange start stop) :
    ∃ next, exitRange mem pgdir start stop = some next ∧
      (FreesUnused allocator pgdir mem next ↔ KeepsTables mem pgdir start stop) := by
  have nonempty := access.2.1
  have user := access.2.2
  obtain ⟨next, dead, called, exits⟩ := @exitDirs_exits roots mem pgdir stop (start / pdsize * pdsize)
    (start / ptsize * ptsize) (rounds (start / pdsize * pdsize) stop pdsize) tree isRoot (Nat.mul_mod_left ..)
    (Nat.mul_mod_left ..) (by simp only [pdsize, ptsize, pgsize]; omega) (by simp only [pdsize, ptsize, pgsize]; omega)
    (fun _ => Nat.lt_of_le_of_lt (Nat.div_mul_le_self start ptsize) nonempty) (Nat.le_trans user (by decide)) rfl
  have exits := exits.congr (visited_start nonempty)
  refine ⟨next, (if_pos ⟨aligned, ends, access⟩).trans called, ?_⟩
  rw [show KeepsTables mem pgdir start stop ↔ ∀ page ∈ dead, next.EmptyTable page from exits.safe.symm]
  constructor
  · rintro ⟨⟨dead', isFreed, empty⟩, _⟩
    rw [exits.freed, List.append_cancel_left_eq] at isFreed
    exact isFreed ▸ empty
  · intro empty
    refine ⟨⟨dead, exits.freed, empty⟩, fun la => ?_⟩
    rw [getPage_mapped, getPage_mapped]
    exact exits.kept empty (pathOf la)

/-! ## Two tables below one entry -/

/-- Directory 0 has a table 1 of the second level, with the tables 2 and 3; page 4 is mapped by table 3. -/
def twoTables : Memory where
  table := fun table index =>
    if table = 0 ∧ index.val = 0 then pteCreate 1 (pteU ||| pteV)
    else if table = 1 ∧ index.val = 1 then pteCreate 2 (pteU ||| pteV)
    else if table = 1 ∧ index.val = 2 then pteCreate 3 (pteU ||| pteV)
    else if table = 3 ∧ index.val = 0 then pteCreate 4 (pteU ||| pteV)
    else .zero
  ref := fun _ => 1
  free := ∅
  calls := 0
  freed := []

theorem twoTables_entry {index : Fin 512} (names : twoTables.entry table index = some page) :
    table = 0 ∧ index = 0 ∧ page = 1 ∨ table = 1 ∧ index = 1 ∧ page = 2 ∨ table = 1 ∧ index = 2 ∧ page = 3 ∨
      table = 3 ∧ index = 0 ∧ page = 4 := by
  unfold Memory.entry twoTables at names
  dsimp only at names
  repeat' split at names
  case isTrue here =>
    rw [page?_create] at names
    exact Or.inl ⟨here.1, Fin.ext here.2, (Option.some.inj names).symm⟩
  case isFalse.isTrue here =>
    rw [page?_create] at names
    exact Or.inr (Or.inl ⟨here.1, Fin.ext here.2, (Option.some.inj names).symm⟩)
  case isFalse.isFalse.isTrue here =>
    rw [page?_create] at names
    exact Or.inr (Or.inr (Or.inl ⟨here.1, Fin.ext here.2, (Option.some.inj names).symm⟩))
  case isFalse.isFalse.isFalse.isTrue here =>
    rw [page?_create] at names
    exact Or.inr (Or.inr (Or.inr ⟨here.1, Fin.ext here.2, (Option.some.inj names).symm⟩))
  case isFalse.isFalse.isFalse.isFalse =>
    rw [page?_zero] at names
    cases names

theorem twoTables_lastTable (isLast : twoTables.lastTable 0 d1 d0 = some pt) :
    d1 = 0 ∧ (d0 = 1 ∧ pt = 2 ∨ d0 = 2 ∧ pt = 3) := by
  obtain ⟨pd0, isDir, isLast⟩ := Option.bind_eq_some_iff.mp isLast
  have first := twoTables_entry isDir
  have second := twoTables_entry isLast
  omega

/-- Each table has the place that its number tells. -/
def twoPlaces : Nat → TablePlace
  | 0 => .root
  | 1 => .dir (pdx1 0)
  | 2 => .last (pdx1 0) (pdx0 ptsize)
  | _ => .last (pdx1 0) (pdx0 (2 * ptsize))

theorem twoTables_tables {place : TablePlace} (names : twoTables.tables {0} pgdir place = some table) :
    pgdir = 0 ∧ place = twoPlaces table ∧ table < 4 := by
  have isRoot := isRoot_of_tables names
  obtain rfl : pgdir = 0 := Finset.mem_singleton.mp isRoot
  refine ⟨rfl, ?_⟩
  cases place with
  | root =>
    rw [tables_root isRoot] at names
    cases names
    exact ⟨rfl, by decide⟩
  | dir d1 =>
    rw [tables_dir isRoot] at names
    obtain ⟨_, rfl, rfl⟩ | ⟨impossible, _⟩ | ⟨impossible, _⟩ | ⟨impossible, _⟩ := twoTables_entry names
    · exact ⟨rfl, by decide⟩
    all_goals cases impossible
  | last d1 d0 =>
    rw [tables_last isRoot] at names
    obtain ⟨rfl, ⟨rfl, rfl⟩ | ⟨rfl, rfl⟩⟩ := twoTables_lastTable names
    · exact ⟨rfl, by decide⟩
    · exact ⟨rfl, by decide⟩

theorem twoTables_tree : Tree {0} twoTables where
  owned := by
    intro pgdir
    constructor
    case inUse => exact fun place table _ => Finset.notMem_empty table
    case once => exact fun place other table first second =>
      (twoTables_tables first).2.1.trans (twoTables_tables second).2.1.symm
    case apart =>
      rintro place table names ⟨other, different, place', names'⟩
      exact different ((twoTables_tables names').1.trans (twoTables_tables names).1.symm)
    case framed => exact fun table _ => Finset.notMem_empty table
  mapped := by
    intro pgdir isRoot path page names
    refine ⟨Finset.notMem_empty page, fun ⟨other, place, isTable⟩ => ?_⟩
    obtain rfl : pgdir = 0 := Finset.mem_singleton.mp isRoot
    rw [mapped_lookup] at names
    obtain ⟨pt, isLast, isPage⟩ := Option.bind_eq_some_iff.mp names
    have last := twoTables_lastTable isLast
    have entry := twoTables_entry isPage
    have small := (twoTables_tables isTable).2.2
    omega

/-- The range reaches a third entry, which has no table, so the table of the second level stays. -/
theorem exit_range_exact_third : ∃ next, exitRange twoTables 0 0x200000 0x800000 = some next ∧
    FreesUnused some 0 twoTables next := by
  obtain ⟨next, called, exact⟩ := @exit_range_exact {0} some twoTables 0 0x200000 0x800000 twoTables_tree
    (Finset.mem_singleton_self 0) (by decide) (by decide) (by decide)
  refine ⟨next, called, exact.mpr fun d1 d0 pd0 here isDir => Or.inl ⟨3, ?_, ?_⟩⟩
  · obtain ⟨_, rfl, rfl⟩ | ⟨impossible, _⟩ | ⟨impossible, _⟩ | ⟨impossible, _⟩ := twoTables_entry isDir
    · exact ⟨0x600000, by decide, by decide, by decide, by decide⟩
    all_goals cases impossible
  · obtain ⟨_, rfl, rfl⟩ | ⟨impossible, _⟩ | ⟨impossible, _⟩ | ⟨impossible, _⟩ := twoTables_entry isDir
    · decide
    all_goals cases impossible

/-- The range has one table, which is empty. With it goes the table of the second level, and page 4 is lost. -/
theorem used_table_freed : Tree {0} twoTables ∧ UserRange 0x200000 0x201000 ∧
    ∃ next, exitRange twoTables 0 0x200000 0x201000 = some next ∧ next.freed = [2, 1] ∧ ¬ next.EmptyTable 1 ∧
      getPage some twoTables 0 0x400000 = some 4 ∧ getPage some next 0 0x400000 = none ∧
      ¬ FreesUnused some 0 twoTables next := by
  have mapped : getPage some twoTables 0 0x400000 = some 4 := by decide
  have run : (exitRange twoTables 0 0x200000 0x201000).map
      (fun next => (next.freed, next.entry 1 2, getPage some next 0 0x400000)) = some ([2, 1], some 3, none) := by
    decide +kernel
  obtain ⟨next, called, result⟩ := Option.map_eq_some_iff.mp run
  injection result with isFreed rest
  injection rest with stays lost
  refine ⟨twoTables_tree, by decide, next, called, isFreed, fun empty => ?_, mapped, lost, fun frees => ?_⟩
  · rw [empty 2] at stays
    cases stays
  · have same := frees.2 0x400000
    rw [mapped, lost] at same
    cases same

end Ucore.Paging
