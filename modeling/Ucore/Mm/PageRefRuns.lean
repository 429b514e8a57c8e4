import Ucore.Mm.PageRefs

/-!
# Runs on page tables

Pages are inserted and removed in any order, in any number of page directories. The
references of the pages stay exact, and a page is freed exactly when it loses its last
name, or when it has just been allocated and cannot be inserted.
-/

namespace Ucore.Paging

open Ownership Tally Transition

/-- The operations on page tables: those of a page, and an entry looked up with its tables,
and a page that the kernel takes. -/
inductive PageOperation where
  | insert (pgdir page la : Nat) (perm : BitVec 10)
  | remove (pgdir la : Nat)
  | unmap (pgdir start stop : Nat)
  | alloc (pgdir la : Nat) (perm : BitVec 10)
  | touch (pgdir la : Nat)
  | take

def pageStep (allocator : Nat → Option Nat) (mem : Memory) : PageOperation → Option Memory
  | .insert pgdir page la perm => (pageInsert allocator mem pgdir page la perm).map Prod.snd
  | .remove pgdir la => pageRemove allocator mem pgdir la
  | .unmap pgdir start stop => unmapRange allocator mem pgdir start stop
  | .alloc pgdir la perm => (pgdirAllocPage allocator mem pgdir la perm).map Prod.snd
  | .touch pgdir la => some (getPte allocator true mem pgdir la).2
  | .take => some (allocPage allocator mem).2

/-- Pages inserted are allocated and no tables; ranges are of whole user pages. -/
def PageLegal (roots : Finset Nat) (mem : Memory) : PageOperation → Prop
  | .insert pgdir page _ _ => pgdir ∈ roots ∧ page ∉ mem.free ∧ ¬ mem.IsTable roots page
  | .remove pgdir _ => pgdir ∈ roots
  | .unmap pgdir start stop =>
      pgdir ∈ roots ∧ start % pgsize = 0 ∧ stop % pgsize = 0 ∧ UserRange start stop
  | .alloc pgdir _ _ => pgdir ∈ roots
  | .touch pgdir _ => pgdir ∈ roots
  | .take => True

/-- The page is allocated by `pgdir_alloc_page`, which then fails to insert it. -/
def FailsToInsert (allocator : Nat → Option Nat) (mem : Memory) (operation : PageOperation) (page : Nat) : Prop :=
  ∃ pgdir la perm next, operation = .alloc pgdir la perm ∧ (allocPage allocator mem).1 = some page ∧
    pgdirAllocPage allocator mem pgdir la perm = some (none, next)

/-- At the start nothing is mapped: the directories are empty and no page has references. -/
structure Starts (roots : Finset Nat) (mem : Memory) : Prop where
  empty : ∀ pgdir ∈ roots, ∀ index, mem.table pgdir index = .zero
  taken : ∀ pgdir ∈ roots, pgdir ∉ mem.free
  refs : ∀ page, page ∉ roots → mem.ref page = 0

variable {roots : Finset Nat} {allocator : Nat → Option Nat} {start mem middle next : Memory} {page pgdir la : Nat}
variable {dead : List Nat} {operation : PageOperation}

theorem Starts.counted (starts : Starts roots mem) : Counted roots mem := by
  have noEntry : ∀ pgdir ∈ roots, ∀ index, mem.entry pgdir index = none := by
    intro pgdir isRoot index
    rw [Memory.entry, starts.empty pgdir isRoot index, page?_zero]
  have noLast : ∀ pgdir ∈ roots, ∀ d1 d0, mem.lastTable pgdir d1 d0 = none := by
    intro pgdir isRoot d1 d0
    rw [Memory.lastTable, noEntry pgdir isRoot]
    rfl
  have noLeaf : ∀ pgdir ∈ roots, ∀ path, mem.leaf pgdir path = .zero := fun pgdir isRoot path =>
    leaf_none (noLast pgdir isRoot path.1 path.2.1) path.2.2
  have unmapped : ∀ pgdir ∈ roots, ∀ path page, mem.mapped pgdir path ≠ some page := by
    intro pgdir isRoot path page names
    rw [Memory.mapped, noLeaf pgdir isRoot, page?_zero] at names
    cases names
  have onlyRoots : ∀ pgdir place table, mem.tables roots pgdir place = some table →
      place = .root ∧ table = pgdir ∧ pgdir ∈ roots := by
    intro pgdir place table names
    have isRoot := isRoot_of_tables names
    cases place with
    | root =>
      rw [tables_root isRoot] at names
      exact ⟨rfl, (Option.some.inj names).symm, isRoot⟩
    | dir d1 =>
      rw [tables_dir isRoot, noEntry pgdir isRoot] at names
      cases names
    | last d1 d0 =>
      rw [tables_last isRoot, noLast pgdir isRoot] at names
      cases names
  constructor
  case toTree =>
    constructor
    case owned =>
      intro pgdir
      constructor
      case inUse =>
        intro place table names
        obtain ⟨_, rfl, isRoot⟩ := onlyRoots pgdir place table names
        exact starts.taken table isRoot
      case once =>
        intro place other table first second
        exact (onlyRoots pgdir place table first).1.trans (onlyRoots pgdir other table second).1.symm
      case apart =>
        rintro place table names ⟨other, different, place', names'⟩
        exact different ((onlyRoots other place' table names').2.1.symm.trans (onlyRoots pgdir place table names).2.1)
      case framed =>
        rintro table ⟨other, _, place, names⟩
        obtain ⟨_, rfl, isRoot⟩ := onlyRoots other place table names
        exact starts.taken table isRoot
    case mapped => exact fun pgdir isRoot path page names => absurd names (unmapped pgdir isRoot path page)
  case refs =>
    intro page notTable
    have notRoot : page ∉ roots := fun isRoot => notTable ⟨page, .root, tables_root isRoot⟩
    rw [starts.refs page notRoot, count_eq_zero.mpr fun pgdir isRoot path => unmapped pgdir isRoot path page]
    rfl
  case clean => exact fun pgdir isRoot path _ => noLeaf pgdir isRoot path

/-! ## Single steps -/

/-- The references stay exact, and pages are freed that lost their last name, or that have
been allocated in vain. -/
structure Frees (roots : Finset Nat) (vain : Nat → Prop) (dead : List Nat) (mem next : Memory) : Prop where
  counted : Counted roots next
  freed : next.freed = mem.freed ++ dead
  nodup : dead.Nodup
  exact : ∀ page, page ∈ dead ↔ 0 < count roots mem page ∧ count roots next page = 0 ∨ vain page

/-- Nothing is freed while no entry changes. -/
theorem Frees.same (counted : Counted roots next) (sameCount : ∀ page, count roots next page = count roots mem page)
    (sameFreed : next.freed = mem.freed) : Frees roots (fun _ => False) [] mem next where
  counted := counted
  freed := sameFreed.trans (List.append_nil _).symm
  nodup := List.nodup_nil
  exact := by
    intro page
    rw [sameCount]
    simp only [List.not_mem_nil, or_false, false_iff]
    omega

theorem Grows.frees (grows : Grows roots pgdir la mem next) (counted : Counted roots mem) :
    Frees roots (fun _ => False) [] mem next :=
  .same (grows.isClean counted) (fun _ => count_congr grows.leaf) grows.freed

theorem Removes.frees {gone : Path → Prop} (removes : Removes roots pgdir gone dead mem next) :
    Frees roots (fun _ => False) dead mem next where
  counted := removes.counted
  freed := removes.freed
  nodup := removes.nodup
  exact := fun page => (removes.exact page).trans (or_false _).symm.to_iff

theorem Inserts.frees {pte : Pte} (inserts : Inserts roots pgdir la pte dead mem next) :
    Frees roots (fun _ => False) dead mem next where
  counted := inserts.counted
  freed := inserts.freed
  nodup := inserts.nodup
  exact := fun page => (inserts.exact page).trans (or_false _).symm.to_iff

/-- A page that the kernel takes is not mapped. -/
theorem Counted.taken (counted : Counted roots mem) (page : Nat) : Counted roots (mem.taken page) where
  owned := counted.owned.keep fun _ _ _ names isFree =>
    counted.toTree.inUse names (Finset.mem_of_mem_erase isFree)
  mapped := fun pgdir isRoot path other names =>
    ⟨fun isFree => (counted.mapped pgdir isRoot path other names).1 (Finset.mem_of_mem_erase isFree),
      (counted.mapped pgdir isRoot path other names).2⟩
  refs := counted.refs
  clean := counted.clean

theorem Counted.called {calls : Nat} (counted : Counted roots mem) : Counted roots { mem with calls } where
  owned := counted.owned
  mapped := counted.mapped
  refs := counted.refs
  clean := counted.clean

/-- A page that is not mapped and no table is given back. -/
theorem Counted.given (counted : Counted roots mem) (unmapped : count roots mem page = 0)
    (notTable : ¬ mem.IsTable roots page) :
    Counted roots { mem with free := insert page mem.free, freed := mem.freed ++ [page] } where
  owned := by
    refine counted.owned.keep fun pgdir place table names isFree => ?_
    rcases Finset.mem_insert.mp isFree with rfl | old
    · exact notTable ⟨pgdir, place, names⟩
    · exact counted.toTree.inUse names old
  mapped := by
    intro pgdir isRoot path other names
    obtain ⟨inUse, noTable⟩ := counted.mapped pgdir isRoot path other names
    refine ⟨fun isFree => ?_, noTable⟩
    rcases Finset.mem_insert.mp isFree with rfl | old
    · exact count_eq_zero.mp unmapped pgdir isRoot path names
    · exact inUse old
  refs := counted.refs
  clean := counted.clean

/-- `pgdir_alloc_page` maps a new page, or it gives it back. -/
theorem pgdirAllocPage_frees {perm : BitVec 10} (counted : Counted roots mem) (isRoot : pgdir ∈ roots) :
    ∃ result next dead, pgdirAllocPage allocator mem pgdir la perm = some (result, next) ∧
      Frees roots (fun page => result = none ∧ (allocPage allocator mem).1 = some page) dead mem next := by
  unfold pgdirAllocPage
  rcases allocPage_cases allocator mem with ⟨page, fresh, alloc⟩ | alloc
  · rw [alloc]
    have counted' := counted.taken page
    have inUse : page ∉ (mem.taken page).free := Finset.notMem_erase page mem.free
    have notTable : ¬ (mem.taken page).IsTable roots page := fun ⟨_, _, names⟩ => counted.toTree.inUse names fresh
    rcases @pageInsert_cases roots allocator _ pgdir page la perm counted' isRoot inUse notTable with
      ⟨next, failed, grows⟩ | ⟨next, dead, inserted, inserts, _⟩
    · have inUse' : page ∉ next.free := fun isFree => inUse ((grows.free page).mp isFree).1
      have notTable' : ¬ next.IsTable roots page := by
        rintro ⟨other, place, names⟩
        rcases grows.fresh other place page names with old | ⟨_, _, isFree⟩
        · exact notTable ⟨other, place, old⟩
        · exact inUse isFree
      have sameCount : ∀ other, count roots next other = count roots mem other := fun other =>
        @count_congr roots (mem.taken page) next other grows.leaf
      have unmapped : count roots next page = 0 := by
        rw [sameCount, counted.unmapped_free fresh]
      refine ⟨none, { next with free := insert page next.free, freed := next.freed ++ [page] }, [page], ?_, ?_⟩
      · simp only [failed, Option.bind_eq_bind, Option.bind_some, freePage, if_neg inUse']
        rfl
      · constructor
        case counted => exact (grows.isClean counted').given unmapped notTable'
        case freed => exact congrArg (· ++ [page]) grows.freed
        case nodup => exact List.nodup_singleton page
        case exact =>
          intro other
          have same : count roots { next with free := insert page next.free, freed := next.freed ++ [page] } other =
            count roots mem other := sameCount other
          rw [same, List.mem_singleton]
          constructor
          · rintro rfl
            exact Or.inr ⟨rfl, rfl⟩
          · rintro (⟨positive, none⟩ | ⟨_, isPage⟩)
            · omega
            · exact (Option.some.inj isPage).symm
    · refine ⟨some page, next, dead, ?_, ?_⟩
      · simp only [inserted, Option.bind_eq_bind, Option.bind_some]
        rfl
      · have frees := inserts.frees
        refine ⟨frees.counted, frees.freed, frees.nodup, fun other => (frees.exact other).trans ?_⟩
        simp only [reduceCtorEq, false_and]
        rfl
  · rw [alloc]
    refine ⟨none, _, [], rfl, counted.called, (List.append_nil _).symm, List.nodup_nil, fun other => ?_⟩
    have same : count roots { mem with calls := mem.calls + 1 } other = count roots mem other := rfl
    simp only [same, List.not_mem_nil, reduceCtorEq, and_false, or_false, false_iff]
    omega

/-- Every operation frees the pages that lose their last name, and those allocated in
vain. -/
theorem pageStep_frees (counted : Counted roots mem) (legal : PageLegal roots mem operation) :
    ∃ next dead, pageStep allocator mem operation = some next ∧
      Frees roots (FailsToInsert allocator mem operation) dead mem next := by
  have noAlloc : (∀ pgdir la perm, operation ≠ .alloc pgdir la perm) →
      ∀ page, FailsToInsert allocator mem operation page ↔ False := fun other page =>
    ⟨fun ⟨pgdir, la, perm, _, isAlloc, _⟩ => other pgdir la perm isAlloc, False.elim⟩
  cases operation with
  | insert pgdir page la perm =>
    obtain ⟨isRoot, inUse, notTable⟩ := legal
    rw [funext fun page => propext (noAlloc (by simp) page)]
    rcases @pageInsert_cases roots allocator _ pgdir page la perm counted isRoot inUse notTable with
      ⟨next, failed, grows⟩ | ⟨next, dead, inserted, inserts, _⟩
    · exact ⟨next, [], by rw [pageStep, failed]; rfl, grows.frees counted⟩
    · exact ⟨next, dead, by rw [pageStep, inserted]; rfl, inserts.frees⟩
  | remove pgdir la =>
    rw [funext fun page => propext (noAlloc (by simp) page)]
    cases isLast : mem.lastTable pgdir (pdx1 la) (pdx0 la) with
    | none =>
      have same : Grows roots pgdir la mem mem := .refl counted.toTree
      exact ⟨mem, [], by rw [pageStep, pageRemove, getPte_lookup, isLast]; rfl, same.frees counted⟩
    | some pt =>
      obtain ⟨next, dead, removed, removes⟩ := @pageRemovePte_removes roots mem pgdir pt _ _ (ptx la) counted legal isLast
      exact ⟨next, dead, by rw [pageStep, pageRemove, getPte_lookup, isLast]; exact removed, removes.frees⟩
  | unmap pgdir start stop =>
    rw [funext fun page => propext (noAlloc (by simp) page)]
    obtain ⟨isRoot, aligned, ends, access⟩ := legal
    obtain ⟨next, dead, unmapped, removes⟩ :=
      @unmapLoop_removes roots allocator mem pgdir start stop counted isRoot aligned ends access.2.1
    exact ⟨next, dead, (if_pos ⟨aligned, ends, access⟩).trans unmapped, removes.frees⟩
  | alloc pgdir la perm =>
    obtain ⟨result, next, dead, called, frees⟩ := @pgdirAllocPage_frees roots allocator mem pgdir la perm counted legal
    refine ⟨next, dead, by rw [pageStep, called]; rfl, frees.counted, frees.freed, frees.nodup, fun page => ?_⟩
    rw [frees.exact]
    refine or_congr_right ?_
    constructor
    · rintro ⟨rfl, isPage⟩
      exact ⟨pgdir, la, perm, next, rfl, isPage, called⟩
    · rintro ⟨_, _, _, after, isAlloc, isPage, failed⟩
      cases isAlloc
      rw [called] at failed
      cases failed
      exact ⟨rfl, isPage⟩
  | touch pgdir la =>
    rw [funext fun page => propext (noAlloc (by simp) page)]
    have grows := (@getPte_grows roots allocator mem _ pgdir la true _ counted.toTree legal rfl).1
    exact ⟨_, [], rfl, grows.frees counted⟩
  | take =>
    rw [funext fun page => propext (noAlloc (by simp) page)]
    refine ⟨_, [], rfl, ?_⟩
    rcases allocPage_cases allocator mem with ⟨page, fresh, alloc⟩ | alloc
    · rw [alloc]
      exact .same (counted.taken page) (fun _ => rfl) rfl
    · rw [alloc]
      exact .same counted.called (fun _ => rfl) rfl

/-! ## Whole runs -/

theorem reached_counted (starts : Starts roots start)
    (reached : Reaches (pageStep allocator) (PageLegal roots) start mem) : Counted roots mem := by
  refine reached.invariant starts.counted fun _ _ next counted legal called => ?_
  obtain ⟨after, _, stepped, frees⟩ := @pageStep_frees _ allocator _ _ counted legal
  rw [stepped] at called
  cases called
  exact frees.counted

end Ucore.Paging
