import Mathlib.Data.Finset.Prod
import Ucore.Library.Transition
import Ucore.Mm.TableTree

/-!
# Page references

A page that is no table counts the entries of the last level that name it, in all page
directories. It is freed when the last of them goes.
-/

namespace Ucore.Paging

open Ownership Tally Transition

/-- The directories with all paths. -/
def positions {ι : Type} [Fintype ι] (roots : Finset Nat) : Finset (Nat × ι) := roots ×ˢ Finset.univ

theorem mem_positions {ι : Type} [Fintype ι] {roots : Finset Nat} {position : Nat × ι} :
    position ∈ positions roots ↔ position.1 ∈ roots := by
  simp [positions]

variable (roots : Finset Nat)

/-- The page that an entry of the last level names. -/
def Memory.named (mem : Memory) (position : Nat × Path) : Option Nat := mem.mapped position.1 position.2

/-- How many valid entries of the last level name a page. -/
def count (mem : Memory) (page : Nat) : Nat := tally (positions roots) mem.named page

/-- The pages count the entries that name them, and an entry that is not valid is 0. -/
structure Counted (mem : Memory) : Prop extends Tree roots mem where
  refs : ∀ page, ¬ mem.IsTable roots page → mem.ref page = count roots mem page
  clean : ∀ pgdir ∈ roots, ∀ path, mem.mapped pgdir path = none → mem.leaf pgdir path = .zero

variable {roots} {allocator : Nat → Option Nat} {mem middle next : Memory} {pgdir page la pt : Nat}
variable {d1 d0 index : Fin 512} {pte : Pte}

/-! ## An entry of the last level -/

theorem count_congr (same : ∀ pgdir ∈ roots, ∀ path, next.leaf pgdir path = mem.leaf pgdir path) :
    count roots next page = count roots mem page :=
  tally_congr fun position member => congrArg Pte.page? (same position.1 (mem_positions.mp member) position.2)

theorem count_eq_zero : count roots mem page = 0 ↔ ∀ pgdir ∈ roots, ∀ path, mem.mapped pgdir path ≠ some page := by
  refine tally_eq_zero.trans ?_
  constructor
  · exact fun none pgdir isRoot path => none (pgdir, path) (mem_positions.mpr isRoot)
  · exact fun none position member => none position.1 (mem_positions.mp member) position.2

theorem count_pos {path : Path} (isRoot : pgdir ∈ roots) (names : mem.mapped pgdir path = some page) :
    0 < count roots mem page :=
  Nat.pos_of_ne_zero fun none => count_eq_zero.mp none pgdir isRoot path names

theorem Counted.unmapped_table (counted : Counted roots mem) (isTable : mem.IsTable roots page) :
    count roots mem page = 0 :=
  count_eq_zero.mpr fun pgdir isRoot path names => (counted.mapped pgdir isRoot path page names).2 isTable

theorem Counted.unmapped_free (counted : Counted roots mem) (isFree : page ∈ mem.free) : count roots mem page = 0 :=
  count_eq_zero.mpr fun pgdir isRoot path names => (counted.mapped pgdir isRoot path page names).1 isFree

/-- Only the words of the tables matter. -/
theorem tables_of_table (same : next.table = mem.table) : next.tables roots = mem.tables roots := by
  obtain ⟨table, ref, free, calls, freed⟩ := next
  cases same
  rfl

theorem leaf_of_table {path : Path} (same : next.table = mem.table) : next.leaf pgdir path = mem.leaf pgdir path := by
  obtain ⟨table, ref, free, calls, freed⟩ := next
  cases same
  rfl

theorem OnePlace.tables_setPte (once : OnePlace roots mem) (isRoot : pgdir ∈ roots) (isLast : mem.lastTable pgdir d1 d0 = some pt) :
    (mem.setPte pt index pte).tables roots = mem.tables roots := by
  apply tables_congr
  intro other place table index' upper names
  rw [entry_setPte, if_neg]
  rintro ⟨rfl, _⟩
  obtain ⟨_, rfl⟩ := once _ _ _ _ _ names ((tables_last isRoot).trans isLast)
  exact upper

theorem OnePlace.leaf_setPte (once : OnePlace roots mem) (isRoot : pgdir ∈ roots) (isLast : mem.lastTable pgdir d1 d0 = some pt)
    {other : Nat} (isOther : other ∈ roots) (path : Path) : (mem.setPte pt index pte).leaf other path =
      if other = pgdir ∧ path = (d1, d0, index) then pte else mem.leaf other path := by
  have sameTables : (mem.setPte pt index pte).tables roots = _ := once.tables_setPte isRoot isLast
  by_cases here : other = pgdir ∧ path = (d1, d0, index)
  · obtain ⟨rfl, rfl⟩ := here
    have sameLast : (mem.setPte pt index pte).lastTable other d1 d0 = some pt := by
      rw [← tables_last isRoot, sameTables, tables_last isRoot, isLast]
    rw [if_pos ⟨rfl, rfl⟩, leaf_table sameLast]
    simp [Memory.setPte]
  · rw [if_neg here]
    apply leaf_congr isOther sameTables
    intro pt' isLast'
    by_cases sameTable : pt' = pt
    · subst sameTable
      obtain ⟨rfl, samePlace⟩ :=
        once _ _ _ _ _ ((tables_last isOther).trans isLast') ((tables_last isRoot).trans isLast)
      obtain ⟨e1, e0, t⟩ := path
      cases samePlace
      have different : t ≠ index := fun same => here ⟨rfl, by rw [same]⟩
      simp [Memory.setPte, different]
    · rw [table_setPte pt' sameTable]

/-- An entry of the last level changes. -/
structure Sets (roots : Finset Nat) (pgdir : Nat) (path : Path) (pte : Pte) (mem next : Memory) : Prop where
  tables : next.tables roots = mem.tables roots
  leaf : ∀ other ∈ roots, ∀ path', next.leaf other path' =
    if other = pgdir ∧ path' = path then pte else mem.leaf other path'

theorem OnePlace.sets (once : OnePlace roots mem) (isRoot : pgdir ∈ roots) (isLast : mem.lastTable pgdir d1 d0 = some pt)
    (same : next.table = (mem.setPte pt index pte).table) : Sets roots pgdir (d1, d0, index) pte mem next where
  tables := by
    rw [← once.tables_setPte isRoot isLast, tables_of_table same]
  leaf := fun other isOther path' => (leaf_of_table same).trans (once.leaf_setPte isRoot isLast isOther path')

variable {path : Path}

theorem Sets.isTable (sets : Sets roots pgdir path pte mem next) : next.IsTable roots page ↔ mem.IsTable roots page := by
  rw [Memory.IsTable, Memory.IsTable, sets.tables]

/-- The old page loses a name, and the new one gains one. -/
theorem Sets.changes (sets : Sets roots pgdir path pte mem next) (isRoot : pgdir ∈ roots) (page : Nat) :
    count roots next page + hit (mem.mapped pgdir path) page = count roots mem page + hit pte.page? page := by
  have others : ∀ position ∈ positions roots, position ≠ (pgdir, path) → next.named position = mem.named position := by
    intro position member different
    rw [Memory.named, Memory.mapped, sets.leaf _ (mem_positions.mp member), if_neg]
    · rfl
    · exact fun same => different (Prod.ext same.1 same.2)
  have here : next.named (pgdir, path) = pte.page? := by
    rw [Memory.named, Memory.mapped, sets.leaf _ isRoot, if_pos ⟨rfl, rfl⟩]
  have member : (pgdir, path) ∈ positions roots := mem_positions.mpr isRoot
  rw [← here]
  exact tally_change_on member others

/-- The references follow an entry that changes, when pages are freed that are named no more. -/
theorem Sets.counted (sets : Sets roots pgdir path pte mem next) (counted : Counted roots mem) (isRoot : pgdir ∈ roots)
    (isRef : ∀ page, ¬ mem.IsTable roots page →
      next.ref page + hit (mem.mapped pgdir path) page = mem.ref page + hit pte.page? page)
    (isFree : ∀ page, page ∈ next.free ↔
      page ∈ mem.free ∨ 0 < count roots mem page ∧ count roots next page = 0)
    (isPage : ∀ page, pte.page? = some page → page ∉ mem.free ∧ ¬ mem.IsTable roots page)
    (isClean : pte.page? = none → pte = .zero) : Counted roots next := by
  have notFree : ∀ page, page ∉ mem.free → (count roots mem page = 0 ∨ 0 < count roots next page) →
      page ∉ next.free := by
    intro page old kept isNext
    rcases (isFree page).mp isNext with isOld | ⟨some, none⟩
    · exact old isOld
    · omega
  constructor
  case toTree =>
    constructor
    case owned =>
      rw [sets.tables]
      refine counted.owned.keep fun other place table names => ?_
      exact notFree table (counted.toTree.inUse names) (Or.inl (counted.unmapped_table ⟨other, place, names⟩))
    case mapped =>
      intro other isOther path' page names
      rw [sets.isTable]
      have isNamed : 0 < count roots next page := count_pos isOther names
      rw [Memory.mapped, sets.leaf other isOther path'] at names
      split at names
      · obtain ⟨old, notTable⟩ := isPage page names
        exact ⟨notFree page old (Or.inr isNamed), notTable⟩
      · obtain ⟨old, notTable⟩ := counted.mapped other isOther path' page names
        exact ⟨notFree page old (Or.inr isNamed), notTable⟩
  case refs =>
    intro page notTable
    rw [sets.isTable] at notTable
    have changed := sets.changes isRoot page
    have before := counted.refs page notTable
    have after := isRef page notTable
    omega
  case clean =>
    intro other isOther path' silent
    rw [Memory.mapped, sets.leaf other isOther path'] at silent
    rw [sets.leaf other isOther path']
    split
    · rename_i here
      rw [if_pos here] at silent
      exact isClean silent
    · rename_i notHere
      rw [if_neg notHere] at silent
      exact counted.clean other isOther path' silent

/-! ## Removing pages -/

variable (roots) in
/-- Entries of the last level are cleared, and the pages that they were the last to name are
freed. -/
structure Removes (pgdir : Nat) (gone : Path → Prop) (dead : List Nat) (mem next : Memory) : Prop where
  counted : Counted roots next
  tables : next.tables roots = mem.tables roots
  cleared : ∀ path, gone path → next.leaf pgdir path = .zero
  kept : ∀ other ∈ roots, ∀ path, other ≠ pgdir ∨ ¬ gone path → next.leaf other path = mem.leaf other path
  free : ∀ page, page ∈ next.free ↔ page ∈ mem.free ∨ page ∈ dead
  freed : next.freed = mem.freed ++ dead
  nodup : dead.Nodup
  exact : ∀ page, page ∈ dead ↔ 0 < count roots mem page ∧ count roots next page = 0

variable {gone gone' : Path → Prop} {dead dead' : List Nat}

theorem Removes.count_le (removes : Removes roots pgdir gone dead mem next) (isRoot : pgdir ∈ roots) (page : Nat) :
    count roots next page ≤ count roots mem page := by
  apply tally_mono
  rintro ⟨other, path⟩ member names
  by_cases isGone : other = pgdir ∧ gone path
  · obtain ⟨rfl, isGone⟩ := isGone
    rw [Memory.named, Memory.mapped, removes.cleared path isGone, page?_zero] at names
    cases names
  · rw [← names]
    refine congrArg Pte.page? (removes.kept other (mem_positions.mp member) path ?_).symm
    exact not_and_or.mp isGone

theorem Removes.refl (counted : Counted roots mem) (nothing : ∀ path, gone path → mem.leaf pgdir path = .zero) :
    Removes roots pgdir gone [] mem mem where
  counted := counted
  tables := rfl
  cleared := nothing
  kept := fun _ _ _ _ => rfl
  free := fun page => by simp
  freed := (List.append_nil _).symm
  nodup := List.nodup_nil
  exact := fun page => by
    simp only [List.not_mem_nil, false_iff]
    omega

theorem Removes.trans (isRoot : pgdir ∈ roots) (first : Removes roots pgdir gone dead mem middle)
    (second : Removes roots pgdir gone' dead' middle next) :
    Removes roots pgdir (fun path => gone path ∨ gone' path) (dead ++ dead') mem next where
  counted := second.counted
  tables := second.tables.trans first.tables
  cleared := by
    intro path isGone
    by_cases later : gone' path
    · exact second.cleared path later
    · rw [second.kept pgdir isRoot path (Or.inr later)]
      exact first.cleared path (isGone.resolve_right later)
  kept := by
    intro other isOther path isKept
    rw [second.kept other isOther path (isKept.imp_right fun kept later => kept (Or.inr later))]
    exact first.kept other isOther path (isKept.imp_right fun kept earlier => kept (Or.inl earlier))
  free := by
    intro page
    rw [second.free, first.free, List.mem_append, or_assoc]
  freed := by
    rw [second.freed, first.freed, List.append_assoc]
  nodup := by
    refine List.nodup_append'.mpr ⟨first.nodup, second.nodup, fun page inFirst inSecond => ?_⟩
    have none := ((first.exact page).mp inFirst).2
    have some := ((second.exact page).mp inSecond).1
    omega
  exact := by
    intro page
    have fewer := first.count_le isRoot page
    have fewer' := second.count_le isRoot page
    rw [List.mem_append, first.exact, second.exact]
    omega

theorem Removes.congr (removes : Removes roots pgdir gone dead mem next) (same : ∀ path, gone path ↔ gone' path) :
    Removes roots pgdir gone' dead mem next := by
  rwa [← funext fun path => propext (same path)]

/-- A page loses a reference and its entry is cleared. -/
def Memory.drop (mem : Memory) (pt : Nat) (index : Fin 512) (page : Nat) : Memory :=
  ({ mem with
    ref := Function.update mem.ref page (mem.ref page - 1)
    free := if mem.ref page = 1 then insert page mem.free else mem.free
    freed := if mem.ref page = 1 then mem.freed ++ [page] else mem.freed } : Memory).setPte pt index .zero

theorem drop_freed (mem : Memory) (pt : Nat) (index : Fin 512) (page : Nat) :
    (mem.drop pt index page).freed = mem.freed ++ if mem.ref page = 1 then [page] else [] := by
  by_cases isLast : mem.ref page = 1
  · simp [Memory.drop, Memory.setPte, isLast]
  · simp [Memory.drop, Memory.setPte, isLast]

theorem mem_drop_free (mem : Memory) (pt : Nat) (index : Fin 512) (page : Nat) {other : Nat} :
    other ∈ (mem.drop pt index page).free ↔ other ∈ mem.free ∨ other ∈ if mem.ref page = 1 then [page] else [] := by
  by_cases isLast : mem.ref page = 1
  · simp [Memory.drop, Memory.setPte, isLast, or_comm]
  · simp [Memory.drop, Memory.setPte, isLast]

theorem pageRemovePte_exact (names : mem.entry pt index = some page) (inUse : page ∉ mem.free) :
    pageRemovePte mem pt index = some (mem.drop pt index page) := by
  unfold pageRemovePte
  rw [names]
  by_cases isLast : mem.ref page = 1
  · have zero : (mem.addRef page (-1)).ref page = 0 := by
      simp [Memory.addRef, isLast]
    have notFree : page ∉ (mem.addRef page (-1)).free := inUse
    simp only [if_pos zero, freePage, if_neg notFree, Memory.drop, if_pos isLast]
    rfl
  · have nonzero : (mem.addRef page (-1)).ref page ≠ 0 := by
      simp only [Memory.addRef, Function.update_self]
      omega
    simp only [if_neg nonzero, Memory.drop, if_neg isLast]
    rfl

theorem entry_leaf (isLast : mem.lastTable pgdir d1 d0 = some pt) (index : Fin 512) :
    mem.entry pt index = mem.mapped pgdir (d1, d0, index) := by
  rw [Memory.entry, Memory.mapped, leaf_table isLast]

/-- `page_remove_pte` clears the entry. -/
theorem pageRemovePte_removes (counted : Counted roots mem) (isRoot : pgdir ∈ roots)
    (isLast : mem.lastTable pgdir d1 d0 = some pt) : ∃ next dead, pageRemovePte mem pt index = some next ∧
      Removes roots pgdir (· = (d1, d0, index)) dead mem next := by
  have isEntry := entry_leaf isLast index
  cases isMapped : mem.mapped pgdir (d1, d0, index) with
  | none =>
    refine ⟨mem, [], ?_, .refl counted ?_⟩
    · rw [pageRemovePte, isEntry, isMapped]
    · rintro path rfl
      exact counted.clean pgdir isRoot _ isMapped
  | some page =>
    obtain ⟨inUse, notTable⟩ := counted.mapped pgdir isRoot _ page isMapped
    have isRef := counted.refs page notTable
    have sets : Sets roots pgdir (d1, d0, index) .zero mem (mem.drop pt index page) :=
      counted.toTree.onePlace.sets isRoot isLast rfl
    have counts := sets.changes isRoot
    rw [isMapped, page?_zero] at counts
    have positive : 0 < count roots mem page := count_pos isRoot isMapped
    have isDead : ∀ other, 0 < count roots mem other ∧ count roots (mem.drop pt index page) other = 0 ↔
        mem.ref page = 1 ∧ other = page := by
      intro other
      have changed := counts other
      rw [hit_none, hit_some] at changed
      by_cases same : page = other
      · subst same
        rw [if_pos rfl] at changed
        omega
      · rw [if_neg same] at changed
        have different : other ≠ page := Ne.symm same
        omega
    refine ⟨_, if mem.ref page = 1 then [page] else [], pageRemovePte_exact (isEntry.trans isMapped) inUse, ?_⟩
    constructor
    case counted =>
      apply sets.counted counted isRoot
      · intro other _
        rw [isMapped, page?_zero, hit_none, hit_some]
        by_cases same : page = other
        · subst same
          simp [Memory.drop, Memory.setPte]
        · simp [Memory.drop, Memory.setPte, same, Ne.symm same]
      · intro other
        rw [isDead, mem_drop_free]
        by_cases isLast : mem.ref page = 1
        · simp [isLast]
        · simp [isLast]
      · intro other names
        rw [page?_zero] at names
        cases names
      · exact fun _ => rfl
    case tables => exact sets.tables
    case cleared =>
      rintro path rfl
      rw [sets.leaf pgdir isRoot, if_pos ⟨rfl, rfl⟩]
    case kept =>
      intro other isOther path isKept
      rw [sets.leaf other isOther, if_neg fun same => isKept.elim (absurd same.1) (absurd same.2)]
    case free => exact fun other => mem_drop_free ..
    case freed => exact drop_freed ..
    case nodup =>
      split
      · exact List.nodup_singleton page
      · exact List.nodup_nil
    case exact =>
      intro other
      rw [isDead]
      by_cases isLast : mem.ref page = 1
      · simp [isLast]
      · simp [isLast]

/-! ## Ranges of addresses -/

/-- The paths of the addresses of a range. -/
def InRange (start stop : Nat) (path : Path) : Prop := ∃ la, start ≤ la ∧ la < stop ∧ pathOf la = path

/-- Addresses below one table of the last level. -/
theorem same_table {other : Nat} (same : la / ptsize = other / ptsize) : pdx1 la = pdx1 other ∧ pdx0 la = pdx0 other := by
  have upper : ∀ la, la / pdsize = la / ptsize / 512 := by
    intro la
    rw [Nat.div_div_eq_div_mul, pdsize, Nat.mul_comm]
  rw [pdx1, pdx1, pdx0, pdx0, upper, upper, same]
  exact ⟨rfl, rfl⟩

/-- Addresses in one page. -/
theorem same_path {other : Nat} (same : la / pgsize = other / pgsize) : pathOf la = pathOf other := by
  have upper : ∀ la, la / ptsize = la / pgsize / 512 := by
    intro la
    rw [Nat.div_div_eq_div_mul, ptsize, Nat.mul_comm]
  have sameTable : la / ptsize = other / ptsize := by
    rw [upper, upper, same]
  obtain ⟨sameDir, sameLast⟩ := same_table sameTable
  rw [pathOf, pathOf, sameDir, sameLast, ptx, ptx, same]

theorem inRange_split {start stop middle : Nat} (lower : start ≤ middle) (upper : middle ≤ stop) (path : Path) :
    InRange start middle path ∨ InRange middle stop path ↔ InRange start stop path := by
  constructor
  · rintro (⟨la, first, last, isPath⟩ | ⟨la, first, last, isPath⟩)
    · exact ⟨la, first, Nat.lt_of_lt_of_le last upper, isPath⟩
    · exact ⟨la, Nat.le_trans lower first, last, isPath⟩
  · rintro ⟨la, first, last, isPath⟩
    rcases Nat.lt_or_ge la middle with before | behind
    · exact Or.inl ⟨la, first, before, isPath⟩
    · exact Or.inr ⟨la, behind, last, isPath⟩

/-- A page has one path. -/
theorem inRange_page {start : Nat} (aligned : start % pgsize = 0) (path : Path) :
    InRange start (start + pgsize) path ↔ path = pathOf start := by
  constructor
  · rintro ⟨la, first, last, rfl⟩
    apply same_path
    simp only [pgsize] at *
    omega
  · rintro rfl
    exact ⟨start, Nat.le_refl _, Nat.lt_add_of_pos_right (by decide), rfl⟩

/-- Below an entry of the second level without a table, nothing is mapped. -/
theorem inRange_empty {start stop : Nat} (empty : mem.lastTable pgdir (pdx1 start) (pdx0 start) = none)
    (short : stop ≤ (start + ptsize) / ptsize * ptsize) (path : Path) (inRange : InRange start stop path) :
    mem.leaf pgdir path = .zero := by
  obtain ⟨la, first, last, rfl⟩ := inRange
  have same : la / ptsize = start / ptsize := by
    simp only [ptsize, pgsize] at *
    omega
  obtain ⟨sameDir, sameLast⟩ := same_table same
  exact leaf_none (sameDir.symm ▸ sameLast.symm ▸ empty) _

/-- The loop of `unmap_range` clears the entries of the range. -/
theorem unmapLoop_removes {start stop : Nat} (counted : Counted roots mem) (isRoot : pgdir ∈ roots)
    (aligned : start % pgsize = 0) (ends : stop % pgsize = 0) (nonempty : start < stop) :
    ∃ next dead, unmapLoop allocator mem pgdir start stop = some next ∧
      Removes roots pgdir (InRange start stop) dead mem next := by
  induction rest : stop - start using Nat.strong_induction_on generalizing mem start with
  | h rest' ih =>
    subst rest
    rw [unmapLoop, getPte_lookup]
    cases isLast : mem.lastTable pgdir (pdx1 start) (pdx0 start) with
    | none =>
      simp only [Option.map_none]
      split
      · rename_i inside
        have behind : start < (start + ptsize) / ptsize * ptsize := next_gt (by decide)
        have aligned' : (start + ptsize) / ptsize * ptsize % pgsize = 0 := by
          simp only [ptsize, pgsize]
          omega
        obtain ⟨next, dead, unmapped, removes⟩ := ih _ (Nat.sub_lt_sub_left nonempty behind) counted aligned' inside rfl
        refine ⟨next, [] ++ dead, unmapped, ?_⟩
        have skips := Removes.refl counted (inRange_empty isLast (Nat.le_refl _))
        exact (skips.trans isRoot removes).congr (inRange_split (Nat.le_of_lt behind) (Nat.le_of_lt inside))
      · rename_i outside
        exact ⟨mem, [], rfl, .refl counted (inRange_empty isLast (Nat.not_lt.mp outside))⟩
    | some pt =>
      simp only [Option.map_some]
      obtain ⟨middle, dead, removed, removes⟩ : ∃ middle dead,
          (if mem.table pt (ptx start) ≠ .zero then pageRemovePte mem pt (ptx start) else some mem) = some middle ∧
          Removes roots pgdir (· = pathOf start) dead mem middle := by
        split
        · exact pageRemovePte_removes counted isRoot isLast
        · rename_i isZero
          refine ⟨mem, [], rfl, .refl counted ?_⟩
          rintro path' rfl
          exact (leaf_table isLast _).trans (not_not.mp isZero)
      rw [removed, Option.bind_some]
      have page := removes.congr fun path => (inRange_page aligned path).symm
      split
      · rename_i inside
        have aligned' : (start + pgsize) % pgsize = 0 := by
          rw [Nat.add_mod_right, aligned]
        have behind : start < start + pgsize := Nat.lt_add_of_pos_right (by decide)
        obtain ⟨next, dead', unmapped, removes'⟩ :=
          ih _ (Nat.sub_lt_sub_left nonempty behind) removes.counted aligned' inside rfl
        refine ⟨next, dead ++ dead', unmapped, ?_⟩
        exact (page.trans isRoot removes').congr (inRange_split (Nat.le_of_lt behind) (Nat.le_of_lt inside))
      · rename_i outside
        have isEnd : stop = start + pgsize := by
          simp only [pgsize] at *
          omega
        exact ⟨middle, dead, rfl, isEnd ▸ page⟩

/-! ## Inserting pages -/

theorem Grows.isClean (grows : Grows roots pgdir la mem next) (counted : Counted roots mem) : Counted roots next where
  toTree := grows.tree
  refs := by
    intro page notTable
    rw [grows.ref page notTable, counted.refs page (mt grows.isTable notTable)]
    congr 1
    exact (count_congr grows.leaf).symm
  clean := by
    intro other isOther path silent
    rw [Memory.mapped, grows.leaf other isOther path] at silent
    rw [grows.leaf other isOther path]
    exact counted.clean other isOther path silent

/-- The entry of an address names a page, and the page named before is freed if that was its
last name. -/
structure Inserts (roots : Finset Nat) (pgdir la : Nat) (pte : Pte) (dead : List Nat) (mem next : Memory) : Prop where
  counted : Counted roots next
  leaf : ∀ other ∈ roots, ∀ path, next.leaf other path =
    if other = pgdir ∧ path = pathOf la then pte else mem.leaf other path
  persists : ∀ other place page, mem.tables roots other place = some page → next.tables roots other place = some page
  fresh : ∀ other place page, next.tables roots other place = some page →
    mem.tables roots other place = some page ∨ other = pgdir ∧ OnWay la place ∧ page ∈ mem.free
  freed : next.freed = mem.freed ++ dead
  nodup : dead.Nodup
  exact : ∀ page, page ∈ dead ↔ 0 < count roots mem page ∧ count roots next page = 0

theorem setPte_setPte (mem : Memory) (pt : Nat) (index : Fin 512) (first second : Pte) :
    (mem.setPte pt index first).setPte pt index second = mem.setPte pt index second := by
  simp [Memory.setPte]

/-- What `page_insert` does to the entry that it found: the references and the freed pages,
by the page named before. -/
theorem replacePte_exact (old : Option Nat) (isEntry : mem.entry pt index = old)
    (inUse : ∀ other, old = some other → other ∉ mem.free) :
    ∃ next, (if (mem.addRef page 1).entry pt index = some page then some ((mem.addRef page 1).addRef page (-1))
        else pageRemovePte (mem.addRef page 1) pt index) = some next ∧
      (next.setPte pt index pte).table = (mem.setPte pt index pte).table ∧
      (∀ other, next.ref other + hit old other = mem.ref other + hit (some page) other) ∧
      ∃ dead, next.freed = mem.freed ++ dead ∧ dead.Nodup ∧
        (∀ other, other ∈ next.free ↔ other ∈ mem.free ∨ other ∈ dead) ∧
        ∀ other, other ∈ dead ↔ old = some other ∧ other ≠ page ∧ mem.ref other = 1 := by
  have isEntry' : (mem.addRef page 1).entry pt index = old := isEntry
  rw [isEntry']
  cases old with
  | none =>
    have kept : pageRemovePte (mem.addRef page 1) pt index = some (mem.addRef page 1) := by
      rw [pageRemovePte, isEntry']
    refine ⟨_, (if_neg (by simp)).trans kept, rfl, ?_, [], (List.append_nil _).symm, List.nodup_nil, ?_, ?_⟩
    · intro other
      by_cases same : page = other
      · simp [Memory.addRef, same]
      · simp [Memory.addRef, same, Ne.symm same]
    · exact fun other => by simp [Memory.addRef]
    · exact fun other => by simp
  | some named =>
    by_cases same : named = page
    · subst same
      refine ⟨_, if_pos rfl, rfl, ?_, [], (List.append_nil _).symm, List.nodup_nil, ?_, ?_⟩
      · intro other
        by_cases here : named = other
        · simp [Memory.addRef, here]
        · simp [Memory.addRef, here]
      · exact fun other => by simp [Memory.addRef]
      · rintro other
        simp only [List.not_mem_nil, Option.some.injEq, ne_eq, false_iff, not_and]
        exact fun isNamed different => absurd isNamed.symm different
    · have notHere : ¬ some named = some page := fun equal => same (Option.some.inj equal)
      have notFree : named ∉ (mem.addRef page 1).free := inUse named rfl
      have sameRef : (mem.addRef page 1).ref named = mem.ref named := by
        simp [Memory.addRef, same]
      refine ⟨_, (if_neg notHere).trans (pageRemovePte_exact isEntry' notFree), ?_, ?_,
        if mem.ref named = 1 then [named] else [], ?_, ?_, ?_, ?_⟩
      · rw [Memory.drop, setPte_setPte]
        rfl
      · intro other
        rw [hit_some, hit_some]
        by_cases here : named = other
        · subst here
          simp [Memory.drop, Memory.setPte, sameRef, Ne.symm same]
        · by_cases isPage : page = other
          · simp [Memory.drop, Memory.setPte, Memory.addRef, here, Ne.symm here, isPage]
          · simp [Memory.drop, Memory.setPte, Memory.addRef, here, Ne.symm here, isPage, Ne.symm isPage]
      · rw [drop_freed, sameRef]
        rfl
      · split
        · exact List.nodup_singleton named
        · exact List.nodup_nil
      · intro other
        rw [mem_drop_free, sameRef]
        rfl
      · intro other
        by_cases isLast : mem.ref named = 1
        · simp only [if_pos isLast, List.mem_singleton, Option.some.injEq]
          constructor
          · rintro rfl
            exact ⟨rfl, same, isLast⟩
          · exact fun dead => dead.1.symm
        · simp only [if_neg isLast, List.not_mem_nil, Option.some.injEq, false_iff]
          rintro ⟨rfl, _, isOne⟩
          exact isLast isOne

/-- `page_insert` maps an allocated page, or it changes no entry of the last level. -/
theorem pageInsert_cases {perm : BitVec 10} (counted : Counted roots mem) (isRoot : pgdir ∈ roots)
    (inUse : page ∉ mem.free) (notTable : ¬ mem.IsTable roots page) :
    (∃ next, pageInsert allocator mem pgdir page la perm = some (-eNoMem, next) ∧ Grows roots pgdir la mem next) ∨
    ∃ next dead, pageInsert allocator mem pgdir page la perm = some (0, next) ∧
      Inserts roots pgdir la (pteCreate page (pteV ||| perm)) dead mem next ∧
      ∀ other, other ∈ next.free → other ∈ mem.free ∨ other ∈ dead := by
  cases found : getPte allocator true mem pgdir la with
  | mk result middle =>
    obtain ⟨grows, isFound⟩ := getPte_grows counted.toTree isRoot found
    have counted' := grows.isClean counted
    cases result with
    | none =>
      refine Or.inl ⟨middle, ?_, grows⟩
      rw [pageInsert, found]
    | some location =>
      obtain ⟨pt, index⟩ := location
      obtain ⟨rfl, isLast⟩ := isFound pt index rfl
      have inUse' : page ∉ middle.free := fun isFree => inUse ((grows.free page).mp isFree).1
      have notTable' : ¬ middle.IsTable roots page := by
        rintro ⟨other, place, names⟩
        rcases grows.fresh other place page names with old | ⟨_, _, isFree⟩
        · exact notTable ⟨other, place, old⟩
        · exact inUse isFree
      have isEntry := entry_leaf isLast (ptx la)
      obtain ⟨replaced, called, sameTable, isRef, dead, isFreed, nodup, isFree, isDead⟩ :=
        @replacePte_exact middle page pt (ptx la) (pteCreate page (pteV ||| perm)) _ isEntry fun other names =>
          (counted'.mapped pgdir isRoot _ other names).1
      have sets : Sets roots pgdir (pathOf la) (pteCreate page (pteV ||| perm)) middle
          (replaced.setPte pt (ptx la) (pteCreate page (pteV ||| perm))) :=
        counted'.toTree.onePlace.sets isRoot isLast sameTable
      have counts := sets.changes isRoot
      rw [page?_create] at counts
      -- the page named before is freed when its last name goes
      have deaths : ∀ other, other ∈ dead ↔ 0 < count roots middle other ∧
          count roots (replaced.setPte pt (ptx la) (pteCreate page (pteV ||| perm))) other = 0 := by
        intro other
        rw [isDead]
        have changed := counts other
        constructor
        · rintro ⟨isOld, different, isOne⟩
          have notTable := (counted'.mapped pgdir isRoot _ other isOld).2
          have isCount := counted'.refs other notTable
          rw [hit_some, if_neg (Ne.symm different), show middle.mapped pgdir (pathOf la) = some other from isOld,
            hit_some, if_pos rfl] at changed
          omega
        · rintro ⟨positive, none⟩
          have isOld : middle.mapped pgdir (pathOf la) = some other := by
            by_contra notOld
            rw [hit, if_neg notOld] at changed
            omega
          have different : other ≠ page := by
            rintro rfl
            rw [isOld] at changed
            omega
          have isCount := counted'.refs other (counted'.mapped pgdir isRoot _ other isOld).2
          rw [hit_some, if_neg (Ne.symm different), isOld, hit_some, if_pos rfl] at changed
          exact ⟨isOld, different, by omega⟩
      have sameCount : ∀ other, count roots middle other = count roots mem other := fun other => count_congr grows.leaf
      refine Or.inr ⟨replaced.setPte pt (ptx la) (pteCreate page (pteV ||| perm)), dead, ?_, ?_, ?_⟩
      · simp only [pageInsert, found, called, Option.map_some]
      · constructor
        case counted =>
          apply sets.counted counted' isRoot
          · intro other _
            rw [page?_create]
            exact isRef other
          · intro other
            rw [← deaths]
            exact isFree other
          · intro other names
            rw [page?_create] at names
            cases names
            exact ⟨inUse', notTable'⟩
          · intro silent
            rw [page?_create] at silent
            cases silent
        case leaf =>
          intro other isOther path
          rw [sets.leaf other isOther path, grows.leaf other isOther path]
        case persists =>
          intro other place page' names
          rw [sets.tables]
          exact grows.persists other place page' names
        case fresh =>
          intro other place page' names
          rw [sets.tables] at names
          exact grows.fresh other place page' names
        case freed => exact isFreed.trans (congrArg (· ++ dead) grows.freed)
        case nodup => exact nodup
        case exact =>
          intro other
          rw [deaths, sameCount]
      · intro other isNext
        rcases (isFree other).mp isNext with old | new
        · exact Or.inl ((grows.free other).mp old).1
        · exact Or.inr new

end Ucore.Paging
