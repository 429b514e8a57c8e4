import Ucore.Mm.ExitRange

/-!
# Freeing a whole address space

`exit_mmap` unmaps every area and then calls `exit_range` for every area, in the order of
the list. When the areas are unmapped, every table of the last level is empty, and the
first call that reaches it frees it. A table of the second level is freed by the first
area that finds tables at all its entries there. What tables it then still has are lost;
and if no area does, the table itself is.
-/

namespace Ucore.Paging

open Vmm

variable {roots : Finset Nat} {allocator : Nat → Option Nat} {mem middle next : Memory}
variable {pgdir pd0 page pt start stop : Nat} {d1 d0 : Fin 512} {dead dead' : List Nat}

/-- The entries of a table that name tables. -/
def Memory.Below (mem : Memory) (pd0 : Nat) (d0 : Fin 512) : Prop := mem.entry pd0 d0 ≠ none

/-- A range reaches a table of the second level, and finds a table at each entry. -/
def FindsTables (visited tables : Fin 512 → Prop) : Prop := (∃ d0, visited d0) ∧ ∀ d0, visited d0 → tables d0

/-- The tables of the last level are empty. -/
def Drained (pgdir : Nat) (mem : Memory) : Prop := ∀ d1 d0 pt, mem.lastTable pgdir d1 d0 = some pt → mem.EmptyTable pt

theorem Shrinks.drained (shrinks : Shrinks mem next) (drained : Drained pgdir mem) : Drained pgdir next := by
  intro d1 d0 pt isLast index
  cases names : next.entry pt index with
  | none => rfl
  | some page =>
    have before := shrinks pt index page names
    rw [drained d1 d0 pt (shrinks.lastTable isLast) index] at before
    cases before

/-! ## One call -/

/-- The tables visited below a directory are freed, and with them the tables of the second level that
have a table at each entry visited. -/
structure Drains (roots : Finset Nat) (pgdir : Nat) (visited : Fin 512 → Fin 512 → Prop) (dead : List Nat)
    (mem next : Memory) : Prop where
  tree : Tree roots next
  shrinks : Shrinks mem next
  free : ∀ page, page ∈ next.free ↔ page ∈ mem.free ∨ page ∈ dead
  freed : next.freed = mem.freed ++ dead
  distinct : dead.Nodup
  dir : ∀ d1 pd0, mem.entry pgdir d1 = some pd0 →
    (next.entry pgdir d1 = none ↔ FindsTables (visited d1) (mem.Below pd0))
  last : ∀ d1 pd0, next.entry pgdir d1 = some pd0 → ∀ d0,
    next.entry pd0 d0 = none ↔ visited d1 d0 ∨ mem.entry pd0 d0 = none
  exact : ∀ page, page ∈ dead ↔
    (∃ d1, mem.entry pgdir d1 = some page ∧ FindsTables (visited d1) (mem.Below page)) ∨
      ∃ d1 d0, visited d1 d0 ∧ mem.lastTable pgdir d1 d0 = some page

section Calls

variable {visited : Fin 512 → Prop} {visits visits' : Fin 512 → Fin 512 → Prop}

theorem Drains.congr (drains : Drains roots pgdir visits dead mem next) (same : ∀ d1 d0, visits d1 d0 ↔ visits' d1 d0) :
    Drains roots pgdir visits' dead mem next := by
  rwa [← funext fun d1 => funext fun d0 => propext (same d1 d0)]

theorem Drains.refl (tree : Tree roots mem) (nothing : ∀ d1 d0, visits d1 d0 → mem.entry pgdir d1 = none) :
    Drains roots pgdir visits [] mem mem := by
  have nowhere : ∀ {d1 pd0}, mem.entry pgdir d1 = some pd0 → ∀ d0, ¬ visits d1 d0 := by
    intro d1 pd0 isDir d0 here
    cases isDir.symm.trans (nothing d1 d0 here)
  constructor
  case tree => exact tree
  case shrinks => exact fun _ _ _ names => names
  case free => exact fun page => by simp
  case freed => exact (List.append_nil _).symm
  case distinct => exact List.nodup_nil
  case dir =>
    intro d1 pd0 isDir
    rw [isDir]
    exact ⟨fun isNone => (by cases isNone), fun finds => absurd finds.1.choose_spec (nowhere isDir _)⟩
  case last => exact fun d1 pd0 isDir d0 => by simp [nowhere isDir d0]
  case exact =>
    intro page
    simp only [List.not_mem_nil, false_iff, not_or, not_exists, not_and]
    refine ⟨fun d1 isDir finds => nowhere isDir _ finds.1.choose_spec, fun d1 d0 here isLast => ?_⟩
    obtain ⟨pd0, isDir, _⟩ := Option.bind_eq_some_iff.mp isLast
    exact nowhere isDir d0 here

/-- The inner loop clears every entry visited when the tables are empty. -/
theorem ExitsTables.entry_none (exits : ExitsTables pd0 visited dead mem next)
    (empty : ∀ d0 pt, mem.entry pd0 d0 = some pt → mem.EmptyTable pt) (d0 : Fin 512) :
    next.entry pd0 d0 = none ↔ visited d0 ∨ mem.entry pd0 d0 = none := by
  by_cases here : visited d0
  · simp only [here, true_or, iff_true]
    cases names : mem.entry pd0 d0 with
    | none => rw [exits.kept d0 (Or.inr fun pt isLast => by rw [names] at isLast; cases isLast), names]
    | some pt => exact exits.cleared d0 pt here names (empty d0 pt names)
  · rw [exits.kept d0 (Or.inl here)]
    simp only [here, false_or]

theorem ExitsTables.mem_dead (exits : ExitsTables pd0 visited dead mem next) (isDir : mem.entry pgdir d1 = some pd0)
    (empty : ∀ d0 pt, mem.entry pd0 d0 = some pt → mem.EmptyTable pt) (page : Nat) :
    page ∈ dead ↔ ∃ index d0, (index = d1 ∧ visited d0) ∧ mem.lastTable pgdir index d0 = some page := by
  rw [exits.exact]
  constructor
  · rintro ⟨d0, here, names, _⟩
    exact ⟨d1, d0, ⟨rfl, here⟩, lastTable_of_entry isDir names⟩
  · rintro ⟨index, d0, ⟨rfl, here⟩, isLast⟩
    rw [Memory.lastTable, isDir] at isLast
    exact ⟨d0, here, isLast, empty d0 page isLast⟩

/-- A table of the second level with an entry that is not valid loses tables only. -/
theorem ExitsTables.drains (tree : Tree roots mem) (isRoot : pgdir ∈ roots) (isDir : mem.entry pgdir d1 = some pd0)
    (drained : Drained pgdir mem) (exits : ExitsTables pd0 visited dead mem next) (distinct : dead.Nodup)
    (invalid : ∃ d0, visited d0 ∧ mem.entry pd0 d0 = none) :
    Drains roots pgdir (fun index d0 => index = d1 ∧ visited d0) dead mem next := by
  have owns := tree.ownsDir isRoot isDir
  have empty : ∀ d0 pt, mem.entry pd0 d0 = some pt → mem.EmptyTable pt := fun d0 pt names =>
    drained d1 d0 pt (lastTable_of_entry isDir names)
  have sameRoot : ∀ index, next.entry pgdir index = mem.entry pgdir index := fun index =>
    entry_congr (exits.others pgdir (Ne.symm owns.notRoot))
  have outer := exits.exits tree isRoot isDir invalid
  have stays : ∀ index other, mem.entry pgdir index = some other →
      ¬ FindsTables (fun d0 => index = d1 ∧ visited d0) (mem.Below other) := by
    rintro index other isOther ⟨⟨d0, rfl, here⟩, all⟩
    rw [isDir] at isOther
    cases isOther
    obtain ⟨d0', there, isNone⟩ := invalid
    exact all d0' ⟨rfl, there⟩ isNone
  constructor
  case tree => exact outer.tree
  case shrinks => exact outer.shrinks
  case free => exact exits.free
  case freed => exact exits.freed
  case distinct => exact distinct
  case dir =>
    intro index other isOther
    rw [sameRoot, isOther]
    exact ⟨fun isNone => (by cases isNone), fun finds => absurd finds (stays index other isOther)⟩
  case last =>
    intro index other isOther d0
    rw [sameRoot] at isOther
    by_cases here : index = d1
    · subst here
      rw [isDir] at isOther
      cases isOther
      simp only [exits.entry_none empty, true_and]
    · have different : other ≠ pd0 := by
        rintro rfl
        cases (tree.once ((tables_dir isRoot).trans isOther) ((tables_dir isRoot).trans isDir)).2
        exact here rfl
      rw [entry_congr (exits.others other different)]
      simp only [here, false_and, false_or]
  case exact =>
    intro page
    rw [exits.mem_dead isDir empty]
    refine ⟨Or.inr, fun dies => dies.resolve_left ?_⟩
    rintro ⟨index, isOther, finds⟩
    exact stays index page isOther finds

/-- A table of the second level with a table at each entry visited is freed with these. -/
theorem ExitsTables.drains_freed (tree : Tree roots mem) (isRoot : pgdir ∈ roots) (isDir : mem.entry pgdir d1 = some pd0)
    (drained : Drained pgdir mem) (exits : ExitsTables pd0 visited dead mem middle) (distinct : dead.Nodup)
    (valid : ∀ d0, visited d0 → mem.entry pd0 d0 ≠ none) (nonempty : ∃ d0, visited d0) :
    Drains roots pgdir (fun index d0 => index = d1 ∧ visited d0) (dead ++ [pd0]) mem
      ((middle.release pd0).setPte pgdir d1 .zero) := by
  have owns := tree.ownsDir isRoot isDir
  have empty : ∀ d0 pt, mem.entry pd0 d0 = some pt → mem.EmptyTable pt := fun d0 pt names =>
    drained d1 d0 pt (lastTable_of_entry isDir names)
  have outer := exits.exits_freed tree isRoot isDir valid nonempty
  have entries : ∀ table index, ((middle.release pd0).setPte pgdir d1 .zero).entry table index =
      if table = pgdir ∧ index = d1 then none else middle.entry table index := by
    intro table index
    rw [entry_setPte, page?_zero]
    rfl
  have sameRoot : ∀ index, index ≠ d1 →
      ((middle.release pd0).setPte pgdir d1 .zero).entry pgdir index = mem.entry pgdir index := by
    intro index different
    rw [entries, if_neg fun same => different same.2]
    exact entry_congr (exits.others pgdir (Ne.symm owns.notRoot))
  have gone : ((middle.release pd0).setPte pgdir d1 .zero).entry pgdir d1 = none := by
    rw [entries, if_pos ⟨rfl, rfl⟩]
  have finds : FindsTables (fun d0 => d1 = d1 ∧ visited d0) (mem.Below pd0) := by
    obtain ⟨d0, here⟩ := nonempty
    exact ⟨⟨d0, rfl, here⟩, fun d0' there => valid d0' there.2⟩
  constructor
  case tree => exact outer.tree
  case shrinks => exact outer.shrinks
  case free =>
    intro page
    show page ∈ insert pd0 middle.free ↔ _
    rw [Finset.mem_insert, exits.free, List.mem_append, List.mem_singleton, or_comm, or_assoc]
  case freed =>
    show middle.freed ++ [pd0] = _
    rw [exits.freed, List.append_assoc]
  case distinct =>
    refine List.nodup_append'.mpr ⟨distinct, List.nodup_singleton pd0, fun page inFirst inSecond => ?_⟩
    obtain ⟨d0, _, names, _⟩ := (exits.exact page).mp inFirst
    exact (owns.apart d0 page names).1 (List.mem_singleton.mp inSecond)
  case dir =>
    intro index other isOther
    by_cases here : index = d1
    · subst here
      rw [isDir] at isOther
      cases isOther
      exact ⟨fun _ => finds, fun _ => gone⟩
    · rw [sameRoot index here, isOther]
      exact ⟨fun isNone => (by cases isNone), fun finds => absurd finds.1.choose_spec.1 here⟩
  case last =>
    intro index other isOther d0
    have here : index ≠ d1 := by
      rintro rfl
      rw [gone] at isOther
      cases isOther
    rw [sameRoot index here] at isOther
    have otherPlace := (@tables_dir roots mem pgdir index isRoot).trans isOther
    have different : other ≠ pd0 := by
      rintro rfl
      cases (tree.once otherPlace ((tables_dir isRoot).trans isDir)).2
      exact here rfl
    rw [entries, if_neg fun same => (tree.ownsDir isRoot isOther).notRoot same.1,
      entry_congr (exits.others other different)]
    simp only [here, false_and, false_or]
  case exact =>
    intro page
    rw [List.mem_append, List.mem_singleton, exits.mem_dead isDir empty, or_comm]
    refine or_congr ⟨?_, ?_⟩ Iff.rfl
    · rintro rfl
      exact ⟨d1, isDir, finds⟩
    · rintro ⟨index, isOther, ⟨_, rfl, _⟩, _⟩
      rw [isDir] at isOther
      exact (Option.some.inj isOther).symm

/-- An entry that is not new is the same when both are valid or both are not. -/
theorem Shrinks.entry_eq (shrinks : Shrinks mem next) {table : Nat} {index : Fin 512}
    (stays : next.entry table index = none → mem.entry table index = none) :
    next.entry table index = mem.entry table index := by
  cases names : next.entry table index with
  | none => exact (stays names).symm
  | some page => exact (shrinks table index page names).symm

/-- An entry of the directory below which nothing is visited stays. -/
theorem Drains.sameDir (drains : Drains roots pgdir visits dead mem next) (nowhere : ∀ d0, ¬ visits d1 d0) :
    next.entry pgdir d1 = mem.entry pgdir d1 := by
  apply drains.shrinks.entry_eq
  intro isNone
  cases isDir : mem.entry pgdir d1 with
  | none => rfl
  | some pd0 => exact absurd ((drains.dir d1 pd0 isDir).mp isNone).1.choose_spec (nowhere _)

/-- So do the entries of the table below. -/
theorem Drains.sameLast (drains : Drains roots pgdir visits dead mem next) (nowhere : ∀ d0, ¬ visits d1 d0)
    (isDir : mem.entry pgdir d1 = some pd0) (d0 : Fin 512) : next.entry pd0 d0 = mem.entry pd0 d0 := by
  apply drains.shrinks.entry_eq
  intro isNone
  exact ((drains.last d1 pd0 ((drains.sameDir nowhere).trans isDir) d0).mp isNone).resolve_left (nowhere d0)

theorem Drains.sameBelow (drains : Drains roots pgdir visits dead mem next) (nowhere : ∀ d0, ¬ visits d1 d0)
    (isDir : mem.entry pgdir d1 = some pd0) : next.Below pd0 = mem.Below pd0 := by
  funext d0
  rw [Memory.Below, Memory.Below, drains.sameLast nowhere isDir]

/-- What is freed was a table below the directory. -/
theorem Drains.table (drains : Drains roots pgdir visits dead mem next) (isRoot : pgdir ∈ roots) (isDead : page ∈ dead) :
    ∃ place, place ≠ .root ∧ mem.tables roots pgdir place = some page := by
  rcases (drains.exact page).mp isDead with ⟨d1, isDir, _⟩ | ⟨d1, d0, _, isLast⟩
  · exact ⟨.dir d1, by simp, (tables_dir isRoot).trans isDir⟩
  · exact ⟨.last d1 d0, by simp, (tables_last isRoot).trans isLast⟩

/-- Calls for parts of different gigabytes. -/
theorem Drains.trans (isRoot : pgdir ∈ roots) (first : Drains roots pgdir visits dead mem middle)
    (second : Drains roots pgdir visits' dead' middle next) (disjoint : ∀ d1 d0 d0', visits d1 d0 → ¬ visits' d1 d0') :
    Drains roots pgdir (fun d1 d0 => visits d1 d0 ∨ visits' d1 d0) (dead ++ dead') mem next := by
  have later : ∀ {d1 d0}, visits' d1 d0 → ∀ d0', ¬ visits d1 d0' := fun there d0' here => disjoint _ d0' _ here there
  have onlyFirst : ∀ {d1}, (∀ d0, ¬ visits' d1 d0) → (fun d0 => visits d1 d0 ∨ visits' d1 d0) = visits d1 := by
    intro d1 nowhere
    funext d0
    simp only [nowhere d0, or_false]
  have onlySecond : ∀ {d1}, (∀ d0, ¬ visits d1 d0) → (fun d0 => visits d1 d0 ∨ visits' d1 d0) = visits' d1 := by
    intro d1 nowhere
    funext d0
    simp only [nowhere d0, false_or]
  constructor
  case tree => exact second.tree
  case shrinks => exact fun table index page names => first.shrinks table index page (second.shrinks table index page names)
  case free =>
    intro page
    rw [second.free, first.free, List.mem_append, or_assoc]
  case freed => rw [second.freed, first.freed, List.append_assoc]
  case distinct =>
    refine List.nodup_append'.mpr ⟨first.distinct, second.distinct, fun page inFirst inSecond => ?_⟩
    obtain ⟨place, _, names⟩ := second.table isRoot inSecond
    exact first.tree.inUse names ((first.free page).mpr (Or.inr inFirst))
  case dir =>
    intro d1 pd0 isDir
    by_cases nowhere : ∀ d0, ¬ visits d1 d0
    · rw [onlySecond nowhere, second.dir d1 pd0 ((first.sameDir nowhere).trans isDir), first.sameBelow nowhere isDir]
    · obtain ⟨d0, here⟩ := not_forall_not.mp nowhere
      have alone : ∀ d0', ¬ visits' d1 d0' := fun d0' => disjoint d1 d0 d0' here
      rw [onlyFirst alone, second.sameDir alone, first.dir d1 pd0 isDir]
  case last =>
    intro d1 pd0 isDir d0
    rw [second.last d1 pd0 isDir, first.last d1 pd0 (second.shrinks pgdir d1 pd0 isDir), ← or_assoc,
      @or_comm (visits' d1 d0)]
  case exact =>
    intro page
    rw [List.mem_append, first.exact, second.exact]
    constructor
    · rintro ((⟨d1, isDir, finds⟩ | ⟨d1, d0, here, isLast⟩) | ⟨d1, isDir, finds⟩ | ⟨d1, d0, there, isLast⟩)
      · obtain ⟨d0, here⟩ := finds.1
        exact Or.inl ⟨d1, isDir, (onlyFirst fun d0' => disjoint d1 d0 d0' here).symm ▸ finds⟩
      · exact Or.inr ⟨d1, d0, Or.inl here, isLast⟩
      · obtain ⟨d0, there⟩ := finds.1
        have isDir := (first.sameDir (later there)).symm.trans isDir
        rw [first.sameBelow (later there) isDir] at finds
        exact Or.inl ⟨d1, isDir, (onlySecond (later there)).symm ▸ finds⟩
      · exact Or.inr ⟨d1, d0, Or.inr there, first.shrinks.lastTable isLast⟩
    · rintro (⟨d1, isDir, finds⟩ | ⟨d1, d0, here | there, isLast⟩)
      · by_cases nowhere : ∀ d0, ¬ visits d1 d0
        · rw [onlySecond nowhere] at finds
          exact Or.inr (Or.inl ⟨d1, (first.sameDir nowhere).trans isDir, (first.sameBelow nowhere isDir).symm ▸ finds⟩)
        · obtain ⟨d0, here⟩ := not_forall_not.mp nowhere
          rw [onlyFirst fun d0' => disjoint d1 d0 d0' here] at finds
          exact Or.inl (Or.inl ⟨d1, isDir, finds⟩)
      · exact Or.inl (Or.inr ⟨d1, d0, here, isLast⟩)
      · refine Or.inr (Or.inr ⟨d1, d0, there, ?_⟩)
        obtain ⟨pd0, isDir, names⟩ := Option.bind_eq_some_iff.mp isLast
        rw [Memory.lastTable, first.sameDir (later there), isDir, Option.bind_some, first.sameLast (later there) isDir]
        exact names

/-! ### The loops -/

section Loops

variable {d1start d0start : Nat}

theorem exitDir_drains (tree : Tree roots mem) (isRoot : pgdir ∈ roots) (drained : Drained pgdir mem)
    (aligned1 : d1start % pdsize = 0) (aligned0 : d0start % ptsize = 0) (low : d1start ≤ d0start)
    (high : d0start < d1start + pdsize) (inside : d0start < stop) :
    ∃ next dead, exitDir mem pgdir d1start d0start stop = some next ∧
      Drains roots pgdir (Visited d0start (min (d1start + pdsize) stop)) dead mem next := by
  have below : d0start < min (d1start + pdsize) stop := by omega
  have isVisited := visits_visited aligned1 aligned0 low (Nat.min_le_left _ stop) below
  rw [exitDir]
  cases isDir : mem.entry pgdir (pdx1 d1start) with
  | none =>
    refine ⟨mem, [], rfl, .refl tree fun d1 d0 here => ?_⟩
    rw [((isVisited d1 d0).mpr here).1]
    exact isDir
  | some pd0 =>
    have few : rounds d0start (min (d1start + pdsize) stop) ptsize ≤ 512 := by
      simp only [rounds, pdsize, ptsize, pgsize] at *
      omega
    have nonempty : ∃ d0, Visits d0start (rounds d0start (min (d1start + pdsize) stop) ptsize) d0 :=
      ⟨pdx0 d0start, ((isVisited (pdx1 d1start) (pdx0 d0start)).mpr
        ⟨d0start, Nat.le_refl _, below, pdx1_congr (by simp only [pdsize, ptsize, pgsize] at *; omega), rfl⟩).2⟩
    obtain ⟨middle, dead, valid, looped, exits, distinct, isValid⟩ :=
      @exitTables_exits mem pgdir pd0 _ true d0start (tree.ownsDir isRoot isDir) few
    simp only [looped, Option.bind_eq_bind, Option.bind_some, Bool.true_and]
    cases valid with
    | true =>
      have owns := exits.ownsDir (tree.ownsDir isRoot isDir)
      rw [if_pos rfl, freePage_release owns.inUse]
      exact ⟨_, _, rfl,
        (exits.drains_freed tree isRoot isDir drained distinct (isValid.mp rfl) nonempty).congr isVisited⟩
    | false =>
      rw [if_neg (by decide)]
      have invalid := mt isValid.mpr (by decide)
      simp only [not_forall, not_not] at invalid
      obtain ⟨d0, here, isNone⟩ := invalid
      exact ⟨_, _, rfl, (exits.drains tree isRoot isDir drained distinct ⟨d0, here, isNone⟩).congr isVisited⟩

theorem exitDirs_drains (number : Nat) (tree : Tree roots mem) (isRoot : pgdir ∈ roots) (drained : Drained pgdir mem)
    (aligned1 : d1start % pdsize = 0) (aligned0 : d0start % ptsize = 0) (low : d1start ≤ d0start)
    (high : d0start < d1start + pdsize) (inside : d1start < stop → d0start < stop) (small : stop ≤ vaSize)
    (isNumber : number = rounds d1start stop pdsize) :
    ∃ next dead, exitDirs mem pgdir d1start d0start stop number = some next ∧
      Drains roots pgdir (Visited d0start stop) dead mem next := by
  induction number generalizing mem d1start d0start with
  | zero =>
    refine ⟨mem, [], rfl, .refl tree ?_⟩
    rintro d1 d0 ⟨la, first, before, _⟩
    simp only [rounds, pdsize, ptsize, pgsize] at *
    omega
  | succ number ih =>
    have isInside : d0start < stop := inside (by
      simp only [rounds, pdsize, ptsize, pgsize] at *
      omega)
    obtain ⟨middle, dead, called, first⟩ := exitDir_drains tree isRoot drained aligned1 aligned0 low high isInside
    obtain ⟨next, dead', rest, second⟩ := @ih middle (d1start + pdsize) (d1start + pdsize) first.tree
      (first.shrinks.drained drained) (by rw [Nat.add_mod_right, aligned1])
      (by simp only [pdsize, ptsize, pgsize] at *; omega) (Nat.le_refl _) (Nat.lt_add_of_pos_right (by decide)) id
      (by simp only [rounds, pdsize, ptsize, pgsize] at *; omega)
    refine ⟨next, dead ++ dead', by rw [exitDirs, called, Option.bind_some, rest], ?_⟩
    refine (first.trans isRoot second (visited_apart aligned1 low small)).congr fun d1 d0 => ?_
    exact visited_gigabyte (Nat.le_of_lt high) d1 d0

end Loops

/-- `exit_range` on a directory whose tables of the last level are empty. -/
theorem exitRange_drains (tree : Tree roots mem) (isRoot : pgdir ∈ roots) (drained : Drained pgdir mem)
    (aligned : start % pgsize = 0) (ends : stop % pgsize = 0) (access : UserRange start stop) :
    ∃ next dead, exitRange mem pgdir start stop = some next ∧ Drains roots pgdir (Visited start stop) dead mem next := by
  have nonempty := access.2.1
  have user := access.2.2
  obtain ⟨next, dead, called, drains⟩ := @exitDirs_drains roots mem pgdir stop (start / pdsize * pdsize)
    (start / ptsize * ptsize) (rounds (start / pdsize * pdsize) stop pdsize) tree isRoot drained (Nat.mul_mod_left ..)
    (Nat.mul_mod_left ..) (by simp only [pdsize, ptsize, pgsize]; omega) (by simp only [pdsize, ptsize, pgsize]; omega)
    (fun _ => Nat.lt_of_le_of_lt (Nat.div_mul_le_self start ptsize) nonempty) (Nat.le_trans user (by decide)) rfl
  exact ⟨next, dead, (if_pos ⟨aligned, ends, access⟩).trans called, drains.congr (visited_start nonempty)⟩

end Calls

/-! ## All areas -/

section Sweeps

variable {α : Type*} {reach : α → Fin 512 → Prop} {tables : Fin 512 → Prop} {area : α} {areas : List α}

/-- The tables that some areas have left. -/
def LeftBy (reach : α → Fin 512 → Prop) (tables : Fin 512 → Prop) (areas : List α) (d0 : Fin 512) : Prop :=
  tables d0 ∧ ∀ area ∈ areas, ¬ reach area d0

/-- One area reaches exactly the entries whose tables the areas before it have left, and each of these, if
it reaches an entry, reaches one without a table. -/
def Finishes (reach : α → Fin 512 → Prop) (tables : Fin 512 → Prop) (areas : List α) : Prop :=
  ∃ before area behind, areas = before ++ area :: behind ∧
    (∃ d0, reach area d0) ∧ (∀ d0, reach area d0 ↔ LeftBy reach tables before d0) ∧
    ∀ front earlier rest, before = front ++ earlier :: rest →
      ¬ FindsTables (reach earlier) (LeftBy reach tables front)

theorem leftBy_nil : LeftBy reach tables [] = tables := by
  funext d0
  simp [LeftBy]

theorem leftBy_cons : LeftBy reach tables (area :: areas) =
    LeftBy reach (fun d0 => tables d0 ∧ ¬ reach area d0) areas := by
  funext d0
  simp only [LeftBy, List.forall_mem_cons, and_assoc]

theorem not_finishes_nil : ¬ Finishes reach tables [] := by
  rintro ⟨before, area, behind, isNil, _⟩
  exact absurd isNil.symm (by simp)

/-- The first area finishes a table alone, or it leaves some of its tables to the others. -/
theorem finishes_cons : Finishes reach tables (area :: areas) ↔
    ((∃ d0, reach area d0) ∧ ∀ d0, reach area d0 ↔ tables d0) ∨
      ¬ FindsTables (reach area) tables ∧ Finishes reach (fun d0 => tables d0 ∧ ¬ reach area d0) areas := by
  constructor
  · rintro ⟨before, last, behind, split, nonempty, exact, earlier⟩
    cases before with
    | nil =>
      obtain ⟨rfl, rfl⟩ := List.cons.inj split
      rw [leftBy_nil] at exact
      exact Or.inl ⟨nonempty, exact⟩
    | cons head front =>
      obtain ⟨rfl, rfl⟩ := List.cons.inj split
      have first := earlier [] area front rfl
      rw [leftBy_nil] at first
      rw [leftBy_cons] at exact
      refine Or.inr ⟨first, front, last, behind, rfl, nonempty, exact, fun front' other rest isFront => ?_⟩
      have later := earlier (area :: front') other rest (by rw [isFront, List.cons_append])
      rwa [leftBy_cons] at later
  · rintro (⟨nonempty, exact⟩ | ⟨first, before, last, behind, rfl, nonempty, exact, earlier⟩)
    · refine ⟨[], area, areas, rfl, nonempty, by rwa [leftBy_nil], fun front other rest isNil => ?_⟩
      exact absurd isNil.symm (by simp)
    · refine ⟨area :: before, last, behind, rfl, nonempty, by rwa [leftBy_cons], fun front other rest split => ?_⟩
      cases front with
      | nil =>
        obtain ⟨rfl, _⟩ := List.cons.inj split
        rwa [leftBy_nil]
      | cons head front =>
        obtain ⟨rfl, isBefore⟩ := List.cons.inj split
        rw [leftBy_cons]
        exact earlier front other rest isBefore

end Sweeps

/-- The entries that an area reaches in the table of an entry of the page directory. -/
def Reaches (d1 : Fin 512) (vma : Vma) (d0 : Fin 512) : Prop := Visited vma.vmStart.toNat vma.vmEnd.toNat d1 d0

/-- An area that `unmap_range` and `exit_range` accept. -/
def UserArea (vma : Vma) : Prop :=
  vma.vmStart.toNat % pgsize = 0 ∧ vma.vmEnd.toNat % pgsize = 0 ∧ UserRange vma.vmStart.toNat vma.vmEnd.toNat

instance (vma : Vma) : Decidable (UserArea vma) := inferInstanceAs (Decidable (_ ∧ _ ∧ _))

variable {areas : List Vma}

/-- The tables that `exit_range` takes when it is called for some areas. -/
structure Sweeps (roots : Finset Nat) (pgdir : Nat) (areas : List Vma) (dead : List Nat) (mem next : Memory) : Prop where
  tree : Tree roots next
  free : ∀ page, page ∈ next.free ↔ page ∈ mem.free ∨ page ∈ dead
  freed : next.freed = mem.freed ++ dead
  distinct : dead.Nodup
  table : ∀ page ∈ dead, ∃ place, place ≠ .root ∧ mem.tables roots pgdir place = some page
  all : ∀ d1 pd0, mem.entry pgdir d1 = some pd0 →
    ((pd0 ∈ dead ∧ ∀ d0 pt, mem.entry pd0 d0 = some pt → pt ∈ dead) ↔ Finishes (Reaches d1) (mem.Below pd0) areas)

/-- The first area frees a table of the second level with what it finds below, or leaves it to the others. -/
theorem Drains.finishes {vma : Vma} (tree : Tree roots mem) (isRoot : pgdir ∈ roots)
    (first : Drains roots pgdir (fun d1 d0 => Reaches d1 vma d0) dead mem middle)
    (second : Sweeps roots pgdir areas dead' middle next) (isDir : mem.entry pgdir d1 = some pd0) :
    (pd0 ∈ dead ++ dead' ∧ ∀ d0 pt, mem.entry pd0 d0 = some pt → pt ∈ dead ++ dead') ↔
      Finishes (Reaches d1) (mem.Below pd0) (vma :: areas) := by
  have dirPlace := (@tables_dir roots mem pgdir d1 isRoot).trans isDir
  have lastPlace : ∀ {d0 pt}, mem.entry pd0 d0 = some pt → mem.tables roots pgdir (.last d1 d0) = some pt :=
    fun names => (tables_last isRoot).trans (lastTable_of_entry isDir names)
  -- the first call takes the tables that it reaches, and no others below this entry
  have lastDead : ∀ {d0 pt}, mem.entry pd0 d0 = some pt → (pt ∈ dead ↔ Reaches d1 vma d0) := by
    intro d0 pt names
    rw [first.exact]
    constructor
    · rintro (⟨d1', isDir', _⟩ | ⟨d1', d0', here, isLast⟩)
      · cases (tree.once (lastPlace names) ((tables_dir isRoot).trans isDir')).2
      · cases (tree.once (lastPlace names) ((tables_last isRoot).trans isLast)).2
        exact here
    · exact fun here => Or.inr ⟨d1, d0, here, lastTable_of_entry isDir names⟩
  rw [finishes_cons]
  by_cases finds : FindsTables (Reaches d1 vma) (mem.Below pd0)
  · have gone := (first.dir d1 pd0 isDir).mpr finds
    have lost : ∀ {d0 pt}, mem.entry pd0 d0 = some pt → pt ∉ dead' := by
      intro d0 pt names inSecond
      obtain ⟨place, _, isTable⟩ := second.table pt inSecond
      obtain rfl := (tree.once (lastPlace names) (first.shrinks.tables isTable)).2
      rw [tables_last isRoot, Memory.lastTable, gone] at isTable
      cases isTable
    have isDead : pd0 ∈ dead := (first.exact pd0).mpr (Or.inl ⟨d1, isDir, finds⟩)
    simp only [finds, not_true_eq_false, false_and, or_false]
    constructor
    · rintro ⟨_, all⟩
      refine ⟨finds.1, fun d0 => ⟨finds.2 d0, fun isTable => ?_⟩⟩
      obtain ⟨pt, names⟩ := Option.ne_none_iff_exists'.mp isTable
      exact (lastDead names).mp ((List.mem_append.mp (all d0 pt names)).resolve_right (lost names))
    · rintro ⟨_, exact⟩
      refine ⟨List.mem_append_left _ isDead, fun d0 pt names => List.mem_append_left _ ((lastDead names).mpr ?_)⟩
      exact (exact d0).mpr (by rw [Memory.Below, names]; exact Option.some_ne_none pt)
  · have stays : middle.entry pgdir d1 = some pd0 := by
      rw [← isDir]
      refine first.shrinks.entry_eq fun isNone => ?_
      exact absurd ((first.dir d1 pd0 isDir).mp isNone) finds
    have below : middle.Below pd0 = fun d0 => mem.Below pd0 d0 ∧ ¬ Reaches d1 vma d0 := by
      funext d0
      rw [Memory.Below, Memory.Below, ne_eq, first.last d1 pd0 stays d0, not_or, and_comm]
    have notDead : pd0 ∉ dead := by
      intro isDead
      rcases (first.exact pd0).mp isDead with ⟨d1', isDir', finds'⟩ | ⟨d1', d0', _, isLast⟩
      · cases (tree.once dirPlace ((tables_dir isRoot).trans isDir')).2
        exact finds finds'
      · cases (tree.once dirPlace ((tables_last isRoot).trans isLast)).2
    have notAlone : ¬ ((∃ d0, Reaches d1 vma d0) ∧ ∀ d0, Reaches d1 vma d0 ↔ mem.Below pd0 d0) := fun alone =>
      finds ⟨alone.1, fun d0 => (alone.2 d0).mp⟩
    rw [or_iff_right notAlone, ← below, ← second.all d1 pd0 stays, List.mem_append, or_iff_right notDead]
    simp only [finds, not_false_eq_true, true_and]
    refine and_congr_right fun _ => ⟨fun all d0 pt names => ?_, fun all d0 pt names => ?_⟩
    · have before := first.shrinks pd0 d0 pt names
      refine (List.mem_append.mp (all d0 pt before)).resolve_left fun inFirst => ?_
      have isNone := (first.last d1 pd0 stays d0).mpr (Or.inl ((lastDead before).mp inFirst))
      rw [isNone] at names
      cases names
    · by_cases here : Reaches d1 vma d0
      · exact List.mem_append_left _ ((lastDead names).mpr here)
      · refine List.mem_append_right _ (all d0 pt ?_)
        rw [← names]
        refine first.shrinks.entry_eq fun isNone => ?_
        exact ((first.last d1 pd0 stays d0).mp isNone).resolve_left here

/-- The second loop of `exit_mmap`. -/
theorem exitRange_sweeps (tree : Tree roots mem) (isRoot : pgdir ∈ roots) (drained : Drained pgdir mem)
    (user : ∀ vma ∈ areas, UserArea vma) :
    ∃ next dead, overAreas (fun mem start stop => exitRange mem pgdir start stop) mem areas = some next ∧
      Sweeps roots pgdir areas dead mem next := by
  induction areas generalizing mem with
  | nil =>
    refine ⟨mem, [], rfl, tree, fun page => by simp, (List.append_nil _).symm, List.nodup_nil, by simp, ?_⟩
    intro d1 pd0 isDir
    simp [not_finishes_nil]
  | cons vma areas ih =>
    obtain ⟨⟨aligned, ends, access⟩, later⟩ := List.forall_mem_cons.mp user
    obtain ⟨middle, dead, called, first⟩ := exitRange_drains tree isRoot drained aligned ends access
    obtain ⟨next, dead', rest, second⟩ := ih first.tree (first.shrinks.drained drained) later
    refine ⟨next, dead ++ dead', by rw [overAreas, called, Option.bind_some, rest], second.tree, ?_, ?_, ?_, ?_, ?_⟩
    · intro page
      rw [second.free, first.free, List.mem_append, or_assoc]
    · rw [second.freed, first.freed, List.append_assoc]
    · refine List.nodup_append'.mpr ⟨first.distinct, second.distinct, fun page inFirst inSecond => ?_⟩
      obtain ⟨place, _, names⟩ := second.table page inSecond
      exact first.tree.inUse names ((first.free page).mpr (Or.inr inFirst))
    · intro page isDead
      rcases List.mem_append.mp isDead with inFirst | inSecond
      · exact first.table isRoot inFirst
      · obtain ⟨place, notRoot, names⟩ := second.table page inSecond
        exact ⟨place, notRoot, first.shrinks.tables names⟩
    · exact fun d1 pd0 isDir => first.finishes tree isRoot second isDir

/-- The first loop of `exit_mmap`. -/
theorem unmapRange_removes (counted : Counted roots mem) (isRoot : pgdir ∈ roots) (user : ∀ vma ∈ areas, UserArea vma) :
    ∃ next dead, overAreas (fun mem start stop => unmapRange allocator mem pgdir start stop) mem areas = some next ∧
      Removes roots pgdir (fun path => ∃ vma ∈ areas, InRange vma.vmStart.toNat vma.vmEnd.toNat path) dead mem next := by
  induction areas generalizing mem with
  | nil => exact ⟨mem, [], rfl, .refl counted fun path isGone => absurd isGone (by simp)⟩
  | cons vma areas ih =>
    obtain ⟨⟨aligned, ends, access⟩, later⟩ := List.forall_mem_cons.mp user
    obtain ⟨middle, dead, called, first⟩ := @unmapLoop_removes roots allocator mem pgdir _ _ counted isRoot aligned ends access.2.1
    obtain ⟨next, dead', rest, second⟩ := ih first.counted later
    have accepted : unmapRange allocator mem pgdir vma.vmStart.toNat vma.vmEnd.toNat = some middle :=
      (if_pos ⟨aligned, ends, access⟩).trans called
    refine ⟨next, dead ++ dead', by rw [overAreas, accepted, Option.bind_some, rest], ?_⟩
    refine (first.trans isRoot second).congr fun path => ?_
    simp only [List.mem_cons, exists_eq_or_imp]

/-- Every page that only the directory maps, and every table below it, is freed once more; and what has been
freed is no table of the directory any more. -/
structure Reclaims (roots : Finset Nat) (pgdir : Nat) (mem next : Memory) : Prop where
  pages : ∀ path page, mem.mapped pgdir path = some page →
    (∀ other ∈ roots, other ≠ pgdir → ∀ path', mem.mapped other path' ≠ some page) →
    next.freed.count page = mem.freed.count page + 1
  tables : ∀ place table, place ≠ .root → mem.tables roots pgdir place = some table →
    next.freed.count table = mem.freed.count table + 1
  unreachable : ∀ table, next.freed.count table ≠ mem.freed.count table →
    ∀ place, next.tables roots pgdir place ≠ some table

/-- Every valid entry of the last level is below an area. -/
def InsideAreas (mem : Memory) (pgdir : Nat) (areas : List Vma) : Prop := ∀ path, mem.mapped pgdir path ≠ none →
  ∃ vma ∈ areas, InRange vma.vmStart.toNat vma.vmEnd.toNat path

/-- When the areas are unmapped, nothing is mapped and the tables are the same. -/
theorem Removes.drained (removes : Removes roots pgdir (fun path => ∃ vma ∈ areas,
    InRange vma.vmStart.toNat vma.vmEnd.toNat path) dead mem next) (isRoot : pgdir ∈ roots)
    (populated : InsideAreas mem pgdir areas) : (∀ path, next.mapped pgdir path = none) ∧ Drained pgdir next := by
  have nothing : ∀ path, next.mapped pgdir path = none := by
    intro path
    by_cases inside : ∃ vma ∈ areas, InRange vma.vmStart.toNat vma.vmEnd.toNat path
    · rw [Memory.mapped, removes.cleared path inside, page?_zero]
    · rw [Memory.mapped, removes.kept pgdir isRoot path (Or.inr inside)]
      exact not_not.mp (mt (populated path) inside)
  refine ⟨nothing, fun d1 d0 pt isLast index => ?_⟩
  have isNone := nothing (d1, d0, index)
  rwa [mapped_lookup, isLast] at isNone

/-- Nothing is done when nothing is mapped. -/
theorem unmapLoop_idle (nothing : ∀ path, mem.mapped pgdir path = none) :
    unmapLoop allocator mem pgdir start stop = some mem := by
  induction rest : stop - start using Nat.strong_induction_on generalizing start with
  | h rest' ih =>
    subst rest
    rw [unmapLoop_round]
    cases isLast : mem.lastTable pgdir (pdx1 start) (pdx0 start) with
    | none =>
      dsimp only
      split
      · rename_i inside
        have behind : start < (start + ptsize) / ptsize * ptsize := next_gt (by decide)
        exact ih _ (Nat.sub_lt_sub_left (Nat.lt_trans behind inside) behind) rfl
      · rfl
    | some pt =>
      have isNone : mem.entry pt (ptx start) = none := by
        have here := nothing (pdx1 start, pdx0 start, ptx start)
        rwa [mapped_lookup, isLast] at here
      simp only [pageRemovePte, isNone, Option.bind_some]
      split
      · rename_i inside
        have behind : start < start + pgsize := Nat.lt_add_of_pos_right (by decide)
        exact ih _ (Nat.sub_lt_sub_left (Nat.lt_trans behind inside) behind) rfl
      · rfl

theorem unmapRange_idle {vma : Vma} (nothing : ∀ path, mem.mapped pgdir path = none) (user : UserArea vma) :
    unmapRange allocator mem pgdir vma.vmStart.toNat vma.vmEnd.toNat = some mem :=
  (if_pos user).trans (unmapLoop_idle nothing)

/-- The two tables when page 4 has been unmapped. -/
def unusedTables : Memory := { twoTables.setPte 3 (ptx 0) .zero with ref := fun _ => 0 }

/-- An area of one page in each table, and one that has both tables. -/
def pageArea (start : BitVec 64) : Vma := ⟨start, start + 0x1000#64, 3#32⟩
def wideArea : Vma := ⟨0x200000#64, 0x600000#64, 3#32⟩

theorem unusedTables_entry {table : Nat} {index : Fin 512} (names : unusedTables.entry table index = some page) :
    table = 0 ∧ index = 0 ∧ page = 1 ∨ table = 1 ∧ index = 1 ∧ page = 2 ∨ table = 1 ∧ index = 2 ∧ page = 3 := by
  have names : (twoTables.setPte 3 (ptx 0) .zero).entry table index = some page := names
  rw [entry_setPte] at names
  split at names
  · rw [page?_zero] at names
    cases names
  · rename_i elsewhere
    obtain first | second | third | ⟨isLast, isFirst, _⟩ := twoTables_entry names
    · exact Or.inl first
    · exact Or.inr (Or.inl second)
    · exact Or.inr (Or.inr third)
    · exact absurd ⟨isLast, isFirst.trans (by decide)⟩ elsewhere

theorem unusedTables_shrinks : Shrinks twoTables unusedTables := by
  intro table index page names
  have names : (twoTables.setPte 3 (ptx 0) .zero).entry table index = some page := names
  rw [entry_setPte] at names
  split at names
  · rw [page?_zero] at names
    cases names
  · exact names

theorem unusedTables_mapped (path : Path) : unusedTables.mapped 0 path = none := by
  by_contra isMapped
  obtain ⟨page, names⟩ := Option.ne_none_iff_exists'.mp isMapped
  rw [mapped_lookup] at names
  obtain ⟨pt, isLast, isPage⟩ := Option.bind_eq_some_iff.mp names
  have last := twoTables_lastTable (unusedTables_shrinks.lastTable isLast)
  have entry := unusedTables_entry isPage
  omega

theorem unusedTables_counted : Counted {0} unusedTables where
  toTree := twoTables_tree.shrink unusedTables_shrinks fun page isFree => absurd isFree (Finset.notMem_empty page)
  refs := by
    intro page _
    have none : count {0} unusedTables page = 0 := by
      refine count_eq_zero.mpr fun pgdir isRoot path names => ?_
      rw [Finset.mem_singleton.mp isRoot, unusedTables_mapped] at names
      cases names
    rw [none]
    rfl
  clean := by
    intro pgdir isRoot path _
    obtain rfl : pgdir = 0 := Finset.mem_singleton.mp isRoot
    cases isLast : unusedTables.lastTable 0 path.1 path.2.1 with
    | none => exact leaf_none isLast path.2.2
    | some pt =>
      have last := twoTables_lastTable (unusedTables_shrinks.lastTable isLast)
      refine (leaf_table isLast path.2.2).trans ?_
      show (twoTables.setPte 3 (ptx 0) .zero).table pt path.2.2 = .zero
      obtain ⟨_, ⟨_, rfl⟩ | ⟨_, rfl⟩⟩ := last
      · rw [table_setPte 2 (by decide)]
        rfl
      · by_cases isFirst : path.2.2 = ptx 0
        · simp [Memory.setPte, isFirst]
        · have word : path.2.2 ≠ 0 := fun same => isFirst (same.trans (by decide))
          simp [Memory.setPte, isFirst, twoTables, word]

end Ucore.Paging
