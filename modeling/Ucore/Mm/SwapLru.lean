import Mathlib.Algebra.Ring.Int.Defs
import Ucore.Libs.EmbeddedList
import Ucore.Library.Transition

/-!
# Replacement by uses

`kern/mm/swap_lru.c` counts the uses of each page in `lru_use`, a table of 100 slots: a use
of an address goes to the slot of its page number, and 9999 stands for a slot that was not
used. The victim is the page of the slot with the fewest uses, searched for by its
`pra_vaddr`.

The search has no test for the list head: `le2page` of the head is no page, and the word
that is taken for its `pra_vaddr` is one more word of the memory. `none` is an access
outside `lru_use`, a failed assertion, or a loop that is not done within the rounds given.
`_page_register` and `time`, which nothing uses, are left out.
-/

namespace Ucore.SwapLru

open CircularList EmbeddedList Transition

variable {M P : Type}

/-- The links of `pra_list_head` and of the pages, the `sm_priv` of each `mm_struct`, the
`pra_vaddr` field of the page of each entry, and `lru_use`. -/
structure Lru (M P : Type) where
  links : Links (Entry P)
  smPriv : M → Option (Entry P)
  praVaddr : Entry P → BitVec 64
  lruUse : Nat → Int

/-- `PGSIZE` -/
def pgsize : BitVec 64 := 4096#64

/-- The number of slots of `lru_use`. -/
def slots : Nat := 100

/-- `(int)(addr/PGSIZE)` -/
def indexOf (addr : BitVec 64) : Int := ((addr / pgsize).setWidth 32).toInt

/-- The slot at an index, when it is inside the table. -/
def slotAt (index : Int) : Option Nat := if 0 ≤ index ∧ index < slots then some index.toNat else none

/-- `_page_unregister` -/
def pageUnregister (entry : Entry P) (lru : Lru M P) : Option (Lru M P) :=
  (slotAt (indexOf (lru.praVaddr entry))).map fun slot =>
    { lru with lruUse := Function.update lru.lruUse slot 9999 }

/-- `_page_use` -/
def pageUse (addr : BitVec 64) (lru : Lru M P) : Option (Lru M P) :=
  (slotAt (indexOf addr)).map fun slot =>
    { lru with lruUse := Function.update lru.lruUse slot (if lru.lruUse slot = 9999 then 1 else lru.lruUse slot + 1) }

/-- `min` and `min_index` after so many slots. -/
def leastUsed (lruUse : Nat → Int) : Nat → Int × Nat
  | 0 => (9999, 0)
  | slot + 1 => if lruUse slot < (leastUsed lruUse slot).1 then (lruUse slot, slot) else leastUsed lruUse slot

/-- The loop that prints the pages of the list, with their uses. -/
def printUses (priv : Entry P) [DecidableEq P] (lru : Lru M P) : Nat → Entry P → Option Unit
  | 0, _ => none
  | rounds + 1, lep =>
      if lep = priv then some ()
      else (slotAt (indexOf (lru.praVaddr lep))).bind fun _ => printUses priv lru rounds (listNext lru.links lep)

/-- The loop that searches for the page at an address. -/
def searchPage (lru : Lru M P) (addr : BitVec 64) : Nat → Entry P → Option (Entry P)
  | 0, _ => none
  | rounds + 1, le => if lru.praVaddr le = addr then some le else searchPage lru addr rounds (listNext lru.links le)

variable [DecidableEq P]

/-- `_lru_init_mm` -/
def lruInitMm [DecidableEq M] (mm : M) (lru : Lru M P) : Lru M P :=
  { lru with
    links := listInit lru.links .head
    smPriv := Function.update lru.smPriv mm (some .head)
    lruUse := fun slot => if slot < slots then 9999 else lru.lruUse slot }

/-- `_lru_map_swappable` -/
def lruMapSwappable (mm : M) (page : P) (lru : Lru M P) : Option (Lru M P) :=
  (lru.smPriv mm).map fun priv => { lru with links := listAdd lru.links priv (.link page) }

/-- `_lru_swap_out_victim`, with the value returned and the entry of the victim. -/
def lruSwapOutVictim (mm : M) (inTick : Int) (rounds : Nat) (lru : Lru M P) : Option (Int × Entry P × Lru M P) := do
  let priv ← lru.smPriv mm
  if inTick = 0 then
    let minIndex := (leastUsed lru.lruUse slots).2
    printUses priv lru rounds (listNext lru.links priv)
    let entry ← searchPage lru (BitVec.ofNat 64 minIndex * pgsize) rounds (listNext lru.links priv)
    let lru ← pageUnregister entry { lru with links := listDel lru.links entry }
    some (0, entry, lru)
  else none

/-! ## Runs -/

/-- `_lru_map_swappable` of a page whose `pra_vaddr` the caller then sets, `_page_use`, and
`_lru_swap_out_victim`. -/
inductive LruOperation (P : Type) where
  | mapSwappable (page : P) (addr : BitVec 64)
  | use (addr : BitVec 64)
  | victim (inTick : Int) (rounds : Nat)

/-- The list and the table in memory, and the history: the addresses used, the last one first,
and for each slot the uses since a page at it was last chosen. -/
structure LruSystem (M P : Type) where
  lru : Lru M P
  uses : List (BitVec 64)
  usesSince : Nat → Nat

/-- After `_lru_init_mm`. -/
def bootLru [DecidableEq M] (mm : M) (lru : Lru M P) : LruSystem M P where
  lru := lruInitMm mm lru
  uses := []
  usesSince := fun _ => 0

/-- One operation, for one `mm_struct`. -/
def lruStep (mm : M) (system : LruSystem M P) : LruOperation P → Option (LruSystem M P)
  | .mapSwappable page addr => (lruMapSwappable mm page system.lru).map fun lru =>
      { system with lru := { lru with praVaddr := Function.update lru.praVaddr (.link page) addr } }
  | .use addr => (pageUse addr system.lru).map fun lru =>
      { lru := lru
        uses := addr :: system.uses
        usesSince := fun slot =>
          if slotAt (indexOf addr) = some slot then system.usesSince slot + 1 else system.usesSince slot }
  | .victim inTick rounds => (lruSwapOutVictim mm inTick rounds system.lru).map fun (_, entry, lru) =>
      { system with
        lru := lru
        usesSince := fun slot =>
          if slotAt (indexOf (system.lru.praVaddr entry)) = some slot then 0 else system.usesSince slot }

/-- The uses since the last use of the page at an address. -/
def LruSystem.age (system : LruSystem M P) (entry : Entry P) : Nat :=
  system.uses.findIdx fun addr => addr / pgsize = system.lru.praVaddr entry / pgsize

/-- A call for a victim returns a page of the list, and no page of the list was used longer ago. -/
def TakesOldest (mm : M) (system : LruSystem M P) (pages : List P) : Prop :=
  ∃ page ∈ pages, ∃ after, Returns (fun rounds => lruSwapOutVictim mm 0 rounds system.lru) (0, .link page, after) ∧
    ∀ other ∈ pages, system.age (.link other) ≤ system.age (.link page)

/-- The uses of a slot as they are counted: 9999 for none, and again after so many. -/
def counted (uses : Nat) : Nat := if uses % 9999 = 0 then 9999 else uses % 9999

/-- A slot with the fewest uses, and the first one of these. -/
def FewestUses (usesSince : Nat → Nat) (slot : Nat) : Prop :=
  slot < slots ∧ (∀ other < slots, counted (usesSince slot) ≤ counted (usesSince other)) ∧
    ∀ other < slot, counted (usesSince slot) < counted (usesSince other)

/-- The pages of the list are at addresses below the end of the table, and the page of the slot
with the fewest uses is one of them and was used least recently. -/
def FewestIsOldest (system : LruSystem M P) (pages : List P) : Prop :=
  (∀ page ∈ pages, slotAt (indexOf (system.lru.praVaddr (.link page))) ≠ none) ∧
    ∃ slot, FewestUses system.usesSince slot ∧
      ∃ page ∈ pages, system.lru.praVaddr (.link page) = BitVec.ofNat 64 slot * pgsize ∧
        ∀ other ∈ pages, system.age (.link other) ≤ system.age (.link page)

/-! ## The slot with the fewest uses -/

section Walks

omit [DecidableEq P]

theorem slotAt_slot : ∀ slot < slots, slotAt (indexOf (BitVec.ofNat 64 slot * pgsize)) = some slot := by decide

theorem counted_bound (uses : Nat) : counted uses ≤ 9999 := by
  unfold counted
  split <;> omega

/-- One more use, as `_page_use` counts it. -/
theorem counted_succ (uses : Nat) :
    (if (counted uses : Int) = 9999 then 1 else (counted uses : Int) + 1) = counted (uses + 1) := by
  unfold counted
  split <;> split <;> split <;> omega

/-- The minimum, and the first slot where it is. -/
theorem leastUsed_exact (lruUse : Nat → Int) (count : Nat) :
    (∀ other < count, (leastUsed lruUse count).1 ≤ lruUse other) ∧ (leastUsed lruUse count).1 ≤ 9999 ∧
      ((leastUsed lruUse count).1 = 9999 ∧ (leastUsed lruUse count).2 = 0 ∨
        (leastUsed lruUse count).2 < count ∧ (leastUsed lruUse count).1 = lruUse (leastUsed lruUse count).2 ∧
          ∀ other < (leastUsed lruUse count).2, (leastUsed lruUse count).1 < lruUse other) := by
  induction count with
  | zero => exact ⟨fun _ impossible => absurd impossible (Nat.not_lt_zero _), Int.le_refl _, Or.inl ⟨rfl, rfl⟩⟩
  | succ count ih =>
    obtain ⟨least, bound, place⟩ := ih
    rw [leastUsed]
    split
    case isTrue smaller =>
      refine ⟨fun other inside => ?_, by omega, Or.inr ⟨Nat.lt_succ_self _, rfl, fun other inside => ?_⟩⟩
      · rcases Nat.lt_succ_iff_lt_or_eq.mp inside with before | rfl
        · exact Int.le_of_lt (Int.lt_of_lt_of_le smaller (least other before))
        · exact Int.le_refl _
      · exact Int.lt_of_lt_of_le smaller (least other inside)
    case isFalse notSmaller =>
      refine ⟨fun other inside => ?_, bound, place.imp_right fun ⟨inside, isLeast, first⟩ => ⟨by omega, isLeast, first⟩⟩
      rcases Nat.lt_succ_iff_lt_or_eq.mp inside with before | rfl
      · exact least other before
      · exact Int.not_lt.mp notSmaller

/-- The search of the table finds the first slot with the fewest uses. -/
theorem leastUsed_fewest {lruUse : Nat → Int} {usesSince : Nat → Nat}
    (counts : ∀ slot < slots, lruUse slot = counted (usesSince slot)) : FewestUses usesSince (leastUsed lruUse slots).2 := by
  obtain ⟨least, _, ⟨unused, isZero⟩ | ⟨inside, isLeast, first⟩⟩ := leastUsed_exact lruUse slots
  · rw [isZero]
    refine ⟨by decide, fun other inside => ?_, fun other impossible => absurd impossible (Nat.not_lt_zero _)⟩
    have := least other inside
    rw [unused, counts other inside] at this
    have := counted_bound (usesSince 0)
    omega
  · refine ⟨inside, fun other otherInside => ?_, fun other before => ?_⟩
    · have := least other otherInside
      rw [isLeast, counts _ inside, counts other otherInside] at this
      exact Int.ofNat_le.mp this
    · have := first other before
      rw [isLeast, counts _ inside, counts other (Nat.lt_trans before inside)] at this
      exact Int.ofNat_lt.mp this

/-- There is one such slot. -/
theorem FewestUses.unique {usesSince : Nat → Nat} {slot other : Nat} (fewest : FewestUses usesSince slot)
    (again : FewestUses usesSince other) : slot = other := by
  rcases Nat.lt_trichotomy slot other with before | same | behind
  · exact absurd (fewest.2.1 other again.1) (Nat.not_le_of_lt (again.2.2 slot before))
  · exact same
  · exact absurd (again.2.1 slot fewest.1) (Nat.not_le_of_lt (fewest.2.2 other behind))

/-! ## The walks through the list -/

variable {lru : Lru M P} {pages before rest : List P} {addr : BitVec 64} {entry : Entry P} {rounds : Nat}

/-- The entry behind the first page of a rest of the list. -/
theorem next_entry {page : P} (ring : Ring lru.links .head ((before ++ page :: rest).map Entry.link)) :
    listNext lru.links (.link page) = (rest.map Entry.link).headD .head := by
  rw [List.map_append, List.map_cons] at ring
  exact ring.next_node

/-- The walk over the uses ends when the pages are at slots of the table. -/
theorem printUses_ends [DecidableEq P] (ring : Ring lru.links .head ((before ++ rest).map Entry.link))
    (inside : ∀ page ∈ rest, slotAt (indexOf (lru.praVaddr (.link page))) ≠ none) (enough : rest.length < rounds) :
    printUses .head lru rounds ((rest.map Entry.link).headD .head) = some () := by
  induction rest generalizing before rounds with
  | nil =>
    obtain ⟨more, rfl⟩ := Nat.exists_eq_add_of_lt enough
    simp [printUses]
  | cons page rest ih =>
    obtain ⟨more, rfl⟩ := Nat.exists_eq_add_of_lt enough
    obtain ⟨slot, isSlot⟩ := Option.ne_none_iff_exists'.mp (inside page List.mem_cons_self)
    have goesOn := @ih (before ++ [page]) (rest.length + 1 + more) (by simpa using ring)
      (fun other member => inside other (List.mem_cons_of_mem _ member)) (by omega)
    simp only [List.map_cons, List.headD_cons, List.length_cons, printUses, reduceCtorEq, if_false, isSlot, Option.bind_some]
    rw [next_entry ring]
    exact goesOn

/-- The walk over the uses reads the slots of all pages. -/
theorem printUses_inside [DecidableEq P] (ring : Ring lru.links .head ((before ++ rest).map Entry.link))
    (ended : printUses .head lru rounds ((rest.map Entry.link).headD .head) = some ()) :
    ∀ page ∈ rest, slotAt (indexOf (lru.praVaddr (.link page))) ≠ none := by
  induction rest generalizing before rounds with
  | nil => simp
  | cons page rest ih =>
    cases rounds with
    | zero => cases ended
    | succ rounds =>
      simp only [List.map_cons, List.headD_cons, printUses, reduceCtorEq, if_false] at ended
      obtain ⟨slot, isSlot, goesOn⟩ := Option.bind_eq_some_iff.mp ended
      rw [next_entry ring] at goesOn
      intro other member
      rcases List.mem_cons.mp member with rfl | behind
      · rw [isSlot]
        nofun
      · exact @ih (before ++ [page]) rounds (by simpa using ring) goesOn other behind

/-- The search ends at a page at the address, when there is one. -/
theorem searchPage_ends (ring : Ring lru.links .head ((before ++ rest).map Entry.link))
    (there : ∃ page ∈ rest, lru.praVaddr (.link page) = addr) :
    ∃ page ∈ rest, lru.praVaddr (.link page) = addr ∧ ∀ rounds, rest.length ≤ rounds →
      searchPage lru addr rounds ((rest.map Entry.link).headD .head) = some (.link page) := by
  induction rest generalizing before with
  | nil =>
    obtain ⟨_, member, _⟩ := there
    cases member
  | cons page rest ih =>
    by_cases here : lru.praVaddr (.link page) = addr
    · refine ⟨page, List.mem_cons_self, here, fun rounds enough => ?_⟩
      obtain ⟨more, rfl⟩ := Nat.exists_eq_add_of_le' enough
      simp only [List.map_cons, List.headD_cons, List.length_cons, ← Nat.add_assoc, searchPage, if_pos here]
    · obtain ⟨other, member, isThere⟩ := there
      have behind : ∃ page ∈ rest, lru.praVaddr (.link page) = addr := by
        rcases List.mem_cons.mp member with rfl | behind
        · exact absurd isThere here
        · exact ⟨other, behind, isThere⟩
      obtain ⟨found, inRest, isFound, searched⟩ := @ih (before ++ [page]) (by simpa using ring) behind
      refine ⟨found, List.mem_cons_of_mem _ inRest, isFound, fun rounds enough => ?_⟩
      obtain ⟨more, rfl⟩ := Nat.exists_eq_add_of_le' enough
      simp only [List.map_cons, List.headD_cons, List.length_cons, ← Nat.add_assoc, searchPage, if_neg here]
      rw [next_entry ring]
      exact searched _ (Nat.le_add_left _ _)

/-- The search ends at the address only. -/
theorem searchPage_addr {le : Entry P} (found : searchPage lru addr rounds le = some entry) : lru.praVaddr entry = addr := by
  induction rounds generalizing le with
  | zero => cases found
  | succ rounds ih =>
    rw [searchPage] at found
    split at found
    case isTrue here =>
      obtain rfl := Option.some.inj found
      exact here
    case isFalse => exact ih found

end Walks

/-! ## One call -/

variable {mm : M} {system : LruSystem M P} {lru : Lru M P} {pages : List P} {entry : Entry P} {rounds : Nat}

/-- A call that returns has walked over the uses, and found an entry at the address of the slot
with the fewest uses. -/
theorem lruSwapOutVictim_found {ret : Int} {after : Lru M P} (named : lru.smPriv mm = some .head)
    (returned : lruSwapOutVictim mm 0 rounds lru = some (ret, entry, after)) :
    printUses .head lru rounds (listNext lru.links .head) = some () ∧
      lru.praVaddr entry = BitVec.ofNat 64 (leastUsed lru.lruUse slots).2 * pgsize ∧
      pageUnregister entry { lru with links := listDel lru.links entry } = some after := by
  simp only [lruSwapOutVictim, named, Option.bind_eq_bind, Option.bind_some, if_true] at returned
  obtain ⟨_, printed, returned⟩ := Option.bind_eq_some_iff.mp returned
  obtain ⟨found, searched, returned⟩ := Option.bind_eq_some_iff.mp returned
  obtain ⟨last, unregistered, same⟩ := Option.bind_eq_some_iff.mp returned
  simp only [Option.some.injEq, Prod.mk.injEq] at same
  obtain ⟨_, rfl, rfl⟩ := same
  exact ⟨printed, searchPage_addr searched, unregistered⟩

/-- A call keeps its promise exactly when the page with the fewest uses is the one that was used
least recently. -/
theorem takesOldest_exact (named : system.lru.smPriv mm = some .head)
    (ring : Ring system.lru.links .head (pages.map Entry.link))
    (counts : ∀ slot < slots, system.lru.lruUse slot = counted (system.usesSince slot)) :
    TakesOldest mm system pages ↔ FewestIsOldest system pages := by
  have isRing : Ring system.lru.links .head (([] ++ pages).map Entry.link) := ring
  have start : listNext system.lru.links .head = (pages.map Entry.link).headD .head := ring.next_head
  constructor
  · rintro ⟨page, member, after, ⟨enough, returned⟩, oldest⟩
    obtain ⟨printed, isAt, _⟩ := lruSwapOutVictim_found named (returned enough (Nat.le_refl _))
    rw [start] at printed
    exact ⟨printUses_inside isRing printed, _, leastUsed_fewest counts, page, member, isAt, oldest⟩
  · rintro ⟨inside, slot, fewest, page, member, isAt, oldest⟩
    obtain ⟨found, inList, isFound, searched⟩ := searchPage_ends isRing ⟨page, member, isAt⟩
    have isSlot := (leastUsed_fewest counts).unique fewest
    have sameAge : system.age (.link found) = system.age (.link page) := by
      rw [LruSystem.age, LruSystem.age, isFound, isAt]
    have unregistered : pageUnregister (.link found) { system.lru with links := listDel system.lru.links (.link found) } =
        some { system.lru with
          links := listDel system.lru.links (.link found)
          lruUse := Function.update system.lru.lruUse slot 9999 } := by
      simp only [pageUnregister, isFound, slotAt_slot _ fewest.1, Option.map_some]
    refine ⟨found, inList, { system.lru with
        links := listDel system.lru.links (.link found)
        lruUse := Function.update system.lru.lruUse slot 9999 },
      ⟨pages.length + 1, fun rounds enough => ?returns⟩, fun other listed => ?oldest⟩
    case returns =>
      have printed := printUses_ends isRing inside (Nat.lt_of_succ_le enough)
      simp only [lruSwapOutVictim, named, start, printed, isSlot, searched rounds (Nat.le_of_succ_le enough), unregistered,
        Option.bind_eq_bind, Option.bind_some, if_true]
    case oldest =>
      rw [sameAge]
      exact oldest other listed

/-! ## Whole runs -/

/-- The table counts the uses of each slot. -/
structure Counts (mm : M) (system : LruSystem M P) : Prop where
  priv : system.lru.smPriv mm = some .head
  table : ∀ slot < slots, system.lru.lruUse slot = counted (system.usesSince slot)

/-- One operation keeps the counts. -/
theorem lruStep_counts (mm : M) (system : LruSystem M P) (operation : LruOperation P) (next : LruSystem M P)
    (counts : Counts mm system) (taken : lruStep mm system operation = some next) : Counts mm next := by
  cases operation with
  | mapSwappable page addr =>
    obtain ⟨lru, mapped, rfl⟩ := Option.map_eq_some_iff.mp taken
    obtain ⟨priv, named, rfl⟩ := Option.map_eq_some_iff.mp mapped
    exact ⟨counts.priv, counts.table⟩
  | use addr =>
    obtain ⟨lru, used, rfl⟩ := Option.map_eq_some_iff.mp taken
    obtain ⟨slot, isSlot, rfl⟩ := Option.map_eq_some_iff.mp used
    refine ⟨counts.priv, fun other inside => ?_⟩
    dsimp only
    by_cases same : other = slot
    · subst same
      rw [Function.update_self, if_pos isSlot, counts.table other inside]
      exact counted_succ _
    · have different : slotAt (indexOf addr) ≠ some other := by
        rw [isSlot]
        rintro ⟨⟩
        exact same rfl
      rw [Function.update_of_ne same, if_neg different]
      exact counts.table other inside
  | victim inTick rounds =>
    obtain ⟨⟨ret, entry, lru⟩, returned, rfl⟩ := Option.map_eq_some_iff.mp taken
    have untimed : inTick = 0 := by
      by_contra timed
      simp [lruSwapOutVictim, counts.priv, timed] at returned
    subst untimed
    obtain ⟨_, isAt, unregistered⟩ := lruSwapOutVictim_found counts.priv returned
    obtain ⟨slot, isSlot, rfl⟩ := Option.map_eq_some_iff.mp unregistered
    have isSlot : slotAt (indexOf (system.lru.praVaddr entry)) = some slot := isSlot
    refine ⟨counts.priv, fun other inside => ?_⟩
    dsimp only
    by_cases same : other = slot
    · subst same
      rw [Function.update_self, if_pos isSlot]
      simp [counted]
    · have different : slotAt (indexOf (system.lru.praVaddr entry)) ≠ some other := by
        rw [isSlot]
        rintro ⟨⟩
        exact same rfl
      rw [Function.update_of_ne same, if_neg different]
      exact counts.table other inside

/-- In every run the table counts the uses. -/
theorem reached_counts [DecidableEq M] {start : Lru M P}
    (reached : Reaches (lruStep mm) (fun _ _ => True) (bootLru mm start) system) : Counts mm system := by
  refine reached.invariant ?initially fun state operation next counts _ taken =>
    lruStep_counts mm state operation next counts taken
  case initially => exact ⟨Function.update_self .., fun slot inside => if_pos inside⟩

/-- In every run a call for a victim keeps its promise exactly when the page with the fewest uses is
the one that was used least recently. -/
theorem lru_victim_exact [DecidableEq M] (mm : M) (start : Lru M P) (system : LruSystem M P)
    (reached : Reaches (lruStep mm) (fun _ _ => True) (bootLru mm start) system) :
    ∀ pages : List P, Ring system.lru.links .head (pages.map Entry.link) →
      (TakesOldest mm system pages ↔ FewestIsOldest system pages) := by
  intro pages ring
  have counts := reached_counts reached
  exact takesOldest_exact counts.priv ring counts.table

/-- A memory before `_lru_init_mm`. -/
def beforeLru : Lru Unit Nat where
  links := { prev := id, next := id }
  smPriv := fun _ => none
  praVaddr := fun _ => 0#64
  lruUse := fun _ => 0

/-- Two pages are made swappable and used at these addresses. -/
def twoUsed (uses : List (BitVec 64)) : List (LruOperation Nat) :=
  [.mapSwappable 1 0x1000#64, .mapSwappable 2 0x2000#64] ++ uses.map .use

/-- The list of the two pages. -/
theorem twoPages_ring :
    Ring (listAdd (listAdd (listInit beforeLru.links .head) .head (.link 1)) .head (.link 2)) .head ([2, 1].map Entry.link) := by
  have start : Ring (listInit beforeLru.links .head) .head [] := listInit_ring _ _
  have first : Ring (listAdd (listInit beforeLru.links .head) .head (.link 1)) .head [.link 1] :=
    listAdd_first (.link 1) start (by simp)
  exact listAdd_first (.link 2) first (by simp)

/-- Each page is used once: the page used first is chosen. -/
theorem lru_victim_exact_once : ∃ system : LruSystem Unit Nat,
    Reaches (lruStep ()) (fun _ _ => True) (bootLru () beforeLru) system ∧ TakesOldest () system [2, 1] := by
  obtain ⟨system, ran, links, addrs, uses, counts⟩ : ∃ system,
      run (lruStep ()) (twoUsed [0x1000#64, 0x2000#64]) (bootLru () beforeLru) = some system ∧
        system.lru.links = listAdd (listAdd (listInit beforeLru.links .head) .head (.link 1)) .head (.link 2) ∧
        (system.lru.praVaddr (.link 1) = 0x1000#64 ∧ system.lru.praVaddr (.link 2) = 0x2000#64) ∧
        system.uses = [0x2000#64, 0x1000#64] ∧
        ∀ slot < slots, system.usesSince slot = if slot = 1 ∨ slot = 2 then 1 else 0 :=
    ⟨_, rfl, rfl, ⟨rfl, rfl⟩, rfl, by decide⟩
  have reached := run_reaches _ _ _ ran
  refine ⟨system, reached, (lru_victim_exact () beforeLru system reached [2, 1] (links ▸ twoPages_ring)).mpr ?_⟩
  refine ⟨?_, 1, ⟨by decide, ?_, ?_⟩, 1, by simp, addrs.1, ?_⟩
  · intro page member
    simp only [List.mem_cons, List.not_mem_nil, or_false] at member
    rcases member with rfl | rfl
    · rw [addrs.2]
      decide
    · rw [addrs.1]
      decide
  · intro other inside
    have one : system.usesSince 1 = 1 := counts 1 (by decide)
    rw [one, counts other inside]
    split <;> decide
  · intro other before
    obtain rfl := Nat.lt_one_iff.mp before
    rw [counts 1 (by decide), counts 0 (by decide)]
    decide
  · intro other member
    simp only [List.mem_cons, List.not_mem_nil, or_false] at member
    rcases member with rfl | rfl
    · simp only [LruSystem.age, uses, addrs.1, addrs.2]
      decide
    · exact Nat.le_refl _

/-- The first page is used twice, and then the second one once: the second one is chosen. -/
theorem lru_takes_fewest : ∃ system : LruSystem Unit Nat,
    Reaches (lruStep ()) (fun _ _ => True) (bootLru () beforeLru) system ∧
      Ring system.lru.links .head ([2, 1].map Entry.link) ∧ ¬ TakesOldest () system [2, 1] := by
  obtain ⟨system, ran, links, addrs, uses, counts⟩ : ∃ system,
      run (lruStep ()) (twoUsed [0x1000#64, 0x1000#64, 0x2000#64]) (bootLru () beforeLru) = some system ∧
        system.lru.links = listAdd (listAdd (listInit beforeLru.links .head) .head (.link 1)) .head (.link 2) ∧
        (system.lru.praVaddr (.link 1) = 0x1000#64 ∧ system.lru.praVaddr (.link 2) = 0x2000#64) ∧
        system.uses = [0x2000#64, 0x1000#64, 0x1000#64] ∧
        ∀ slot < slots, system.usesSince slot = if slot = 1 then 2 else if slot = 2 then 1 else 0 :=
    ⟨_, rfl, rfl, ⟨rfl, rfl⟩, rfl, by decide⟩
  have reached := run_reaches _ _ _ ran
  have ring : Ring system.lru.links .head ([2, 1].map Entry.link) := links ▸ twoPages_ring
  have table := reached_counts reached
  refine ⟨system, reached, ring, fun takes => ?_⟩
  obtain ⟨_, slot, fewest, page, member, isAt, oldest⟩ := (takesOldest_exact table.priv ring table.table).mp takes
  have isTwo : FewestUses system.usesSince 2 := by
    have two : system.usesSince 2 = 1 := counts 2 (by decide)
    refine ⟨by decide, fun other inside => ?_, fun other before => ?_⟩
    · rw [two, counts other inside]
      split
      · decide
      · split <;> decide
    · obtain rfl | rfl : other = 0 ∨ other = 1 := by omega
      · rw [two, counts 0 (by decide)]
        decide
      · rw [two, counts 1 (by decide)]
        decide
  obtain rfl := fewest.unique isTwo
  simp only [List.mem_cons, List.not_mem_nil, or_false] at member
  rcases member with rfl | rfl
  · have older := oldest 1 (by simp)
    simp only [LruSystem.age, uses, addrs.1, addrs.2] at older
    exact absurd older (by decide)
  · rw [addrs.1] at isAt
    exact absurd isAt (by decide)

end Ucore.SwapLru
