import Ucore.Mm.PageRefRuns
import Ucore.Mm.UnmapRange

/-!
# Page tables as maps

What `get_page` answers is a finite map from page numbers to pages. `page_insert` sets
one value of it and `page_remove` clears one, and the tables that they take on the way
are no part of the map.

The first section is about the words that the entries and addresses are: `pte_create`
packs the number of a page above ten flags, and `PTE_ADDR` and the indices of an address
take words apart again.
-/

namespace Ucore.Paging

open Transition

/-! ## Words -/

/-- `PTE_ADDR` -/
def pteAddr (pte : BitVec 64) : BitVec 64 := (pte &&& ~~~0x3FF#64) <<< 2

/-- `PPN` -/
def ppnWord (la : BitVec 64) : BitVec 64 := la >>> 12

/-- `pte_create` -/
def pteCreateWord (ppn : BitVec 64) (type : BitVec 10) : BitVec 64 := ppn <<< 10 ||| 1#64 ||| type.setWidth 64

/-- The test for `PTE_V`, and `pte2page` -/
def pte2page (pte : BitVec 64) : Option Nat := if pte &&& 1#64 ≠ 0#64 then some (ppnWord (pteAddr pte)).toNat else none

/-- `PDX1`, `PDX0` and `PTX` with their shifts 30, 21 and 12 -/
def indexWord (la : BitVec 64) (shift : Nat) : BitVec 64 := (la >>> shift) &&& 0x1FF#64

/-- The word of a new entry has the number of the page and the flags. -/
theorem pteCreateWord_exact {ppn : BitVec 64} (small : ppn.toNat < 2 ^ 52) (type : BitVec 10) :
    Pte.ofWord (pteCreateWord ppn type).toNat = pteCreate ppn.toNat type := by
  have packed : (pteCreateWord ppn type).toNat = 2 ^ 10 * ppn.toNat + (pteV ||| type).toNat := by
    have fits : ppn.toNat <<< 10 % 2 ^ 64 = 2 ^ 10 * ppn.toNat := by
      rw [Nat.shiftLeft_eq]
      omega
    have flags : type.toNat % 2 ^ 64 = type.toNat := Nat.mod_eq_of_lt (Nat.lt_trans type.isLt (by decide))
    rw [Nat.two_pow_add_eq_or_of_lt (pteV ||| type).isLt]
    simp only [pteCreateWord, pteV, BitVec.toNat_or, BitVec.toNat_shiftLeft, BitVec.toNat_setWidth, fits, flags]
    exact Nat.or_assoc _ 1 type.toNat
  have small := (pteV ||| type).isLt
  unfold Pte.ofWord pteCreate
  congr 1
  · rw [packed]
    omega
  · apply BitVec.eq_of_toNat_eq
    rw [BitVec.toNat_ofNat, packed]
    omega

/-- A word names the page of its entry. -/
theorem pte2page_exact {pte : BitVec 64} (small : pte.toNat < 2 ^ 62) :
    pte2page pte = (Pte.ofWord pte.toNat).page? := by
  have valid : pte &&& 1#64 ≠ 0#64 ↔ (Pte.ofWord pte.toNat).flags &&& pteV ≠ 0#10 := by
    refine not_congr ?_
    rw [← BitVec.toNat_inj, ← BitVec.toNat_inj]
    simp only [Pte.ofWord, pteV, BitVec.toNat_and, BitVec.toNat_ofNat]
    rw [show 1 % 2 ^ 64 = 1 from rfl, show 1 % 2 ^ 10 = 1 from rfl, Nat.and_one_is_mod, Nat.and_one_is_mod]
    omega
  have named : (ppnWord (pteAddr pte)).toNat = (Pte.ofWord pte.toNat).ppn := by
    have same : ppnWord (pteAddr pte) = pte >>> 10 := by
      apply BitVec.eq_of_getLsbD_eq
      intro bit inside
      have mask : (0x3FF#64).getLsbD (bit + 10) = false := by
        apply Nat.testBit_lt_two_pow
        exact Nat.lt_of_lt_of_le (by decide : 1023 < 2 ^ 10) (Nat.pow_le_pow_right (by decide) (by omega))
      have index : 12 + bit - 2 = bit + 10 := by omega
      have high : 64 ≤ 12 + bit → pte.getLsbD (bit + 10) = false := fun outside =>
        Nat.testBit_lt_two_pow (Nat.lt_of_lt_of_le small (Nat.pow_le_pow_right (by decide) (by omega)))
      rw [ppnWord, pteAddr, BitVec.getLsbD_ushiftRight, BitVec.getLsbD_shiftLeft, BitVec.getLsbD_ushiftRight,
        BitVec.getLsbD_and, BitVec.getLsbD_not, index, mask, Nat.add_comm 10 bit]
      have shifted : ¬ 12 + bit < 2 := by omega
      by_cases below : 12 + bit < 64
      · simp [below, shifted, show bit + 10 < 64 by omega]
      · simp [below, high (by omega)]
    rw [same, BitVec.toNat_ushiftRight, Nat.shiftRight_eq_div_pow]
    rfl
  unfold pte2page Pte.page?
  rw [named]
  exact if_congr valid rfl rfl

/-- The nine bits of an address are its part in steps of the shift. -/
theorem indexWord_exact (la : BitVec 64) (shift : Nat) :
    (indexWord la shift).toNat = la.toNat / 2 ^ shift % 512 := by
  rw [indexWord, BitVec.toNat_and, BitVec.toNat_ushiftRight, Nat.shiftRight_eq_div_pow]
  exact Nat.and_two_pow_sub_one_eq_mod _ 9

/-- The indices of an address are those of its word. -/
theorem indexWord_path (la : BitVec 64) : (indexWord la 30).toNat = (pdx1 la.toNat).val ∧
    (indexWord la 21).toNat = (pdx0 la.toNat).val ∧ (indexWord la 12).toNat = (ptx la.toNat).val :=
  ⟨indexWord_exact la 30, indexWord_exact la 21, indexWord_exact la 12⟩

/-! ## Page numbers and paths -/

/-- The 39 bits of an address that the three levels translate. -/
def vaSize : Nat := 512 * pdsize

variable {roots : Finset Nat} {allocator : Nat → Option Nat} {start mem next : Memory} {pgdir la : Nat}

/-- The three indices of an address make up its page number. -/
theorem page_of_indices {la : Nat} (inside : la < vaSize) :
    la / pgsize = (pdx1 la).val * 512 * 512 + (pdx0 la).val * 512 + (ptx la).val := by
  simp only [pdx1, pdx0, ptx, Fin.ofNat, vaSize, pdsize, ptsize, pgsize] at *
  omega

/-- Two addresses have one path if and only if they are in one page. -/
theorem pathOf_inj {la other : Nat} (inside : la < vaSize) (inside' : other < vaSize) :
    pathOf la = pathOf other ↔ la / pgsize = other / pgsize := by
  constructor
  · intro same
    simp only [pathOf, Prod.mk.injEq] at same
    rw [page_of_indices inside, page_of_indices inside', same.1, same.2.1, same.2.2]
  · exact same_path

theorem getPage_mapped (allocator : Nat → Option Nat) (mem : Memory) (pgdir la : Nat) :
    getPage allocator mem pgdir la = mem.mapped pgdir (pathOf la) := by
  rw [getPage, getPte_lookup]
  cases isLast : mem.lastTable pgdir (pdx1 la) (pdx0 la) with
  | none =>
    have isZero : mem.mapped pgdir (pathOf la) = none :=
      (congrArg Pte.page? (leaf_none isLast (ptx la))).trans page?_zero
    rw [isZero]
    rfl
  | some pt => exact entry_leaf isLast (ptx la)

/-! ## The map -/

/-- `get_page` has a new value for one page of one directory. -/
def SetsPage (allocator : Nat → Option Nat) (roots : Finset Nat) (pgdir la : Nat) (value : Option Nat)
    (mem next : Memory) : Prop :=
  ∀ other ∈ roots, ∀ la', la' < vaSize → getPage allocator next other la' =
    if other = pgdir ∧ la / pgsize = la' / pgsize then value else getPage allocator mem other la'

/-- An entry changes at a path, so a page changes in the map. -/
theorem SetsPage.of_leaf {pte : Pte} (inside : la < vaSize) (leaf : ∀ other ∈ roots, ∀ path, next.leaf other path =
    if other = pgdir ∧ path = pathOf la then pte else mem.leaf other path) :
    SetsPage allocator roots pgdir la pte.page? mem next := by
  intro other isRoot la' inside'
  rw [getPage_mapped, getPage_mapped, Memory.mapped, Memory.mapped, leaf other isRoot, apply_ite Pte.page?]
  refine if_congr (and_congr_right fun _ => ?_) rfl rfl
  rw [eq_comm]
  exact pathOf_inj inside inside'

variable (roots allocator) in
/-- The page tables are a map: the operations set and clear single values, no entry belongs to two
pages, and tables have one place and are not mapped. -/
structure PageMap (mem : Memory) : Prop where
  insert : ∀ pgdir ∈ roots, ∀ page la perm, la < vaSize → page ∉ mem.free → ¬ mem.IsTable roots page →
    ∃ ret next, pageInsert allocator mem pgdir page la perm = some (ret, next) ∧
      (ret = 0 ∧ SetsPage allocator roots pgdir la (some page) mem next ∨
        ret = -eNoMem ∧ ∀ other ∈ roots, ∀ la', getPage allocator next other la' = getPage allocator mem other la')
  remove : ∀ pgdir ∈ roots, ∀ la, la < vaSize → ∃ next, pageRemove allocator mem pgdir la = some next ∧
    SetsPage allocator roots pgdir la none mem next
  entries : ∀ pgdir ∈ roots, ∀ other ∈ roots, ∀ la la' entry, la < vaSize → la' < vaSize →
    (getPte allocator false mem pgdir la).1 = some entry → (getPte allocator false mem other la').1 = some entry →
      pgdir = other ∧ la / pgsize = la' / pgsize
  tables : OnePlace roots mem
  apart : ∀ pgdir ∈ roots, ∀ la page, getPage allocator mem pgdir la = some page →
    page ∉ mem.free ∧ ¬ mem.IsTable roots page

/-- The three levels name different entries for different pages. -/
theorem Tree.entries (tree : Tree roots mem) {other la' : Nat} {entry : Nat × Fin 512} (isRoot : pgdir ∈ roots)
    (isOther : other ∈ roots) (inside : la < vaSize) (inside' : la' < vaSize)
    (first : (getPte allocator false mem pgdir la).1 = some entry)
    (second : (getPte allocator false mem other la').1 = some entry) : pgdir = other ∧ la / pgsize = la' / pgsize := by
  rw [getPte_lookup, Option.map_eq_some_iff] at first second
  obtain ⟨pt, isLast, rfl⟩ := first
  obtain ⟨pt', isLast', same⟩ := second
  obtain ⟨rfl, sameIndex⟩ := Prod.mk.inj same
  obtain ⟨sameDir, samePlace⟩ := tree.once ((tables_last isRoot).trans isLast) ((tables_last isOther).trans isLast')
  injection samePlace with same1 same0
  refine ⟨sameDir, (pathOf_inj inside inside').mp ?_⟩
  rw [pathOf, pathOf, same1, same0, sameIndex]

/-- Exact references and tables of one place are enough for the map. -/
theorem Counted.pageMap (counted : Counted roots mem) : PageMap roots allocator mem where
  insert := by
    intro pgdir isRoot page la perm inside inUse notTable
    rcases @pageInsert_cases roots allocator _ pgdir page la perm counted isRoot inUse notTable with
      ⟨next, failed, grows⟩ | ⟨next, dead, inserted, inserts, _⟩
    · refine ⟨_, next, failed, Or.inr ⟨rfl, fun other isOther la' => ?_⟩⟩
      rw [getPage_mapped, getPage_mapped, Memory.mapped, grows.leaf other isOther]
      rfl
    · refine ⟨_, next, inserted, Or.inl ⟨rfl, ?_⟩⟩
      have sets := @SetsPage.of_leaf roots allocator _ _ _ _ _ inside inserts.leaf
      rwa [page?_create] at sets
  remove := by
    intro pgdir isRoot la inside
    obtain ⟨next, dead, removed, removes⟩ : ∃ next dead, pageRemove allocator mem pgdir la = some next ∧
        Removes roots pgdir (· = pathOf la) dead mem next := by
      rw [pageRemove, getPte_lookup]
      cases isLast : mem.lastTable pgdir (pdx1 la) (pdx0 la) with
      | none =>
        refine ⟨mem, [], rfl, .refl counted ?_⟩
        rintro path rfl
        exact leaf_none isLast (ptx la)
      | some pt => exact pageRemovePte_removes counted isRoot isLast
    refine ⟨next, removed, ?_⟩
    have sets := @SetsPage.of_leaf roots allocator mem next pgdir la .zero inside fun other isOther path => by
      by_cases here : other = pgdir ∧ path = pathOf la
      · rw [if_pos here, here.1, removes.cleared path here.2]
      · rw [if_neg here, removes.kept other isOther path (not_and_or.mp here)]
    rwa [page?_zero] at sets
  entries := fun pgdir isRoot other isOther la la' entry inside inside' first second =>
    counted.toTree.entries isRoot isOther inside inside' first second
  tables := counted.toTree.onePlace
  apart := by
    intro pgdir isRoot la page names
    rw [getPage_mapped] at names
    exact counted.mapped pgdir isRoot (pathOf la) page names

/-- In every run from empty directories, by `page_insert`, `page_remove` and the other operations on pages,
the page tables are a map. -/
theorem page_table_map (starts : Starts roots start) (reached : Reaches (pageStep allocator) (PageLegal roots) start mem) :
    PageMap roots allocator mem := (reached_counted starts reached).pageMap

/-- An empty directory 0 with two free pages for its tables; page 3 is allocated. -/
def emptyDirectory : Memory where
  table := fun _ _ => .zero
  ref := fun _ => 0
  free := {1, 2}
  calls := 0
  freed := []

theorem emptyDirectory_starts : Starts {0} emptyDirectory := by
  refine ⟨fun _ _ _ => rfl, ?_, fun _ _ => rfl⟩
  intro pgdir isRoot
  rw [Finset.mem_singleton.mp isRoot]
  decide

/-- Page 3 is inserted at the second page of the address space. -/
theorem page_table_map_inserted : ∃ mem, pageStep (fun calls => some (calls + 1)) emptyDirectory (.insert 0 3 4096 0#10) =
    some mem ∧ PageMap {0} (fun calls => some (calls + 1)) mem := by
  have legal : PageLegal {0} emptyDirectory (.insert 0 3 4096 0#10) := by
    refine ⟨by decide, by decide, ?_⟩
    rintro ⟨pgdir, place, names⟩
    have isRoot := isRoot_of_tables names
    cases Finset.mem_singleton.mp isRoot
    have noEntry : ∀ index, emptyDirectory.entry 0 index = none := fun _ => page?_zero
    cases place with
    | root =>
      rw [tables_root isRoot] at names
      cases names
    | dir d1 =>
      rw [tables_dir isRoot, noEntry] at names
      cases names
    | last d1 d0 =>
      rw [tables_last isRoot, Memory.lastTable, noEntry] at names
      cases names
  obtain ⟨mem, _, stepped, _⟩ := @pageStep_frees {0} (fun calls => some (calls + 1)) emptyDirectory _
    emptyDirectory_starts.counted legal
  exact ⟨mem, stepped, page_table_map emptyDirectory_starts (.step .start legal stepped)⟩

end Ucore.Paging
