import Ucore.Mm.PageMap
import Ucore.Mm.UserBytes

/-!
# Page faults

`do_pgfault` looks up the area of the address and maps a new page there, if the entry of
the address is 0. The flags of the entry come from those of the area. An entry that is
valid and has none of `PTE_R`, `PTE_W` and `PTE_X` is no leaf: the processor takes it for
the address of a further table, and the access faults again.

`pgfault_num` is left out, and so is the swapping of pages, which no page takes part in.
-/

namespace Ucore.Paging

open Vmm

/-- `PTE_R`, `PTE_W` and `PTE_X` -/
def pteR : BitVec 10 := 0x002#10
def pteW : BitVec 10 := 0x004#10
def pteX : BitVec 10 := 0x008#10

/-- `READ_WRITE` -/
def readWrite : BitVec 10 := pteR ||| pteW ||| pteV

/-- `VM_EXEC` -/
def vmExec : BitVec 32 := 4#32

/-- The flags of the entry that `do_pgfault` makes in an area. -/
def pgfaultPerm (vma : Vma) : BitVec 10 := if vma.vmFlags &&& vmWrite ≠ 0#32 then pteU ||| readWrite else pteU

/-- `do_pgfault`; `none` is an access through `page`, which is NULL where the entry is not 0. -/
def doPgfault (allocator : Nat → Option Nat) (swapInitOk : Bool) (mm : Mm) (mem : Memory) (pgdir : Nat) (addr : BitVec 64) :
    Option (Int × Mm × Memory) :=
  match findVma mm addr with
  | (none, mm) => some (-eInval, mm, mem)
  | (some vma, mm) =>
      if addr < vma.vmStart then some (-eInval, mm, mem)
      else
        let la := (roundDown addr).toNat
        match getPte allocator true mem pgdir la with
        | (none, mem) => some (-eNoMem, mm, mem)
        | (some (pt, index), mem) =>
            if mem.table pt index = .zero then
              (pgdirAllocPage allocator mem pgdir la (pgfaultPerm vma)).map fun (page, mem) =>
                (if page = none then -eNoMem else 0, mm, mem)
            else if swapInitOk then none
            else some (-eNoMem, mm, mem)

/-- A valid entry with a permission, for accesses of a user. -/
def Pte.Permits (pte : Pte) (flag : BitVec 10) : Prop :=
  pte.flags &&& pteV ≠ 0#10 ∧ pte.flags &&& pteU ≠ 0#10 ∧ pte.flags &&& flag ≠ 0#10

/-- A valid entry that is a leaf. -/
def Pte.IsLeaf (pte : Pte) : Prop := pte.flags &&& pteV ≠ 0#10 ∧ pte.flags &&& (pteR ||| pteW ||| pteX) ≠ 0#10

/-- The entry is a leaf, and it permits what the area permits. -/
structure Resolves (vma : Vma) (pte : Pte) : Prop where
  isLeaf : pte.IsLeaf
  reads : vma.vmFlags &&& vmRead ≠ 0#32 → pte.Permits pteR
  writes : vma.vmFlags &&& vmWrite ≠ 0#32 → pte.Permits pteW
  runs : vma.vmFlags &&& vmExec ≠ 0#32 → pte.Permits pteX

variable {roots : Finset Nat} {allocator : Nat → Option Nat} {mem next : Memory} {pgdir la page : Nat}
variable {mm after : Mm} {vma : Vma} {addr : BitVec 64} {swapInitOk : Bool}

/-! ## The new entry -/

/-- A page that is taken is not mapped. -/
theorem Tree.taken (tree : Tree roots mem) (page : Nat) : Tree roots (mem.taken page) where
  owned := tree.owned.keep fun _ _ _ names isFree => tree.inUse names (Finset.mem_of_mem_erase isFree)
  mapped := fun pgdir isRoot path other names =>
    ⟨fun isFree => (tree.mapped pgdir isRoot path other names).1 (Finset.mem_of_mem_erase isFree),
      (tree.mapped pgdir isRoot path other names).2⟩

/-- `pgdir_alloc_page` stores the entry of the page that it returns. -/
theorem pgdirAllocPage_leaf {perm : BitVec 10} (tree : Tree roots mem) (isRoot : pgdir ∈ roots)
    (zero : mem.leaf pgdir (pathOf la) = .zero)
    (called : pgdirAllocPage allocator mem pgdir la perm = some (some page, next)) :
    next.leaf pgdir (pathOf la) = pteCreate page (pteV ||| perm) := by
  unfold pgdirAllocPage at called
  rcases allocPage_cases allocator mem with ⟨fresh, _, alloc⟩ | alloc
  · rw [alloc] at called
    cases found : getPte allocator true (mem.taken fresh) pgdir la with
    | mk result middle =>
      obtain ⟨grows, isFound⟩ := getPte_grows (tree.taken fresh) isRoot found
      cases result with
      | none =>
        simp only [pageInsert, found, Option.bind_eq_bind, Option.bind_some] at called
        rw [if_pos (by decide), Option.map_eq_some_iff] at called
        obtain ⟨_, _, impossible⟩ := called
        cases impossible
      | some location =>
        obtain ⟨pt, index⟩ := location
        obtain ⟨rfl, isLast⟩ := isFound pt index rfl
        have wasZero : middle.leaf pgdir (pathOf la) = .zero := (grows.leaf pgdir isRoot _).trans zero
        have silent : (middle.addRef fresh 1).entry pt (ptx la) = none := by
          show middle.entry pt (ptx la) = none
          rw [Memory.entry, ← leaf_table isLast, show (pdx1 la, pdx0 la, ptx la) = pathOf la from rfl, wasZero, page?_zero]
        have kept : pageRemovePte (middle.addRef fresh 1) pt (ptx la) = some (middle.addRef fresh 1) := by
          rw [pageRemovePte, silent]
        simp only [pageInsert, found, silent, kept, reduceCtorEq, if_false, Option.map_some, Option.bind_eq_bind,
          Option.bind_some, ne_eq, not_true_eq_false, Option.some.injEq, Prod.mk.injEq] at called
        obtain ⟨rfl, rfl⟩ := called
        have sets : Sets roots pgdir (pathOf la) (pteCreate fresh (pteV ||| perm)) middle
            ((middle.addRef fresh 1).setPte pt (ptx la) (pteCreate fresh (pteV ||| perm))) :=
          grows.tree.onePlace.sets isRoot isLast rfl
        rw [sets.leaf pgdir isRoot, if_pos ⟨rfl, rfl⟩]
  · rw [alloc] at called
    cases called

/-- A user may read and write through the entry of a writable area, and nothing else. -/
theorem writable_flags (page : Nat) : (pteCreate page (pteV ||| (pteU ||| readWrite))).flags = 0x17#10 := rfl

/-- Through the entry of any other area a user may do nothing, and it is no leaf. -/
theorem other_flags (page : Nat) : (pteCreate page (pteV ||| pteU)).flags = 0x11#10 := rfl

theorem other_notLeaf (page : Nat) : ¬ (pteCreate page (pteV ||| pteU)).IsLeaf := by
  unfold Pte.IsLeaf
  rw [other_flags]
  decide

/-- The permissions of the new entry are those of a writable area, or none. -/
theorem resolves_exact (vma : Vma) (page : Nat) : Resolves vma (pteCreate page (pteV ||| pgfaultPerm vma)) ↔
    vma.vmFlags &&& vmWrite ≠ 0#32 ∧ vma.vmFlags &&& vmExec = 0#32 := by
  unfold pgfaultPerm
  by_cases writable : vma.vmFlags &&& vmWrite ≠ 0#32
  · have permits : ∀ flag, (pteCreate page (pteV ||| (pteU ||| readWrite))).Permits flag ↔ 0x17#10 &&& flag ≠ 0#10 := by
      intro flag
      unfold Pte.Permits
      rw [writable_flags]
      simp [pteV, pteU]
    rw [if_pos writable]
    constructor
    · intro resolves
      refine ⟨writable, ?_⟩
      by_contra executable
      exact absurd ((permits pteX).mp (resolves.runs executable)) (by decide)
    · rintro ⟨_, silent⟩
      constructor
      case isLeaf =>
        unfold Pte.IsLeaf
        rw [writable_flags]
        decide
      case reads => exact fun _ => (permits pteR).mpr (by decide)
      case writes => exact fun _ => (permits pteW).mpr (by decide)
      case runs => exact fun executable => absurd silent executable
  · rw [if_neg writable]
    exact ⟨fun resolves => absurd resolves.isLeaf (other_notLeaf page), fun both => absurd both.1 writable⟩

/-! ## Faults -/

/-- The page of an address has one path. -/
theorem pathOf_roundDown (addr : BitVec 64) : pathOf (roundDown addr).toNat = pathOf addr.toNat := by
  apply same_path
  rw [roundDown_toNat]
  simp only [pgsize]
  omega

/-- A fault that returns 0 at an entry that is 0 has stored a new entry there. -/
theorem doPgfault_leaf (disjoint : mm.Disjoint) (tree : Tree roots mem) (isRoot : pgdir ∈ roots)
    (member : vma ∈ mm.mmapList) (contains : vma.Contains addr) (zero : mem.leaf pgdir (pathOf addr.toNat) = .zero)
    (returned : doPgfault allocator swapInitOk mm mem pgdir addr = some (0, after, next)) :
    ∃ page, next.leaf pgdir (pathOf addr.toNat) = pteCreate page (pteV ||| pgfaultPerm vma) := by
  have covers := Vma.contains_iff.mp contains
  rcases disjoint.find_cases addr with ⟨found, inList, coversToo, isFound⟩ | ⟨absent, _⟩
  · obtain rfl := disjoint.unique inList member coversToo covers
    rw [← pathOf_roundDown] at zero ⊢
    rw [doPgfault, isFound] at returned
    simp only [if_neg (BitVec.not_lt.mpr contains.1)] at returned
    cases called : getPte allocator true mem pgdir (roundDown addr).toNat with
    | mk result middle =>
      obtain ⟨grows, isEntry⟩ := getPte_grows tree isRoot called
      rw [called] at returned
      cases result with
      | none =>
        simp only [Option.some.injEq, Prod.mk.injEq] at returned
        exact absurd returned.1 (by decide)
      | some location =>
        obtain ⟨pt, index⟩ := location
        obtain ⟨rfl, isLast⟩ := isEntry pt index rfl
        have isZero := (grows.leaf pgdir isRoot _).trans zero
        have entryZero : middle.table pt (ptx (roundDown addr).toNat) = .zero := (leaf_table isLast _).symm.trans isZero
        simp only [if_pos entryZero] at returned
        obtain ⟨⟨page, last⟩, alloc, result⟩ := Option.map_eq_some_iff.mp returned
        simp only [Prod.mk.injEq] at result
        obtain ⟨isRet, _, rfl⟩ := result
        cases page with
        | none =>
          rw [if_pos rfl] at isRet
          exact absurd isRet (by decide)
        | some page => exact ⟨page, pgdirAllocPage_leaf grows.tree isRoot isZero alloc⟩
  · exact absurd covers (absent vma member)

/-- A fault at an entry that is 0, when it returns 0, makes progress exactly in areas that may be
written and not executed. -/
theorem do_pgfault_progress (disjoint : mm.Disjoint) (tree : Tree roots mem) (isRoot : pgdir ∈ roots)
    (member : vma ∈ mm.mmapList) (contains : vma.Contains addr) (zero : mem.leaf pgdir (pathOf addr.toNat) = .zero)
    (returned : doPgfault allocator swapInitOk mm mem pgdir addr = some (0, after, next)) :
    Resolves vma (next.leaf pgdir (pathOf addr.toNat)) ↔
      vma.vmFlags &&& vmWrite ≠ 0#32 ∧ vma.vmFlags &&& vmExec = 0#32 := by
  obtain ⟨page, isLeaf⟩ := doPgfault_leaf disjoint tree isRoot member contains zero returned
  rw [isLeaf]
  exact resolves_exact vma page

/-! ## One area -/

/-- An area of two megabytes. -/
def oneArea (vmFlags : BitVec 32) : Mm where
  mmapList := [⟨0x200000#64, 0x400000#64, vmFlags⟩]
  mmapCache := none
  mapCount := 1

/-- An empty directory and three free pages. -/
def threePages : Memory where
  table := fun _ _ => .zero
  ref := fun _ => 0
  free := {1, 2, 3}
  calls := 0
  freed := []

theorem oneArea_disjoint (vmFlags : BitVec 32) : (oneArea vmFlags).Disjoint where
  apart := by
    intro vma member other memberToo different
    rw [List.mem_singleton.mp member, List.mem_singleton.mp memberToo] at different
    exact absurd rfl different
  cache := by
    rintro vma ⟨⟩

theorem threePages_starts : Starts {0} threePages := by
  refine ⟨fun _ _ _ => rfl, ?_, fun _ _ => rfl⟩
  intro pgdir isRoot
  rw [Finset.mem_singleton.mp isRoot]
  decide

/-- A page of an area that may be read and written. -/
theorem do_pgfault_progress_writable : ∃ after next,
    doPgfault (fun calls => some (calls + 1)) true (oneArea 3#32) threePages 0 0x200010#64 = some (0, after, next) ∧
      Resolves ⟨0x200000#64, 0x400000#64, 3#32⟩ (next.leaf 0 (pathOf 0x200010)) := by
  obtain ⟨⟨ret, after, next⟩, called, isRet⟩ : ∃ result,
      doPgfault (fun calls => some (calls + 1)) true (oneArea 3#32) threePages 0 0x200010#64 = some result ∧ result.1 = 0 :=
    ⟨_, rfl, rfl⟩
  subst isRet
  refine ⟨after, next, called, ?_⟩
  exact (do_pgfault_progress (oneArea_disjoint 3#32) threePages_starts.counted.toTree (Finset.mem_singleton_self 0)
    List.mem_cons_self (by decide) rfl called).mpr (by decide)

/-- A page of an area that may only be read gets an entry that is no leaf. -/
theorem read_fault_repeats : ∃ after next,
    doPgfault (fun calls => some (calls + 1)) true (oneArea 1#32) threePages 0 0x200010#64 = some (0, after, next) ∧
      (next.leaf 0 (pathOf 0x200010)).page? ≠ none ∧ ¬ (next.leaf 0 (pathOf 0x200010)).IsLeaf ∧
      ¬ Resolves ⟨0x200000#64, 0x400000#64, 1#32⟩ (next.leaf 0 (pathOf 0x200010)) := by
  obtain ⟨⟨ret, after, next⟩, called, isRet⟩ : ∃ result,
      doPgfault (fun calls => some (calls + 1)) true (oneArea 1#32) threePages 0 0x200010#64 = some result ∧ result.1 = 0 :=
    ⟨_, rfl, rfl⟩
  subst isRet
  obtain ⟨page, isLeaf⟩ := @doPgfault_leaf {0} _ _ _ _ _ _ _ _ _ (oneArea_disjoint 1#32) threePages_starts.counted.toTree
    (Finset.mem_singleton_self 0) List.mem_cons_self (by decide) rfl called
  have isLeaf : next.leaf 0 (pathOf 0x200010) = pteCreate page (pteV ||| pteU) := isLeaf
  have silent : ¬ (next.leaf 0 (pathOf 0x200010)).IsLeaf := by
    rw [isLeaf]
    exact other_notLeaf page
  refine ⟨after, next, called, ?_, silent, fun resolves => silent resolves.isLeaf⟩
  rw [isLeaf, page?_create]
  exact Option.some_ne_none page

end Ucore.Paging
