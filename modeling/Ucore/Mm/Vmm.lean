import Mathlib.Data.List.TakeWhile
import Ucore.Library.Spans
import Ucore.Library.Transition
import Ucore.Libs.Error

/-!
# Virtual memory areas

A memory manager of `kern/mm/vmm.c` keeps its areas in a list sorted by start. `mm_map`
adds the area of a range: it looks up the area of the start and asserts that the areas
before and behind the new one do not overlap it.
-/

namespace Ucore.Vmm

open Spans Transition

def pgsize : BitVec 64 := 4096#64
def userBase : BitVec 64 := 0x200000#64
def userTop : BitVec 64 := 0x80000000#64

/-- `ROUNDDOWN` and `ROUNDUP` to pages. -/
def roundDown (addr : BitVec 64) : BitVec 64 := addr - addr % pgsize
def roundUp (addr : BitVec 64) : BitVec 64 := roundDown (addr + pgsize - 1#64)

/-- `USER_ACCESS` -/
def UserAccess (start stop : BitVec 64) : Prop := userBase ≤ start ∧ start < stop ∧ stop ≤ userTop

instance (start stop : BitVec 64) : Decidable (UserAccess start stop) :=
  inferInstanceAs (Decidable (_ ∧ _ ∧ _))

/-- `struct vma_struct` -/
structure Vma where
  vmStart : BitVec 64
  vmEnd : BitVec 64
  vmFlags : BitVec 32
deriving DecidableEq

/-- `vm_start <= addr && addr < vm_end` -/
def Vma.Contains (vma : Vma) (addr : BitVec 64) : Prop := vma.vmStart ≤ addr ∧ addr < vma.vmEnd

instance (vma : Vma) (addr : BitVec 64) : Decidable (vma.Contains addr) :=
  inferInstanceAs (Decidable (_ ∧ _))

/-- The areas of `struct mm_struct`. -/
structure Mm where
  mmapList : List Vma
  mmapCache : Option Vma
  mapCount : Nat

/-- `mm_create`, when there is memory. -/
def mmCreate : Mm where
  mmapList := []
  mmapCache := none
  mapCount := 0

/-- `find_vma` -/
def findVma (mm : Mm) (addr : BitVec 64) : Option Vma × Mm :=
  if ∃ vma ∈ mm.mmapCache, vma.Contains addr then (mm.mmapCache, mm)
  else
    match mm.mmapList.find? fun vma => vma.Contains addr with
    | some vma => (some vma, { mm with mmapCache := some vma })
    | none => (none, mm)

/-- `check_vma_overlap`; `none` is a failed assertion, here and below. -/
def checkVmaOverlap (prev next : Vma) : Option Unit :=
  if prev.vmStart < prev.vmEnd ∧ prev.vmEnd ≤ next.vmStart ∧ next.vmStart < next.vmEnd then some () else none

/-- The check of a neighbour, which may be the head of the list. -/
def checkNeighbour (neighbour : Option Vma) (check : Vma → Option Unit) : Option Unit :=
  (neighbour.map check).getD (some ())

/-- The areas in front of which and behind which `insert_vma_struct` puts a new one. -/
def Mm.before (mm : Mm) (vma : Vma) : List Vma := mm.mmapList.takeWhile fun prev => prev.vmStart ≤ vma.vmStart
def Mm.behind (mm : Mm) (vma : Vma) : List Vma := mm.mmapList.dropWhile fun prev => prev.vmStart ≤ vma.vmStart

/-- `insert_vma_struct` -/
def insertVmaStruct (mm : Mm) (vma : Vma) : Option Mm :=
  if vma.vmStart < vma.vmEnd then do
    checkNeighbour (mm.before vma).getLast? fun prev => checkVmaOverlap prev vma
    checkNeighbour (mm.behind vma).head? fun next => checkVmaOverlap vma next
    some { mm with mmapList := mm.before vma ++ vma :: mm.behind vma, mapCount := mm.mapCount + 1 }
  else none

/-- `mm_map`, which may find no memory, with the area that it stores. -/
def mmMap (memory : Bool) (mm : Mm) (addr len : BitVec 64) (vmFlags : BitVec 32) : Option (Except Int Vma × Mm) :=
  if UserAccess (roundDown addr) (roundUp (addr + len)) then
    let (found, mm) := findVma mm (roundDown addr)
    if ∃ vma ∈ found, vma.vmStart < roundUp (addr + len) then some (.error (-eInval), mm)
    else if memory = false then some (.error (-eNoMem), mm)
    else
      let vma : Vma := { vmStart := roundDown addr, vmEnd := roundUp (addr + len), vmFlags }
      (insertVmaStruct mm vma).map fun mm => (.ok vma, mm)
  else some (.error (-eInval), mm)

/-- A call of `mm_map`. -/
structure MapCall where
  memory : Bool
  addr : BitVec 64
  len : BitVec 64
  vmFlags : BitVec 32

def mapStep (mm : Mm) (call : MapCall) : Option Mm :=
  (mmMap call.memory mm call.addr call.len call.vmFlags).map Prod.snd

/-! ## The areas of a memory manager -/

variable {mm next : Mm} {vma : Vma} {addr len start stop : BitVec 64} {vmFlags : BitVec 32} {memory : Bool}

/-- The addresses of an area. -/
def Vma.span (vma : Vma) : Span where
  start := vma.vmStart.toNat
  size := vma.vmEnd.toNat - vma.vmStart.toNat

/-- The areas are sorted, not empty and disjoint, the cache is one of them, and the count is
right. -/
structure Mm.Ok (mm : Mm) : Prop where
  ordered : Ordered (mm.mmapList.map Vma.span)
  cache : ∀ vma ∈ mm.mmapCache, vma ∈ mm.mmapList
  count : mm.mapCount = mm.mmapList.length

theorem mmCreate_ok : mmCreate.Ok where
  ordered := ordered_nil
  cache := fun _ cached => (nomatch cached)
  count := rfl

theorem Vma.contains_iff : vma.Contains addr ↔ vma.span.Covers addr.toNat := by
  simp only [Vma.Contains, Vma.span, Span.Covers, Span.stop, BitVec.le_def, BitVec.lt_def]
  omega

/-- The areas are not empty. -/
theorem Mm.Ok.nonempty (ok : mm.Ok) (member : vma ∈ mm.mmapList) : vma.vmStart < vma.vmEnd := by
  have positive := ok.ordered.positive vma.span (List.mem_map_of_mem member)
  simp only [Vma.span] at positive
  rw [BitVec.lt_def]
  omega

/-- A lookup finds an area that contains the address, if there is one; it only changes the
cache, to the area found. -/
theorem findVma_cases (ok : mm.Ok) :
    (∃ vma ∈ mm.mmapList, vma.Contains addr ∧ findVma mm addr = (some vma, { mm with mmapCache := some vma })) ∨
      (∀ vma ∈ mm.mmapList, ¬ vma.Contains addr) ∧ findVma mm addr = (none, mm) := by
  unfold findVma
  split
  · rename_i cached
    obtain ⟨vma, isCached, contains⟩ := cached
    refine Or.inl ⟨vma, ok.cache vma isCached, contains, ?_⟩
    obtain ⟨list, cache, count⟩ := mm
    cases isCached
    rfl
  · split
    · rename_i vma found
      refine Or.inl ⟨vma, List.mem_of_find?_eq_some found, ?_, rfl⟩
      simpa using List.find?_some found
    · rename_i absent
      refine Or.inr ⟨fun vma member => ?_, rfl⟩
      simpa using List.find?_eq_none.mp absent vma member

/-! ## A new area -/

/-- The range begins outside the areas and runs into one of them. -/
def RunsInto (mm : Mm) (start stop : BitVec 64) : Prop :=
  (∀ vma ∈ mm.mmapList, ¬ vma.Contains start) ∧ ∃ vma ∈ mm.mmapList, start < vma.vmStart ∧ vma.vmStart < stop

theorem Mm.split (mm : Mm) (vma : Vma) : mm.before vma ++ mm.behind vma = mm.mmapList :=
  List.takeWhile_append_dropWhile

/-- The areas behind a new one start behind its start. -/
theorem dropWhile_behind {areas : List Vma} (ordered : Ordered (areas.map Vma.span)) :
    ∀ other ∈ areas.dropWhile (fun prev => prev.vmStart ≤ vma.vmStart), vma.vmStart < other.vmStart := by
  induction areas with
  | nil => exact fun other member => (nomatch member)
  | cons head rest ih =>
    obtain ⟨_, later, tail⟩ := ordered_cons.mp ordered
    by_cases early : head.vmStart ≤ vma.vmStart
    · rw [List.dropWhile_cons_of_pos (by simpa using early)]
      exact ih tail
    · rw [List.dropWhile_cons_of_neg (by simpa using early)]
      intro other member
      rcases List.mem_cons.mp member with rfl | inRest
      · exact BitVec.not_le.mp early
      · have behind := later other.span (List.mem_map_of_mem inRest)
        simp only [Vma.span, Span.stop] at behind
        rw [BitVec.not_le, BitVec.lt_def] at early
        rw [BitVec.lt_def]
        omega

/-- An area apart from the others fits in its place. -/
theorem Mm.Ok.insert_ordered (ok : mm.Ok) (nonempty : vma.vmStart < vma.vmEnd)
    (apart : ∀ other ∈ mm.mmapList, Apart vma.span other.span) :
    Ordered ((mm.before vma ++ vma :: mm.behind vma).map Vma.span) := by
  have ordered := ok.ordered
  rw [← mm.split vma, List.map_append] at ordered
  rw [List.map_append, List.map_cons]
  apply ordered.between
  · rw [BitVec.lt_def] at nonempty
    simp only [Vma.span]
    omega
  · intro span member
    rw [← List.map_append, mm.split vma] at member
    obtain ⟨other, isArea, rfl⟩ := List.mem_map.mp member
    exact apart other isArea
  · intro span member
    obtain ⟨other, isBefore, rfl⟩ := List.mem_map.mp member
    simpa [BitVec.le_def, Vma.span] using List.mem_takeWhile_imp isBefore
  · intro span member
    obtain ⟨other, isBehind, rfl⟩ := List.mem_map.mp member
    exact Nat.le_of_lt (BitVec.lt_def.mp (dropWhile_behind ok.ordered other isBehind))

/-- Two nonempty areas, one of which ends before the other starts, pass the check. -/
theorem checkVmaOverlap_passes {prev other : Vma} (first : prev.vmStart < prev.vmEnd)
    (second : other.vmStart < other.vmEnd) (apart : prev.span.stop ≤ other.span.start) :
    checkVmaOverlap prev other = some () := by
  apply if_pos
  simp only [Vma.span, Span.stop, BitVec.lt_def, BitVec.le_def] at first second apart ⊢
  omega

theorem checkNeighbour_passes {neighbour : Option Vma} {check : Vma → Option Unit}
    (passes : ∀ vma, neighbour = some vma → check vma = some ()) : checkNeighbour neighbour check = some () := by
  cases neighbour with
  | none => rfl
  | some vma => exact passes vma rfl

/-- An area that fits in its place is put there. -/
theorem insertVmaStruct_exact (ok : mm.Ok) (nonempty : vma.vmStart < vma.vmEnd)
    (ordered : Ordered ((mm.before vma ++ vma :: mm.behind vma).map Vma.span)) :
    insertVmaStruct mm vma =
      some { mm with mmapList := mm.before vma ++ vma :: mm.behind vma, mapCount := mm.mapCount + 1 } := by
  rw [List.map_append, List.map_cons] at ordered
  obtain ⟨_, later, across⟩ := ordered_append.mp ordered
  have above := (ordered_cons.mp later).2.1
  have isArea : ∀ other, other ∈ mm.before vma ∨ other ∈ mm.behind vma → other.vmStart < other.vmEnd := by
    intro other member
    rw [← List.mem_append, mm.split vma] at member
    exact ok.nonempty member
  have front : checkNeighbour (mm.before vma).getLast? (fun prev => checkVmaOverlap prev vma) = some () := by
    apply checkNeighbour_passes
    intro prev isLast
    have member := List.mem_of_getLast? isLast
    apply checkVmaOverlap_passes (isArea prev (Or.inl member)) nonempty
    exact across prev.span (List.mem_map_of_mem member) vma.span List.mem_cons_self
  have back : checkNeighbour (mm.behind vma).head? (fun next => checkVmaOverlap vma next) = some () := by
    apply checkNeighbour_passes
    intro other isHead
    have member := List.mem_of_head? isHead
    apply checkVmaOverlap_passes nonempty (isArea other (Or.inr member))
    exact above other.span (List.mem_map_of_mem member)
  rw [insertVmaStruct, if_pos nonempty, front, back]
  rfl

/-- An area that runs into another one fails an assertion. -/
theorem insertVmaStruct_panics (ok : mm.Ok) {other : Vma} (member : other ∈ mm.mmapList)
    (starts : vma.vmStart < other.vmStart) (early : other.vmStart < vma.vmEnd) : insertVmaStruct mm vma = none := by
  have isBehind : other ∈ mm.behind vma := by
    rw [← mm.split vma] at member
    refine (List.mem_append.mp member).resolve_left fun isBefore => ?_
    have lower := List.mem_takeWhile_imp isBefore
    simp only [decide_eq_true_eq] at lower
    exact BitVec.not_le.mpr starts lower
  have ordered := ok.ordered
  rw [← mm.split vma, List.map_append] at ordered
  have ordered := (ordered_append.mp ordered).2.1
  obtain ⟨head, rest, isHead⟩ := List.exists_cons_of_ne_nil (List.ne_nil_of_mem isBehind)
  have headEarly : head.vmStart < vma.vmEnd := by
    rw [isHead] at isBehind ordered
    rcases List.mem_cons.mp isBehind with rfl | inRest
    · exact early
    · have later := (ordered_cons.mp ordered).2.1 other.span (List.mem_map_of_mem inRest)
      simp only [Vma.span, Span.stop] at later
      rw [BitVec.lt_def] at early ⊢
      omega
  have fails : checkVmaOverlap vma head = none := by
    apply if_neg
    rintro ⟨_, apart, _⟩
    exact BitVec.not_le.mpr headEarly apart
  have nonempty : vma.vmStart < vma.vmEnd := BitVec.lt_trans starts early
  rw [insertVmaStruct, if_pos nonempty, isHead]
  cases checkNeighbour (mm.before vma).getLast? fun prev => checkVmaOverlap prev vma with
  | none => rfl
  | some _ =>
    simp only [List.head?_cons, checkNeighbour, Option.map_some, Option.getD_some, fails, Option.bind_eq_bind,
      Option.bind_some, Option.bind_none]

/-! ## `mm_map` -/

/-- What adding the area of a range does. -/
structure Maps (mm : Mm) (addr len : BitVec 64) (vmFlags : BitVec 32) (vma : Vma) (next : Mm) : Prop where
  start : vma.vmStart = roundDown addr
  stop : vma.vmEnd = roundUp (addr + len)
  flags : vma.vmFlags = vmFlags
  access : UserAccess vma.vmStart vma.vmEnd
  ordered : Ordered (next.mmapList.map Vma.span)
  gains : ∃ before behind, mm.mmapList = before ++ behind ∧ next.mmapList = before ++ vma :: behind
  count : next.mapCount = mm.mapCount + 1
  cache : next.mmapCache = mm.mmapCache

/-- What refusing a range keeps: only the cache may change, to the area of the start. -/
structure Refuses (mm : Mm) (start : BitVec 64) (ret : Int) (next : Mm) : Prop where
  nonzero : ret ≠ 0
  list : next.mmapList = mm.mmapList
  count : next.mapCount = mm.mapCount
  cache : next.mmapCache = mm.mmapCache ∨ ∃ vma ∈ mm.mmapList, vma.Contains start ∧ next.mmapCache = some vma

/-- A range is refused, or it is mapped, or it runs into an area and fails an assertion. -/
theorem mmMap_cases (ok : mm.Ok) (memory : Bool) (addr len : BitVec 64) (vmFlags : BitVec 32) :
    (∃ ret next, mmMap memory mm addr len vmFlags = some (.error ret, next) ∧ Refuses mm (roundDown addr) ret next) ∨
    (∃ vma next, mmMap memory mm addr len vmFlags = some (.ok vma, next) ∧ Maps mm addr len vmFlags vma next) ∨
    RunsInto mm (roundDown addr) (roundUp (addr + len)) ∧ mmMap memory mm addr len vmFlags = none := by
  unfold mmMap
  split
  · rename_i access
    rcases @findVma_cases _ (roundDown addr) ok with ⟨found, member, contains, looked⟩ | ⟨absent, looked⟩
    · have early : found.vmStart < roundUp (addr + len) := Nat.lt_of_le_of_lt contains.1 access.2.1
      have refused : ∃ vma ∈ some found, vma.vmStart < roundUp (addr + len) := ⟨found, rfl, early⟩
      simp only [looked, if_pos refused]
      exact Or.inl ⟨_, _, rfl, by decide, rfl, rfl, Or.inr ⟨found, member, contains, rfl⟩⟩
    · have accepted : ¬ ∃ vma ∈ (none : Option Vma), vma.vmStart < roundUp (addr + len) := fun ⟨_, isNone, _⟩ =>
        (nomatch isNone)
      simp only [looked, if_neg accepted]
      split
      · exact Or.inl ⟨_, _, rfl, by decide, rfl, rfl, Or.inl rfl⟩
      · right
        by_cases runs : RunsInto mm (roundDown addr) (roundUp (addr + len))
        · obtain ⟨_, other, member, starts, early⟩ := id runs
          have panics : insertVmaStruct mm { vmStart := roundDown addr, vmEnd := roundUp (addr + len), vmFlags } = none :=
            insertVmaStruct_panics ok member starts early
          rw [panics]
          exact Or.inr ⟨runs, rfl⟩
        · left
          have nonempty := access.2.1
          have apart : ∀ other ∈ mm.mmapList, Apart (Vma.mk (roundDown addr) (roundUp (addr + len)) vmFlags).span
              other.span := by
            intro other member point inNew inOther
            have contains := absent other member
            have inside : ¬ (roundDown addr < other.vmStart ∧ other.vmStart < roundUp (addr + len)) :=
              fun ⟨starts, early⟩ => runs ⟨absent, other, member, starts, early⟩
            simp only [Vma.Contains, BitVec.le_def, BitVec.lt_def] at contains inside nonempty
            simp only [Vma.span, Span.Covers, Span.stop] at inNew inOther
            omega
          have inserted := insertVmaStruct_exact ok nonempty (ok.insert_ordered nonempty apart)
          rw [inserted]
          exact ⟨_, _, rfl, rfl, rfl, rfl, access, ok.insert_ordered nonempty apart,
            ⟨_, _, (mm.split _).symm, rfl⟩, rfl, rfl⟩
  · exact Or.inl ⟨_, _, rfl, by decide, rfl, rfl, Or.inl rfl⟩

/-- A call of `mm_map` that returns keeps the areas in order. -/
theorem mapStep_ok (ok : mm.Ok) {call : MapCall} (called : mapStep mm call = some next) : next.Ok := by
  obtain ⟨⟨result, after⟩, mapped, rfl⟩ := Option.map_eq_some_iff.mp called
  rcases mmMap_cases ok call.memory call.addr call.len call.vmFlags with
    ⟨ret, next, isRefused, refuses⟩ | ⟨vma, next, isMapped, maps⟩ | ⟨_, panics⟩
  · rw [isRefused] at mapped
    cases mapped
    constructor
    case ordered => exact refuses.list ▸ ok.ordered
    case cache =>
      intro vma cached
      rw [refuses.list]
      rcases refuses.cache with same | ⟨found, member, _, isFound⟩
      · exact ok.cache vma (same ▸ cached)
      · rw [isFound] at cached
        cases cached
        exact member
    case count => rw [refuses.count, refuses.list, ok.count]
  · rw [isMapped] at mapped
    cases mapped
    obtain ⟨before, behind, isBefore, isNext⟩ := maps.gains
    constructor
    case ordered => exact maps.ordered
    case cache =>
      intro other cached
      have member := ok.cache other (maps.cache ▸ cached)
      rw [isBefore] at member
      rw [isNext]
      exact List.mem_append.mpr ((List.mem_append.mp member).imp_right (List.mem_cons_of_mem _))
    case count =>
      rw [maps.count, ok.count, isBefore, isNext]
      simp only [List.length_append, List.length_cons]
      omega
  · rw [panics] at mapped
    cases mapped

theorem reached_ok (reached : Reaches mapStep (fun _ _ => True) mmCreate mm) : mm.Ok :=
  reached.invariant mmCreate_ok fun _ _ _ ok _ called => mapStep_ok ok called

theorem roundDown_toNat (addr : BitVec 64) : (roundDown addr).toNat = addr.toNat / 4096 * 4096 := by
  have rest : (addr % pgsize).toNat = addr.toNat % 4096 := BitVec.toNat_umod
  have small := addr.isLt
  rw [roundDown, BitVec.toNat_sub, rest]
  omega

/-- Rounding in 64 bits, when nothing wraps. -/
theorem round_exact (fits : addr.toNat + len.toNat < 2 ^ 64)
    (access : UserAccess (roundDown addr) (roundUp (addr + len))) :
    (roundDown addr).toNat = addr.toNat / 4096 * 4096 ∧
      (roundUp (addr + len)).toNat = (addr.toNat + len.toNat + 4095) / 4096 * 4096 := by
  refine ⟨roundDown_toNat addr, ?_⟩
  have sum : (addr + len + pgsize - 1#64).toNat = (addr.toNat + len.toNat + 4095) % 2 ^ 64 := by
    simp only [pgsize]
    bv_omega
  have nonempty := access.2.1
  rw [BitVec.lt_def, roundUp, roundDown_toNat, roundDown_toNat, sum] at nonempty
  rw [roundUp, roundDown_toNat, sum]
  omega

end Ucore.Vmm
