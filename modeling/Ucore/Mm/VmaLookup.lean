import Ucore.Mm.UserMem

/-!
# Lookups of areas

`find_vma` looks at the area that it found last before it searches the list. Inserts and
lookups come in any order; an insert fails an assertion if the new area overlaps a neighbour.
-/

namespace Ucore.Vmm

open Spans Transition

/-- A call of `insert_vma_struct` or `find_vma`. -/
inductive VmaCall where
  | insertVmaStruct (vma : Vma)
  | findVma (addr : BitVec 64)

/-- One call; `none` is a failed assertion. -/
def vmaStep (mm : Mm) : VmaCall → Option Mm
  | .insertVmaStruct vma => insertVmaStruct mm vma
  | .findVma addr => some (findVma mm addr).2

variable {mm next : Mm} {vma other : Vma} {addr : BitVec 64}

/-! ## Inserts -/

theorem checkVmaOverlap_some {prev : Vma} (passes : checkVmaOverlap prev other = some ()) :
    prev.vmStart < prev.vmEnd ∧ prev.vmEnd ≤ other.vmStart ∧ other.vmStart < other.vmEnd := by
  unfold checkVmaOverlap at passes
  split at passes
  · assumption
  · cases passes

/-- The check of a neighbour that is there. -/
theorem checkNeighbour_some {check : Vma → Option Unit} (passes : checkNeighbour (some vma) check = some ()) :
    check vma = some () :=
  passes

/-- Areas that end in front of the last one end in front of what is behind it. -/
theorem stop_le_last {areas : List Vma} {last : Vma} (ordered : Ordered (areas.map Vma.span))
    (isLast : areas.getLast? = some last) (member : vma ∈ areas) : vma.span.stop ≤ last.span.stop := by
  obtain ⟨front, rfl⟩ := List.getLast?_eq_some_iff.mp isLast
  rw [List.map_append] at ordered
  obtain ⟨_, lasts, across⟩ := ordered_append.mp ordered
  have positive := lasts.positive last.span List.mem_cons_self
  rcases List.mem_append.mp member with inFront | isSame
  · have before := across vma.span (List.mem_map_of_mem inFront) last.span List.mem_cons_self
    simp only [Span.stop] at before ⊢
    omega
  · rw [List.mem_singleton.mp isSame]

/-- Areas behind the first one start behind it. -/
theorem head_le_start {areas : List Vma} {head : Vma} (ordered : Ordered (areas.map Vma.span))
    (isHead : areas.head? = some head) (member : vma ∈ areas) : head.span.start ≤ vma.span.start := by
  obtain ⟨rest, rfl⟩ := List.head?_eq_some_iff.mp isHead
  obtain ⟨positive, later, _⟩ := ordered_cons.mp ordered
  rcases List.mem_cons.mp member with rfl | inRest
  · exact Nat.le_refl _
  · have behind := later vma.span (List.mem_map_of_mem inRest)
    simp only [Span.stop] at behind
    omega

/-- An insert that passes its checks keeps the areas in order. -/
theorem insertVmaStruct_ok (ok : mm.Ok) (inserted : insertVmaStruct mm vma = some next) : next.Ok := by
  unfold insertVmaStruct at inserted
  split at inserted
  · rename_i nonempty
    obtain ⟨_, front, rest⟩ := Option.bind_eq_some_iff.mp inserted
    obtain ⟨_, back, same⟩ := Option.bind_eq_some_iff.mp rest
    obtain rfl := Option.some.inj same
    have ordered := ok.ordered
    rw [← mm.split vma, List.map_append] at ordered
    obtain ⟨before, behind, _⟩ := ordered_append.mp ordered
    have ends : ∀ prev ∈ mm.before vma, prev.span.stop ≤ vma.span.start := by
      intro prev member
      cases isLast : (mm.before vma).getLast? with
      | none => exact absurd member (List.getLast?_eq_none_iff.mp isLast ▸ List.not_mem_nil)
      | some last =>
        rw [isLast] at front
        obtain ⟨positive, apart, _⟩ := checkVmaOverlap_some (checkNeighbour_some front)
        have below := stop_le_last before isLast member
        rw [BitVec.lt_def] at positive
        rw [BitVec.le_def] at apart
        simp only [Vma.span, Span.stop] at below ⊢
        omega
    have starts : ∀ later ∈ mm.behind vma, vma.span.stop ≤ later.span.start := by
      intro later member
      cases isHead : (mm.behind vma).head? with
      | none => exact absurd member (List.head?_eq_none_iff.mp isHead ▸ List.not_mem_nil)
      | some head =>
        rw [isHead] at back
        obtain ⟨positive, apart, _⟩ := checkVmaOverlap_some (checkNeighbour_some back)
        have above := head_le_start behind isHead member
        rw [BitVec.lt_def] at positive
        rw [BitVec.le_def] at apart
        simp only [Vma.span, Span.stop] at above ⊢
        omega
    constructor
    case ordered =>
      rw [BitVec.lt_def] at nonempty
      refine ok.insert_ordered nonempty fun other member => ?_
      rw [← mm.split vma] at member
      rcases List.mem_append.mp member with isBefore | isBehind
      · exact (apart_of_le (ends other isBefore)).symm
      · exact apart_of_le (starts other isBehind)
    case cache =>
      intro cached isCached
      have member := ok.cache cached isCached
      rw [← mm.split vma] at member
      exact List.mem_append.mpr ((List.mem_append.mp member).imp_right (List.mem_cons_of_mem _))
    case count =>
      have length := congrArg List.length (mm.split vma)
      rw [List.length_append] at length
      simp only [ok.count, List.length_append, List.length_cons]
      omega
  · cases inserted

/-! ## Lookups -/

theorem findVma_ok (ok : mm.Ok) (addr : BitVec 64) : (findVma mm addr).2.Ok := by
  rcases @findVma_cases mm addr ok with ⟨vma, member, _, isFound⟩ | ⟨_, isFound⟩
  · rw [isFound]
    exact ok.cached member
  · rw [isFound]
    exact ok

/-- Every call keeps the areas in order and the cache among them. -/
theorem vmaStep_ok (ok : mm.Ok) {call : VmaCall} (called : vmaStep mm call = some next) : next.Ok := by
  cases call with
  | insertVmaStruct vma => exact insertVmaStruct_ok ok called
  | findVma addr =>
    obtain rfl := Option.some.inj called
    exact findVma_ok ok addr

/-- A lookup finds exactly the area of the list that contains the address. -/
theorem findVma_exact (ok : mm.Ok) (addr : BitVec 64) (vma : Vma) :
    (findVma mm addr).1 = some vma ↔ vma ∈ mm.mmapList ∧ vma.Contains addr := by
  rcases @findVma_cases mm addr ok with ⟨found, member, contains, isFound⟩ | ⟨absent, isFound⟩
  · rw [isFound]
    constructor
    · intro same
      obtain rfl := Option.some.inj same
      exact ⟨member, contains⟩
    · rintro ⟨memberToo, containsToo⟩
      rw [ok.contains_unique member memberToo contains containsToo]
  · rw [isFound]
    constructor
    · rintro ⟨⟩
    · rintro ⟨member, contains⟩
      exact absurd contains (absent vma member)

/-- Whatever inserts and lookups were made, a lookup finds the one area of the list that
contains the address, or NULL if there is none. -/
theorem find_vma_transparent (mm : Mm) (reached : Reaches vmaStep (fun _ _ => True) mmCreate mm) (addr : BitVec 64) :
    (∀ vma ∈ mm.mmapList, vma.Contains addr →
      (findVma mm addr).1 = some vma ∧ ∀ other ∈ mm.mmapList, other.Contains addr → other = vma) ∧
        ((∀ vma ∈ mm.mmapList, ¬ vma.Contains addr) → (findVma mm addr).1 = none) := by
  have ok : mm.Ok := reached.invariant mmCreate_ok fun _ _ _ ok _ called => vmaStep_ok ok called
  constructor
  · intro vma member contains
    refine ⟨(findVma_exact ok addr vma).mpr ⟨member, contains⟩, fun other memberToo containsToo => ?_⟩
    exact ok.contains_unique memberToo member containsToo contains
  · intro absent
    cases isFound : (findVma mm addr).1 with
    | none => rfl
    | some vma =>
      obtain ⟨member, contains⟩ := (findVma_exact ok addr vma).mp isFound
      exact absurd contains (absent vma member)

/-- Two areas and a lookup that leaves the first one in the cache; a second lookup finds the
other one. -/
theorem find_vma_transparent_two : ∃ mm vma, Reaches vmaStep (fun _ _ => True) mmCreate mm ∧ mm.mmapCache ≠ none ∧
    mm.mmapCache ≠ some vma ∧ (findVma mm 0x402000#64).1 = some vma := by
  have completes : (run vmaStep [.insertVmaStruct ⟨0x400000#64, 0x401000#64, 1#32⟩,
      .insertVmaStruct ⟨0x402000#64, 0x403000#64, 3#32⟩, .findVma 0x400010#64] mmCreate).map
        (fun mm => (mm.mmapList, mm.mmapCache)) =
      some ([⟨0x400000#64, 0x401000#64, 1#32⟩, ⟨0x402000#64, 0x403000#64, 3#32⟩],
        some ⟨0x400000#64, 0x401000#64, 1#32⟩) := by
    decide
  obtain ⟨mm, ran, results⟩ := Option.map_eq_some_iff.mp completes
  obtain ⟨areas, cached⟩ := Prod.mk.inj results
  have reached := run_reaches _ _ _ ran
  refine ⟨mm, ⟨0x402000#64, 0x403000#64, 3#32⟩, reached, by rw [cached]; decide, by rw [cached]; decide, ?_⟩
  have found := (find_vma_transparent mm reached 0x402000#64).1 ⟨0x402000#64, 0x403000#64, 3#32⟩
  rw [areas] at found
  exact (found (by decide) (by decide)).1

end Ucore.Vmm
