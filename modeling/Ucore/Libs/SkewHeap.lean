import Mathlib.Data.Set.Insert
import Ucore.Library.LinkedTree
import Ucore.Library.Transition

/-!
# The skew heap

`libs/skew_heap.h` keeps the processes that are ready in a skew heap: a tree of entries that
point to their children and to their parent. An entry is inserted by merging the heap with it,
and removed by merging its children in its place.

The entries are of any type, and the comparison is a parameter. The recursion is given so many
rounds.
-/

namespace Ucore.SkewHeap

open LinkedTree SkewTree

universe u
variable {α : Type u}

/-- The entries in memory, and the root of the heap. -/
structure Heap (α : Type u) where
  links : α → Links α
  root : Option α

section
variable [DecidableEq α]

/-- `skew_heap_init` -/
def skewHeapInit (links : α → Links α) (a : α) : α → Links α := Function.update links a ⟨none, none, none⟩

/-- `skew_heap_merge` -/
def skewHeapMerge (comp : α → α → Int) : Nat → (α → Links α) → Option α → Option α → Option (Heap α)
  | 0, _, _, _ => none
  | rounds + 1, links, a, b =>
      match a, b with
      | none, b => some ⟨links, b⟩
      | some a, none => some ⟨links, some a⟩
      | some a, some b =>
          if comp a b = -1 then do
            let r := (links a).left
            let ⟨links, l⟩ ← skewHeapMerge comp rounds links (links a).right (some b)
            let links := setLeft links a l
            let links := setRight links a r
            some ⟨hang links l (some a), some a⟩
          else do
            let r := (links b).left
            let ⟨links, l⟩ ← skewHeapMerge comp rounds links (some a) (links b).right
            let links := setLeft links b l
            let links := setRight links b r
            some ⟨hang links l (some b), some b⟩

/-- `skew_heap_insert` -/
def skewHeapInsert (comp : α → α → Int) (rounds : Nat) (heap : Heap α) (b : α) : Option (Heap α) :=
  skewHeapMerge comp rounds (skewHeapInit heap.links b) heap.root (some b)

/-- `skew_heap_remove` -/
def skewHeapRemove (comp : α → α → Int) (rounds : Nat) (heap : Heap α) (b : α) : Option (Heap α) := do
  let p := (heap.links b).parent
  let ⟨links, rep⟩ ← skewHeapMerge comp rounds heap.links (heap.links b).left (heap.links b).right
  let links := hang links rep p
  match p with
  | some p =>
      if (links p).left = some b then some ⟨setLeft links p rep, heap.root⟩
      else some ⟨setRight links p rep, heap.root⟩
  | none => some ⟨links, rep⟩

end

/-! ## Heaps -/

/-- A comparison that is a total preorder and returns -1, 0 or 1. -/
structure Compares (comp : α → α → Int) : Prop where
  values : ∀ a b, comp a b = -1 ∨ comp a b = 0 ∨ comp a b = 1
  swap : ∀ a b, comp b a = -comp a b
  trans : ∀ a b c, comp a b ≤ 0 → comp b c ≤ 0 → comp a c ≤ 0

/-- A heap of some entries: the root leads to a tree that has each entry once, every child points to
its parent, the root to none, and no child is smaller than its parent. The root is a minimum. -/
structure HeapOf (comp : α → α → Int) (heap : Heap α) (members : Set α) (tree : BinaryTree α) : Prop where
  hangs : Hangs heap.links heap.root tree
  noParent : ∀ x ∈ heap.root, (heap.links x).parent = none
  once : (nodes tree).Nodup
  entries : ∀ x, x ∈ nodes tree ↔ x ∈ members
  ordered : Ordered (fun x y => comp y x ≠ -1) tree
  minimum : ∀ x ∈ heap.root, ∀ y ∈ members, comp y x ≠ -1

variable {comp : α → α → Int} {links : α → Links α} {a b : Option α} {first second tree : BinaryTree α}
  {heap next : Heap α} {members : Set α} {x : α}

/-- The test of `skew_heap_merge`. -/
def less (comp : α → α → Int) (a b : α) : Bool := comp a b = -1

theorem Compares.refl (compares : Compares comp) (y : α) : comp y y ≠ -1 := by
  have swapped := compares.swap y y
  omega

theorem Compares.sound (compares : Compares comp) (x y : α) (before : less comp x y = true) : comp y x ≠ -1 := by
  have isLess : comp x y = -1 := by simpa [less] using before
  have swapped := compares.swap x y
  omega

theorem Compares.complete (x y : α) (notBefore : less comp x y = false) : comp x y ≠ -1 := by
  simpa [less] using notBefore

theorem Compares.notLess (compares : Compares comp) (x y : α) : comp y x ≠ -1 ↔ comp x y ≤ 0 := by
  have values := compares.values y x
  have swapped := compares.swap y x
  omega

theorem Compares.transitive (compares : Compares comp) (x y z : α) (first : comp y x ≠ -1) (second : comp z y ≠ -1) :
    comp z x ≠ -1 := by
  rw [compares.notLess] at first second ⊢
  exact compares.trans x y z first second

/-- A heap from its tree; the minimum at the root follows from the order. -/
theorem heapOf (compares : Compares comp) (hangs : Hangs heap.links heap.root tree)
    (noParent : ∀ x ∈ heap.root, (heap.links x).parent = none) (once : (nodes tree).Nodup)
    (entries : ∀ x, x ∈ nodes tree ↔ x ∈ members) (ordered : Ordered (fun x y => comp y x ≠ -1) tree) :
    HeapOf comp heap members tree where
  hangs := hangs
  noParent := noParent
  once := once
  entries := entries
  ordered := ordered
  minimum _ isRoot y member :=
    ordered.minimum compares.refl compares.transitive (hangs.root_eq ▸ isRoot) y ((entries y).mpr member)

variable [DecidableEq α]

/-- The heaps reached from an empty one by inserting entries that are not in the heap and removing
entries that are, with the entries in the heap. -/
inductive Reached (comp : α → α → Int) : Heap α → Set α → Prop where
  | empty (links : α → Links α) : Reached comp ⟨links, none⟩ ∅
  | insert {heap next : Heap α} {members : Set α} {b : α} (reached : Reached comp heap members) (fresh : b ∉ members)
      (returns : Transition.Returns (fun rounds => skewHeapInsert comp rounds heap b) next) :
      Reached comp next (insert b members)
  | remove {heap next : Heap α} {members : Set α} {b : α} (reached : Reached comp heap members) (member : b ∈ members)
      (returns : Transition.Returns (fun rounds => skewHeapRemove comp rounds heap b) next) :
      Reached comp next (members \ {b})

/-! ## Merging -/

/-- The two cases of a round are one: the entry that comes first is given the merged heap and its
old left child. -/
def adopt (a : α) (r : Option α) (heap : Heap α) : Heap α := ⟨attach heap.links a heap.root r, some a⟩

theorem skewHeapMerge_succ (comp : α → α → Int) (rounds : Nat) (links : α → Links α) (a b : α) :
    skewHeapMerge comp (rounds + 1) links (some a) (some b) =
      if comp a b = -1 then
        (skewHeapMerge comp rounds links (links a).right (some b)).map (adopt a (links a).left)
      else (skewHeapMerge comp rounds links (some a) (links b).right).map (adopt b (links b).left) := by
  rw [skewHeapMerge]
  split
  · cases skewHeapMerge comp rounds links (links a).right (some b) <;> rfl
  · cases skewHeapMerge comp rounds links (some a) (links b).right <;> rfl

/-- What merging leaves: the tree with the entries of both, at its root the parent from before, and
all other entries as they were. -/
structure Merged (links : α → Links α) (first second tree : BinaryTree α) (heap : Heap α) : Prop where
  hangs : Hangs heap.links heap.root tree
  entries : (nodes tree).Perm (nodes first ++ nodes second)
  frame : ∀ x, x ∉ nodes first → x ∉ nodes second → heap.links x = links x
  parent : ∀ x ∈ heap.root, (heap.links x).parent = (links x).parent

omit [DecidableEq α] in
theorem Merged.symm (merges : Merged links first second tree heap) : Merged links second first tree heap where
  hangs := merges.hangs
  entries := merges.entries.trans List.perm_append_comm
  frame x notFirst notSecond := merges.frame x notSecond notFirst
  parent := merges.parent

/-- The entry that comes first adopts the heap merged from its right child and another heap. -/
theorem Merged.adopt {left right other : BinaryTree α} (merges : Merged links right other tree heap)
    (hangs : Hangs links (some x) (.node x left right)) (distinct : (nodes (.node x left right) ++ nodes other).Nodup) :
    Merged links (.node x left right) other (.node x tree left) (SkewHeap.adopt x (links x).left heap) := by
  obtain ⟨_, hangsLeft, _, backLeft, _⟩ := hangs
  have entries : (nodes (.node x tree left)).Perm (nodes (.node x left right) ++ nodes other) := by
    rw [nodes_node, nodes_node, List.cons_append, List.append_assoc]
    exact ((merges.entries.append_right _).trans List.perm_append_comm).cons x
  have distinctTree := entries.nodup_iff.mpr distinct
  rw [nodes_node, List.cons_append, List.nodup_cons, List.mem_append, List.mem_append, not_or, not_or,
    List.nodup_append, List.nodup_append] at distinct
  obtain ⟨⟨⟨notLeft, notRight⟩, notOther⟩, ⟨_, _, apart⟩, _, apartOther⟩ := distinct
  have sameLeft : ∀ y ∈ nodes left, heap.links y = links y := fun y member =>
    merges.frame y (fun inRight => apart y member y inRight rfl)
      fun inOther => apartOther y (List.mem_append_left _ member) y inOther rfl
  obtain ⟨hangsAll, others, here⟩ := merges.hangs.attached (hangsLeft.congr sameLeft) distinctTree fun y isTop => by
    rw [sameLeft y (top_mem isTop)]
    exact backLeft y isTop
  refine ⟨hangsAll, entries, fun y notFirst notSecond => ?_, ?_⟩
  · rw [nodes_node, List.mem_cons, List.mem_append, not_or, not_or] at notFirst
    have notRoot : y ∉ heap.root := by
      rw [merges.hangs.root_eq]
      intro isTop
      have member := merges.entries.mem_iff.mp (top_mem isTop)
      rw [List.mem_append] at member
      exact member.elim notFirst.2.2 notSecond
    exact (others y notFirst.1 notRoot).trans (merges.frame y notFirst.2.2 notSecond)
  · rintro _ ⟨⟩
    rw [SkewHeap.adopt, here, merges.frame x notRight notOther]

/-- Merging two heaps leaves the merged tree. -/
theorem skewHeapMerge_exact (comp : α → α → Int) (hangs : Hangs links a first) (hangsToo : Hangs links b second)
    (distinct : (nodes first ++ nodes second).Nodup) :
    ∃ heap, Transition.Returns (fun rounds => skewHeapMerge comp rounds links a b) heap ∧
      Merged links first second (merge (less comp) first second) heap := by
  induction first, second using merge.induct (less comp) generalizing a b with
  | case1 second =>
    obtain rfl : a = none := hangs
    refine ⟨⟨links, b⟩, ⟨1, fun rounds enough => ?_⟩, ?_, nodes_merge .., fun _ _ _ => rfl, fun _ _ => rfl⟩
    · obtain ⟨more, rfl⟩ := Nat.exists_eq_add_of_le' enough
      rfl
    · rw [merge]
      exact hangsToo
  | case2 x left right =>
    obtain rfl : b = none := hangsToo
    obtain rfl := hangs.1
    refine ⟨⟨links, some x⟩, ⟨1, fun rounds enough => ?_⟩, ?_, nodes_merge .., fun _ _ _ => rfl, fun _ _ => rfl⟩
    · obtain ⟨more, rfl⟩ := Nat.exists_eq_add_of_le' enough
      rfl
    · rw [merge]
      exact hangs
  | case3 x left right y left' right' before ih =>
    obtain rfl := hangs.1
    obtain rfl := hangsToo.1
    have isFirst : comp x y = -1 := by simpa [less] using before
    have distinctRest : (nodes right ++ nodes (.node y left' right')).Nodup :=
      distinct.sublist (List.Sublist.append_right ((List.sublist_append_right ..).cons x) _)
    obtain ⟨heap, returns, merges⟩ := ih hangs.2.2.1 hangsToo distinctRest
    refine ⟨adopt x (links x).left heap, (returns.map (adopt x (links x).left)).succ fun rounds => ?_, ?_⟩
    · rw [skewHeapMerge_succ, if_pos isFirst]
    · rw [merge, if_pos before]
      exact merges.adopt hangs distinct
  | case4 x left right y left' right' notBefore ih =>
    obtain rfl := hangs.1
    obtain rfl := hangsToo.1
    have notFirst : ¬ comp x y = -1 := by simpa [less] using notBefore
    have distinctRest : (nodes (.node x left right) ++ nodes right').Nodup :=
      distinct.sublist (List.Sublist.append_left ((List.sublist_append_right ..).cons y) _)
    obtain ⟨heap, returns, merges⟩ := ih hangs hangsToo.2.2.1 distinctRest
    refine ⟨adopt y (links y).left heap, (returns.map (adopt y (links y).left)).succ fun rounds => ?_, ?_⟩
    · rw [skewHeapMerge_succ, if_neg notFirst]
    · rw [merge, if_neg notBefore]
      exact (merges.symm.adopt hangsToo (List.nodup_append_comm.mp distinct)).symm

/-! ## Removing -/

/-- What `skew_heap_remove` stores after merging the children. -/
def splice (p : Option α) (b : α) (a : Option α) (heap : Heap α) : Heap α :=
  let links := hang heap.links heap.root p
  match p with
  | some p => if (links p).left = some b then ⟨setLeft links p heap.root, a⟩ else ⟨setRight links p heap.root, a⟩
  | none => ⟨links, heap.root⟩

theorem skewHeapRemove_eq (comp : α → α → Int) (rounds : Nat) (heap : Heap α) (b : α) :
    skewHeapRemove comp rounds heap b =
      (skewHeapMerge comp rounds heap.links (heap.links b).left (heap.links b).right).map
        (splice (heap.links b).parent b heap.root) := by
  rw [skewHeapRemove]
  cases skewHeapMerge comp rounds heap.links (heap.links b).left (heap.links b).right with
  | none => rfl
  | some merged =>
    cases (heap.links b).parent with
    | none => rfl
    | some p =>
      simp only [Option.bind_eq_bind, Option.bind_some, Option.map_some, splice]
      split <;> rfl

theorem skewHeapRemove_returns {merged : Heap α} (returns : Transition.Returns
      (fun rounds => skewHeapMerge comp rounds heap.links (heap.links x).left (heap.links x).right) merged) :
    Transition.Returns (fun rounds => skewHeapRemove comp rounds heap x)
      (splice (heap.links x).parent x heap.root merged) := by
  simp only [skewHeapRemove_eq]
  exact returns.map _

/-- The children of an entry merged, with the parent of the entry at the root. -/
theorem children_exact (comp : α → α → Int) {left right : BinaryTree α} (hangs : Hangs links (some x) (.node x left right))
    (distinct : (nodes (.node x left right)).Nodup) (p : Option α) :
    ∃ heap, Transition.Returns (fun rounds => skewHeapMerge comp rounds links (links x).left (links x).right) heap ∧
      Hangs (hang heap.links heap.root p) heap.root (merge (less comp) left right) ∧
      (∀ y ∈ heap.root, (hang heap.links heap.root p y).parent = p) ∧
      ∀ y, y ∉ nodes left → y ∉ nodes right → hang heap.links heap.root p y = links y := by
  have distinctChildren := (List.nodup_cons.mp distinct).2
  obtain ⟨heap, returns, merges⟩ := skewHeapMerge_exact comp hangs.2.1 hangs.2.2.1 distinctChildren
  obtain ⟨hung, isParent⟩ := merges.hangs.hung (merges.entries.nodup_iff.mpr distinctChildren) p
  refine ⟨heap, returns, hung, isParent, fun y notLeft notRight => ?_⟩
  have notRoot : y ∉ heap.root := by
    rw [merges.hangs.root_eq]
    intro isTop
    exact (mem_merge.mp (top_mem isTop)).elim notLeft notRight
  rw [hang_of_ne notRoot, merges.frame y notLeft notRight]

/-- An entry that is removed gives its place below its parent to its children, merged; outside of its tree nothing changes
before the parent points to them. -/
theorem child_merged (comp : α → α → Int) {y : α} {left right : BinaryTree α}
    (hangs : Hangs heap.links (some x) (.node x left right)) (distinct : (nodes (.node x left right)).Nodup)
    (isParent : (heap.links x).parent = some y) (above : y ∉ nodes (.node x left right)) :
    ∃ merged, Transition.Returns (fun rounds => skewHeapRemove comp rounds heap x) (splice (some y) x heap.root merged) ∧
      Hangs (hang merged.links merged.root (some y)) merged.root (merge (less comp) left right) ∧
      (∀ z ∈ merged.root, (hang merged.links merged.root (some y) z).parent = some y) ∧
      (∀ z, z ∉ nodes (.node x left right) → hang merged.links merged.root (some y) z = heap.links z) ∧
      y ∉ nodes (merge (less comp) left right) := by
  obtain ⟨merged, returns, hung, backs, frame⟩ := children_exact comp hangs distinct (some y)
  refine ⟨merged, isParent ▸ skewHeapRemove_returns returns, hung, backs, fun z outside => ?_, fun member => above ?_⟩
  · rw [nodes_node, List.mem_cons, List.mem_append, not_or, not_or] at outside
    exact frame z outside.2.1 outside.2.2
  · exact List.mem_cons_of_mem _ (List.mem_append.mpr (mem_merge.mp member))

/-- A left child is removed. -/
theorem remove_left (comp : α → α → Int) {y : α} {left' right' right : BinaryTree α}
    (hangs : Hangs heap.links (some y) (.node y (.node x left' right') right))
    (distinct : (nodes (.node y (.node x left' right') right)).Nodup) :
    ∃ next : α → Links α, Transition.Returns (fun rounds => skewHeapRemove comp rounds heap x) ⟨next, heap.root⟩ ∧
      Hangs next (some y) (.node y (merge (less comp) left' right') right) ∧
      (∀ z, z ∉ nodes (.node y (.node x left' right') right) → next z = heap.links z) ∧
      (next y).parent = (heap.links y).parent := by
  obtain ⟨_, hangsLeft, hangsRight, backLeft, backRight⟩ := hangs
  rw [nodes_node, List.nodup_cons, List.mem_append, not_or, List.nodup_append] at distinct
  obtain ⟨⟨notLeft, notRight⟩, distinctLeft, _, apart⟩ := distinct
  have isLeft := hangsLeft.root_eq
  have isParent := backLeft x rfl
  rw [isLeft] at hangsLeft
  obtain ⟨merged, returns, hung, backs, children, notMerged⟩ := child_merged comp hangsLeft distinctLeft isParent notLeft
  have inRight : ∀ z ∈ nodes right, hang merged.links merged.root (some y) z = heap.links z := fun z member =>
    children z fun inLeft => apart z inLeft z member rfl
  have here := children y notLeft
  refine ⟨setLeft (hang merged.links merged.root (some y)) y merged.root, ?_, hung.withLeft ?_ notMerged notRight backs ?_,
    fun z outside => ?_, ?_⟩
  · rwa [splice, here, if_pos (show (heap.links y).left = some x from isLeft)] at returns
  · rw [here]
    exact hangsRight.congr inRight
  · intro z isTop
    rw [inRight z (top_mem isTop)]
    exact backRight z isTop
  · rw [nodes_node, List.mem_cons, List.mem_append, not_or, not_or] at outside
    rw [setLeft_of_ne outside.1, children z outside.2.1]
  · rw [setLeft_parent, here]

/-- A right child is removed. -/
theorem remove_right (comp : α → α → Int) {y : α} {left left' right' : BinaryTree α}
    (hangs : Hangs heap.links (some y) (.node y left (.node x left' right')))
    (distinct : (nodes (.node y left (.node x left' right'))).Nodup) :
    ∃ next : α → Links α, Transition.Returns (fun rounds => skewHeapRemove comp rounds heap x) ⟨next, heap.root⟩ ∧
      Hangs next (some y) (.node y left (merge (less comp) left' right')) ∧
      (∀ z, z ∉ nodes (.node y left (.node x left' right')) → next z = heap.links z) ∧
      (next y).parent = (heap.links y).parent := by
  obtain ⟨_, hangsLeft, hangsRight, backLeft, backRight⟩ := hangs
  rw [nodes_node, List.nodup_cons, List.mem_append, not_or, List.nodup_append] at distinct
  obtain ⟨⟨notLeft, notRight⟩, _, distinctRight, apart⟩ := distinct
  have isRight := hangsRight.root_eq
  have isParent := backRight x rfl
  rw [isRight] at hangsRight
  obtain ⟨merged, returns, hung, backs, children, notMerged⟩ := child_merged comp hangsRight distinctRight isParent notRight
  have inLeft : ∀ z ∈ nodes left, hang merged.links merged.root (some y) z = heap.links z := fun z member =>
    children z fun inRight => apart z member z inRight rfl
  have here := children y notRight
  have notTop : ¬ (heap.links y).left = some x := by
    rw [hangsLeft.root_eq]
    exact fun isTop => apart x (top_mem isTop) x List.mem_cons_self rfl
  refine ⟨setRight (hang merged.links merged.root (some y)) y merged.root, ?_, Hangs.withRight ?_ hung notLeft notMerged ?_ backs,
    fun z outside => ?_, ?_⟩
  · rwa [splice, here, if_neg notTop] at returns
  · rw [here]
    exact hangsLeft.congr inLeft
  · intro z isTop
    rw [inLeft z (top_mem isTop)]
    exact backLeft z isTop
  · rw [nodes_node, List.mem_cons, List.mem_append, not_or, not_or] at outside
    rw [setRight_of_ne outside.1, children z outside.2.2]
  · rw [setRight_parent, here]

/-- An entry below the root is removed; outside of the tree nothing changes. -/
theorem remove_inside (comp : α → α → Int) {root : Option α} (hangs : Hangs heap.links root tree) (distinct : (nodes tree).Nodup)
    (inside : x ∈ nodes tree) (notTop : x ∉ top tree) :
    ∃ next : α → Links α, Transition.Returns (fun rounds => skewHeapRemove comp rounds heap x) ⟨next, heap.root⟩ ∧
      Hangs next root (remove (less comp) x tree) ∧ (∀ y, y ∉ nodes tree → next y = heap.links y) ∧
      ∀ y ∈ root, (next y).parent = (heap.links y).parent := by
  induction tree generalizing root with
  | nil => cases inside
  | node y left right ihLeft ihRight =>
    have notHere : y ≠ x := fun same => notTop (congrArg some same)
    obtain ⟨rfl, hangsLeft, hangsRight, backLeft, backRight⟩ := hangs
    have parts := distinct
    rw [nodes_node, List.nodup_cons, List.mem_append, not_or, List.nodup_append] at parts
    obtain ⟨⟨notLeft, notRight⟩, distinctLeft, distinctRight, apart⟩ := parts
    rw [nodes_node, List.mem_cons, List.mem_append, or_iff_right (Ne.symm notHere)] at inside
    rw [remove, if_neg notHere]
    cases inside with
    | inl inLeft =>
      have absent : x ∉ nodes right := fun inRight => apart x inLeft x inRight rfl
      rw [remove_of_not_mem absent]
      by_cases isTop : x ∈ top left
      · cases left with
        | nil => cases isTop
        | node z left' right' =>
          obtain rfl : z = x := Option.some.inj isTop
          obtain ⟨next, returns, hung, frame, parent⟩ :=
            remove_left comp (Hangs.node hangsLeft hangsRight backLeft backRight) distinct
          rw [remove, if_pos rfl]
          refine ⟨next, returns, hung, frame, ?_⟩
          rintro _ ⟨⟩
          exact parent
      · obtain ⟨next, returns, hung, frame, parent⟩ := ihLeft hangsLeft distinctLeft inLeft isTop
        have here := frame y notLeft
        have inRight : ∀ z ∈ nodes right, next z = heap.links z := fun z member =>
          frame z fun inLeft => apart z inLeft z member rfl
        refine ⟨next, returns, Hangs.node ?_ ?_ (fun z isRoot => ?_) (fun z isRoot => ?_), fun z outside => ?_, ?_⟩
        · rw [here]
          exact hung
        · rw [here]
          exact hangsRight.congr inRight
        · rw [← hung.root_eq] at isRoot
          rw [parent z isRoot]
          exact backLeft z (hangsLeft.root_eq ▸ isRoot)
        · rw [inRight z (top_mem isRoot)]
          exact backRight z isRoot
        · rw [nodes_node, List.mem_cons, List.mem_append, not_or, not_or] at outside
          exact frame z outside.2.1
        · rintro _ ⟨⟩
          rw [here]
    | inr inRight =>
      have absent : x ∉ nodes left := fun inLeft => apart x inLeft x inRight rfl
      rw [remove_of_not_mem absent]
      by_cases isTop : x ∈ top right
      · cases right with
        | nil => cases isTop
        | node z left' right' =>
          obtain rfl : z = x := Option.some.inj isTop
          obtain ⟨next, returns, hung, frame, parent⟩ :=
            remove_right comp (Hangs.node hangsLeft hangsRight backLeft backRight) distinct
          rw [remove, if_pos rfl]
          refine ⟨next, returns, hung, frame, ?_⟩
          rintro _ ⟨⟩
          exact parent
      · obtain ⟨next, returns, hung, frame, parent⟩ := ihRight hangsRight distinctRight inRight isTop
        have here := frame y notRight
        have inLeft : ∀ z ∈ nodes left, next z = heap.links z := fun z member =>
          frame z fun inRight => apart z member z inRight rfl
        refine ⟨next, returns, Hangs.node ?_ ?_ (fun z isRoot => ?_) (fun z isRoot => ?_), fun z outside => ?_, ?_⟩
        · rw [here]
          exact hangsLeft.congr inLeft
        · rw [here]
          exact hung
        · rw [inLeft z (top_mem isRoot)]
          exact backLeft z isRoot
        · rw [← hung.root_eq] at isRoot
          rw [parent z isRoot]
          exact backRight z (hangsRight.root_eq ▸ isRoot)
        · rw [nodes_node, List.mem_cons, List.mem_append, not_or, not_or] at outside
          exact frame z outside.2.2
        · rintro _ ⟨⟩
          rw [here]

/-! ## Runs -/

/-- An entry that is not in the heap is inserted. -/
theorem insert_exact (compares : Compares comp) (isHeap : HeapOf comp heap members tree) (fresh : x ∉ members) :
    ∃ next tree', Transition.Returns (fun rounds => skewHeapInsert comp rounds heap x) next ∧
      HeapOf comp next (insert x members) tree' := by
  have absent : x ∉ nodes tree := fun member => fresh ((isHeap.entries x).mp member)
  have others : ∀ y ∈ nodes tree, skewHeapInit heap.links x y = heap.links y := by
    intro y member
    have different : y ≠ x := fun same => absent (same ▸ member)
    exact Function.update_of_ne different ..
  have here : skewHeapInit heap.links x x = ⟨none, none, none⟩ := Function.update_self ..
  have single : Hangs (skewHeapInit heap.links x) (some x) (.node x .nil .nil) := by
    refine Hangs.node ?_ ?_ nofun nofun
    · rw [here]
      rfl
    · rw [here]
      rfl
  have distinct : (nodes tree ++ nodes (.node x .nil .nil)).Nodup := by
    refine List.nodup_append.mpr ⟨isHeap.once, by simp, fun y inTree z isX same => ?_⟩
    simp only [nodes_node, nodes_nil, List.append_nil, List.mem_singleton] at isX
    exact absent ((same.trans isX) ▸ inTree)
  obtain ⟨next, returns, merges⟩ := skewHeapMerge_exact comp (isHeap.hangs.congr others) single distinct
  refine ⟨next, _, returns, heapOf compares merges.hangs (fun y isRoot => ?_) (merges.entries.nodup_iff.mpr distinct)
    (fun y => ?_) (ordered_merge compares.sound Compares.complete isHeap.ordered ⟨nofun, nofun, trivial, trivial⟩)⟩
  · rw [merges.parent y isRoot]
    rw [merges.hangs.root_eq] at isRoot
    cases top_merge isRoot with
    | inl isTop =>
      rw [others y (top_mem isTop)]
      exact isHeap.noParent y (isHeap.hangs.root_eq ▸ isTop)
    | inr isTop =>
      cases isTop
      rw [here]
  · rw [merges.entries.mem_iff, List.mem_append, isHeap.entries, Set.mem_insert_iff, or_comm]
    simp

/-- A member of the heap is removed, wherever it is. -/
theorem remove_exact (compares : Compares comp) (isHeap : HeapOf comp heap members tree) (member : x ∈ members) :
    ∃ next tree', Transition.Returns (fun rounds => skewHeapRemove comp rounds heap x) next ∧
      HeapOf comp next (members \ {x}) tree' := by
  have entries := nodes_remove (less comp) x isHeap.once
  have once := entries.nodup_iff.mpr (isHeap.once.erase x)
  have ordered := (ordered_remove compares.sound Compares.complete compares.transitive isHeap.ordered (x := x)).1
  have left' : ∀ y, y ∈ nodes (remove (less comp) x tree) ↔ y ∈ members \ {x} := by
    intro y
    rw [entries.mem_iff, isHeap.once.mem_erase_iff, isHeap.entries, Set.mem_sdiff, Set.mem_singleton_iff, and_comm]
  by_cases isTop : x ∈ top tree
  · -- the root is removed, and has no parent
    obtain ⟨hangs, noParent, distinct, _, _, _⟩ := isHeap
    cases tree with
    | nil => cases isTop
    | node y left right =>
      obtain rfl : y = x := Option.some.inj isTop
      have isRoot := hangs.root_eq
      rw [isRoot] at hangs
      obtain ⟨merged, returns, hung, noParentToo, _⟩ := children_exact comp hangs distinct none
      have removed := skewHeapRemove_returns returns
      rw [noParent y isRoot, splice] at removed
      rw [remove, if_pos rfl] at once ordered left'
      exact ⟨_, _, removed, heapOf compares hung noParentToo once left' ordered⟩
  · obtain ⟨next, returns, hung, _, parent⟩ :=
      remove_inside comp isHeap.hangs isHeap.once ((isHeap.entries x).mpr member) isTop
    refine ⟨_, _, returns, heapOf compares hung (fun y isRoot => ?_) once left' ordered⟩
    rw [parent y isRoot]
    exact isHeap.noParent y isRoot

/-- The comparison of numbers. -/
def compareNumbers (a b : Nat) : Int := if a < b then -1 else if b < a then 1 else 0

theorem compareNumbers_exact : Compares compareNumbers where
  values a b := by
    unfold compareNumbers
    split_ifs <;> simp
  swap a b := by
    unfold compareNumbers
    split_ifs <;> omega
  trans a b c := by
    unfold compareNumbers
    split_ifs <;> omega

end Ucore.SkewHeap
