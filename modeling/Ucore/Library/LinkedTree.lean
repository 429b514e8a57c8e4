import Mathlib.Logic.Function.Basic
import Ucore.Library.SkewTree

/-!
# Trees linked in memory

The nodes of a binary tree point to their children and to their parent. `Hangs` says that a
pointer leads to a tree: every node points to its children, and every child points back. The
parent of the root is left open, so that a tree can be hung somewhere else by storing one
pointer.
-/

namespace LinkedTree

open SkewTree

universe u
variable {α : Type u}

/-- The pointers of a node. -/
structure Links (α : Type u) where
  parent : Option α
  left : Option α
  right : Option α

/-- A pointer that leads to a tree. -/
def Hangs (links : α → Links α) : Option α → BinaryTree α → Prop
  | root, .nil => root = none
  | root, .node x left right =>
      root = some x ∧ Hangs links (links x).left left ∧ Hangs links (links x).right right ∧
        (∀ y ∈ top left, (links y).parent = some x) ∧ ∀ y ∈ top right, (links y).parent = some x

variable {links next : α → Links α} {root parent : Option α} {x : α} {tree left right : BinaryTree α}

/-- The pointer is to the root. -/
theorem Hangs.root_eq (hangs : Hangs links root tree) : root = top tree := by
  cases tree with
  | nil => exact hangs
  | node x left right => exact hangs.1

/-- Memory that agrees in the nodes of a tree. -/
theorem Hangs.congr (hangs : Hangs links root tree) (same : ∀ x ∈ nodes tree, next x = links x) : Hangs next root tree := by
  induction tree generalizing root with
  | nil => exact hangs
  | node x left right ihLeft ihRight =>
    obtain ⟨isRoot, hangsLeft, hangsRight, backLeft, backRight⟩ := hangs
    have here := same x List.mem_cons_self
    have inLeft : ∀ y ∈ nodes left, next y = links y := fun y member =>
      same y (List.mem_cons_of_mem _ (List.mem_append_left _ member))
    have inRight : ∀ y ∈ nodes right, next y = links y := fun y member =>
      same y (List.mem_cons_of_mem _ (List.mem_append_right _ member))
    refine ⟨isRoot, ?_, ?_, fun y isTop => ?_, fun y isTop => ?_⟩
    · rw [here]
      exact ihLeft hangsLeft inLeft
    · rw [here]
      exact ihRight hangsRight inRight
    · rw [inLeft y (top_mem isTop)]
      exact backLeft y isTop
    · rw [inRight y (top_mem isTop)]
      exact backRight y isTop

/-- Two children under a node, which points to them. -/
theorem Hangs.node (hangsLeft : Hangs links (links x).left left) (hangsRight : Hangs links (links x).right right)
    (backLeft : ∀ y ∈ top left, (links y).parent = some x) (backRight : ∀ y ∈ top right, (links y).parent = some x) :
    Hangs links (some x) (.node x left right) :=
  ⟨rfl, hangsLeft, hangsRight, backLeft, backRight⟩

/-- A node outside of two trees is given them as its children, which point to it already. -/
theorem Hangs.over {leftRoot rightRoot : Option α} (hangsLeft : Hangs links leftRoot left)
    (hangsRight : Hangs links rightRoot right) (notLeft : x ∉ nodes left) (notRight : x ∉ nodes right)
    (backLeft : ∀ y ∈ top left, (links y).parent = some x) (backRight : ∀ y ∈ top right, (links y).parent = some x)
    (isLeft : (next x).left = leftRoot) (isRight : (next x).right = rightRoot) (others : ∀ y, y ≠ x → next y = links y) :
    Hangs next (some x) (.node x left right) := by
  have inLeft : ∀ y ∈ nodes left, next y = links y := fun y member => others y fun same => notLeft (same ▸ member)
  have inRight : ∀ y ∈ nodes right, next y = links y := fun y member => others y fun same => notRight (same ▸ member)
  refine Hangs.node ?_ ?_ (fun y isTop => ?_) (fun y isTop => ?_)
  · rw [isLeft]
    exact hangsLeft.congr inLeft
  · rw [isRight]
    exact hangsRight.congr inRight
  · rw [inLeft y (top_mem isTop)]
    exact backLeft y isTop
  · rw [inRight y (top_mem isTop)]
    exact backRight y isTop

section
variable [DecidableEq α]

/-- Store the parent of a node. -/
def setParent (links : α → Links α) (x : α) (parent : Option α) : α → Links α :=
  Function.update links x { links x with parent := parent }

/-- Store the left child of a node. -/
def setLeft (links : α → Links α) (x : α) (left : Option α) : α → Links α :=
  Function.update links x { links x with left := left }

/-- Store the right child of a node. -/
def setRight (links : α → Links α) (x : α) (right : Option α) : α → Links α :=
  Function.update links x { links x with right := right }

/-- Store the parent of a node, unless the pointer to the node is NULL. -/
def hang (links : α → Links α) (root parent : Option α) : α → Links α :=
  match root with
  | some x => setParent links x parent
  | none => links

theorem setParent_of_ne {y : α} (different : y ≠ x) : setParent links x parent y = links y :=
  Function.update_of_ne different ..

theorem setLeft_of_ne {y : α} {left : Option α} (different : y ≠ x) : setLeft links x left y = links y :=
  Function.update_of_ne different ..

theorem setRight_of_ne {y : α} {right : Option α} (different : y ≠ x) : setRight links x right y = links y :=
  Function.update_of_ne different ..

@[simp] theorem setParent_parent : (setParent links x parent x).parent = parent := by
  simp [setParent]

@[simp] theorem setParent_left (links : α → Links α) (x : α) (parent : Option α) (y : α) :
    (setParent links x parent y).left = (links y).left := by
  by_cases here : y = x
  · subst here
    simp [setParent]
  · rw [setParent_of_ne here]

@[simp] theorem setParent_right (links : α → Links α) (x : α) (parent : Option α) (y : α) :
    (setParent links x parent y).right = (links y).right := by
  by_cases here : y = x
  · subst here
    simp [setParent]
  · rw [setParent_of_ne here]

@[simp] theorem setLeft_parent (links : α → Links α) (x : α) (left : Option α) (y : α) :
    (setLeft links x left y).parent = (links y).parent := by
  by_cases here : y = x
  · subst here
    simp [setLeft]
  · rw [setLeft_of_ne here]

@[simp] theorem setRight_parent (links : α → Links α) (x : α) (right : Option α) (y : α) :
    (setRight links x right y).parent = (links y).parent := by
  by_cases here : y = x
  · subst here
    simp [setRight]
  · rw [setRight_of_ne here]

/-- Only the root is hung somewhere else. -/
theorem hang_of_ne {y : α} (notRoot : y ∉ root) : hang links root parent y = links y := by
  cases root with
  | none => rfl
  | some x => exact setParent_of_ne fun same => notRoot (congrArg some same.symm)

/-- The root of a tree is hung somewhere else. -/
theorem Hangs.hung (hangs : Hangs links root tree) (distinct : (nodes tree).Nodup) (parent : Option α) :
    Hangs (hang links root parent) root tree ∧ ∀ x ∈ root, (hang links root parent x).parent = parent := by
  cases tree with
  | nil =>
    obtain rfl : root = none := hangs
    exact ⟨rfl, nofun⟩
  | node x left right =>
    obtain ⟨rfl, hangsLeft, hangsRight, backLeft, backRight⟩ := hangs
    rw [nodes_node, List.nodup_cons, List.mem_append, not_or] at distinct
    obtain ⟨⟨notLeft, notRight⟩, _⟩ := distinct
    constructor
    · exact hangsLeft.over hangsRight notLeft notRight backLeft backRight (setParent_left ..) (setParent_right ..)
        fun y different => setParent_of_ne different
    · rintro _ ⟨⟩
      exact setParent_parent

/-- A node is given another left child, which points to it already. -/
theorem Hangs.withLeft {leftRoot : Option α} (hangsLeft : Hangs links leftRoot left)
    (hangsRight : Hangs links (links x).right right) (notLeft : x ∉ nodes left) (notRight : x ∉ nodes right)
    (backLeft : ∀ y ∈ leftRoot, (links y).parent = some x) (backRight : ∀ y ∈ top right, (links y).parent = some x) :
    Hangs (setLeft links x leftRoot) (some x) (.node x left right) := by
  have here : setLeft links x leftRoot x = { links x with left := leftRoot } := Function.update_self ..
  exact hangsLeft.over hangsRight notLeft notRight (hangsLeft.root_eq ▸ backLeft) backRight (by rw [here]) (by rw [here])
    fun y different => setLeft_of_ne different

/-- A node is given another right child, which points to it already. -/
theorem Hangs.withRight {rightRoot : Option α} (hangsLeft : Hangs links (links x).left left)
    (hangsRight : Hangs links rightRoot right) (notLeft : x ∉ nodes left) (notRight : x ∉ nodes right)
    (backLeft : ∀ y ∈ top left, (links y).parent = some x) (backRight : ∀ y ∈ rightRoot, (links y).parent = some x) :
    Hangs (setRight links x rightRoot) (some x) (.node x left right) := by
  have here : setRight links x rightRoot x = { links x with right := rightRoot } := Function.update_self ..
  exact hangsLeft.over hangsRight notLeft notRight backLeft (hangsRight.root_eq ▸ backRight) (by rw [here]) (by rw [here])
    fun y different => setRight_of_ne different

/-- Store the children of a node, and the parent of the left one. -/
def attach (links : α → Links α) (x : α) (left right : Option α) : α → Links α :=
  hang (setRight (setLeft links x left) x right) left (some x)

/-- A node that is given two children. The right one points to it already. -/
theorem Hangs.attached {leftRoot rightRoot : Option α} (hangsLeft : Hangs links leftRoot left)
    (hangsRight : Hangs links rightRoot right) (distinct : (nodes (.node x left right)).Nodup)
    (backRight : ∀ y ∈ top right, (links y).parent = some x) :
    Hangs (attach links x leftRoot rightRoot) (some x) (.node x left right) ∧
      (∀ y, y ≠ x → y ∉ leftRoot → attach links x leftRoot rightRoot y = links y) ∧
      (attach links x leftRoot rightRoot x).parent = (links x).parent := by
  rw [nodes_node, List.nodup_cons, List.mem_append, not_or, List.nodup_append] at distinct
  obtain ⟨⟨notLeft, notRight⟩, distinctLeft, _, apart⟩ := distinct
  obtain ⟨stored, isStored⟩ : ∃ stored, setRight (setLeft links x leftRoot) x rightRoot = stored := ⟨_, rfl⟩
  have here : stored x = ⟨(links x).parent, leftRoot, rightRoot⟩ := by
    rw [← isStored]
    simp [setRight, setLeft]
  have others : ∀ y, y ≠ x → stored y = links y := by
    intro y different
    rw [← isStored, setRight_of_ne different, setLeft_of_ne different]
  have rootNotHere : x ∉ leftRoot := by
    rw [hangsLeft.root_eq]
    exact fun isTop => notLeft (top_mem isTop)
  have hangsStored : Hangs stored leftRoot left := hangsLeft.congr fun y member => others y fun same => notLeft (same ▸ member)
  obtain ⟨hungLeft, hungParent⟩ := hangsStored.hung distinctLeft (some x)
  have hungRight : ∀ y ∈ nodes right, hang stored leftRoot (some x) y = links y := by
    intro y member
    have notRoot : y ∉ leftRoot := by
      rw [hangsLeft.root_eq]
      exact fun isTop => apart y (top_mem isTop) y member rfl
    rw [hang_of_ne notRoot, others y fun same => notRight (same ▸ member)]
  rw [attach, isStored]
  refine ⟨Hangs.node ?_ ?_ ?_ fun y isTop => ?_, fun y different notRoot => ?_, ?_⟩
  · rw [hang_of_ne rootNotHere, here]
    exact hungLeft
  · rw [hang_of_ne rootNotHere, here]
    exact hangsRight.congr hungRight
  · rw [← hangsLeft.root_eq]
    exact hungParent
  · rw [hungRight y (top_mem isTop)]
    exact backRight y isTop
  · rw [hang_of_ne notRoot, others y different]
  · rw [hang_of_ne rootNotHere, here]

end

end LinkedTree
