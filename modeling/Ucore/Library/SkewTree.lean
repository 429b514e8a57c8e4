import Mathlib.Data.List.Nodup
import Mathlib.Data.List.Perm.Basic
import Mathlib.Data.Tree.Basic

/-!
# Skew heaps as trees

A skew heap is a binary tree in which no child is in front of its parent. Two heaps are merged
along their right sides, with the children exchanged on the way; a node is removed by merging
its children in its place.

The comparison is a test `less`. The order it stands for is a relation `le`; what the laws ask
of the two is a hypothesis of each law.
-/

namespace SkewTree

open BinaryTree

universe u
variable {α : Type u}

/-- The nodes of a tree. -/
def nodes : BinaryTree α → List α
  | .nil => []
  | .node x left right => x :: (nodes left ++ nodes right)

/-- The root of a tree. -/
def top : BinaryTree α → Option α
  | .nil => none
  | .node x _ _ => some x

/-- Two heaps in one. -/
def merge (less : α → α → Bool) : BinaryTree α → BinaryTree α → BinaryTree α
  | .nil, second => second
  | .node x left right, .nil => .node x left right
  | .node x left right, .node y left' right' =>
      if less x y then .node x (merge less right (.node y left' right')) left
      else .node y (merge less (.node x left right) right') left'
termination_by first second => first.numNodes + second.numNodes
decreasing_by
  · simp only [BinaryTree.numNodes]
    omega
  · simp only [BinaryTree.numNodes]
    omega

/-- A heap without a node. -/
def remove [DecidableEq α] (less : α → α → Bool) (x : α) : BinaryTree α → BinaryTree α
  | .nil => .nil
  | .node y left right =>
      if y = x then merge less left right else .node y (remove less x left) (remove less x right)

/-- No child is in front of its parent. -/
def Ordered (le : α → α → Prop) : BinaryTree α → Prop
  | .nil => True
  | .node x left right =>
      (∀ y ∈ top left, le x y) ∧ (∀ y ∈ top right, le x y) ∧ Ordered le left ∧ Ordered le right

variable {less : α → α → Bool} {le : α → α → Prop} {x y : α} {tree first second left right : BinaryTree α}

@[simp] theorem nodes_nil : nodes (.nil : BinaryTree α) = [] := rfl

@[simp] theorem nodes_node : nodes (.node x left right) = x :: (nodes left ++ nodes right) := rfl

@[simp] theorem top_nil : top (.nil : BinaryTree α) = none := rfl

@[simp] theorem top_node : top (.node x left right) = some x := rfl

/-- The root is a node. -/
theorem top_mem (isTop : x ∈ top tree) : x ∈ nodes tree := by
  cases tree with
  | nil => cases isTop
  | node y left right =>
    cases isTop
    exact List.mem_cons_self

/-- A merged heap has the nodes of both. -/
theorem nodes_merge (less : α → α → Bool) (first second : BinaryTree α) :
    (nodes (merge less first second)).Perm (nodes first ++ nodes second) := by
  induction first, second using merge.induct less with
  | case1 second => simp [merge]
  | case2 x left right => simp [merge]
  | case3 x left right y left' right' before ih =>
    rw [merge, if_pos before, nodes_node, nodes_node, List.cons_append, List.append_assoc]
    exact ((ih.append_right _).trans List.perm_append_comm).cons x
  | case4 x left right y left' right' notBefore ih =>
    rw [merge, if_neg notBefore, nodes_node, @nodes_node _ y]
    refine ((ih.append_right _).cons y).trans ?_
    rw [List.append_assoc]
    exact ((List.perm_append_comm.append_left _).cons y).trans List.perm_middle.symm

theorem mem_merge : x ∈ nodes (merge less first second) ↔ x ∈ nodes first ∨ x ∈ nodes second := by
  rw [(nodes_merge less first second).mem_iff, List.mem_append]

/-- The root of a merged heap is a root. -/
theorem top_merge (isTop : x ∈ top (merge less first second)) : x ∈ top first ∨ x ∈ top second := by
  induction first, second using merge.induct less with
  | case1 second =>
    rw [merge] at isTop
    exact Or.inr isTop
  | case2 y left right =>
    rw [merge] at isTop
    exact Or.inl isTop
  | case3 y left right z left' right' before _ =>
    rw [merge, if_pos before] at isTop
    exact Or.inl isTop
  | case4 y left right z left' right' notBefore _ =>
    rw [merge, if_neg notBefore] at isTop
    exact Or.inr isTop

/-- Merged heaps are ordered. -/
theorem ordered_merge (sound : ∀ x y, less x y = true → le x y) (complete : ∀ x y, less x y = false → le y x)
    (ordered : Ordered le first) (orderedToo : Ordered le second) : Ordered le (merge less first second) := by
  induction first, second using merge.induct less with
  | case1 second =>
    rw [merge]
    exact orderedToo
  | case2 x left right =>
    rw [merge]
    exact ordered
  | case3 x left right y left' right' before ih =>
    obtain ⟨aboveLeft, aboveRight, orderedLeft, orderedRight⟩ := ordered
    rw [merge, if_pos before]
    refine ⟨fun z isTop => ?_, aboveLeft, ih orderedRight orderedToo, orderedLeft⟩
    cases top_merge isTop with
    | inl ofRight => exact aboveRight z ofRight
    | inr isY =>
      cases isY
      exact sound x y before
  | case4 x left right y left' right' notBefore ih =>
    obtain ⟨aboveLeft, aboveRight, orderedLeft, orderedRight⟩ := orderedToo
    rw [merge, if_neg notBefore]
    refine ⟨fun z isTop => ?_, aboveLeft, ih ordered orderedRight, orderedLeft⟩
    cases top_merge isTop with
    | inl isX =>
      cases isX
      exact complete x y (Bool.eq_false_iff.mpr notBefore)
    | inr ofRight => exact aboveRight z ofRight

/-- The root is in front of every node. -/
theorem Ordered.minimum (refl : ∀ x, le x x) (trans : ∀ x y z, le x y → le y z → le x z) (ordered : Ordered le tree)
    (isTop : x ∈ top tree) : ∀ y ∈ nodes tree, le x y := by
  induction tree generalizing x with
  | nil => cases isTop
  | node z left right ihLeft ihRight =>
    cases isTop
    obtain ⟨aboveLeft, aboveRight, orderedLeft, orderedRight⟩ := ordered
    intro y member
    rw [nodes_node, List.mem_cons, List.mem_append] at member
    rcases member with rfl | inLeft | inRight
    · exact refl _
    · cases left with
      | nil => cases inLeft
      | node w _ _ => exact trans _ w _ (aboveLeft w rfl) (ihLeft orderedLeft rfl y inLeft)
    · cases right with
      | nil => cases inRight
      | node w _ _ => exact trans _ w _ (aboveRight w rfl) (ihRight orderedRight rfl y inRight)

section
variable [DecidableEq α]

/-- Removing what is no node changes nothing. -/
theorem remove_of_not_mem (absent : x ∉ nodes tree) : remove less x tree = tree := by
  induction tree with
  | nil => rfl
  | node y left right ihLeft ihRight =>
    simp only [nodes_node, List.mem_cons, List.mem_append, not_or] at absent
    rw [remove, if_neg (Ne.symm absent.1), ihLeft absent.2.1, ihRight absent.2.2]

/-- The nodes left are the other ones. -/
theorem nodes_remove (less : α → α → Bool) (x : α) (distinct : (nodes tree).Nodup) :
    (nodes (remove less x tree)).Perm ((nodes tree).erase x) := by
  induction tree with
  | nil => rfl
  | node y left right ihLeft ihRight =>
    rw [nodes_node, List.nodup_cons, List.nodup_append] at distinct
    obtain ⟨notInside, distinctLeft, distinctRight, apart⟩ := distinct
    rw [remove]
    by_cases here : y = x
    · subst here
      rw [if_pos rfl, nodes_node, List.erase_cons_head]
      exact nodes_merge ..
    · rw [if_neg here, nodes_node, nodes_node, List.erase_cons_tail (by simpa using here)]
      refine List.Perm.cons y ?_
      by_cases inLeft : x ∈ nodes left
      · have notRight : x ∉ nodes right := fun inRight => apart x inLeft x inRight rfl
        rw [List.erase_append_left _ inLeft, remove_of_not_mem notRight]
        exact (ihLeft distinctLeft).append_right _
      · rw [List.erase_append_right _ inLeft, remove_of_not_mem inLeft]
        exact (ihRight distinctRight).append_left _

/-- What is left of an ordered heap is ordered, and its root does not come in front of the old one. -/
theorem ordered_remove (sound : ∀ x y, less x y = true → le x y) (complete : ∀ x y, less x y = false → le y x)
    (trans : ∀ x y z, le x y → le y z → le x z) (ordered : Ordered le tree) :
    Ordered le (remove less x tree) ∧
      ∀ z, (∀ y ∈ top tree, le z y) → ∀ y ∈ top (remove less x tree), le z y := by
  induction tree with
  | nil => exact ⟨trivial, nofun⟩
  | node w left right ihLeft ihRight =>
    obtain ⟨aboveLeft, aboveRight, orderedLeft, orderedRight⟩ := ordered
    rw [remove]
    by_cases here : w = x
    · rw [if_pos here]
      refine ⟨ordered_merge sound complete orderedLeft orderedRight, fun z above y isTop => ?_⟩
      refine trans z w y (above w rfl) ?_
      cases top_merge isTop with
      | inl ofLeft => exact aboveLeft y ofLeft
      | inr ofRight => exact aboveRight y ofRight
    · rw [if_neg here]
      obtain ⟨leftOrdered, leftAbove⟩ := ihLeft orderedLeft
      obtain ⟨rightOrdered, rightAbove⟩ := ihRight orderedRight
      exact ⟨⟨leftAbove w aboveLeft, rightAbove w aboveRight, leftOrdered, rightOrdered⟩, fun z above => above⟩

end

end SkewTree
