import Mathlib.Data.List.Chain
import Mathlib.Logic.Function.Iterate

/-!
# Circular doubly linked lists

A link memory gives every node a predecessor and a successor. A ring is a head
together with the distinct nodes met between leaving the head and returning to
it; adjacent nodes name each other in both directions. No order, allocation
discipline or finite ambient type is required of the nodes.

Every position of a ring is the head of the rotated ring. An insertion or a
removal is therefore proved once, next to the head, and carried to any other
position by rotation. Rings that share a link memory are related by frame laws.
-/

namespace CircularList

universe u
variable {α : Type u}

/-- The two link fields of every node. -/
structure Links (α : Type u) where
  prev : α → α
  next : α → α

/-- Two adjacent nodes name each other. -/
def Adjacent (links : Links α) (left right : α) : Prop :=
  links.next left = right ∧ links.prev right = left

/-- The walk from `head` meets exactly `nodes`, in order, before it is back at
`head`, and each of its steps is inverted by the predecessor field. -/
structure Ring (links : Links α) (head : α) (nodes : List α) : Prop where
  distinct : (head :: nodes).Nodup
  linked : (head :: nodes ++ [head]).IsChain (Adjacent links)

/-- A chain survives a change of relation that agrees on the pairs it uses: the
left member of a pair is not the last node, the right member not the first. -/
theorem chain_agree {R S : α → α → Prop} {nodes : List α}
    (agree : ∀ left ∈ nodes.dropLast, ∀ right ∈ nodes.tail, R left right → S left right)
    (chain : nodes.IsChain R) : nodes.IsChain S := by
  induction chain with
  | nil => exact .nil
  | singleton node => exact .singleton node
  | cons_cons related rest ih =>
    rename_i first second remaining
    refine .cons_cons (agree first (by simp) second (by simp) related) (ih ?_)
    intro left leftMember right rightMember
    exact agree left (by simp [leftMember]) right (by
      simp only [List.tail_cons] at rightMember ⊢
      exact List.mem_cons_of_mem _ rightMember)

/-- Any node of a ring may serve as its head. -/
theorem Ring.rotate {links : Links α} {head node : α} {before after : List α}
    (ring : Ring links head (before ++ node :: after)) :
    Ring links node (after ++ head :: before) := by
  have distinct := ring.distinct
  have linked : (head :: before ++ [node]).IsChain (Adjacent links) ∧
      (node :: after ++ [head]).IsChain (Adjacent links) := by
    have whole := ring.linked
    rw [show head :: (before ++ node :: after) ++ [head] =
      (head :: before) ++ node :: (after ++ [head]) by simp, List.isChain_split] at whole
    simpa using whole
  refine ⟨?_, ?_⟩
  · refine (List.Perm.nodup_iff ?_).mp distinct
    have moved : (head :: before ++ node :: after).Perm (node :: after ++ head :: before) :=
      List.perm_append_comm
    simpa using moved
  · rw [show node :: (after ++ head :: before) ++ [node] =
      (node :: after) ++ head :: (before ++ [node]) by simp, List.isChain_split]
    exact ⟨by simpa using linked.2, by simpa using linked.1⟩

/-- The head's successor is the first node, or the head itself when there is none. -/
theorem Ring.next_head {links : Links α} {head : α} {nodes : List α}
    (ring : Ring links head nodes) : links.next head = nodes.headD head := by
  cases nodes with
  | nil => exact ((List.isChain_cons_cons.mp ring.linked).1).1
  | cons first rest => exact ((List.isChain_cons_cons.mp ring.linked).1).1

/-- The head's predecessor is the last node, or the head itself when there is none. -/
theorem Ring.prev_head {links : Links α} {head : α} {nodes : List α}
    (ring : Ring links head nodes) : links.prev head = nodes.getLastD head := by
  rcases List.eq_nil_or_concat' nodes with rfl | ⟨front, last, rfl⟩
  · exact ((List.isChain_cons_cons.mp ring.linked).1).2
  · have rotated := ring.rotate
    have adjacent : Adjacent links last head := by
      simpa using (List.isChain_cons_cons.mp rotated.linked).1
    simpa using adjacent.2

/-- A node's successor is the next node of the ring, or the head after the last one. -/
theorem Ring.next_node {links : Links α} {head node : α} {before after : List α}
    (ring : Ring links head (before ++ node :: after)) :
    links.next node = after.headD head := by
  have found := ring.rotate.next_head
  cases after <;> simpa using found

/-- A node's predecessor is the previous node of the ring, or the head before the first one. -/
theorem Ring.prev_node {links : Links α} {head node : α} {before after : List α}
    (ring : Ring links head (before ++ node :: after)) :
    links.prev node = before.getLastD head := by
  have found := ring.rotate.prev_head
  rw [found]
  rcases List.eq_nil_or_concat' before with rfl | ⟨front, last, rfl⟩
  · simp
  · rw [show after ++ head :: (front ++ [last]) = (after ++ head :: front) ++ [last] by simp]
    simp only [List.getLastD_concat]

/-- After any front part of the ring comes the first node of the rest. -/
theorem Ring.next_front {links : Links α} {head : α} {before after : List α}
    (ring : Ring links head (before ++ after)) :
    links.next (before.getLastD head) = after.headD head := by
  rcases List.eq_nil_or_concat' before with rfl | ⟨front, last, rfl⟩
  · exact ring.next_head
  · have split : Ring links head (front ++ last :: after) := by simpa using ring
    simpa only [List.getLastD_concat] using split.next_node

/-- The head is its own successor exactly when the ring holds no other node. -/
theorem Ring.next_head_eq_iff {links : Links α} {head : α} {nodes : List α}
    (ring : Ring links head nodes) : links.next head = head ↔ nodes = [] := by
  rw [ring.next_head]
  cases nodes with
  | nil => simp
  | cons first rest =>
    have different : first ≠ head := by
      intro same
      exact (List.nodup_cons.mp ring.distinct).1 (by simp [same])
    simpa using different

/-- A node listed in a ring is not its own successor. -/
theorem Ring.next_ne_self {links : Links α} {head node : α} {nodes : List α}
    (ring : Ring links head nodes) (member : node ∈ nodes) : links.next node ≠ node := by
  obtain ⟨before, after, rfl⟩ := List.append_of_mem member
  intro same
  have alone := (ring.rotate.next_head_eq_iff).mp same
  simp at alone

/-- Rings depend only on the link fields of their own nodes. -/
theorem Ring.frame {links changed : Links α} {head : α} {nodes : List α}
    (ring : Ring links head nodes)
    (next : ∀ node ∈ head :: nodes, changed.next node = links.next node)
    (prev : ∀ node ∈ head :: nodes, changed.prev node = links.prev node) :
    Ring changed head nodes := by
  refine ⟨ring.distinct, ring.linked.imp_of_mem_imp ?_⟩
  intro left right leftMember rightMember adjacent
  have leftNode : left ∈ head :: nodes := by simp at leftMember ⊢; tauto
  have rightNode : right ∈ head :: nodes := by simp at rightMember ⊢; tauto
  exact ⟨(next left leftNode).trans adjacent.1, (prev right rightNode).trans adjacent.2⟩

/-- The nodes between two visits of the head are determined by the links. -/
theorem Ring.unique {links : Links α} {head : α} {nodes others : List α}
    (ring : Ring links head nodes) (other : Ring links head others) : nodes = others := by
  have aligned : ∀ (start : α) (left right : List α),
      (start :: left ++ [head]).IsChain (Adjacent links) →
      (start :: right ++ [head]).IsChain (Adjacent links) →
      head ∉ left → head ∉ right → left = right := by
    intro start left
    induction left generalizing start with
    | nil =>
      intro right first second _ absent
      cases right with
      | nil => rfl
      | cons node rest =>
        have reached : links.next start = head := (List.isChain_cons_cons.mp first).1.1
        have same : links.next start = node := (List.isChain_cons_cons.mp second).1.1
        exact absurd (by simp [← same, reached]) absent
    | cons node rest ih =>
      intro right first second leftAbsent rightAbsent
      have same : links.next start = node := (List.isChain_cons_cons.mp first).1.1
      cases right with
      | nil =>
        have reached : links.next start = head := (List.isChain_cons_cons.mp second).1.1
        exact absurd (by simp [← same, reached]) leftAbsent
      | cons other remaining =>
        have also : links.next start = other := (List.isChain_cons_cons.mp second).1.1
        obtain rfl : node = other := same.symm.trans also
        exact congrArg (node :: ·) (ih node remaining (List.isChain_cons_cons.mp first).2
          (List.isChain_cons_cons.mp second).2
          (fun member => leftAbsent (List.mem_cons_of_mem _ member))
          (fun member => rightAbsent (List.mem_cons_of_mem _ member)))
  exact aligned head nodes others ring.linked other.linked
    (List.nodup_cons.mp ring.distinct).1 (List.nodup_cons.mp other.distinct).1

/-- Walking any number of steps from the head stays inside the ring. -/
theorem Ring.iterate_mem {links : Links α} {head : α} {nodes : List α}
    (ring : Ring links head nodes) (steps : Nat) :
    links.next^[steps] head ∈ head :: nodes := by
  induction steps with
  | zero => simp
  | succ steps ih =>
    rw [Function.iterate_succ_apply']
    rcases List.mem_cons.mp ih with atHead | inside
    · rw [atHead, ring.next_head]
      cases nodes <;> simp
    · obtain ⟨before, after, rfl⟩ := List.append_of_mem inside
      rw [ring.next_node]
      cases after <;> simp

/-- Each node of a ring is inverted by both link fields. -/
theorem Ring.inverse {links : Links α} {head node : α} {nodes : List α}
    (ring : Ring links head nodes) (member : node ∈ head :: nodes) :
    links.prev (links.next node) = node ∧ links.next (links.prev node) = node := by
  have atHead : ∀ {first : α} {rest : List α}, Ring links first rest →
      links.prev (links.next first) = first ∧ links.next (links.prev first) = first := by
    intro first rest turned
    rcases List.eq_nil_or_concat' rest with rfl | ⟨front, last, rfl⟩
    · simp [turned.next_head, turned.prev_head]
    · have back : links.next last = first := by simpa using turned.next_node
      refine ⟨?_, by rw [turned.prev_head]; simpa using back⟩
      cases front with
      | nil =>
        obtain ⟨forward, backward⟩ := (List.isChain_cons_cons.mp turned.linked).1
        rw [forward, backward]
      | cons second remaining =>
        obtain ⟨forward, backward⟩ := (List.isChain_cons_cons.mp turned.linked).1
        rw [forward, backward]
  rcases List.mem_cons.mp member with rfl | inside
  · exact atHead ring
  · obtain ⟨before, after, rfl⟩ := List.append_of_mem inside
    exact atHead ring.rotate

/-- Both neighbours of a node of the ring are in the ring. -/
theorem Ring.neighbours_mem {links : Links α} {head node : α} {nodes : List α}
    (ring : Ring links head nodes) (member : node ∈ head :: nodes) :
    links.prev node ∈ head :: nodes ∧ links.next node ∈ head :: nodes := by
  rcases List.mem_cons.mp member with rfl | listed
  · rw [ring.prev_head, ring.next_head]
    rcases List.eq_nil_or_concat' nodes with rfl | ⟨front, last, rfl⟩
    · simp
    · refine ⟨by simp, ?_⟩
      cases front <;> simp
  · obtain ⟨before, after, rfl⟩ := List.append_of_mem listed
    rw [ring.prev_node, ring.next_node]
    constructor
    · rcases List.eq_nil_or_concat' before with rfl | ⟨front, last, rfl⟩ <;> simp
    · cases after <;> simp

/-- The predecessor walk meets the same nodes in reverse. -/
theorem Ring.backward {links : Links α} {head : α} {nodes : List α}
    (ring : Ring links head nodes) :
    (head :: nodes.reverse ++ [head]).IsChain (fun later earlier => links.prev later = earlier) := by
  have reversed : (head :: nodes.reverse ++ [head]) = (head :: nodes ++ [head]).reverse := by simp
  rw [reversed, List.isChain_reverse]
  exact ring.linked.imp fun _ _ adjacent => adjacent.2

section Writes

variable [DecidableEq α]

def Links.setNext (links : Links α) (node value : α) : Links α :=
  { links with next := Function.update links.next node value }

def Links.setPrev (links : Links α) (node value : α) : Links α :=
  { links with prev := Function.update links.prev node value }

/-- Put `node` between two nodes, writing the outer fields before its own. -/
def splice (links : Links α) (node left right : α) : Links α :=
  (((links.setPrev right node).setNext left node).setNext node right).setPrev node left

/-- Let two nodes name each other, leaving out what was between them. -/
def bypass (links : Links α) (left right : α) : Links α :=
  (links.setNext left right).setPrev right left

/-- Close a node onto itself. -/
def close (links : Links α) (node : α) : Links α :=
  (links.setNext node node).setPrev node node

theorem splice_next (links : Links α) (node left right tested : α) :
    (splice links node left right).next tested =
      if tested = node then right else if tested = left then node else links.next tested := by
  simp [splice, Links.setNext, Links.setPrev, Function.update_apply]

theorem splice_prev (links : Links α) (node left right tested : α) :
    (splice links node left right).prev tested =
      if tested = node then left else if tested = right then node else links.prev tested := by
  simp [splice, Links.setNext, Links.setPrev, Function.update_apply]

theorem bypass_next (links : Links α) (left right tested : α) :
    (bypass links left right).next tested =
      if tested = left then right else links.next tested := by
  simp [bypass, Links.setNext, Links.setPrev, Function.update_apply]

theorem bypass_prev (links : Links α) (left right tested : α) :
    (bypass links left right).prev tested =
      if tested = right then left else links.prev tested := by
  simp [bypass, Links.setNext, Links.setPrev, Function.update_apply]

theorem close_next (links : Links α) (node tested : α) :
    (close links node).next tested = if tested = node then node else links.next tested := by
  simp [close, Links.setNext, Links.setPrev, Function.update_apply]

theorem close_prev (links : Links α) (node tested : α) :
    (close links node).prev tested = if tested = node then node else links.prev tested := by
  simp [close, Links.setNext, Links.setPrev, Function.update_apply]

/-- A closed node is a ring without other nodes. -/
theorem close_ring (links : Links α) (node : α) : Ring (close links node) node [] :=
  ⟨by simp, by simp [Adjacent, close_next, close_prev]⟩

/-- Splicing right after the head puts the new node first. The pairs after the
head keep their fields: only the head's successor and the old first node's
predecessor are overwritten, and distinctness keeps both out of later pairs. -/
theorem Ring.splice_first {links : Links α} {head node : α} {nodes : List α}
    (ring : Ring links head nodes) (fresh : node ∉ head :: nodes) :
    Ring (splice links node head (links.next head)) head (node :: nodes) := by
  have notHead : node ≠ head := fun same => fresh (by simp [same])
  have absent : node ∉ nodes := fun member => fresh (List.mem_cons_of_mem _ member)
  have headAbsent : head ∉ nodes := (List.nodup_cons.mp ring.distinct).1
  have nodup : nodes.Nodup := (List.nodup_cons.mp ring.distinct).2
  refine ⟨List.nodup_cons.mpr ⟨by simp [notHead.symm, headAbsent],
    List.nodup_cons.mpr ⟨absent, nodup⟩⟩, ?_⟩
  refine .cons_cons ⟨by simp [splice_next, notHead.symm], by simp [splice_prev]⟩ ?_
  rw [ring.next_head]
  cases nodes with
  | nil =>
    exact .cons_cons ⟨by simp [splice_next], by simp [splice_prev, notHead.symm]⟩ (.singleton _)
  | cons first rest =>
    have firstAbsent : first ∉ rest := (List.nodup_cons.mp nodup).1
    have notFirst : first ≠ node := fun same => absent (by simp [same])
    refine .cons_cons ⟨by simp [splice_next], by simp [splice_prev, notFirst]⟩ ?_
    refine chain_agree ?_ (List.isChain_cons_cons.mp ring.linked).2
    intro left leftMember right rightMember adjacent
    have leftNode : left ∈ first :: rest := by
      rwa [show first :: (rest.append [head]) = (first :: rest) ++ [head] from rfl,
        List.dropLast_concat] at leftMember
    have leftNotHead : left ≠ head := fun same => headAbsent (same ▸ leftNode)
    have leftNotNode : left ≠ node := fun same => absent (same ▸ leftNode)
    have rightNode : right ∈ rest ∨ right = head := by simpa using rightMember
    have rightNotNode : right ≠ node := by
      rintro rfl
      rcases rightNode with inside | same
      · exact absent (List.mem_cons_of_mem _ inside)
      · exact notHead same
    have rightNotFirst : right ≠ first := by
      rintro rfl
      rcases rightNode with inside | same
      · exact firstAbsent inside
      · exact headAbsent (by simp [same])
    exact ⟨by simp [splice_next, leftNotHead, leftNotNode, adjacent.1],
      by simp [splice_prev, rightNotNode, rightNotFirst, adjacent.2]⟩

/-- Bypassing the first node removes it from the ring. -/
theorem Ring.bypass_first {links : Links α} {head node : α} {nodes : List α}
    (ring : Ring links head (node :: nodes)) :
    Ring (bypass links (links.prev node) (links.next node)) head nodes := by
  have split : Ring links head ([] ++ node :: nodes) := ring
  have before : links.prev node = head := split.prev_node
  have after : links.next node = nodes.headD head := split.next_node
  have headAbsent : head ∉ nodes := fun member =>
    (List.nodup_cons.mp ring.distinct).1 (List.mem_cons_of_mem _ member)
  have nodup : nodes.Nodup := (List.nodup_cons.mp (List.nodup_cons.mp ring.distinct).2).2
  refine ⟨List.nodup_cons.mpr ⟨headAbsent, nodup⟩, ?_⟩
  rw [before, after]
  cases nodes with
  | nil => exact .cons_cons ⟨by simp [bypass_next], by simp [bypass_prev]⟩ (.singleton _)
  | cons first rest =>
    have firstAbsent : first ∉ rest := (List.nodup_cons.mp nodup).1
    have linked := (List.isChain_cons_cons.mp (List.isChain_cons_cons.mp ring.linked).2).2
    refine .cons_cons ⟨by simp [bypass_next], by simp [bypass_prev]⟩ ?_
    refine chain_agree ?_ linked
    intro left leftMember right rightMember adjacent
    have leftNode : left ∈ first :: rest := by
      rwa [show first :: (rest.append [head]) = (first :: rest) ++ [head] from rfl,
        List.dropLast_concat] at leftMember
    have leftNotHead : left ≠ head := fun same => headAbsent (same ▸ leftNode)
    have rightNode : right ∈ rest ∨ right = head := by simpa using rightMember
    have rightNotFirst : right ≠ first := by
      rintro rfl
      rcases rightNode with inside | same
      · exact firstAbsent inside
      · exact headAbsent (by simp [same])
    exact ⟨by simp [bypass_next, leftNotHead, adjacent.1],
      by simp [bypass_prev, rightNotFirst, adjacent.2]⟩

/-- Splicing right after a listed node inserts behind it. -/
theorem Ring.splice_after {links : Links α} {head node anchor : α} {before after : List α}
    (ring : Ring links head (before ++ anchor :: after))
    (fresh : node ∉ head :: (before ++ anchor :: after)) :
    Ring (splice links node anchor (links.next anchor)) head
      (before ++ anchor :: node :: after) := by
  have turned : Ring (splice links node anchor (links.next anchor)) anchor
      ((node :: after) ++ head :: before) :=
    ring.rotate.splice_first (by simp at fresh ⊢; tauto)
  exact turned.rotate

/-- Bypassing any listed node removes it from the ring. -/
theorem Ring.bypass_node {links : Links α} {head node : α} {before after : List α}
    (ring : Ring links head (before ++ node :: after)) :
    Ring (bypass links (links.prev node) (links.next node)) head (before ++ after) := by
  rcases List.eq_nil_or_concat' before with rfl | ⟨front, last, rfl⟩
  · exact ring.bypass_first
  · have split : Ring links head (front ++ last :: (node :: after)) := by simpa using ring
    have turned : Ring (bypass links (links.prev node) (links.next node)) last
        (after ++ head :: front) := split.rotate.bypass_first
    simpa using turned.rotate

/-- A splice leaves a ring alone that contains none of the three nodes. -/
theorem Ring.splice_frame {links : Links α} {head node left right : α} {nodes : List α}
    (ring : Ring links head nodes) (outside : node ∉ head :: nodes)
    (leftOutside : left ∉ head :: nodes) (rightOutside : right ∉ head :: nodes) :
    Ring (splice links node left right) head nodes := by
  refine ring.frame ?_ ?_ <;> intro tested member
  · have notNode : tested ≠ node := fun same => outside (same ▸ member)
    have notLeft : tested ≠ left := fun same => leftOutside (same ▸ member)
    simp [splice_next, notNode, notLeft]
  · have notNode : tested ≠ node := fun same => outside (same ▸ member)
    have notRight : tested ≠ right := fun same => rightOutside (same ▸ member)
    simp [splice_prev, notNode, notRight]

/-- A bypass leaves a ring alone that contains neither of its two nodes. -/
theorem Ring.bypass_frame {links : Links α} {head left right : α} {nodes : List α}
    (ring : Ring links head nodes) (leftOutside : left ∉ head :: nodes)
    (rightOutside : right ∉ head :: nodes) : Ring (bypass links left right) head nodes := by
  refine ring.frame ?_ ?_ <;> intro tested member
  · have notLeft : tested ≠ left := fun same => leftOutside (same ▸ member)
    simp [bypass_next, notLeft]
  · have notRight : tested ≠ right := fun same => rightOutside (same ▸ member)
    simp [bypass_prev, notRight]

/-- Closing a node leaves a ring alone that does not contain it. -/
theorem Ring.close_frame {links : Links α} {head node : α} {nodes : List α}
    (ring : Ring links head nodes) (outside : node ∉ head :: nodes) :
    Ring (close links node) head nodes := by
  refine ring.frame ?_ ?_ <;> intro tested member
  · have notNode : tested ≠ node := fun same => outside (same ▸ member)
    simp [close_next, notNode]
  · have notNode : tested ≠ node := fun same => outside (same ▸ member)
    simp [close_prev, notNode]

end Writes

end CircularList
