import Mathlib.Data.Finset.Basic
import Mathlib.Data.List.Nodup
import Mathlib.Logic.Function.Basic

/-!
# Sibling chains

A sibling chain is a list threaded through two optional fields: each node names
the next older and the next younger one, and a pointer kept elsewhere names the
youngest. Nodes enter at the young end and leave from any position.

The younger neighbour of the first node is a parameter of the chain, so that the
rest of a chain whose first node has been taken away is a chain again.

A family is the tree that such chains make up: every owner's chain lists the nodes
that name the owner. Owners and listed nodes are separate sets, so that a node can
be between two chains.
-/

namespace SiblingChain

universe u
variable {α : Type u}

/-- The walk from `first` along `older` meets exactly `nodes` and ends; `younger`
leads back, and from the first node to `before`. -/
def Chain (older younger : α → Option α) : Option α → Option α → List α → Prop
  | _, first, [] => first = none
  | before, first, node :: rest => first = some node ∧ younger node = before ∧
      Chain older younger (some node) (older node) rest

/-- Store into the field of a node that may be missing. -/
def store [DecidableEq α] (field : α → Option α) (target : Option α) (value : Option α) : α → Option α :=
  match target with
  | none => field
  | some node => Function.update field node value

section Facts

variable {older younger : α → Option α} {before first : Option α} {nodes : List α}

/-- A chain depends only on the fields of its nodes. -/
theorem Chain.congr {older' younger' : α → Option α} (chain : Chain older younger before first nodes)
    (sameOlder : ∀ node ∈ nodes, older' node = older node)
    (sameYounger : ∀ node ∈ nodes, younger' node = younger node) :
    Chain older' younger' before first nodes := by
  induction nodes generalizing before first with
  | nil => exact chain
  | cons node rest ih =>
    obtain ⟨here, back, tail⟩ := chain
    refine ⟨here, (sameYounger node List.mem_cons_self).trans back, ?_⟩
    rw [sameOlder node List.mem_cons_self]
    exact ih tail (fun other member => sameOlder other (List.mem_cons_of_mem _ member))
      (fun other member => sameYounger other (List.mem_cons_of_mem _ member))

/-- The younger neighbour of a node is the one before it. -/
theorem Chain.younger_eq {front back : List α} {node : α}
    (chain : Chain older younger before first (front ++ node :: back)) :
    younger node = front.getLast?.or before := by
  induction front generalizing before first with
  | nil => exact chain.2.1
  | cons head front ih =>
    rw [ih chain.2.2, List.getLast?_cons]
    cases front.getLast? <;> rfl

/-- The older neighbour of a node is the one behind it. -/
theorem Chain.older_eq {front back : List α} {node : α}
    (chain : Chain older younger before first (front ++ node :: back)) : older node = back.head? := by
  induction front generalizing before first with
  | nil =>
    obtain ⟨_, _, tail⟩ := chain
    cases back with
    | nil => exact tail
    | cons next rest => exact tail.1
  | cons head front ih => exact ih chain.2.2

/-- The neighbours of a node of a whole chain are in the chain. -/
theorem Chain.neighbours_mem {node other : α} (chain : Chain older younger none first nodes)
    (member : node ∈ nodes) (next : younger node = some other ∨ older node = some other) : other ∈ nodes := by
  obtain ⟨front, back, rfl⟩ := List.append_of_mem member
  rw [chain.younger_eq, chain.older_eq, Option.or_none] at next
  rcases next with isLast | isHead
  · exact List.mem_append_left _ (List.mem_of_getLast? isLast)
  · exact List.mem_append_right _ (List.mem_cons_of_mem _ (List.mem_of_mem_head? (by simp [isHead])))

/-- No node is its own neighbour. -/
theorem Chain.older_ne {node : α} (chain : Chain older younger before first nodes) (distinct : nodes.Nodup)
    (member : node ∈ nodes) : older node ≠ some node := by
  obtain ⟨front, back, rfl⟩ := List.append_of_mem member
  rw [chain.older_eq]
  intro same
  have again : node ∈ back := List.mem_of_mem_head? (by simp [same])
  exact (List.nodup_cons.mp (List.nodup_append.mp distinct).2.1).1 again

end Facts

variable [DecidableEq α]

theorem store_apply (field : α → Option α) (target value : Option α) (node : α) :
    store field target value node = if target = some node then value else field node := by
  cases target with
  | none => simp [store]
  | some other =>
    by_cases same : node = other
    · simp [store, same]
    · have different : ¬ some other = some node := fun equal => same (Option.some.inj equal).symm
      simp [store, Function.update_of_ne same, different]

variable {older younger : α → Option α} {before first : Option α} {nodes : List α}

/-- A new youngest node: it names the former one, which names it back. -/
theorem Chain.push {node : α} (chain : Chain older younger none first nodes) (fresh : node ∉ nodes)
    (distinct : nodes.Nodup) :
    Chain (Function.update older node first)
      (store (Function.update younger node none) first (some node)) none (some node) (node :: nodes) := by
  cases nodes with
  | nil =>
    obtain rfl : first = none := chain
    simp [Chain, store]
  | cons youngest rest =>
    obtain ⟨rfl, back, tail⟩ := chain
    obtain ⟨different, freshRest⟩ : node ≠ youngest ∧ node ∉ rest := by simpa using fresh
    have absent := (List.nodup_cons.mp distinct).1
    refine ⟨rfl, ?_, ?_, ?_, ?_⟩
    · simp [store_apply, different.symm]
    · simp
    · simp [store_apply]
    · rw [Function.update_of_ne different.symm]
      refine tail.congr ?_ ?_
      · intro other member
        have notNode : other ≠ node := fun same => freshRest (same ▸ member)
        exact Function.update_of_ne notNode _ _
      · intro other member
        have notNode : other ≠ node := fun same => freshRest (same ▸ member)
        have notYoungest : youngest ≠ other := fun same => absent (same ▸ member)
        simp [store_apply, notYoungest, Function.update_of_ne notNode]

/-- A node leaves a chain from any position: its neighbours name each other. The
induction is on the nodes in front of it; only the last of them is changed. -/
theorem Chain.unlink_after {front back : List α} {node : α}
    (chain : Chain older younger before first (front ++ node :: back))
    (distinct : (front ++ node :: back).Nodup)
    (outside : ∀ other ∈ front ++ node :: back, before ≠ some other) :
    Chain (store older (younger node) (older node)) (store younger (older node) (younger node)) before
      (if front = [] then older node else first) (front ++ back) := by
  have behind := chain.younger_eq
  have ahead := chain.older_eq
  induction front generalizing before first with
  | nil =>
    obtain ⟨_, _, tail⟩ := chain
    obtain ⟨_, distinctRest⟩ := List.nodup_cons.mp distinct
    simp only [List.getLast?_nil, Option.none_or] at behind
    simp only [if_true, List.nil_append, behind]
    cases back with
    | nil => exact ahead
    | cons next later =>
      obtain ⟨here, _, laterTail⟩ := tail
      have sameOlder : ∀ other ∈ next :: later, store older before (older node) other = older other := by
        intro other member
        rw [store_apply, if_neg (outside other (List.mem_cons_of_mem _ member))]
      refine ⟨here, ?_, ?_⟩
      · rw [here, store_apply, if_pos rfl]
      · rw [sameOlder next List.mem_cons_self]
        apply laterTail.congr (fun other member => sameOlder other (List.mem_cons_of_mem _ member))
        intro other member
        have different : next ≠ other := fun same => (List.nodup_cons.mp distinctRest).1 (same ▸ member)
        rw [here, store_apply, if_neg (by simpa using different)]
  | cons head front ih =>
    obtain ⟨here, backHead, tail⟩ := chain
    obtain ⟨absent, distinctRest⟩ := List.nodup_cons.mp distinct
    have inner := ih tail distinctRest (fun other member same => absent (Option.some.inj same ▸ member))
      tail.younger_eq
    have notOlder : older node ≠ some head := by
      intro same
      have member : head ∈ back := List.mem_of_mem_head? (by simp [← ahead, same])
      exact absent (by simp [member])
    refine ⟨by simpa using here, ?_, ?_⟩
    · rw [store_apply, if_neg notOlder, backHead]
    · have changed : store older (younger node) (older node) head =
          if front = [] then older node else older head := by
        rw [store_apply, behind, List.getLast?_cons]
        by_cases alone : front = []
        · simp [alone]
        · obtain ⟨last, isLast⟩ := Option.isSome_iff_exists.mp (List.getLast?_isSome.mpr alone)
          have different : last ≠ head := fun same =>
            absent (by simp [← same, List.mem_of_getLast? isLast])
          simp [isLast, alone, different]
      rw [changed]
      exact inner

/-- Removal from a whole chain. The pointer to its youngest node changes when the
node has no younger neighbour. -/
theorem Chain.unlink {node : α} (chain : Chain older younger none first nodes) (distinct : nodes.Nodup)
    (member : node ∈ nodes) :
    Chain (store older (younger node) (older node)) (store younger (older node) (younger node)) none
      (if younger node = none then older node else first) (nodes.erase node) := by
  obtain ⟨front, back, absent, rfl, remaining⟩ := List.exists_erase_eq member
  have youngest : younger node = none ↔ front = [] := by
    rw [chain.younger_eq]
    simp
  rw [remaining]
  simp only [youngest]
  exact chain.unlink_after distinct (fun _ _ => by simp)

/-- Every owner's `first` pointer starts a chain of exactly the listed nodes that
name it. -/
structure Family (first older younger owner : α → Option α) (owners listed : Finset α)
    (before : α → Option α) (children : α → List α) : Prop where
  chain : ∀ node ∈ owners, Chain older younger (before node) (first node) (children node)
  distinct : ∀ node ∈ owners, (children node).Nodup
  owned : ∀ node ∈ owners, ∀ child, child ∈ children node ↔ child ∈ listed ∧ owner child = some node

section Families

variable {first older younger owner : α → Option α} {owners listed : Finset α} {before : α → Option α}
  {children : α → List α}

omit [DecidableEq α] in
/-- Only the pointers of owners and the fields of listed nodes matter. -/
theorem Family.congr {first' older' younger' owner' : α → Option α}
    (family : Family first older younger owner owners listed before children)
    (sameFirst : ∀ node ∈ owners, first' node = first node)
    (sameOlder : ∀ node ∈ listed, older' node = older node)
    (sameYounger : ∀ node ∈ listed, younger' node = younger node)
    (sameOwner : ∀ node ∈ listed, owner' node = owner node) :
    Family first' older' younger' owner' owners listed before children where
  chain := by
    intro node member
    have inside : ∀ child ∈ children node, child ∈ listed := fun child isChild =>
      ((family.owned node member child).mp isChild).1
    rw [sameFirst node member]
    exact (family.chain node member).congr (fun child isChild => sameOlder child (inside child isChild))
      (fun child isChild => sameYounger child (inside child isChild))
  distinct := family.distinct
  owned := by
    intro node member child
    rw [family.owned node member child]
    constructor
    · rintro ⟨inside, own⟩
      exact ⟨inside, by rw [sameOwner child inside, own]⟩
    · rintro ⟨inside, own⟩
      exact ⟨inside, by rw [← sameOwner child inside, own]⟩

omit [DecidableEq α] in
/-- The chains of fewer owners are a family. -/
theorem Family.restrict {fewer : Finset α}
    (family : Family first older younger owner owners listed before children) (subset : fewer ⊆ owners) :
    Family first older younger owner fewer listed before children where
  chain := fun node member => family.chain node (subset member)
  distinct := fun node member => family.distinct node (subset member)
  owned := fun node member => family.owned node (subset member)

/-- An empty chain has no stale link. -/
theorem Family.rebase {parent : α} {stale : Option α}
    (family : Family first older younger owner owners listed (Function.update (fun _ => none) parent stale)
      children) (empty : children parent = []) :
    Family first older younger owner owners listed (fun _ => none) children where
  chain := by
    intro node member
    have chain := family.chain node member
    by_cases same : node = parent
    · subst same
      rw [empty] at chain ⊢
      exact chain
    · rwa [Function.update_of_ne same] at chain
  distinct := family.distinct
  owned := family.owned

/-- A new owner without children. -/
theorem Family.extend {node : α} (family : Family first older younger owner owners listed before children)
    (childless : first node = none) (unowned : ∀ child ∈ listed, owner child ≠ some node) :
    Family first older younger owner (insert node owners) listed before
      (Function.update children node []) where
  chain := by
    intro other member
    by_cases same : other = node
    · subst same
      simpa [Chain] using childless
    · rw [Function.update_of_ne same]
      exact family.chain other (by simpa [same] using member)
  distinct := by
    intro other member
    by_cases same : other = node
    · simp [same]
    · rw [Function.update_of_ne same]
      exact family.distinct other (by simpa [same] using member)
  owned := by
    intro other member child
    by_cases same : other = node
    · subst same
      simpa using fun inside => unowned child inside
    · rw [Function.update_of_ne same]
      exact family.owned other (by simpa [same] using member) child

/-- The youngest child leaves. The chain it led keeps a stale link to it. -/
theorem Family.pop {parent child : α} {rest : List α}
    (family : Family first older younger owner owners listed before children) (parentInside : parent ∈ owners)
    (split : children parent = child :: rest) :
    Family (Function.update first parent (older child)) older younger owner owners (listed.erase child)
      (Function.update before parent (some child)) (Function.update children parent rest) where
  chain := by
    intro node member
    have chain := family.chain node member
    by_cases same : node = parent
    · subst same
      rw [split] at chain
      simpa using chain.2.2
    · simpa [Function.update_of_ne same] using chain
  distinct := by
    intro node member
    have distinct := family.distinct node member
    by_cases same : node = parent
    · subst same
      rw [split] at distinct
      simpa using (List.nodup_cons.mp distinct).2
    · simpa [Function.update_of_ne same] using distinct
  owned := by
    intro node member other
    have owned := family.owned node member
    by_cases same : node = parent
    · subst same
      have absent : child ∉ rest := by
        have distinct := family.distinct node member
        rw [split] at distinct
        exact (List.nodup_cons.mp distinct).1
      have whole := owned other
      rw [split, List.mem_cons] at whole
      rw [Function.update_self, Finset.mem_erase, and_assoc, ← whole]
      constructor
      · exact fun inside => ⟨fun equal => absent (equal ▸ inside), Or.inr inside⟩
      · rintro ⟨different, equal | inside⟩
        · exact absurd equal different
        · exact inside
    · rw [Function.update_of_ne same, owned other, Finset.mem_erase, and_assoc]
      constructor
      · rintro ⟨inside, own⟩
        refine ⟨?_, inside, own⟩
        rintro rfl
        have owner := ((family.owned parent parentInside other).mp (by simp [split])).2
        exact same (Option.some.inj (own.symm.trans owner))
      · exact fun facts => facts.2

/-- A node outside every chain becomes the youngest child of its owner. -/
theorem Family.push {parent child : α}
    (family : Family first older younger owner owners listed before children) (inside : parent ∈ owners)
    (whole : before parent = none) (fresh : child ∉ listed) (own : owner child = some parent) :
    Family (Function.update first parent (some child)) (Function.update older child (first parent))
      (store (Function.update younger child none) (first parent) (some child)) owner owners
      (insert child listed) before (Function.update children parent (child :: children parent)) where
  chain := by
    intro node member
    have chain := family.chain node member
    have notChild : ∀ other ∈ children node, other ≠ child := by
      rintro other isChild rfl
      exact fresh ((family.owned node member other).mp isChild).1
    by_cases same : node = parent
    · subst same
      rw [whole] at chain ⊢
      simp only [Function.update_self]
      exact chain.push (fun isChild => notChild child isChild rfl) (family.distinct node member)
    · simp only [Function.update_of_ne same]
      apply chain.congr
      · intro other isChild
        exact Function.update_of_ne (notChild other isChild) _ _
      · intro other isChild
        rw [store_apply, Function.update_of_ne (notChild other isChild), if_neg]
        intro youngest
        have elsewhere : other ∈ children parent := by
          have parentChain := family.chain parent inside
          cases listing : children parent with
          | nil =>
            rw [listing] at parentChain
            exact absurd (youngest.symm.trans parentChain) (by simp)
          | cons head rest =>
            rw [listing] at parentChain
            have equal := Option.some.inj (youngest.symm.trans parentChain.1)
            simp [equal]
        have here := ((family.owned node member other).mp isChild).2
        have there := ((family.owned parent inside other).mp elsewhere).2
        exact same (Option.some.inj (here.symm.trans there))
  distinct := by
    intro node member
    by_cases same : node = parent
    · subst same
      simp only [Function.update_self, List.nodup_cons]
      exact ⟨fun isChild => fresh ((family.owned node member child).mp isChild).1, family.distinct node member⟩
    · simpa [Function.update_of_ne same] using family.distinct node member
  owned := by
    intro node member other
    by_cases same : node = parent
    · subst same
      rw [Function.update_self, List.mem_cons, family.owned node member other, Finset.mem_insert]
      constructor
      · rintro (rfl | ⟨listed, named⟩)
        · exact ⟨Or.inl rfl, own⟩
        · exact ⟨Or.inr listed, named⟩
      · rintro ⟨rfl | listed, named⟩
        · exact Or.inl rfl
        · exact Or.inr ⟨listed, named⟩
    · rw [Function.update_of_ne same, family.owned node member other, Finset.mem_insert]
      constructor
      · exact fun facts => ⟨Or.inr facts.1, facts.2⟩
      · rintro ⟨rfl | listed, named⟩
        · exact absurd (Option.some.inj (named.symm.trans own)) same
        · exact ⟨listed, named⟩

/-- A child leaves from any position of its owner's chain. -/
theorem Family.remove {parent child : α}
    (family : Family first older younger owner owners listed before children) (inside : parent ∈ owners)
    (whole : before parent = none) (listing : child ∈ listed) (own : owner child = some parent) :
    Family (if younger child = none then Function.update first parent (older child) else first)
      (store older (younger child) (older child)) (store younger (older child) (younger child)) owner
      owners (listed.erase child) before (Function.update children parent ((children parent).erase child)) where
  chain := by
    intro node member
    have parentChain := family.chain parent inside
    rw [whole] at parentChain
    have isChild : child ∈ children parent := (family.owned parent inside child).mpr ⟨listing, own⟩
    by_cases same : node = parent
    · subst same
      have removed := parentChain.unlink (family.distinct node member) isChild
      rw [whole, Function.update_self]
      by_cases youngest : younger child = none
      · simpa [youngest] using removed
      · simpa [youngest] using removed
    · have apart : ∀ other ∈ children node, other ∉ children parent := by
        intro other here there
        have named := ((family.owned node member other).mp here).2
        exact same (Option.some.inj (named.symm.trans ((family.owned parent inside other).mp there).2))
      have sameFirst : (if younger child = none then Function.update first parent (older child) else first) node =
          first node := by
        by_cases youngest : younger child = none
        · simp [youngest, Function.update_of_ne same]
        · simp [youngest]
      rw [sameFirst, Function.update_of_ne same]
      apply (family.chain node member).congr
      · intro other here
        rw [store_apply, if_neg fun next => apart other here (parentChain.neighbours_mem isChild (Or.inl next))]
      · intro other here
        rw [store_apply, if_neg fun next => apart other here (parentChain.neighbours_mem isChild (Or.inr next))]
  distinct := by
    intro node member
    by_cases same : node = parent
    · subst same
      simpa using (family.distinct node member).erase child
    · simpa [Function.update_of_ne same] using family.distinct node member
  owned := by
    intro node member other
    by_cases same : node = parent
    · subst same
      rw [Function.update_self, (family.distinct node member).mem_erase_iff, family.owned node member other,
        Finset.mem_erase, and_assoc]
    · rw [Function.update_of_ne same, family.owned node member other, Finset.mem_erase, and_assoc]
      constructor
      · rintro ⟨listed, named⟩
        refine ⟨?_, listed, named⟩
        rintro rfl
        exact same (Option.some.inj (named.symm.trans own))
      · exact fun facts => facts.2

end Families

end SiblingChain
