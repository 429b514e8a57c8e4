import Mathlib.Data.List.Basic
import Mathlib.Data.List.Nodup
import Mathlib.Logic.Function.Basic
import Mathlib.Logic.Function.Iterate
import Mathlib.Order.Basic

/-!
# Singly linked rings

Nodes name the next one and the last names the first. A ring has no head, so it is
a ring from each of its nodes. A walk along the links looks for a node and finds the
first one on its way.
-/

namespace LinkedRing

universe u
variable {α : Type u} {next next' : α → α} {first last node : α} {rest left right : List α}

/-- The links go from one node through a list to another one. -/
def Leads (next : α → α) : α → List α → α → Prop
  | first, [], last => next first = last
  | first, node :: rest, last => next first = node ∧ Leads next node rest last

/-- The links go through the list and back to its first node. -/
def Cyclic (next : α → α) : List α → Prop
  | [] => False
  | first :: rest => Leads next first rest first

/-- Look for a node along the links, for so many steps. -/
def search (next : α → α) (wanted : α → Prop) [DecidablePred wanted] : Nat → α → Option α
  | 0, _ => none
  | steps + 1, node => if wanted node then some node else search next wanted steps (next node)

/-! ## Walks -/

theorem leads_append : Leads next first (left ++ node :: right) last ↔
    Leads next first left node ∧ Leads next node right last := by
  induction left generalizing first with
  | nil => exact Iff.rfl
  | cons head left ih =>
    rw [List.cons_append, Leads, Leads, ih, and_assoc]

/-- The links of the nodes before the last one matter. -/
theorem Leads.congr (leads : Leads next first rest last) (same : ∀ node ∈ first :: rest, next' node = next node) :
    Leads next' first rest last := by
  induction rest generalizing first with
  | nil => exact (same first List.mem_cons_self).trans leads
  | cons node rest ih =>
    obtain ⟨here, tail⟩ := leads
    refine ⟨(same first List.mem_cons_self).trans here, ih tail fun other member => ?_⟩
    exact same other (List.mem_cons_of_mem _ member)

/-- The links of the nodes of a ring matter. -/
theorem Cyclic.congr {nodes : List α} (cyclic : Cyclic next nodes) (same : ∀ node ∈ nodes, next' node = next node) :
    Cyclic next' nodes := by
  cases nodes with
  | nil => exact cyclic
  | cons first rest => exact Leads.congr cyclic same

/-- A ring starts anywhere. -/
theorem cyclic_rotate : Cyclic next (left ++ right) ↔ Cyclic next (right ++ left) := by
  cases left with
  | nil => rw [List.nil_append, List.append_nil]
  | cons head left =>
    cases right with
    | nil => rw [List.nil_append, List.append_nil]
    | cons node right =>
      rw [List.cons_append, List.cons_append, Cyclic, Cyclic, leads_append, leads_append, and_comm]

/-- A ring as a walk from one of its nodes. -/
theorem Cyclic.leads (cyclic : Cyclic next (left ++ node :: right)) : Leads next node (right ++ left) node := by
  rw [cyclic_rotate] at cyclic
  exact cyclic

/-- What the nodes of a walk name are the nodes behind them. -/
theorem Leads.map_next (leads : Leads next first rest last) : (first :: rest).map next = rest ++ [last] := by
  induction rest generalizing first with
  | nil => exact congrArg ([·]) leads
  | cons node rest ih =>
    obtain ⟨here, tail⟩ := leads
    rw [List.map_cons, ih tail, here, List.cons_append]

/-- A relation from each node to all later ones holds from each node to the one that it names. -/
theorem Leads.related {R : α → α → Prop} (leads : Leads next first rest last)
    (related : (first :: (rest ++ [last])).Pairwise R) (member : node ∈ first :: rest) : R node (next node) := by
  induction rest generalizing first with
  | nil =>
    obtain rfl := List.mem_singleton.mp member
    rw [leads]
    exact (List.pairwise_cons.mp related).1 last List.mem_cons_self
  | cons head rest ih =>
    obtain ⟨here, tail⟩ := leads
    obtain ⟨toLater, later⟩ := List.pairwise_cons.mp related
    rcases List.mem_cons.mp member with rfl | inTail
    · rw [here]
      exact toLater head List.mem_cons_self
    · exact ih tail later inTail

/-- What the first node of a walk names. -/
theorem Leads.next_first (leads : Leads next first rest last) : next first = rest.headD last := by
  cases rest with
  | nil => exact leads
  | cons node rest => exact leads.1

/-- No two nodes of a ring name the same node. -/
theorem Cyclic.next_injective {other : α} {nodes : List α} (cyclic : Cyclic next nodes) (distinct : nodes.Nodup)
    (member : node ∈ nodes) (memberToo : other ∈ nodes) (same : next node = next other) : node = other := by
  cases nodes with
  | nil => exact cyclic.elim
  | cons first rest =>
    have mapped : ((first :: rest).map next).Nodup := by
      rw [Leads.map_next cyclic, List.nodup_append_comm]
      exact distinct
    exact List.inj_on_of_nodup_map mapped member memberToo same

/-- A ring names its own nodes. -/
theorem Cyclic.next_mem {nodes : List α} (cyclic : Cyclic next nodes) (member : node ∈ nodes) : next node ∈ nodes := by
  cases nodes with
  | nil => exact cyclic.elim
  | cons first rest =>
    have named := List.mem_map_of_mem member (f := next)
    rw [Leads.map_next cyclic] at named
    exact List.mem_append.mp named |>.elim (List.mem_cons_of_mem _) fun isFirst =>
      List.mem_singleton.mp isFirst ▸ List.mem_cons_self

/-- Every node of a ring is named. -/
theorem Cyclic.exists_prev {nodes : List α} (cyclic : Cyclic next nodes) (member : node ∈ nodes) :
    ∃ prev ∈ nodes, next prev = node := by
  cases nodes with
  | nil => exact cyclic.elim
  | cons first rest =>
    have named : node ∈ (first :: rest).map next := by
      rw [Leads.map_next cyclic, List.mem_append, List.mem_singleton]
      exact (List.mem_cons.mp member).symm
    exact List.mem_map.mp named

/-- The nodes of a walk are reached from its first node. -/
theorem Leads.reaches (leads : Leads next first rest last) (member : node ∈ first :: rest) :
    ∃ steps, next^[steps] first = node := by
  induction rest generalizing first with
  | nil => exact ⟨0, (List.mem_singleton.mp member).symm⟩
  | cons head rest ih =>
    obtain ⟨here, tail⟩ := leads
    rcases List.mem_cons.mp member with rfl | later
    · exact ⟨0, rfl⟩
    · obtain ⟨steps, reached⟩ := ih tail later
      exact ⟨steps + 1, by rw [Function.iterate_succ_apply, here, reached]⟩

/-- The nodes of a ring are those that the links reach from any one of them. -/
theorem Cyclic.reached_iff {nodes : List α} (cyclic : Cyclic next nodes) (member : first ∈ nodes) :
    (∃ steps, next^[steps] first = node) ↔ node ∈ nodes := by
  constructor
  · rintro ⟨steps, rfl⟩
    induction steps with
    | zero => exact member
    | succ steps ih =>
      rw [Function.iterate_succ_apply']
      exact cyclic.next_mem ih
  · intro inNodes
    obtain ⟨left, right, rfl⟩ := List.append_of_mem member
    refine cyclic.leads.reaches ?_
    simp only [List.mem_append, List.mem_cons] at inNodes ⊢
    tauto

section Increasing

variable [Preorder α]

/-- Of the links of a walk that increases and ends at or before its first node, the last one goes down. -/
theorem Leads.wraps_once (leads : Leads next first rest last) (increasing : (first :: rest).Pairwise (· < ·))
    (down : last ≤ first) : ∃! node, node ∈ first :: rest ∧ next node ≤ node := by
  induction rest generalizing first with
  | nil =>
    refine ⟨first, ⟨List.mem_cons_self, leads.trans_le down⟩, ?_⟩
    rintro node ⟨member, _⟩
    exact List.mem_singleton.mp member
  | cons head rest ih =>
    obtain ⟨here, tail⟩ := leads
    obtain ⟨first_lt, later⟩ := List.pairwise_cons.mp increasing
    have up : first < head := first_lt head List.mem_cons_self
    obtain ⟨node, ⟨member, isDown⟩, unique⟩ := ih tail later (down.trans up.le)
    refine ⟨node, ⟨List.mem_cons_of_mem _ member, isDown⟩, ?_⟩
    rintro other ⟨otherMember, otherDown⟩
    rcases List.mem_cons.mp otherMember with rfl | otherLater
    · exact absurd (here ▸ otherDown) (not_le_of_gt up)
    · exact unique other ⟨otherLater, otherDown⟩

/-- A ring of nodes in increasing order wraps once. -/
theorem Cyclic.wraps_once {nodes : List α} (cyclic : Cyclic next nodes) (increasing : nodes.Pairwise (· < ·)) :
    ∃! node, node ∈ nodes ∧ next node ≤ node := by
  cases nodes with
  | nil => exact cyclic.elim
  | cons first rest => exact Leads.wraps_once cyclic increasing le_rfl

/-- The first node is not above the last one. -/
theorem headD_le (increasing : (rest ++ [last]).Pairwise (· < ·)) : rest.headD last ≤ last := by
  cases rest with
  | nil => exact le_rfl
  | cons head rest => exact ((List.pairwise_cons.mp increasing).1 last (by simp)).le

/-- In a ring in increasing order one node is before a given place: its link goes up past the place, or it goes
down and the place is outside. -/
theorem Cyclic.before_place_iff {place : α} (cyclic : Cyclic next (left ++ right))
    (increasing : (left ++ right).Pairwise (· < ·)) (lower : ∀ other ∈ left, other < place)
    (upper : ∀ other ∈ right, place < other) (split : right ++ left = rest ++ [last]) (member : node ∈ left ++ right) :
    (node < place ∧ place < next node ∨ next node ≤ node ∧ (node < place ∨ place < next node)) ↔ node = last := by
  obtain ⟨leftIncreasing, rightIncreasing, _⟩ := List.pairwise_append.mp increasing
  rw [cyclic_rotate, split] at cyclic
  have leads : Leads next last rest last := cyclic.leads
  constructor
  · intro stops
    by_contra different
    -- from each node to all nodes behind it there is no place
    have passed : (right ++ left).Pairwise fun node later =>
        ¬ (node < place ∧ place < later ∨ later ≤ node ∧ (node < place ∨ place < later)) := by
      refine List.pairwise_append.mpr ⟨?_, ?_, ?_⟩
      · refine rightIncreasing.imp_of_mem fun isRight _ less => ?_
        rintro (⟨below, _⟩ | ⟨down, _⟩)
        · exact lt_asymm below (upper _ isRight)
        · exact not_le_of_gt less down
      · refine leftIncreasing.imp_of_mem fun _ isLeft less => ?_
        rintro (⟨_, above⟩ | ⟨down, _⟩)
        · exact lt_asymm above (lower _ isLeft)
        · exact not_le_of_gt less down
      · intro node isRight later isLeft
        rintro (⟨below, _⟩ | ⟨_, below | above⟩)
        · exact lt_asymm below (upper node isRight)
        · exact lt_asymm below (upper node isRight)
        · exact lt_asymm above (lower later isLeft)
    have inRest : node ∈ rest := by
      rw [List.perm_append_comm.mem_iff, split, List.mem_append, List.mem_singleton] at member
      exact member.resolve_right different
    cases rest with
    | nil => exact List.not_mem_nil inRest
    | cons head rest =>
      rw [split] at passed
      exact leads.2.related passed inRest stops
  · rintro rfl
    rw [leads.next_first]
    rcases List.eq_nil_or_concat' left with rfl | ⟨front, final, rfl⟩
    · -- the place is in front of all nodes
      rw [List.append_nil] at split
      subst split
      have above := upper node (by simp)
      refine Or.inr ⟨headD_le rightIncreasing, Or.inr ?_⟩
      cases rest with
      | nil => exact above
      | cons head rest => exact upper head (by simp)
    · rw [← List.append_assoc] at split
      obtain ⟨rfl, isLast⟩ := List.append_inj' split rfl
      obtain rfl := (List.cons.inj isLast).1
      have below := lower final (by simp)
      cases right with
      | nil => exact Or.inr ⟨headD_le leftIncreasing, Or.inl below⟩
      | cons head right => exact Or.inl ⟨below, upper head List.mem_cons_self⟩

end Increasing

/-- A walk that knows the length of the ring finds the first wanted node. -/
theorem search_exact {wanted : α → Prop} [DecidablePred wanted] {steps : Nat} (leads : Leads next first rest last)
    (found : (first :: rest).find? wanted = some node) (enough : rest.length < steps) :
    search next wanted steps first = some node := by
  induction rest generalizing first steps with
  | nil =>
    cases steps with
    | zero => exact absurd enough (Nat.not_lt_zero _)
    | succ steps =>
      rw [search]
      by_cases here : wanted first
      · simp only [here, decide_true, List.find?_cons_of_pos] at found
        rw [if_pos here, found]
      · simp [here] at found
  | cons head rest ih =>
    cases steps with
    | zero => exact absurd enough (Nat.not_lt_zero _)
    | succ steps =>
      obtain ⟨here, tail⟩ := leads
      rw [search]
      by_cases isFirst : wanted first
      · simp only [isFirst, decide_true, List.find?_cons_of_pos] at found
        rw [if_pos isFirst, found]
      · rw [List.find?_cons_of_neg (by simpa using isFirst)] at found
        rw [if_neg isFirst, here]
        exact ih tail found (Nat.lt_of_succ_lt_succ enough)

/-- A search in a ring finds the first wanted node. If that is the last one before the start, no other
node is wanted. -/
theorem Cyclic.search_cases {wanted : α → Prop} [DecidablePred wanted] {nodes : List α}
    (cyclic : Cyclic next nodes) (distinct : nodes.Nodup) (member : first ∈ nodes)
    (exists_wanted : ∃ node ∈ nodes, wanted node) :
    ∃ found ∈ nodes, (∀ steps, nodes.length ≤ steps → search next wanted steps first = some found) ∧ wanted found ∧
      (next found = first → ∀ other ∈ nodes, other ≠ found → ¬ wanted other) := by
  obtain ⟨left, right, rfl⟩ := List.append_of_mem member
  have leads := cyclic.leads
  have sameNodes : ∀ node, node ∈ first :: (right ++ left) ↔ node ∈ left ++ first :: right := by
    intro node
    simp only [List.mem_cons, List.mem_append]
    tauto
  have distinct' : (first :: (right ++ left)).Nodup := by
    rw [List.nodup_append_comm] at distinct
    exact distinct
  cases isFound : (first :: (right ++ left)).find? wanted with
  | none =>
    obtain ⟨node, inNodes, isWanted⟩ := exists_wanted
    have unwanted := List.find?_eq_none.mp isFound node ((sameNodes node).mpr inNodes)
    simp only [isWanted, decide_true, not_true_eq_false] at unwanted
  | some found =>
    have searched : ∀ steps, (left ++ first :: right).length ≤ steps →
        search next wanted steps first = some found := by
      intro steps enough
      refine search_exact leads isFound ?_
      simp only [List.length_append, List.length_cons] at enough ⊢
      omega
    obtain ⟨isWanted, before, after, split, unwanted⟩ := List.find?_eq_some_iff_append.mp isFound
    have inNodes : found ∈ first :: (right ++ left) := split ▸ List.mem_append_right _ List.mem_cons_self
    refine ⟨found, (sameNodes found).mp inNodes, searched, of_decide_eq_true isWanted, fun isLast other isOther different => ?_⟩
    have noneAfter : after = [] := by
      cases after with
      | nil => rfl
      | cons node after =>
        -- the node behind is the first one again
        exfalso
        have inRest : first ∈ right ++ left := by
          cases before with
          | nil =>
            obtain ⟨rfl, same⟩ := List.cons.inj split
            have named : next first = node := by
              rw [leads.next_first, same]
              rfl
            rw [same, ← isLast, named]
            exact List.mem_cons_self
          | cons head before =>
            obtain ⟨rfl, same⟩ := List.cons.inj split
            rw [same] at leads
            have named : next found = node := ((leads_append.mp leads).2).1
            rw [same, ← isLast, named]
            simp
        exact (List.nodup_cons.mp distinct').1 inRest
    have inBefore : other ∈ before := by
      have inSplit := (sameNodes other).mpr isOther
      rw [split, noneAfter, List.mem_append, List.mem_singleton] at inSplit
      exact inSplit.resolve_right different
    have no := unwanted other inBefore
    simpa using no

/-! ## A ring that is open at one node -/

/-- The links lead from a node through all others, the last of which may lead anywhere. -/
structure Opened (next : α → α) (left : List α) (node : α) (right rest : List α) (last : α) : Prop where
  distinct : (left ++ node :: right).Nodup
  split : right ++ left = rest ++ [last]
  leads : Leads next node rest last

theorem Opened.mem_iff (opened : Opened next left node right rest last) {other : α} :
    other ∈ rest ++ [last] ↔ other ∈ left ++ right := by
  rw [← opened.split]
  exact List.perm_append_comm.mem_iff

theorem Opened.last_mem (opened : Opened next left node right rest last) : last ∈ left ++ right :=
  opened.mem_iff.mp (List.mem_append_right _ List.mem_cons_self)

theorem Opened.node_absent (opened : Opened next left node right rest last) : node ∉ left ++ right :=
  (List.nodup_cons.mp (List.nodup_middle.mp opened.distinct)).1

theorem Opened.last_absent (opened : Opened next left node right rest last) : last ∉ rest := by
  have distinct : (right ++ left).Nodup :=
    List.nodup_append_comm.mp (List.nodup_cons.mp (List.nodup_middle.mp opened.distinct)).2
  rw [opened.split] at distinct
  exact fun member => (List.nodup_append.mp distinct).2.2 last member last List.mem_cons_self rfl

/-- A ring at one of its nodes. -/
theorem Cyclic.opened (cyclic : Cyclic next (left ++ node :: right)) (distinct : (left ++ node :: right).Nodup)
    (split : right ++ left = rest ++ [last]) : Opened next left node right rest last ∧ next last = node := by
  have leads := cyclic.leads
  rw [split] at leads
  obtain ⟨front, back⟩ := leads_append.mp leads
  exact ⟨⟨distinct, split, front⟩, back⟩

variable [DecidableEq α]

/-! ## Changed links -/

/-- A node that names what another one names comes before the same rest. -/
theorem Leads.redirect (leads : Leads next node rest last) (absent : first ∉ rest) :
    Leads (Function.update next first (next node)) first rest last := by
  cases rest with
  | nil => exact (Function.update_self ..).trans leads
  | cons head rest =>
    obtain ⟨here, tail⟩ := leads
    refine ⟨(Function.update_self ..).trans here, tail.congr fun other member => ?_⟩
    exact Function.update_of_ne (ne_of_mem_of_not_mem member absent) ..

/-- A node is put before a walk. -/
theorem Leads.link (leads : Leads next node rest last) (absent : first ∉ node :: rest) :
    Leads (Function.update next first node) first (node :: rest) last := by
  refine ⟨Function.update_self .., leads.congr fun other member => ?_⟩
  exact Function.update_of_ne (ne_of_mem_of_not_mem member absent) ..

/-- A new node leads where the node before its place leads. -/
theorem Cyclic.entered (cyclic : Cyclic next (left ++ right)) (distinct : (left ++ node :: right).Nodup)
    (split : right ++ left = rest ++ [last]) :
    Opened (Function.update next node (next last)) left node right rest last := by
  rw [cyclic_rotate, split] at cyclic
  refine ⟨distinct, split, cyclic.leads.redirect fun member => ?_⟩
  have absent := (List.nodup_cons.mp (List.nodup_middle.mp distinct)).1
  apply absent
  rw [← List.perm_append_comm.mem_iff, split]
  exact List.mem_append_left _ member

/-- Another node takes the place of the node. -/
theorem Opened.replaced {other : α} (opened : Opened next left node right rest last) (absent : other ∉ left ++ right) :
    Opened (Function.update next other (next node)) left other right rest last where
  distinct := List.nodup_middle.mpr
    (List.nodup_cons.mpr ⟨absent, (List.nodup_cons.mp (List.nodup_middle.mp opened.distinct)).2⟩)
  split := opened.split
  leads := opened.leads.redirect fun member => absent (opened.mem_iff.mp (List.mem_append_left _ member))

/-- The last node leads to the node. -/
theorem Opened.linked (opened : Opened next left node right rest last) :
    Cyclic (Function.update next last node) (left ++ node :: right) := by
  have absent : last ∉ node :: rest := by
    rw [List.mem_cons, not_or]
    exact ⟨fun same => opened.node_absent (same ▸ opened.last_mem), opened.last_absent⟩
  have turned : Cyclic (Function.update next last node) ((node :: rest) ++ [last]) :=
    cyclic_rotate.mpr (opened.leads.link absent)
  rw [List.cons_append, ← opened.split, ← List.cons_append, cyclic_rotate] at turned
  exact turned

/-- The last node leads where the node leads, and the node is out of the ring. -/
theorem Opened.closed (opened : Opened next left node right rest last) :
    Cyclic (Function.update next last (next node)) (left ++ right) := by
  have turned : Cyclic (Function.update next last (next node)) (rest ++ [last]) :=
    cyclic_rotate.mpr (opened.leads.redirect opened.last_absent)
  rw [← opened.split, cyclic_rotate] at turned
  exact turned

end LinkedRing
