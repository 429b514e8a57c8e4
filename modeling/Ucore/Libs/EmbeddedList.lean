import Ucore.Library.CircularList

/-!
# The list library of the kernel

`libs/list.h` embeds a `list_entry` in other structures and keeps the entries of
one list in a circle through a header entry. The operations are translated write
by write on a link memory. Their effect on rings is stated for a header and the
entries behind it, so a user of the library never looks at single link fields.
-/

namespace Ucore.EmbeddedList

open CircularList

universe u

/-- A list entry is the header of a list or is embedded in some owner. The
macros `le2page`, `le2timer`, `le2proc` and `le2wait` recover the owner. -/
inductive Entry (α : Type u) where
  | head : Entry α
  | link : α → Entry α
deriving DecidableEq

variable {α : Type u} [DecidableEq α]

/-- `elm->prev = elm->next = elm` -/
def listInit (links : Links α) (elm : α) : Links α :=
  let links := links.setNext elm elm
  links.setPrev elm elm

/-- `__list_add`: `prev->next = next->prev = elm; elm->next = next; elm->prev = prev` -/
def listAddBetween (links : Links α) (elm prev next : α) : Links α :=
  let links := links.setPrev next elm
  let links := links.setNext prev elm
  let links := links.setNext elm next
  links.setPrev elm prev

/-- `__list_del`: `prev->next = next; next->prev = prev` -/
def listDelBetween (links : Links α) (prev next : α) : Links α :=
  let links := links.setNext prev next
  links.setPrev next prev

def listAddBefore (links : Links α) (listelm elm : α) : Links α :=
  listAddBetween links elm (links.prev listelm) listelm

def listAddAfter (links : Links α) (listelm elm : α) : Links α :=
  listAddBetween links elm listelm (links.next listelm)

def listAdd (links : Links α) (listelm elm : α) : Links α :=
  listAddAfter links listelm elm

def listDel (links : Links α) (listelm : α) : Links α :=
  listDelBetween links (links.prev listelm) (links.next listelm)

def listDelInit (links : Links α) (listelm : α) : Links α :=
  listInit (listDel links listelm) listelm

def listEmpty (links : Links α) (list : α) : Bool :=
  decide (links.next list = list)

def listNext (links : Links α) (listelm : α) : α := links.next listelm

def listPrev (links : Links α) (listelm : α) : α := links.prev listelm

omit [DecidableEq α] in
theorem link_injective : Function.Injective (Entry.link (α := α)) := fun _ _ same =>
  Entry.link.inj same

/-- A header with an empty list behind it, and an entry outside every list. -/
theorem listInit_ring (links : Links α) (elm : α) : Ring (listInit links elm) elm [] :=
  close_ring links elm

/-- Initialising an entry does not touch the lists it is not in. -/
theorem listInit_frame {links : Links α} {head elm : α} {nodes : List α}
    (ring : Ring links head nodes) (outside : elm ∉ head :: nodes) :
    Ring (listInit links elm) head nodes := ring.close_frame outside

/-- `list_empty` tells whether the header has entries behind it. -/
theorem listEmpty_iff {links : Links α} {head : α} {nodes : List α}
    (ring : Ring links head nodes) : listEmpty links head = true ↔ nodes = [] := by
  simpa [listEmpty] using ring.next_head_eq_iff

/-- An entry in a list is not `list_empty`. -/
theorem listEmpty_node {links : Links α} {head node : α} {nodes : List α}
    (ring : Ring links head nodes) (member : node ∈ nodes) : listEmpty links node = false := by
  simpa [listEmpty] using ring.next_ne_self member

/-- `list_add` to a header puts the entry first. -/
theorem listAdd_first {links : Links α} {head : α} {nodes : List α} (elm : α)
    (ring : Ring links head nodes) (fresh : elm ∉ head :: nodes) :
    Ring (listAdd links head elm) head (elm :: nodes) := ring.splice_first fresh

/-- `list_add` to an entry of the list puts the new entry right behind it. -/
theorem listAdd_after {links : Links α} {head anchor : α} {before after : List α} (elm : α)
    (ring : Ring links head (before ++ anchor :: after))
    (fresh : elm ∉ head :: (before ++ anchor :: after)) :
    Ring (listAdd links anchor elm) head (before ++ anchor :: elm :: after) :=
  ring.splice_after fresh

/-- `list_add` behind any front part of the list, the header alone included. -/
theorem listAdd_front {links : Links α} {head : α} {before after : List α} (elm : α)
    (ring : Ring links head (before ++ after)) (fresh : elm ∉ head :: (before ++ after)) :
    Ring (listAdd links (before.getLastD head) elm) head (before ++ elm :: after) := by
  rcases List.eq_nil_or_concat' before with rfl | ⟨front, last, rfl⟩
  · exact listAdd_first elm ring fresh
  · have split : Ring links head (front ++ last :: after) := by simpa using ring
    have added := listAdd_after elm split (by simpa using fresh)
    simpa only [List.getLastD_concat, List.append_assoc, List.singleton_append] using added

/-- `list_add_before` the header puts the entry last. Its predecessor field
names the last entry, behind which the splice takes place. -/
theorem listAddBefore_last {links : Links α} {head : α} {nodes : List α} (elm : α)
    (ring : Ring links head nodes) (fresh : elm ∉ head :: nodes) :
    Ring (listAddBefore links head elm) head (nodes ++ [elm]) := by
  rcases List.eq_nil_or_concat' nodes with rfl | ⟨front, last, rfl⟩
  · have before : links.prev head = head := ring.prev_head
    have after : links.next head = head := ring.next_head
    have added := ring.splice_first fresh
    rw [after] at added
    rw [listAddBefore, before]
    exact added
  · have before : links.prev head = last := by simpa using ring.prev_head
    have after : links.next last = head := by simpa using ring.next_node
    have added := ring.splice_after fresh
    rw [after] at added
    have appended : Ring (listAddBefore links head elm) head (front ++ last :: [elm]) := by
      rw [listAddBefore, before]
      exact added
    simpa using appended

/-- `list_add_before` an entry of the list puts the new entry right before it. -/
theorem listAddBefore_node {links : Links α} {head anchor : α} {before after : List α} (elm : α)
    (ring : Ring links head (before ++ anchor :: after))
    (fresh : elm ∉ head :: (before ++ anchor :: after)) :
    Ring (listAddBefore links anchor elm) head (before ++ elm :: anchor :: after) := by
  have turned : Ring links anchor (after ++ head :: before) := ring.rotate
  have added := listAddBefore_last elm turned (by simp at fresh ⊢; tauto)
  have back : Ring (listAddBefore links anchor elm) anchor (after ++ head :: (before ++ [elm])) := by
    simpa using added
  simpa using back.rotate

/-- `list_add_before` the front of any rear part of the list, the header for an empty one. -/
theorem listAddBefore_rear {links : Links α} {head : α} {before after : List α} (elm : α)
    (ring : Ring links head (before ++ after)) (fresh : elm ∉ head :: (before ++ after)) :
    Ring (listAddBefore links (after.headD head) elm) head (before ++ elm :: after) := by
  cases after with
  | nil => simpa using listAddBefore_last elm (by simpa using ring) (by simpa using fresh)
  | cons anchor rest => exact listAddBefore_node elm ring fresh

/-- `list_del` removes an entry from its list. -/
theorem listDel_ring {links : Links α} {head node : α} {before after : List α}
    (ring : Ring links head (before ++ node :: after)) :
    Ring (listDel links node) head (before ++ after) := ring.bypass_node

/-- `list_del_init` removes an entry from its list. -/
theorem listDelInit_ring {links : Links α} {head node : α} {before after : List α}
    (ring : Ring links head (before ++ node :: after)) :
    Ring (listDelInit links node) head (before ++ after) := by
  refine listInit_frame (listDel_ring ring) ?_
  have distinct := ring.rotate.distinct
  intro member
  apply (List.nodup_cons.mp distinct).1
  simp at member ⊢
  tauto

/-- After `list_del_init` the entry is outside every list. -/
theorem listDelInit_self (links : Links α) (node : α) : Ring (listDelInit links node) node [] :=
  listInit_ring _ node

/-- Removing an entry from one list leaves every list alone that shares no entry with it. -/
theorem listDelInit_frame {links : Links α} {head other node : α} {nodes others : List α}
    (ring : Ring links head nodes) (member : node ∈ nodes) (apart : Ring links other others)
    (disjoint : ∀ entry ∈ head :: nodes, entry ∉ other :: others) :
    Ring (listDelInit links node) other others := by
  have inside : node ∈ head :: nodes := List.mem_cons_of_mem _ member
  obtain ⟨before, after⟩ := ring.neighbours_mem inside
  exact listInit_frame (apart.bypass_frame (disjoint _ before) (disjoint _ after)) (disjoint _ inside)

/-- Adding an entry to one list leaves every list alone that shares no entry
with it and does not contain the new entry. -/
theorem listAddBefore_frame {links : Links α} {head other listelm elm : α} {nodes others : List α}
    (ring : Ring links head nodes) (member : listelm ∈ head :: nodes)
    (apart : Ring links other others) (disjoint : ∀ node ∈ head :: nodes, node ∉ other :: others)
    (outside : elm ∉ other :: others) : Ring (listAddBefore links listelm elm) other others := by
  exact apart.splice_frame outside (disjoint _ (ring.neighbours_mem member).1) (disjoint _ member)

end Ucore.EmbeddedList
