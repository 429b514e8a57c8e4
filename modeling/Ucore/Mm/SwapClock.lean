import Ucore.Libs.EmbeddedList
import Ucore.Library.Transition
import Mathlib.Algebra.Ring.Int.Defs
import Mathlib.Data.List.Nodup

/-!
# Clock replacement

`kern/mm/swap_clock.c` keeps the swappable pages of an `mm_struct` in a list and goes round
it with `curr_ptr`, the hand. A page that is made swappable comes before the hand.

The loop skips the list head when the entry after the hand is the head, not when the hand
is there. So the hand may be on the head, and `le2page` of the head is no page: the word
that is taken for its `visited` is one more word of the memory, which nothing else uses.
`none` is a failed assertion, or a loop that is not done within the rounds given.
-/

namespace Ucore.SwapClock

open CircularList EmbeddedList Transition

variable {M P : Type}

/-- The links of `pra_list_head` and of the pages, the `sm_priv` of each `mm_struct`,
`curr_ptr`, and the `visited` field of the page of each entry. -/
structure Clock (M P : Type) where
  links : Links (Entry P)
  smPriv : M → Option (Entry P)
  currPtr : Option (Entry P)
  visited : Entry P → Nat

/-- `_clock_init_mm` -/
def clockInitMm [DecidableEq M] [DecidableEq P] (mm : M) (clock : Clock M P) : Clock M P :=
  { clock with
    links := listInit clock.links .head
    currPtr := some .head
    smPriv := Function.update clock.smPriv mm (some .head) }

variable [DecidableEq P]

/-- `_clock_map_swappable` -/
def clockMapSwappable (page : P) (clock : Clock M P) : Option (Clock M P) :=
  clock.currPtr.map fun curr => { clock with
    links := listAddBefore clock.links curr (.link page)
    visited := Function.update clock.visited (.link page) 1 }

/-- The loop of `_clock_swap_out_victim`, with the entries whose pages are examined, the
entry of the victim last. -/
def clockSearch (priv : Entry P) : Nat → Clock M P → Entry P → Option (List (Entry P) × Entry P × Clock M P)
  | 0, _, _ => none
  | rounds + 1, clock, curr =>
      let curr := if listNext clock.links curr = priv then listNext clock.links priv else curr
      if clock.visited curr = 0 then
        let links := listDel clock.links curr
        some ([curr], curr, { clock with
          links := links
          currPtr := some (listNext links curr) })
      else
        (clockSearch priv rounds { clock with visited := Function.update clock.visited curr 0 }
          (listNext clock.links curr)).map fun (examined, result) => (curr :: examined, result)

/-- `_clock_swap_out_victim`, with the entries examined, the value returned and the entry of
the victim. -/
def clockSwapOutVictim (mm : M) (inTick : Int) (rounds : Nat) (clock : Clock M P) :
    Option (List (Entry P) × Int × Entry P × Clock M P) := do
  let priv ← clock.smPriv mm
  if inTick = 0 then
    let curr ← clock.currPtr
    let (examined, entry, clock) ← clockSearch priv rounds clock curr
    some (examined, 0, entry, clock)
  else none

/-! ## What is promised of a victim -/

/-- The pages of a list from the hand on, once round. -/
def fromHand (hand : Entry P) (pages : List P) : List P :=
  match hand with
  | .head => pages
  | .link page => pages.dropWhile (· ≠ page) ++ pages.takeWhile (· ≠ page)

/-- The pages passed: those before the first page that was not visited. -/
def passed (visited : Entry P → Nat) (order : List P) : List P := order.takeWhile fun page => visited (.link page) ≠ 0

/-- The first page that was not visited, or the first one in the second round. -/
def chosen (visited : Entry P → Nat) (order : List P) : Option P :=
  (order.find? fun page => visited (.link page) = 0).or order.head?

/-- The call returns within two rounds and examines pages of the list only. It returns the first
page from the hand on that was not visited and unlinks it; the bits of the pages passed are
cleared and no others, and the hand is left in the list. -/
def TakesVictim (mm : M) (clock : Clock M P) (pages : List P) : Prop :=
  ∃ hand examined page after, clock.currPtr = some hand ∧
    Returns (fun rounds => clockSwapOutVictim mm 0 rounds clock) (examined, 0, .link page, after) ∧
    examined.length ≤ 2 * pages.length ∧ (∀ entry ∈ examined, entry ∈ pages.map Entry.link) ∧
    chosen clock.visited (fromHand hand pages) = some page ∧
    Ring after.links .head ((pages.erase page).map Entry.link) ∧
    (∀ entry, after.visited entry =
      if entry ∈ (passed clock.visited (fromHand hand pages)).map Entry.link then 0 else clock.visited entry) ∧
    ∃ next, after.currPtr = some next ∧ next ∈ Entry.head :: (pages.erase page).map Entry.link

/-- The hand is on a page, and from there on, before the last page of the list, there is a page
that was not visited; or the page is the only one and was not visited. -/
def HandMeets (clock : Clock M P) (pages : List P) : Prop :=
  ∃ before page after, clock.currPtr = some (.link page) ∧ pages = before ++ page :: after ∧
    ((∃ other ∈ (page :: after).dropLast, clock.visited (.link other) = 0) ∨
      pages = [page] ∧ clock.visited (.link page) = 0)

/-! ## Runs -/

/-- `_clock_map_swappable`, any change of the `visited` fields, and `_clock_swap_out_victim`. -/
inductive ClockOperation (P : Type) where
  | mapSwappable (page : P)
  | visit (visited : Entry P → Nat)
  | victim (inTick : Int) (rounds : Nat)

/-- One operation, for one `mm_struct`. -/
def clockStep (mm : M) (clock : Clock M P) : ClockOperation P → Option (Clock M P)
  | .mapSwappable page => clockMapSwappable page clock
  | .visit visited => some { clock with visited := visited }
  | .victim inTick rounds => (clockSwapOutVictim mm inTick rounds clock).map fun (_, _, _, clock) => clock

/-- A page is made swappable only while it is not in the list. -/
def Fresh (clock : Clock M P) : ClockOperation P → Prop
  | .mapSwappable page => ∀ pages : List P, Ring clock.links .head (pages.map Entry.link) → page ∉ pages
  | _ => True

/-! ## The search -/

variable {mm : M} {clock after : Clock M P} {pages before rest : List P} {page : P} {hand entry : Entry P}
variable {examined : List (Entry P)} {rounds : Nat}

/-- A round at an entry that is not visited. -/
theorem clockSearch_found (rounds : Nat) (inside : listNext clock.links hand ≠ .head) (clear : clock.visited hand = 0) :
    clockSearch .head (rounds + 1) clock hand = some ([hand], hand, { clock with
      links := listDel clock.links hand
      currPtr := some (listNext (listDel clock.links hand) hand) }) := by
  simp only [clockSearch, if_neg inside, if_pos clear]

/-- A round at an entry that was visited. -/
theorem clockSearch_passed (rounds : Nat) (inside : listNext clock.links hand ≠ .head) (visited : clock.visited hand ≠ 0) :
    clockSearch .head (rounds + 1) clock hand =
      (clockSearch .head rounds { clock with visited := Function.update clock.visited hand 0 }
        (listNext clock.links hand)).map fun (examined, result) => (hand :: examined, result) := by
  simp only [clockSearch, if_neg inside, if_neg visited]

/-- An entry that is taken off the list still names the one behind it. -/
theorem listDel_next {links : Links (Entry P)} {nodes : List (Entry P)} (ring : Ring links .head nodes)
    (member : entry ∈ nodes) : listNext (listDel links entry) entry = links.next entry := by
  have apart : links.prev entry ≠ entry := by
    intro same
    have back := (ring.inverse (List.mem_cons_of_mem _ member)).2
    rw [same] at back
    exact ring.next_ne_self member back
  have kept : (bypass links (links.prev entry) (links.next entry)).next entry = _ := bypass_next _ _ _ _
  rw [if_neg apart.symm] at kept
  exact kept

omit [DecidableEq P] in
/-- The pages of a list are distinct. -/
theorem pages_nodup {links : Links (Entry P)} (ring : Ring links .head (pages.map Entry.link)) : pages.Nodup :=
  List.Nodup.of_map _ (List.nodup_cons.mp ring.distinct).2

omit [DecidableEq P] in
/-- Behind a page that is not the last one comes a page. -/
theorem next_page {links : Links (Entry P)} (before rest : List P) {page next : P}
    (ring : Ring links .head ((before ++ page :: next :: rest).map Entry.link)) :
    listNext links (.link page) = .link next := by
  have split : Ring links .head (before.map Entry.link ++ .link page :: .link next :: rest.map Entry.link) := by
    simpa only [List.map_append, List.map_cons] using ring
  exact split.next_node

/-- The search passes the pages that were visited and takes the first one that was not, when it
comes before the last page of the list. -/
theorem clockSearch_run {seen : List P} {next : P} (visited : ∀ other ∈ seen, clock.visited (.link other) ≠ 0)
    (clear : clock.visited (.link page) = 0)
    (ring : Ring clock.links .head ((before ++ seen ++ page :: next :: rest).map Entry.link)) (rounds : Nat) :
    clockSearch .head (rounds + seen.length + 1) clock (.link ((seen ++ [page]).headD page)) =
      some ((seen ++ [page]).map Entry.link, .link page, { clock with
        links := listDel clock.links (.link page)
        currPtr := some (.link next)
        visited := fun entry => if entry ∈ seen.map Entry.link then 0 else clock.visited entry }) := by
  induction seen generalizing before clock with
  | nil =>
    have split : Ring clock.links .head ((before ++ page :: next :: rest).map Entry.link) := by
      simpa only [List.append_nil] using ring
    have behind := next_page before rest split
    have isNext : listNext (listDel clock.links (.link page)) (.link page) = .link next :=
      (listDel_next split (List.mem_map_of_mem (by simp))).trans behind
    have found := clockSearch_found rounds (by rw [behind]; nofun) clear
    rw [isNext] at found
    simpa using found
  | cons first seen ih =>
    have distinct : first ∉ seen ∧ first ≠ page := by
      have nodup : (before ++ first :: seen ++ page :: next :: rest).Nodup := pages_nodup ring
      simp only [List.append_assoc, List.cons_append, List.nodup_append, List.nodup_cons] at nodup
      have absent := nodup.2.1.1
      simp only [List.mem_append, List.mem_cons, not_or] at absent
      exact ⟨absent.1, absent.2.1⟩
    obtain ⟨fresh, different⟩ := distinct
    have behind : listNext clock.links (.link first) = .link ((seen ++ [page]).headD page) := by
      cases seen with
      | nil =>
        refine next_page before (next :: rest) ?_
        simpa using ring
      | cons second seen =>
        refine next_page before (seen ++ page :: next :: rest) ?_
        simpa using ring
    have goesOn := @ih { clock with visited := Function.update clock.visited (.link first) 0 } (before ++ [first])
      (fun other member => by
        have apart : Entry.link other ≠ .link first := by
          rintro ⟨⟩
          exact fresh member
        simpa only [Function.update_of_ne apart] using visited other (List.mem_cons_of_mem _ member))
      (by
        have apart : Entry.link page ≠ .link first := by
          rintro ⟨⟩
          exact different rfl
        simpa only [Function.update_of_ne apart] using clear)
      (by simpa using ring)
    have round := clockSearch_passed (rounds + seen.length + 1) (by rw [behind]; nofun)
      (visited first List.mem_cons_self)
    rw [behind, goesOn] at round
    refine (congrArg (clockSearch .head · clock _) (by simp only [List.length_cons]; omega)).trans (round.trans ?_)
    simp only [Option.map_some, List.cons_append, List.map_cons, Option.some.injEq, Prod.mk.injEq, true_and]
    congr 1
    funext entry
    by_cases same : entry = .link first
    · simp [same]
    · simp [same]

/-- A search that starts at a page never comes to the last page of a list of two pages or more. -/
theorem clockSearch_misses {front : List P} {last : P} (some_ : front ≠ [])
    (ring : Ring clock.links .head ((front ++ [last]).map Entry.link)) (onPage : hand ∈ (front ++ [last]).map Entry.link)
    (returned : clockSearch .head rounds clock hand = some (examined, entry, after)) :
    entry ∈ front.map Entry.link ∧ after.visited (.link last) = clock.visited (.link last) := by
  have absent : last ∉ front := by
    exact fun member => (List.nodup_append.mp (pages_nodup ring)).2.2 last member last (List.mem_singleton_self last) rfl
  -- the entry that a round examines, and the one that it goes on to
  have round : ∀ entry ∈ (front ++ [last]).map Entry.link, ∃ page ∈ front,
      (if listNext clock.links entry = .head then listNext clock.links .head else entry) = .link page ∧
        listNext clock.links (.link page) ∈ (front ++ [last]).map Entry.link := by
    have forward : ∀ page ∈ front, listNext clock.links (.link page) ∈ (front ++ [last]).map Entry.link := by
      intro page member
      obtain ⟨before, rest, rfl⟩ := List.append_of_mem member
      cases rest with
      | nil =>
        have split : Ring clock.links .head ((before ++ page :: last :: []).map Entry.link) := by simpa using ring
        rw [next_page before [] split]
        simp
      | cons next rest =>
        have split : Ring clock.links .head ((before ++ page :: next :: (rest ++ [last])).map Entry.link) := by
          simpa using ring
        rw [next_page before (rest ++ [last]) split]
        simp
    intro entry member
    rw [List.mem_map] at member
    obtain ⟨page, member, rfl⟩ := member
    rcases List.mem_append.mp member with inFront | isLast
    · have inside : listNext clock.links (.link page) ≠ .head := by
        intro same
        have listed := forward page inFront
        rw [same] at listed
        simp at listed
      exact ⟨page, inFront, if_neg inside, forward page inFront⟩
    · obtain rfl := List.mem_singleton.mp isLast
      obtain ⟨first, rest, rfl⟩ := List.exists_cons_of_ne_nil some_
      have split : Ring clock.links .head ((first :: rest).map Entry.link ++ [.link page]) := by simpa using ring
      have atEnd : listNext clock.links (.link page) = .head := split.next_node
      have start : listNext clock.links .head = .link first := ring.next_head
      refine ⟨first, List.mem_cons_self, ?_, forward first List.mem_cons_self⟩
      rw [if_pos atEnd, start]
  induction rounds generalizing clock hand examined with
  | zero => cases returned
  | succ rounds ih =>
    obtain ⟨page, inFront, isCurr, goesOn⟩ := round hand onPage
    rw [clockSearch, isCurr] at returned
    dsimp only at returned
    split at returned
    · simp only [Option.some.injEq, Prod.mk.injEq] at returned
      obtain ⟨_, rfl, rfl⟩ := returned
      exact ⟨List.mem_map_of_mem inFront, rfl⟩
    · obtain ⟨⟨others, result, last'⟩, searched, same⟩ := Option.map_eq_some_iff.mp returned
      simp only [Prod.mk.injEq] at same
      obtain ⟨_, rfl, rfl⟩ := same
      obtain ⟨found, kept⟩ := @ih { clock with visited := Function.update clock.visited (.link page) 0 } _ _ ring goesOn searched round
      refine ⟨found, kept.trans ?_⟩
      have apart : Entry.link last ≠ .link page := by
        rintro ⟨⟩
        exact absent inFront
      exact Function.update_of_ne apart ..

/-! ## One call -/

/-- A call is a search from the hand. -/
theorem clockSwapOutVictim_search (named : clock.smPriv mm = some .head) (atHand : clock.currPtr = some hand) (rounds : Nat) :
    clockSwapOutVictim mm 0 rounds clock =
      (clockSearch .head rounds clock hand).map fun (examined, entry, after) => (examined, 0, entry, after) := by
  simp only [clockSwapOutVictim, named, atHand, Option.bind_eq_bind, Option.bind_some, if_true]
  cases clockSearch .head rounds clock hand <;> rfl

omit [DecidableEq P] in
theorem passed_split {visited : Entry P → Nat} {seen : List P} (all : ∀ other ∈ seen, visited (.link other) ≠ 0)
    (clear : visited (.link page) = 0) (rest : List P) : passed visited (seen ++ page :: rest) = seen := by
  rw [passed, List.takeWhile_append_of_pos (by simpa using all), List.takeWhile_cons_of_neg (by simpa using clear), List.append_nil]

omit [DecidableEq P] in
theorem chosen_split {visited : Entry P → Nat} {seen : List P} (all : ∀ other ∈ seen, visited (.link other) ≠ 0)
    (clear : visited (.link page) = 0) (rest : List P) : chosen visited (seen ++ page :: rest) = some page := by
  have found : (seen ++ page :: rest).find? (fun page => visited (.link page) = 0) = some page :=
    List.find?_eq_some_iff_append.mpr ⟨by simpa using clear, seen, rest, rfl, by simpa using all⟩
  rw [chosen, found]
  rfl

/-- From a page of the list on come the pages behind it, and then those before it. -/
theorem fromHand_page {after : List P} (nodup : (before ++ page :: after).Nodup) :
    fromHand (.link page) (before ++ page :: after) = page :: after ++ before := by
  have apart : ∀ other ∈ before, decide (other ≠ page) = true := by
    intro other member
    exact decide_eq_true fun same => (List.nodup_append.mp nodup).2.2 other member page List.mem_cons_self same
  rw [fromHand, List.dropWhile_append_of_pos apart, List.takeWhile_append_of_pos apart,
    List.dropWhile_cons_of_neg (by simp), List.takeWhile_cons_of_neg (by simp), List.append_nil]

omit [DecidableEq P] in
/-- The pages from the hand on, up to the first one that was not visited. -/
theorem split_clear {visited : Entry P → Nat} {order : List P} (clear : ∃ other ∈ order, visited (.link other) = 0) :
    ∃ seen page rest, order = seen ++ page :: rest ∧ visited (.link page) = 0 ∧ ∀ other ∈ seen, visited (.link other) ≠ 0 := by
  obtain ⟨page, found⟩ : ∃ page, order.find? (fun page => visited (.link page) = 0) = some page :=
    Option.isSome_iff_exists.mp (List.find?_isSome.mpr (by simpa using clear))
  obtain ⟨isClear, seen, rest, split, all⟩ := List.find?_eq_some_iff_append.mp found
  exact ⟨seen, page, rest, split, by simpa using isClear, by simpa using all⟩

/-- A hand that meets a page that was not visited, and is not the last page. -/
theorem takesVictim_early {seen : List P} {next : P} (named : clock.smPriv mm = some .head)
    (all : ∀ other ∈ seen, clock.visited (.link other) ≠ 0) (clear : clock.visited (.link page) = 0)
    (ring : Ring clock.links .head ((before ++ seen ++ page :: next :: rest).map Entry.link))
    (atHand : clock.currPtr = some (.link ((seen ++ [page]).headD page))) :
    TakesVictim mm clock (before ++ seen ++ page :: next :: rest) := by
  have nodup := pages_nodup ring
  have order : fromHand (.link ((seen ++ [page]).headD page)) (before ++ seen ++ page :: next :: rest) =
      seen ++ page :: (next :: rest ++ before) := by
    rw [List.append_assoc] at nodup ⊢
    cases seen with
    | nil => exact fromHand_page nodup
    | cons first seen =>
      refine (fromHand_page nodup).trans ?_
      simp
  have erased : (before ++ seen ++ page :: next :: rest).erase page = before ++ seen ++ next :: rest := by
    have absent : page ∉ before ++ seen := fun member =>
      (List.nodup_append.mp nodup).2.2 page member page List.mem_cons_self rfl
    rw [List.erase_append_right _ absent, List.erase_cons_head]
  refine ⟨.link ((seen ++ [page]).headD page), (seen ++ [page]).map Entry.link, page, { clock with
      links := listDel clock.links (.link page)
      currPtr := some (.link next)
      visited := fun entry => if entry ∈ seen.map Entry.link then 0 else clock.visited entry }, atHand,
    ⟨seen.length + 1, fun rounds large => ?returns⟩, ?short, ?listed, ?first, ?unlinked, ?cleared, .link next, rfl, ?inside⟩
  case returns =>
    obtain ⟨more, rfl⟩ := Nat.exists_eq_add_of_le large
    dsimp only
    rw [clockSwapOutVictim_search named atHand, show seen.length + 1 + more = more + seen.length + 1 by omega,
      clockSearch_run all clear ring more]
    rfl
  case short =>
    simp only [List.length_map, List.length_append, List.length_cons, List.length_nil]
    omega
  case listed =>
    intro entry member
    refine List.map_subset _ (fun other listed => ?_) member
    simp only [List.mem_append, List.mem_cons, List.not_mem_nil, or_false] at listed ⊢
    tauto
  case first =>
    rw [order]
    exact chosen_split all clear _
  case unlinked =>
    rw [erased]
    have split : Ring clock.links .head ((before ++ seen).map Entry.link ++ .link page :: (next :: rest).map Entry.link) := by
      simpa only [List.map_append, List.map_cons] using ring
    simpa only [List.map_append] using listDel_ring split
  case cleared =>
    intro entry
    rw [order, passed_split all clear]
  case inside =>
    rw [erased]
    simp

/-- A hand on the only page, when it was not visited. -/
theorem takesVictim_alone (named : clock.smPriv mm = some .head) (clear : clock.visited (.link page) = 0)
    (ring : Ring clock.links .head ([page].map Entry.link)) (atHand : clock.currPtr = some (.link page)) :
    TakesVictim mm clock [page] := by
  have split : Ring clock.links .head ([] ++ .link page :: []) := ring
  have start : listNext clock.links .head = .link page := ring.next_head
  have behind : listNext clock.links (.link page) = .head := split.next_node
  have isNext : listNext (listDel clock.links (.link page)) (.link page) = .head :=
    (listDel_next ring (List.mem_singleton_self _)).trans behind
  have order : fromHand (.link page) [page] = [] ++ page :: [] := by simp [fromHand]
  refine ⟨.link page, [.link page], page, { clock with
      links := listDel clock.links (.link page)
      currPtr := some .head }, atHand,
    ⟨1, fun rounds large => ?returns⟩, ?short, ?listed, ?first, ?unlinked, ?cleared, .head, rfl, List.mem_cons_self⟩
  case returns =>
    obtain ⟨more, rfl⟩ := Nat.exists_eq_add_of_le' large
    simp only [clockSwapOutVictim_search named atHand, clockSearch, behind, start, clear, isNext, if_true, Option.map_some]
  case short => simp
  case listed => simp
  case first =>
    rw [order]
    exact chosen_split (by simp) clear []
  case unlinked =>
    rw [List.erase_cons_head]
    exact listDel_ring split
  case cleared =>
    intro entry
    rw [order, passed_split (by simp) clear]
    simp

/-- The call keeps its promises when the hand meets a page that was not visited before it comes to
the last page. -/
theorem takesVictim_of_meets (named : clock.smPriv mm = some .head)
    (ring : Ring clock.links .head (pages.map Entry.link)) (meets : HandMeets clock pages) : TakesVictim mm clock pages := by
  obtain ⟨before, first, after, atHand, rfl, early | ⟨alone, clear⟩⟩ := meets
  · obtain ⟨seen, page, more, split, clear, all⟩ := split_clear early
    have whole : first :: after = seen ++ page :: (more ++ [(first :: after).getLast nofun]) := by
      conv => lhs; rw [← List.dropLast_append_getLast (show first :: after ≠ [] from nofun), split]
      simp
    obtain ⟨next, rest, behind⟩ : ∃ next rest, more ++ [(first :: after).getLast nofun] = next :: rest :=
      List.exists_cons_of_ne_nil (by simp)
    have isFirst : first = (seen ++ [page]).headD page := by
      cases seen with
      | nil => exact (List.cons.inj whole).1
      | cons second seen => exact (List.cons.inj whole).1
    rw [isFirst] at atHand
    rw [whole, behind, ← List.append_assoc] at ring ⊢
    exact takesVictim_early named all clear ring atHand
  · rw [alone] at ring ⊢
    exact takesVictim_alone named clear ring atHand

/-- A call that returns has searched from the hand. -/
theorem TakesVictim.searched (takes : TakesVictim mm clock pages) (named : clock.smPriv mm = some .head) :
    ∃ hand examined page after enough, clock.currPtr = some hand ∧ (∀ entry ∈ examined, entry ∈ pages.map Entry.link) ∧
      (∀ rounds, enough ≤ rounds → clockSearch .head rounds clock hand = some (examined, .link page, after)) ∧
      chosen clock.visited (fromHand hand pages) = some page ∧
      ∀ other ∈ passed clock.visited (fromHand hand pages), after.visited (.link other) = 0 := by
  obtain ⟨hand, examined, page, after, atHand, ⟨enough, returned⟩, _, listed, first, _, cleared, _⟩ := takes
  refine ⟨hand, examined, page, after, enough, atHand, listed, fun rounds large => ?_, first, fun other member => ?_⟩
  · have result := returned rounds large
    dsimp only at result
    rw [clockSwapOutVictim_search named atHand, Option.map_eq_some_iff] at result
    obtain ⟨⟨others, entry, last⟩, searched, same⟩ := result
    simp only [Prod.mk.injEq, true_and] at same
    obtain ⟨rfl, rfl, rfl⟩ := same
    exact searched
  · rw [cleared, if_pos (List.mem_map_of_mem member)]

/-- A search from the list head examines it. -/
theorem clockSearch_head (rounds : Nat) (inside : listNext clock.links .head ≠ .head)
    (returned : clockSearch .head (rounds + 1) clock .head = some (examined, entry, after)) : .head ∈ examined := by
  rw [clockSearch, if_neg inside] at returned
  dsimp only at returned
  split at returned
  · simp only [Option.some.injEq, Prod.mk.injEq] at returned
    rw [← returned.1]
    exact List.mem_singleton_self _
  · obtain ⟨_, _, same⟩ := Option.map_eq_some_iff.mp returned
    simp only [Prod.mk.injEq] at same
    rw [← same.1]
    exact List.mem_cons_self

/-- Where the promises are kept the hand meets a page that was not visited before it comes to the
last page. -/
theorem meets_of_takesVictim (named : clock.smPriv mm = some .head) (ring : Ring clock.links .head (pages.map Entry.link))
    (some_ : pages ≠ []) (inList : ∀ hand, clock.currPtr = some hand → hand ∈ Entry.head :: pages.map Entry.link)
    (takes : TakesVictim mm clock pages) : HandMeets clock pages := by
  obtain ⟨hand, examined, page, after, enough, atHand, listed, searched, first, cleared⟩ := takes.searched named
  have headInside : listNext clock.links .head ≠ .head := fun same =>
    some_ (List.map_eq_nil_iff.mp (ring.next_head_eq_iff.mp same))
  have headUnlisted : Entry.head ∉ pages.map Entry.link := by simp
  rcases List.mem_cons.mp (inList hand atHand) with rfl | onPage
  case inl =>
    -- the hand is on the list head, which is examined
    have examinesHead := clockSearch_head enough headInside (searched (enough + 1) (Nat.le_succ _))
    exact absurd (listed _ examinesHead) headUnlisted
  case inr =>
  obtain ⟨start, member, rfl⟩ := List.mem_map.mp onPage
  obtain ⟨before, behind, rfl⟩ := List.append_of_mem member
  rw [fromHand_page (pages_nodup ring)] at first cleared
  refine ⟨before, start, behind, atHand, rfl, ?_⟩
  by_cases alone : before ++ start :: behind = [start]
  · refine Or.inr ⟨alone, ?_⟩
    by_contra visited
    rw [alone] at ring
    have split : Ring clock.links .head ([] ++ .link start :: []) := ring
    have front : listNext clock.links .head = .link start := ring.next_head
    have back : listNext clock.links (.link start) = .head := split.next_node
    -- the only page was visited: the search goes on to the list head
    have result := searched (enough + 2) (Nat.le_add_right _ _)
    rw [clockSearch, back, if_pos rfl, front, back] at result
    dsimp only at result
    rw [if_neg visited] at result
    obtain ⟨⟨others, entry, last⟩, goesOn, same⟩ := Option.map_eq_some_iff.mp result
    simp only [Prod.mk.injEq] at same
    have examinesHead : .head ∈ others := clockSearch_head enough (by exact headInside) goesOn
    exact absurd (listed _ (same.1 ▸ List.mem_cons_of_mem _ examinesHead)) headUnlisted
  · refine Or.inl ?_
    by_contra none
    push Not at none
    -- every page before the last one was visited, but the search never comes to the last one
    obtain ⟨last, isLast⟩ : ∃ last, (start :: behind).dropLast ++ [last] = start :: behind :=
      ⟨_, List.dropLast_append_getLast (List.cons_ne_nil start behind)⟩
    have front : before ++ (start :: behind).dropLast ≠ [] := by
      intro empty
      obtain ⟨rfl, short⟩ := List.append_eq_nil_iff.mp empty
      cases behind with
      | nil => exact alone rfl
      | cons second behind => cases short
    rw [← isLast, ← List.append_assoc] at ring member
    obtain ⟨inFront, kept⟩ := clockSearch_misses front ring (List.mem_map_of_mem member) (searched enough (Nat.le_refl _))
    have absent : last ∉ before ++ (start :: behind).dropLast := fun listedLast =>
      (List.nodup_append.mp (pages_nodup ring)).2.2 last listedLast last (List.mem_singleton_self last) rfl
    rw [← isLast, List.append_assoc, List.singleton_append] at first cleared
    by_cases clear : clock.visited (.link last) = 0
    · rw [chosen_split none clear] at first
      obtain rfl := Option.some.inj first
      obtain ⟨other, inFront, same⟩ := List.mem_map.mp inFront
      exact absent (link_injective same ▸ inFront)
    · refine clear (kept.symm.trans (cleared last ?_))
      rw [passed, List.takeWhile_append_of_pos (by simpa using none), List.takeWhile_cons_of_pos (by simpa using clear)]
      simp

/-! ## The list in every run -/

/-- The pages are in the list, and the hand is in the list or on its head. -/
def Intact (clock : Clock M P) : Prop :=
  ∃ (pages : List P) (hand : Entry P), Ring clock.links .head (pages.map Entry.link) ∧ clock.currPtr = some hand ∧
    hand ∈ Entry.head :: pages.map Entry.link

/-- The list head was unlinked: the entries that the hand can come to name each other, and the
head is none of them. -/
def Unlinked (clock : Clock M P) : Prop :=
  ∃ entries : Entry P → Prop, (∃ hand, clock.currPtr = some hand ∧ entries hand) ∧ ¬ entries .head ∧
    (∀ entry, entries entry → entries (clock.links.next entry) ∧ entries (clock.links.prev entry)) ∧
    clock.links.prev (clock.links.next .head) ≠ .head

omit [DecidableEq P] in
/-- There is no list any more. -/
theorem Unlinked.no_ring (unlinked : Unlinked clock) (nodes : List (Entry P)) : ¬ Ring clock.links .head nodes := by
  obtain ⟨_, _, _, _, apart⟩ := unlinked
  exact fun ring => apart (ring.inverse List.mem_cons_self).1

omit [DecidableEq P] in
/-- Behind an entry of a ring comes an entry of it. -/
theorem next_inside {links : Links (Entry P)} {nodes : List (Entry P)} (ring : Ring links .head nodes)
    (member : entry ∈ Entry.head :: nodes) : listNext links entry ∈ Entry.head :: nodes :=
  (ring.neighbours_mem member).2

/-- A page is taken off the list, and the hand goes on in it. -/
theorem intact_page (ring : Ring clock.links .head (pages.map Entry.link)) (member : page ∈ pages) :
    Intact { clock with
      links := listDel clock.links (.link page)
      currPtr := some (listNext (listDel clock.links (.link page)) (.link page)) } := by
  obtain ⟨before, rest, rfl⟩ := List.append_of_mem member
  have split : Ring clock.links .head (before.map Entry.link ++ .link page :: rest.map Entry.link) := by
    simpa only [List.map_append, List.map_cons] using ring
  refine ⟨before ++ rest, _, by simpa only [List.map_append] using listDel_ring split, rfl, ?_⟩
  rw [listDel_next split (by simp), split.next_node]
  cases rest <;> simp

/-- The list head is taken off its list. -/
theorem head_unlinked (ring : Ring clock.links .head (pages.map Entry.link)) :
    Intact { clock with
      links := listDel clock.links .head
      currPtr := some (listNext (listDel clock.links .head) .head) } ∨
    Unlinked { clock with
      links := listDel clock.links .head
      currPtr := some (listNext (listDel clock.links .head) .head) } := by
  cases pages with
  | nil =>
    -- the head of an empty list names itself before and after
    have next : clock.links.next .head = .head := ring.next_head
    have prev : clock.links.prev .head = .head := ring.prev_head
    have same : Ring (listDel clock.links .head) .head [] := by
      constructor
      · exact List.nodup_singleton _
      · simp [Adjacent, listDel, listDelBetween, next, prev, Links.setNext, Links.setPrev]
    exact Or.inl ⟨[], .head, same, congrArg some same.next_head, List.mem_cons_self⟩
  | cons first rest =>
    have turned : Ring clock.links (.link first) (rest.map Entry.link ++ .head :: []) :=
      Ring.rotate (show Ring clock.links .head ([] ++ .link first :: rest.map Entry.link) from ring)
    have left : Ring (listDel clock.links .head) (.link first) (rest.map Entry.link) := by
      simpa only [List.append_nil] using listDel_ring turned
    have next : clock.links.next .head = .link first := ring.next_head
    have apart : clock.links.prev .head ≠ .head := by
      obtain ⟨front, last, isLast⟩ := (List.eq_nil_or_concat' (first :: rest)).resolve_left (List.cons_ne_nil first rest)
      rw [ring.prev_head, isLast, List.map_append]
      simp
    have kept : (listDel clock.links .head).next .head = .link first := by
      have isNext : (bypass clock.links (clock.links.prev .head) (clock.links.next .head)).next .head = _ := bypass_next ..
      rw [if_neg apart.symm, next] at isNext
      rw [← next] at isNext ⊢
      exact isNext
    have back : (listDel clock.links .head).prev (.link first) = clock.links.prev .head := by
      have isPrev : (bypass clock.links (clock.links.prev .head) (clock.links.next .head)).prev (clock.links.next .head) = _ :=
        bypass_prev ..
      rw [if_pos rfl, next] at isPrev
      rw [← next] at isPrev ⊢
      exact isPrev
    refine Or.inr ⟨fun entry => entry ∈ Entry.link first :: rest.map Entry.link, ⟨_, rfl, ?_⟩, by simp,
      fun entry member => ⟨(left.neighbours_mem member).2, (left.neighbours_mem member).1⟩, ?_⟩
    · rw [listNext, kept]
      exact List.mem_cons_self
    · rw [kept, back]
      exact apart

/-- A search in a list leaves it, or has unlinked its head. -/
theorem clockSearch_keeps (ring : Ring clock.links .head (pages.map Entry.link))
    (inList : hand ∈ Entry.head :: pages.map Entry.link)
    (returned : clockSearch .head rounds clock hand = some (examined, entry, after)) : Intact after ∨ Unlinked after := by
  induction rounds generalizing clock hand examined with
  | zero => cases returned
  | succ rounds ih =>
    rw [clockSearch] at returned
    obtain ⟨curr, isCurr, inside⟩ : ∃ curr, (if listNext clock.links hand = .head then listNext clock.links .head else hand) = curr ∧
        curr ∈ Entry.head :: pages.map Entry.link := by
      refine ⟨_, rfl, ?_⟩
      split
      · exact next_inside ring List.mem_cons_self
      · exact inList
    rw [isCurr] at returned
    dsimp only at returned
    split at returned
    · simp only [Option.some.injEq, Prod.mk.injEq] at returned
      obtain ⟨_, rfl, rfl⟩ := returned
      rcases List.mem_cons.mp inside with isHead | onPage
      · rw [isHead]
        exact head_unlinked ring
      · obtain ⟨page, member, isPage⟩ := List.mem_map.mp onPage
        rw [← isPage]
        exact Or.inl (intact_page ring member)
    · obtain ⟨⟨others, result, last⟩, searched, same⟩ := Option.map_eq_some_iff.mp returned
      simp only [Prod.mk.injEq] at same
      obtain ⟨_, rfl, rfl⟩ := same
      exact @ih { clock with visited := Function.update clock.visited curr 0 } _ _ ring (next_inside ring inside) searched

/-- A search leaves `sm_priv` alone. -/
theorem clockSearch_priv (returned : clockSearch .head rounds clock hand = some (examined, entry, after)) :
    after.smPriv mm = clock.smPriv mm := by
  induction rounds generalizing clock hand examined with
  | zero => cases returned
  | succ rounds ih =>
    rw [clockSearch] at returned
    generalize (if listNext clock.links hand = .head then listNext clock.links .head else hand) = curr at returned
    dsimp only at returned
    split at returned
    · simp only [Option.some.injEq, Prod.mk.injEq] at returned
      obtain ⟨_, _, rfl⟩ := returned
      rfl
    · obtain ⟨⟨others, result, last⟩, searched, same⟩ := Option.map_eq_some_iff.mp returned
      simp only [Prod.mk.injEq] at same
      obtain ⟨_, rfl, rfl⟩ := same
      have kept := ih searched
      exact kept

/-- A search beside an unlinked head stays there. -/
theorem clockSearch_unlinked {entries : Entry P → Prop} (onEntry : entries hand) (apart : ¬ entries .head)
    (closed : ∀ entry, entries entry → entries (clock.links.next entry) ∧ entries (clock.links.prev entry))
    (back : clock.links.prev (clock.links.next .head) ≠ .head)
    (returned : clockSearch .head rounds clock hand = some (examined, entry, after)) : Unlinked after := by
  induction rounds generalizing clock hand examined with
  | zero => cases returned
  | succ rounds ih =>
    have notHead : ∀ entry, entries entry → entry ≠ .head := fun entry member same => apart (same ▸ member)
    have isCurr : (if listNext clock.links hand = .head then listNext clock.links .head else hand) = hand :=
      if_neg (notHead _ (closed hand onEntry).1)
    rw [clockSearch, isCurr] at returned
    dsimp only at returned
    split at returned
    · simp only [Option.some.injEq, Prod.mk.injEq] at returned
      obtain ⟨_, rfl, rfl⟩ := returned
      obtain ⟨nextIn, prevIn⟩ := closed hand onEntry
      have isNext : ∀ tested, (listDel clock.links hand).next tested = _ := bypass_next clock.links _ _
      have isPrev : ∀ tested, (listDel clock.links hand).prev tested = _ := bypass_prev clock.links _ _
      have stays : ∀ entry, entries entry →
          entries ((listDel clock.links hand).next entry) ∧ entries ((listDel clock.links hand).prev entry) := by
        intro entry member
        rw [isNext, isPrev]
        constructor
        · split
          · exact nextIn
          · exact (closed entry member).1
        · split
          · exact prevIn
          · exact (closed entry member).2
      refine ⟨entries, ⟨_, rfl, (stays hand onEntry).1⟩, apart, stays, ?_⟩
      dsimp only
      rw [isNext, if_neg (notHead _ prevIn).symm, isPrev]
      split
      · exact notHead _ prevIn
      · exact back
    · obtain ⟨⟨others, result, last⟩, searched, same⟩ := Option.map_eq_some_iff.mp returned
      simp only [Prod.mk.injEq] at same
      obtain ⟨_, rfl, rfl⟩ := same
      exact @ih { clock with visited := Function.update clock.visited hand 0 } _ _ (closed hand onEntry).1 closed back searched

/-- One operation keeps the list, or the state after its head was unlinked. -/
theorem clockStep_keeps (mm : M) (clock : Clock M P) (operation : ClockOperation P) (next : Clock M P)
    (kept : clock.smPriv mm = some .head ∧ (Intact clock ∨ Unlinked clock)) (fresh : Fresh clock operation)
    (taken : clockStep mm clock operation = some next) :
    next.smPriv mm = some .head ∧ (Intact next ∨ Unlinked next) := by
  obtain ⟨named, state⟩ := kept
  cases operation with
  | visit visited =>
    obtain rfl := Option.some.inj taken
    exact ⟨named, state⟩
  | mapSwappable page =>
    obtain ⟨curr, atHand, rfl⟩ := Option.map_eq_some_iff.mp taken
    refine ⟨named, ?_⟩
    rcases state with ⟨pages, hand, ring, isHand, inList⟩ | ⟨entries, ⟨hand, isHand, onEntry⟩, apart, closed, back⟩
    case inl =>
      obtain rfl := Option.some.inj (isHand.symm.trans atHand)
      have absent : Entry.link page ∉ Entry.head :: pages.map Entry.link := by
        simpa using fresh pages ring
      rcases List.mem_cons.mp inList with rfl | onPage
      · refine Or.inl ⟨pages ++ [page], .head, ?_, atHand, List.mem_cons_self⟩
        simpa using listAddBefore_last (.link page) ring absent
      · obtain ⟨other, member, rfl⟩ := List.mem_map.mp onPage
        obtain ⟨before, rest, rfl⟩ := List.append_of_mem member
        refine Or.inl ⟨before ++ page :: other :: rest, .link other, ?_, atHand, by simp⟩
        simp only [List.map_append, List.map_cons] at ring absent ⊢
        exact listAddBefore_node (.link page) ring absent
    case inr =>
      obtain rfl := Option.some.inj (isHand.symm.trans atHand)
      have notHead : ∀ entry, entries entry → entry ≠ .head := fun entry member same => apart (same ▸ member)
      have isNext : ∀ tested, (listAddBefore clock.links hand (.link page)).next tested = _ :=
        splice_next clock.links (.link page) (clock.links.prev hand) hand
      have isPrev : ∀ tested, (listAddBefore clock.links hand (.link page)).prev tested = _ :=
        splice_prev clock.links (.link page) (clock.links.prev hand) hand
      refine Or.inr ⟨fun entry => entry = .link page ∨ entries entry, ⟨hand, atHand, Or.inr onEntry⟩, by simp [apart], ?_, ?_⟩
      · intro entry member
        dsimp only
        rw [isNext, isPrev]
        constructor
        · split
          · exact Or.inr onEntry
          · split
            · exact Or.inl rfl
            · exact Or.inr (closed entry (member.resolve_left ‹_›)).1
        · split
          · exact Or.inr (closed hand onEntry).2
          · split
            · exact Or.inl rfl
            · exact Or.inr (closed entry (member.resolve_left ‹_›)).2
      · dsimp only
        rw [isNext, if_neg (by nofun), if_neg (notHead _ (closed hand onEntry).2).symm, isPrev]
        split
        · exact notHead _ (closed hand onEntry).2
        · split
          · nofun
          · exact back
  | victim inTick rounds =>
    obtain ⟨⟨examined, ret, entry, after⟩, returned, rfl⟩ := Option.map_eq_some_iff.mp taken
    have untimed : inTick = 0 := by
      by_contra timed
      simp [clockSwapOutVictim, named, timed] at returned
    subst untimed
    obtain ⟨hand, atHand⟩ : ∃ hand, clock.currPtr = some hand := by
      rcases state with ⟨_, hand, _, atHand, _⟩ | ⟨_, ⟨hand, atHand, _⟩, _⟩
      · exact ⟨hand, atHand⟩
      · exact ⟨hand, atHand⟩
    rw [clockSwapOutVictim_search named atHand, Option.map_eq_some_iff] at returned
    obtain ⟨⟨others, result, last⟩, searched, same⟩ := returned
    simp only [Prod.mk.injEq] at same
    obtain ⟨_, _, _, rfl⟩ := same
    refine ⟨(clockSearch_priv searched).trans named, ?_⟩
    rcases state with ⟨pages, start, ring, isHand, inList⟩ | ⟨entries, ⟨start, isHand, onEntry⟩, apart, closed, back⟩
    · obtain rfl := Option.some.inj (isHand.symm.trans atHand)
      exact clockSearch_keeps ring inList searched
    · obtain rfl := Option.some.inj (isHand.symm.trans atHand)
      exact Or.inr (clockSearch_unlinked onEntry apart closed back searched)

/-- In every run a call for a victim keeps its promises exactly when the hand meets a page that was
not visited before it comes to the last page of the list. -/
theorem clock_victim_exact [DecidableEq M] (mm : M) (start clock : Clock M P)
    (reached : Reaches (clockStep mm) Fresh (clockInitMm mm start) clock) :
    ∀ pages : List P, pages ≠ [] → Ring clock.links .head (pages.map Entry.link) →
      (TakesVictim mm clock pages ↔ HandMeets clock pages) := by
  have kept : clock.smPriv mm = some .head ∧ (Intact clock ∨ Unlinked clock) := by
    refine reached.invariant ?initially (clockStep_keeps mm)
    case initially =>
      refine ⟨Function.update_self .., Or.inl ⟨[], .head, listInit_ring _ _, rfl, List.mem_cons_self⟩⟩
  intro pages some_ ring
  obtain ⟨named, ⟨others, hand, isRing, atHand, inList⟩ | unlinked⟩ := kept
  · have same := List.map_injective_iff.mpr link_injective (isRing.unique ring)
    subst same
    constructor
    · refine meets_of_takesVictim named ring some_ ?_
      intro other isOther
      obtain rfl := Option.some.inj (atHand.symm.trans isOther)
      exact inList
    · exact takesVictim_of_meets named ring
  · exact absurd ring (unlinked.no_ring _)

omit [DecidableEq P] in
/-- A page outside the list may be made swappable. -/
theorem fresh_of_ring (ring : Ring clock.links .head (pages.map Entry.link)) (absent : page ∉ pages) :
    Fresh clock (.mapSwappable page) := by
  intro others isRing
  have same := List.map_injective_iff.mpr link_injective (isRing.unique ring)
  exact same ▸ absent

/-- A memory before `_clock_init_mm`. -/
def beforeClock : Clock Unit Nat where
  links := { prev := id, next := id }
  smPriv := fun _ => none
  currPtr := none
  visited := fun _ => 1

/-- Three pages, made swappable one after the other. -/
def threeMapped : Clock Unit Nat :=
  let clock := clockInitMm () beforeClock
  { clock with
    links := listAddBefore (listAddBefore (listAddBefore clock.links .head (.link 1)) .head (.link 2)) .head (.link 3)
    visited := Function.update (Function.update (Function.update clock.visited (.link 1) 1) (.link 2) 1) (.link 3) 1 }

/-- The head is examined first and the pages after it; the first page leaves, and the next call
meets a page that was not visited. -/
theorem clock_victim_exact_second :
    ∃ clock : Clock Unit Nat, Reaches (clockStep ()) Fresh (clockInitMm () beforeClock) clock ∧ TakesVictim () clock [2, 3] := by
  have start : Ring (clockInitMm () beforeClock).links .head (([] : List Nat).map Entry.link) := listInit_ring _ _
  have first : Ring _ .head ([1].map Entry.link) := listAddBefore_last (.link 1) start (by simp)
  have second : Ring _ .head ([1, 2].map Entry.link) := listAddBefore_last (.link 2) first (by simp)
  have third : Ring _ .head ([1, 2, 3].map Entry.link) := listAddBefore_last (.link 3) second (by simp)
  have mapped : Reaches (clockStep ()) Fresh (clockInitMm () beforeClock) threeMapped :=
    .step (.step (.step .start (fresh_of_ring start (by simp) : Fresh _ (.mapSwappable 1)) rfl)
      (fresh_of_ring first (by simp) : Fresh _ (.mapSwappable 2)) rfl)
      (fresh_of_ring second (by simp) : Fresh _ (.mapSwappable 3)) rfl
  obtain ⟨clock, taken, atHand, clear, links⟩ : ∃ clock, clockStep () threeMapped (.victim 0 5) = some clock ∧
      clock.currPtr = some (.link 2) ∧ clock.visited (.link 2) = 0 ∧
      clock.links = listDel threeMapped.links (.link 1) := ⟨_, rfl, rfl, rfl, rfl⟩
  have allowed : Fresh threeMapped (.victim 0 5) := trivial
  have reached := mapped.step allowed taken
  have split : Ring threeMapped.links .head ([] ++ .link 1 :: [2, 3].map Entry.link) := third
  have ring : Ring clock.links .head ([2, 3].map Entry.link) := by
    rw [links]
    exact listDel_ring split
  refine ⟨clock, reached, (clock_victim_exact () beforeClock clock reached [2, 3] (by simp) ring).mpr ?_⟩
  exact ⟨[], 2, [3], atHand, rfl, Or.inl ⟨2, List.mem_cons_self, clear⟩⟩

/-- After one page has been made swappable the hand is on the list head. -/
theorem clock_examines_head :
    ∃ clock : Clock Unit Nat, Reaches (clockStep ()) Fresh (clockInitMm () beforeClock) clock ∧
      Ring clock.links .head ([1].map Entry.link) ∧ ¬ TakesVictim () clock [1] := by
  have start : Ring (clockInitMm () beforeClock).links .head (([] : List Nat).map Entry.link) := listInit_ring _ _
  have mapped : Ring (listAddBefore (clockInitMm () beforeClock).links .head (.link 1)) .head ([1].map Entry.link) :=
    listAddBefore_last (.link 1) start (by simp)
  refine ⟨_, .step .start (fresh_of_ring start (by simp) : Fresh _ (.mapSwappable 1)) rfl, mapped, fun takes => ?_⟩
  obtain ⟨_, page, _, atHand, _⟩ := meets_of_takesVictim rfl mapped (by simp) (by
    rintro hand ⟨⟩
    exact List.mem_cons_self) takes
  cases atHand

end Ucore.SwapClock
