import Ucore.Libs.EmbeddedList
import Ucore.Library.Transition
import Mathlib.Algebra.Ring.Int.Defs

/-!
# First-in first-out replacement

`kern/mm/swap_fifo.c` queues swappable pages through their `pra_page_link` fields. There is
one list head, `pra_list_head`, and the `sm_priv` of every `mm_struct` made after
`swap_init` points to it; `mm_create` makes it empty again.

A victim is named by the list entry that `le2page` is applied to; `.head` is the list head,
which no page embeds. `none` is a failed assertion. The functions do not read the addresses
they are given.
-/

namespace Ucore.SwapFifo

open CircularList EmbeddedList Transition

universe u
variable {M P : Type u} [DecidableEq M] [DecidableEq P]

/-- The links of `pra_list_head` and of the pages, the `sm_priv` of each `mm_struct` and
`swap_init_ok`. -/
structure Fifo (M P : Type u) where
  links : Links (Entry P)
  smPriv : M → Option (Entry P)
  swapInitOk : Bool

/-- `_fifo_init_mm` -/
def fifoInitMm (mm : M) (fifo : Fifo M P) : Fifo M P :=
  { fifo with
    links := listInit fifo.links .head
    smPriv := Function.update fifo.smPriv mm (some .head) }

/-- `_fifo_map_swappable` -/
def fifoMapSwappable (mm : M) (page : P) (fifo : Fifo M P) : Option (Fifo M P) :=
  (fifo.smPriv mm).map fun priv => { fifo with links := listAddBefore fifo.links priv (.link page) }

/-- `_fifo_swap_out_victim`, with the value returned and the entry of the victim. -/
def fifoSwapOutVictim (mm : M) (inTick : Int) (fifo : Fifo M P) : Option (Int × Entry P × Fifo M P) := do
  let priv ← fifo.smPriv mm
  if inTick = 0 then
    let entry := listNext fifo.links priv
    some (0, entry, { fifo with links := listDel fifo.links entry })
  else none

/-- `mm_create`, as far as the swap manager goes. -/
def mmCreate (mm : M) (fifo : Fifo M P) : Fifo M P :=
  if fifo.swapInitOk then fifoInitMm mm fifo
  else { fifo with smPriv := Function.update fifo.smPriv mm none }

/-! ## Runs -/

/-- `swap_init`, `mm_create`, `swap_map_swappable` and `swap_out_victim`. -/
inductive FifoOperation (M P : Type u) where
  | swapInit
  | create (mm : M)
  | mapSwappable (mm : M) (page : P)
  | victim (mm : M) (inTick : Int)

/-- The answer to a call for a victim, beside the page asked for: the one of that
`mm_struct` that has been swappable for the longest time. -/
structure Answer (P : Type u) where
  earliest : Option P
  ret : Int
  entry : Entry P
deriving DecidableEq

/-- The page is the one asked for; where there is none, an error is returned. -/
def Answer.Right (answer : Answer P) : Prop :=
  match answer.earliest with
  | some page => answer.ret = 0 ∧ answer.entry = .link page
  | none => answer.ret ≠ 0

/-- The queue in memory, and the history: the pages made swappable and not chosen yet, in
order, each with its `mm_struct`, and the answers. -/
structure FifoSystem (M P : Type u) where
  fifo : Fifo M P
  waiting : List (M × P)
  answers : List (Answer P)

/-- Before `swap_init`, with the links of an arbitrary memory. -/
def bootFifo (links : Links (Entry P)) : FifoSystem M P where
  fifo := { links := links, smPriv := fun _ => none, swapInitOk := false }
  waiting := []
  answers := []

/-- The page of an `mm_struct` that has been swappable for the longest time. -/
def FifoSystem.earliest (system : FifoSystem M P) (mm : M) : Option P :=
  (system.waiting.find? fun pair => pair.1 = mm).map Prod.snd

/-- The pages left when the page of an entry is chosen. -/
def leave (entry : Entry P) (waiting : List (M × P)) : List (M × P) :=
  match entry with
  | .head => waiting
  | .link page => waiting.filter fun pair => pair.2 ≠ page

/-- One operation. -/
def fifoStep (system : FifoSystem M P) : FifoOperation M P → Option (FifoSystem M P)
  | .swapInit => some { system with fifo := { system.fifo with swapInitOk := true } }
  | .create mm => some { system with
      fifo := mmCreate mm system.fifo
      waiting := system.waiting.filter fun pair => pair.1 ≠ mm }
  | .mapSwappable mm page => (fifoMapSwappable mm page system.fifo).map fun fifo =>
      { system with
        fifo := fifo
        waiting := system.waiting ++ [(mm, page)] }
  | .victim mm inTick => (fifoSwapOutVictim mm inTick system.fifo).map fun (ret, entry, fifo) =>
      { fifo := fifo
        waiting := leave entry system.waiting
        answers := system.answers ++ [⟨system.earliest mm, ret, entry⟩] }

/-- After `swap_init` an `mm_struct` is made only while no page of another one is
swappable, a page is made swappable only when it is not, and a victim is asked for only for
the `mm_struct` of the page that has been swappable for the longest time of all. -/
def InTurn (system : FifoSystem M P) : FifoOperation M P → Prop
  | .swapInit => True
  | .create mm => system.fifo.swapInitOk = true → ∀ pair ∈ system.waiting, pair.1 = mm
  | .mapSwappable _ page => ∀ pair ∈ system.waiting, pair.2 ≠ page
  | .victim mm _ => ∃ pair, system.waiting.head? = some pair ∧ pair.1 = mm

/-! ## One step -/

/-- The queue of the pages in memory. -/
def entries (waiting : List (M × P)) : List (Entry P) := waiting.map fun pair => .link pair.2

/-- Every `sm_priv` is the head of the one queue, which holds the pages in order. -/
structure Queued (system : FifoSystem M P) : Prop where
  priv : ∀ mm entry, system.fifo.smPriv mm = some entry → entry = .head ∧
    system.fifo.swapInitOk = true ∧ Ring system.fifo.links .head (entries system.waiting)
  idle : (∀ mm, system.fifo.smPriv mm = none) → system.waiting = []
  right : ∀ answer ∈ system.answers, answer.Right

omit [DecidableEq M] [DecidableEq P] in
theorem entry_fresh {waiting : List (M × P)} {page : P} (fresh : ∀ pair ∈ waiting, pair.2 ≠ page) :
    Entry.link page ∉ Entry.head :: entries waiting := by
  simp only [entries, List.mem_cons, List.mem_map, not_or, not_exists, not_and]
  refine ⟨by simp, ?_⟩
  rintro pair member same
  exact fresh pair member (link_injective same)

omit [DecidableEq M] [DecidableEq P] in
/-- The pages of a queue are distinct. -/
theorem apart_first {links : Links (Entry P)} {mm : M} {page : P} {rest : List (M × P)}
    (ring : Ring links .head (entries ((mm, page) :: rest))) : ∀ pair ∈ rest, pair.2 ≠ page := by
  intro pair member same
  have distinct := (List.nodup_cons.mp ring.distinct).2
  apply (List.nodup_cons.mp distinct).1
  exact List.mem_map.mpr ⟨pair, member, congrArg Entry.link same⟩

omit [DecidableEq M] in
/-- The victim is the front of the queue, whoever asks; of an empty queue it is the list
head. The value returned is 0 in any case. -/
theorem fifoSwapOutVictim_exact {fifo : Fifo M P} {mm : M} {waiting : List (M × P)}
    (named : fifo.smPriv mm = some .head) (ring : Ring fifo.links .head (entries waiting)) :
    fifoSwapOutVictim mm 0 fifo = some (0, (entries waiting).headD .head,
      { fifo with links := listDel fifo.links ((entries waiting).headD .head) }) := by
  have front : listNext fifo.links .head = (entries waiting).headD .head := ring.next_head
  simp [fifoSwapOutVictim, named, front]

omit [DecidableEq P] in
/-- The page of the front of the queue is the one asked for. -/
theorem earliest_first {system : FifoSystem M P} {pair : M × P} {rest : List (M × P)}
    (order : system.waiting = pair :: rest) : system.earliest pair.1 = some pair.2 := by
  simp [FifoSystem.earliest, order]

omit [DecidableEq P] in
/-- In a queue the page of another `mm_struct` is not the one asked for. -/
theorem earliest_behind {system : FifoSystem M P} {mm : M} {pair : M × P} {rest : List (M × P)}
    (order : system.waiting = pair :: rest) (other : pair.1 ≠ mm)
    (apart : ∀ later ∈ rest, later.2 ≠ pair.2) : system.earliest mm ≠ some pair.2 := by
  intro same
  obtain ⟨found, search, page⟩ := Option.map_eq_some_iff.mp same
  rw [order, List.find?_cons_of_neg (by simpa using other)] at search
  exact apart found (List.mem_of_find?_eq_some search) page

/-- An answer to a call in turn is right, and no other answer is. -/
theorem answer_right_iff {system : FifoSystem M P} {mm : M} {inTick ret : Int} {entry : Entry P}
    {fifo : Fifo M P} (queued : Queued system)
    (returned : fifoSwapOutVictim mm inTick system.fifo = some (ret, entry, fifo)) :
    (⟨system.earliest mm, ret, entry⟩ : Answer P).Right ↔ InTurn system (.victim mm inTick) := by
  obtain ⟨priv, named, tested⟩ := Option.bind_eq_some_iff.mp returned
  obtain ⟨rfl, _, ring⟩ := queued.priv mm priv named
  have untimed : inTick = 0 := by
    by_contra timed
    simp [timed] at tested
  subst untimed
  rw [fifoSwapOutVictim_exact named ring] at returned
  simp only [Option.some.injEq, Prod.mk.injEq] at returned
  obtain ⟨rfl, rfl, _⟩ := returned
  cases order : system.waiting with
  | nil => simp [FifoSystem.earliest, order, Answer.Right, InTurn]
  | cons pair rest =>
    have isRing : Ring system.fifo.links .head (entries ((pair.1, pair.2) :: rest)) := order ▸ ring
    have apart := apart_first isRing
    by_cases same : pair.1 = mm
    · subst same
      simp [earliest_first order, Answer.Right, InTurn, order, entries]
    · have notFirst := earliest_behind order same apart
      cases asked : system.earliest mm with
      | none => simp [Answer.Right, InTurn, order, same]
      | some page =>
        have different : pair.2 ≠ page := fun equal => notFirst (by rw [asked, equal])
        simp [Answer.Right, InTurn, order, same, entries, different]

/-- A call in turn keeps the queue: the front leaves it. -/
theorem victim_queued {system next : FifoSystem M P} {mm : M} {inTick : Int} (queued : Queued system)
    (turn : InTurn system (.victim mm inTick))
    (taken : fifoStep system (.victim mm inTick) = some next) : Queued next := by
  obtain ⟨⟨ret, entry, fifo⟩, returned, rfl⟩ := Option.map_eq_some_iff.mp taken
  have answered := (answer_right_iff queued returned).mpr turn
  obtain ⟨priv, named, tested⟩ := Option.bind_eq_some_iff.mp returned
  obtain ⟨rfl, ready, ring⟩ := queued.priv mm priv named
  have untimed : inTick = 0 := by
    by_contra timed
    simp [timed] at tested
  subst untimed
  obtain ⟨⟨owner, page⟩, front, _⟩ := turn
  obtain ⟨rest, order⟩ := List.head?_eq_some_iff.mp front
  rw [fifoSwapOutVictim_exact named ring, order] at returned
  simp only [entries, List.map_cons, List.headD_cons, Option.some.injEq, Prod.mk.injEq] at returned
  obtain ⟨rfl, rfl, rfl⟩ := returned
  have apart := apart_first (order ▸ ring)
  have left : leave (.link page) system.waiting = rest := by
    rw [order]
    simpa [leave] using apart
  rw [order] at ring
  have split : Ring system.fifo.links .head ([] ++ .link page :: entries rest) := ring
  refine ⟨?_, ?_, ?_⟩
  · intro other entry stored
    obtain ⟨first, _⟩ := queued.priv other entry stored
    refine ⟨first, ready, ?_⟩
    simp only [left]
    exact listDel_ring split
  · intro none
    exact absurd (none mm) (by simp [named])
  · intro answer member
    rcases List.mem_append.mp member with old | new
    · exact queued.right answer old
    · obtain rfl := List.mem_singleton.mp new
      exact answered

/-- One step in turn. -/
theorem fifoStep_queued (system : FifoSystem M P) (operation : FifoOperation M P) (next : FifoSystem M P)
    (queued : Queued system) (turn : InTurn system operation)
    (taken : fifoStep system operation = some next) : Queued next := by
  cases operation with
  | victim mm inTick => exact victim_queued queued turn taken
  | swapInit =>
    obtain rfl := Option.some.inj taken
    refine ⟨?_, queued.idle, queued.right⟩
    intro mm entry named
    obtain ⟨first, _, ring⟩ := queued.priv mm entry named
    exact ⟨first, rfl, ring⟩
  | create mm =>
    obtain rfl := Option.some.inj taken
    by_cases ready : system.fifo.swapInitOk = true
    · have empty : system.waiting.filter (fun pair => pair.1 ≠ mm) = [] := by
        simpa using turn ready
      refine ⟨?_, ?_, queued.right⟩
      · intro other entry named
        simp only [mmCreate, ready, if_true, fifoInitMm, empty] at named ⊢
        refine ⟨?_, trivial, listInit_ring _ _⟩
        by_cases same : other = mm
        · simpa [same] using named.symm
        · rw [Function.update_of_ne same] at named
          exact (queued.priv other entry named).1
      · intro none
        simpa [mmCreate, ready, fifoInitMm] using none mm
    · have unnamed : ∀ other, system.fifo.smPriv other = none := by
        intro other
        by_contra named
        obtain ⟨entry, stored⟩ := Option.ne_none_iff_exists'.mp named
        exact ready (queued.priv other entry stored).2.1
      refine ⟨?_, ?_, queued.right⟩
      · intro other entry named
        simp only [mmCreate, ready, if_false, Bool.false_eq_true] at named
        by_cases same : other = mm
        · simp [same] at named
        · simp [Function.update_of_ne same, unnamed other] at named
      · intro _
        simp [queued.idle unnamed]
  | mapSwappable mm page =>
    obtain ⟨fifo, mapped, rfl⟩ := Option.map_eq_some_iff.mp taken
    obtain ⟨priv, named, rfl⟩ := Option.map_eq_some_iff.mp mapped
    obtain ⟨rfl, ready, ring⟩ := queued.priv mm priv named
    have added := listAddBefore_last (.link page) ring (entry_fresh turn)
    refine ⟨?_, ?_, queued.right⟩
    · intro other entry stored
      obtain ⟨first, _⟩ := queued.priv other entry stored
      refine ⟨first, ready, ?_⟩
      simpa [entries] using added
    · intro none
      exact absurd (none mm) (by simp [named])

/-! ## Whole runs -/

/-- In every run in turn all answers are right, the queue holds the pages of every
`mm_struct` in their order, and the answer to a further call is right only in turn. -/
theorem fifo_per_mm (links : Links (Entry P)) (system : FifoSystem M P)
    (reached : Reaches fifoStep InTurn (bootFifo links) system) :
    (∀ answer ∈ system.answers, answer.Right) ∧
    (∀ mm entry, system.fifo.smPriv mm = some entry →
      Ring system.fifo.links entry (entries system.waiting)) ∧
    ∀ mm inTick ret entry fifo, fifoSwapOutVictim mm inTick system.fifo = some (ret, entry, fifo) →
      ((⟨system.earliest mm, ret, entry⟩ : Answer P).Right ↔ InTurn system (.victim mm inTick)) := by
  have queued : Queued system := by
    refine reached.invariant ?initially ?preserved
    case initially => exact ⟨by simp [bootFifo], fun _ => rfl, by simp [bootFifo]⟩
    case preserved => exact fifoStep_queued
  refine ⟨queued.right, ?_, ?_⟩
  · intro mm entry named
    obtain ⟨rfl, _, ring⟩ := queued.priv mm entry named
    exact ring
  · exact fun mm inTick ret entry fifo returned => answer_right_iff queued returned

/-- `InTurn`, tested. -/
def inTurn (system : FifoSystem M P) : FifoOperation M P → Bool
  | .swapInit => true
  | .create mm => decide (system.fifo.swapInitOk = true → ∀ pair ∈ system.waiting, pair.1 = mm)
  | .mapSwappable _ page => decide (∀ pair ∈ system.waiting, pair.2 ≠ page)
  | .victim mm _ => decide (system.waiting.head?.map Prod.fst = some mm)

theorem inTurn_sound (system : FifoSystem M P) (operation : FifoOperation M P)
    (tested : inTurn system operation = true) : InTurn system operation := by
  cases operation with
  | swapInit => trivial
  | create mm =>
    have owned : system.fifo.swapInitOk = true → ∀ pair ∈ system.waiting, pair.1 = mm :=
      of_decide_eq_true tested
    exact owned
  | mapSwappable mm page =>
    have fresh : ∀ pair ∈ system.waiting, pair.2 ≠ page := of_decide_eq_true tested
    exact fresh
  | victim mm inTick =>
    have front : system.waiting.head?.map Prod.fst = some mm := of_decide_eq_true tested
    exact Option.map_eq_some_iff.mp front

/-- Two `mm_struct`s whose pages become swappable one after the other. -/
theorem fifo_per_mm_two_structs :
    ∃ system : FifoSystem Nat Nat, Reaches fifoStep InTurn (bootFifo { prev := id, next := id }) system ∧
      system.answers.map Answer.entry = [.link 10, .link 20] ∧ ∀ answer ∈ system.answers, answer.Right := by
  have completed : (run (guarded fifoStep inTurn)
      [.swapInit, .create 1, .create 2, .mapSwappable 1 10, .mapSwappable 2 20, .mapSwappable 1 11,
        .victim 1 0, .victim 2 0] (bootFifo { prev := id, next := id })).map
      (fun system => system.answers.map Answer.entry) = some [.link 10, .link 20] := by
    decide +kernel
  obtain ⟨system, last, entries⟩ := Option.map_eq_some_iff.mp completed
  have reached := guarded_reaches inTurn_sound _ _ _ last
  exact ⟨system, reached, entries, (fifo_per_mm _ system reached).1⟩

/-- An `mm_struct` that is made while a page of another one is swappable: the page is
forgotten, and the victim is no page at all. -/
theorem forgotten_page :
    ∃ system : FifoSystem Nat Nat,
      Reaches fifoStep (fun _ _ => True) (bootFifo { prev := id, next := id }) system ∧
      ∃ answer ∈ system.answers, answer = ⟨some 10, 0, .head⟩ ∧ ¬answer.Right := by
  have completed : (run fifoStep [.swapInit, .create 1, .mapSwappable 1 10, .create 2, .victim 1 0]
      (bootFifo { prev := id, next := id } : FifoSystem Nat Nat)).map FifoSystem.answers =
        some [⟨some 10, 0, .head⟩] := by
    decide +kernel
  obtain ⟨system, last, answers⟩ := Option.map_eq_some_iff.mp completed
  refine ⟨system, run_reaches _ _ _ last, _, answers ▸ List.mem_singleton_self _, rfl, ?_⟩
  simp [Answer.Right]

end Ucore.SwapFifo
