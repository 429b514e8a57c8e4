import Mathlib.Algebra.Group.Fin.Basic
import Ucore.Library.Transition
import Ucore.Sync.Semaphore

/-!
# Philosophers

In `kern/sync/check_sync.c` N philosophers sit in a ring and share a fork with each neighbour.
`phi_take_forks_sema` and `phi_put_forks_sema` guard the array of their states by one
semaphore, and a philosopher that gets no forks waits at a semaphore of its own.

A philosopher is a thread of the kernel, which loses the processor only in `schedule`. The
threads are interleaved here at every call of `down`, `up` and `phi_test_sema` and at every
store to a state: more often than the kernel does it. `phi_test_sema` does not wait, and is one
step. N is any number from 2 on, and each philosopher has any number of rounds.
-/

namespace Ucore.Sync

open Transition

/-- `THINKING`, `HUNGRY` and `EATING` -/
inductive PhiState where
  | thinking
  | hungry
  | eating
  deriving DecidableEq

/-- Where a philosopher is: at a statement of `phi_take_forks_sema` or of `phi_put_forks_sema`, in a
`down` that has not returned, or in none of the two. -/
inductive Pc where
  | thinking
  | takeWait
  | takeHungry
  | takeTest
  | takeUp
  | takeSelf
  | takeSelfWait
  | eating
  | putWait
  | putThinking
  | putLeft
  | putRight
  | putUp
  deriving DecidableEq

variable {n : Nat}

/-- `LEFT`; the numbers of the philosophers are added and subtracted modulo N. -/
def left (i : Fin (n + 2)) : Fin (n + 2) := i - 1

/-- `RIGHT` -/
def right (i : Fin (n + 2)) : Fin (n + 2) := i + 1

/-- The shared variables, and for each philosopher where it is and how many rounds are left. -/
structure Table (n : Nat) where
  stateSema : Fin (n + 2) → PhiState
  mutex : Semaphore (Fin (n + 2))
  s : Fin (n + 2) → Semaphore (Fin (n + 2))
  pcs : Fin (n + 2) → Pc
  rounds : Fin (n + 2) → Nat

/-- The table that `check_sync` sets up. -/
def start (rounds : Fin (n + 2) → Nat) : Table n where
  stateSema _ := .thinking
  mutex := ⟨1, []⟩
  s _ := ⟨0, []⟩
  pcs _ := .thinking
  rounds := rounds

/-- A philosopher goes on at another place. -/
def Table.goTo (table : Table n) (i : Fin (n + 2)) (pc : Pc) : Table n :=
  { table with pcs := Function.update table.pcs i pc }

/-- A store to the state of a philosopher. -/
def Table.store (table : Table n) (i : Fin (n + 2)) (state : PhiState) : Table n :=
  { table with stateSema := Function.update table.stateSema i state }

/-- `phi_test_sema` -/
def phiTestSema (i : Fin (n + 2)) (table : Table n) : Table n :=
  if table.stateSema i = .hungry ∧ table.stateSema (left i) ≠ .eating ∧ table.stateSema (right i) ≠ .eating then
    { table.store i .eating with s := Function.update table.s i (table.s i).up }
  else table

/-- `down(&mutex)`, and where the philosopher goes on when it returns and when it waits. -/
def downMutex (i : Fin (n + 2)) (returned waits : Pc) (table : Table n) : Table n :=
  { table with mutex := (table.mutex.down i).1 }.goTo i (if (table.mutex.down i).2 then returned else waits)

/-- `down(&s[i])` -/
def downSelf (i : Fin (n + 2)) (returned waits : Pc) (table : Table n) : Table n :=
  { table with s := Function.update table.s i ((table.s i).down i).1 }.goTo i
    (if ((table.s i).down i).2 then returned else waits)

/-- `up(&mutex)` -/
def upMutex (table : Table n) : Table n := { table with mutex := table.mutex.up }

/-- The next step of a philosopher, unless it waits or has done its rounds. -/
def phiStep (table : Table n) (i : Fin (n + 2)) : Option (Table n) :=
  match table.pcs i with
  | .thinking =>
      if table.rounds i = 0 then none
      else some (downMutex i .takeHungry .takeWait { table with
        rounds := Function.update table.rounds i (table.rounds i - 1) })
  | .takeWait => if i ∈ table.mutex.queue then none else some (table.goTo i .takeHungry)
  | .takeHungry => some ((table.store i .hungry).goTo i .takeTest)
  | .takeTest => some ((phiTestSema i table).goTo i .takeUp)
  | .takeUp => some ((upMutex table).goTo i .takeSelf)
  | .takeSelf => some (downSelf i .eating .takeSelfWait table)
  | .takeSelfWait => if i ∈ (table.s i).queue then none else some (table.goTo i .eating)
  | .eating => some (downMutex i .putThinking .putWait table)
  | .putWait => if i ∈ table.mutex.queue then none else some (table.goTo i .putThinking)
  | .putThinking => some ((table.store i .thinking).goTo i .putLeft)
  | .putLeft => some ((phiTestSema (left i) table).goTo i .putRight)
  | .putRight => some ((phiTestSema (right i) table).goTo i .putUp)
  | .putUp => some ((upMutex table).goTo i .thinking)

/-- The tables reached by any interleaving. -/
def PhiReached (rounds : Fin (n + 2) → Nat) (table : Table n) : Prop :=
  Reaches phiStep (fun _ _ => True) (start rounds) table

/-- A philosopher that has done its rounds. -/
def Finished (table : Table n) (i : Fin (n + 2)) : Prop := table.pcs i = .thinking ∧ table.rounds i = 0

/-! ## The order at the table -/

/-- The state of a philosopher and its semaphore, by where it is. -/
def Seated (i : Fin (n + 2)) : Pc → PhiState → Semaphore (Fin (n + 2)) → Prop
  | .takeTest, state, sem | .takeUp, state, sem | .takeSelf, state, sem =>
      state = .hungry ∧ sem = ⟨0, []⟩ ∨ state = .eating ∧ sem = ⟨1, []⟩
  | .takeSelfWait, state, sem => state = .hungry ∧ sem = ⟨0, [i]⟩ ∨ state = .eating ∧ sem = ⟨0, []⟩
  | .eating, state, sem | .putWait, state, sem | .putThinking, state, sem => state = .eating ∧ sem = ⟨0, []⟩
  | _, state, sem => state = .thinking ∧ sem = ⟨0, []⟩

/-- A neighbour eats. -/
def NeighbourEats (table : Table n) (i : Fin (n + 2)) : Prop :=
  table.stateSema (left i) = .eating ∨ table.stateSema (right i) = .eating

/-- A neighbour eats, or has put its forks and is going to test the philosopher. -/
def Watched (table : Table n) (i : Fin (n + 2)) : Prop :=
  NeighbourEats table i ∨ table.pcs (left i) = .putLeft ∨ table.pcs (left i) = .putRight ∨ table.pcs (right i) = .putLeft

/-- Between the two calls on the mutex. -/
def Critical : Pc → Prop
  | .takeHungry | .takeTest | .takeUp | .putThinking | .putLeft | .putRight | .putUp => True
  | _ => False

/-- In `down(&mutex)`. -/
def AtMutex : Pc → Prop
  | .takeWait | .putWait => True
  | _ => False

/-- The philosopher has the mutex. -/
def Holds (table : Table n) (i : Fin (n + 2)) : Prop :=
  Critical (table.pcs i) ∨ AtMutex (table.pcs i) ∧ i ∉ table.mutex.queue

/-- The mutex is free and no one waits for it, or someone has it. -/
structure Guarded (table : Table n) : Prop where
  nonneg : 0 ≤ table.mutex.value
  free : 0 < table.mutex.value → table.mutex.queue = []
  held : table.mutex.value = 0 → ∃ i, Holds table i
  waiting : ∀ i ∈ table.mutex.queue, AtMutex (table.pcs i)
  distinct : table.mutex.queue.Nodup

/-- What holds between any two steps. -/
structure Orderly (table : Table n) : Prop where
  seated : ∀ i, Seated i (table.pcs i) (table.stateSema i) (table.s i)
  apart : ∀ i, table.stateSema i = .eating → table.stateSema (right i) ≠ .eating
  watched : ∀ i, table.stateSema i = .hungry → table.pcs i ≠ .takeTest → Watched table i
  guarded : Guarded table

variable {table : Table n} {i j : Fin (n + 2)} {pc : Pc}

@[simp] theorem left_right (i : Fin (n + 2)) : left (right i) = i := add_sub_cancel_right i 1

@[simp] theorem right_left (i : Fin (n + 2)) : right (left i) = i := sub_add_cancel i 1

theorem right_ne (i : Fin (n + 2)) : right i ≠ i := by
  intro same
  have one : (1 : Fin (n + 2)) = 0 := add_eq_left.mp same
  exact absurd one (by simp)

@[simp] theorem goTo_self (table : Table n) (i : Fin (n + 2)) (pc : Pc) : (table.goTo i pc).pcs i = pc :=
  Function.update_self ..

theorem goTo_of_ne (table : Table n) (pc : Pc) (different : j ≠ i) : (table.goTo i pc).pcs j = table.pcs j :=
  Function.update_of_ne different ..

/-! ## What `phi_test_sema` keeps -/

@[simp] theorem phiTestSema_pcs (j : Fin (n + 2)) (table : Table n) : (phiTestSema j table).pcs = table.pcs := by
  unfold phiTestSema
  split <;> rfl

@[simp] theorem phiTestSema_mutex (j : Fin (n + 2)) (table : Table n) : (phiTestSema j table).mutex = table.mutex := by
  unfold phiTestSema
  split <;> rfl

/-- A philosopher that gets its forks is granted its semaphore, which it waits for or is about to. -/
theorem Seated.granted (seated : Seated i pc .hungry sem) : Seated i pc .eating sem.up := by
  cases pc <;> simp_all [Seated, Semaphore.up]

theorem phiTestSema_seated (seated : ∀ i, Seated i (table.pcs i) (table.stateSema i) (table.s i)) (j i : Fin (n + 2)) :
    Seated i (table.pcs i) ((phiTestSema j table).stateSema i) ((phiTestSema j table).s i) := by
  unfold phiTestSema
  split
  · rename_i forks
    by_cases here : i = j
    · subst here
      have granted := (forks.1 ▸ seated i).granted
      simpa [Table.store] using granted
    · simpa [Table.store, here] using seated i
  · exact seated i

/-- Two neighbours never eat. -/
theorem phiTestSema_apart (apart : ∀ i, table.stateSema i = .eating → table.stateSema (right i) ≠ .eating)
    (j i : Fin (n + 2)) (eats : (phiTestSema j table).stateSema i = .eating) :
    (phiTestSema j table).stateSema (right i) ≠ .eating := by
  unfold phiTestSema at eats ⊢
  split at eats
  · rename_i forks
    rw [if_pos forks]
    by_cases here : i = j
    · subst here
      simpa [Table.store, right_ne] using forks.2.2
    · have ate : table.stateSema i = .eating := by simpa [Table.store, here] using eats
      by_cases before : right i = j
      · subst before
        rw [left_right] at forks
        exact absurd ate forks.2.1
      · simpa [Table.store, before] using apart i ate
  · rename_i noForks
    rw [if_neg noForks]
    exact apart i eats

/-- A neighbour that eats goes on eating. -/
theorem NeighbourEats.test (eats : NeighbourEats table i) (j : Fin (n + 2)) : NeighbourEats (phiTestSema j table) i := by
  have goesOn : ∀ other, table.stateSema other = .eating → (phiTestSema j table).stateSema other = .eating := by
    intro other ate
    unfold phiTestSema
    split
    · by_cases here : other = j
      · subst here
        simp [Table.store]
      · simpa [Table.store, here] using ate
    · exact ate
  exact eats.imp (goesOn _) (goesOn _)

/-- A philosopher that is hungry after a test was hungry before it. -/
theorem hungry_before (hungry : (phiTestSema j table).stateSema i = .hungry) : table.stateSema i = .hungry := by
  unfold phiTestSema at hungry
  split at hungry
  · by_cases here : i = j
    · subst here
      simp [Table.store] at hungry
    · simpa [Table.store, here] using hungry
  · exact hungry

/-- A philosopher that is hungry after its test has a neighbour that eats. -/
theorem hungry_after (hungry : (phiTestSema j table).stateSema j = .hungry) : NeighbourEats (phiTestSema j table) j := by
  unfold phiTestSema at hungry ⊢
  split at hungry
  · simp [Table.store] at hungry
  · rename_i noForks
    rw [if_neg noForks]
    by_contra none
    rw [NeighbourEats, not_or] at none
    exact noForks ⟨hungry, none⟩

/-! ## The mutex -/

/-- A step that leaves the mutex alone, of a philosopher outside of the queue. -/
theorem Guarded.goTo (guarded : Guarded table) (outside : i ∉ table.mutex.queue)
    (keeps : Critical pc ∨ ¬ Holds table i) : Guarded (table.goTo i pc) where
  nonneg := guarded.nonneg
  free := guarded.free
  held zero := by
    obtain ⟨holder, holds⟩ := guarded.held zero
    by_cases here : holder = i
    · subst here
      refine ⟨holder, Or.inl ?_⟩
      rw [goTo_self]
      exact keeps.resolve_right (not_not_intro holds)
    · refine ⟨holder, ?_⟩
      rw [Holds, goTo_of_ne table pc here]
      exact holds
  waiting other member := by
    have different : other ≠ i := fun same => outside (same ▸ member)
    rw [goTo_of_ne table pc different]
    exact guarded.waiting other member
  distinct := guarded.distinct

/-- `down(&mutex)` of a philosopher that neither has the mutex nor waits for it. -/
theorem Guarded.down {returned waits : Pc} (guarded : Guarded table) (isReturned : Critical returned) (isWaits : AtMutex waits)
    (notHeld : ¬ Critical (table.pcs i)) (notWaiting : ¬ AtMutex (table.pcs i)) : Guarded (downMutex i returned waits table) := by
  have outside : i ∉ table.mutex.queue := fun member => notWaiting (guarded.waiting i member)
  have nonneg := guarded.nonneg
  unfold downMutex Semaphore.down
  split
  · rename_i positive
    have empty := guarded.free positive
    refine ⟨?_, fun _ => empty, fun _ => ⟨i, Or.inl ?_⟩, fun other member => ?_, guarded.distinct⟩
    · change 0 ≤ table.mutex.value - 1
      omega
    · rw [goTo_self]
      exact isReturned
    · change other ∈ table.mutex.queue at member
      rw [empty] at member
      cases member
  · rename_i notPositive
    have zero : table.mutex.value = 0 := by omega
    refine ⟨nonneg, fun positive => absurd positive notPositive, fun _ => ?_, fun other member => ?_, ?_⟩
    · obtain ⟨holder, holds⟩ := guarded.held zero
      have different : holder ≠ i := by
        rintro rfl
        exact holds.elim notHeld fun waits => notWaiting waits.1
      refine ⟨holder, ?_⟩
      rw [Holds, goTo_of_ne _ _ different]
      refine holds.imp_right fun waits => ⟨waits.1, fun member => ?_⟩
      exact (List.mem_append.mp member).elim waits.2 fun isLast => different (List.mem_singleton.mp isLast)
    · by_cases here : other = i
      · subst here
        rw [goTo_self]
        exact isWaits
      · rw [goTo_of_ne _ _ here]
        have before := (List.mem_append.mp member).resolve_right fun isLast => here (List.mem_singleton.mp isLast)
        exact guarded.waiting other before
    · refine List.nodup_append.mpr ⟨guarded.distinct, List.nodup_singleton i, ?_⟩
      rintro other member _ isLast rfl
      rw [List.mem_singleton] at isLast
      exact outside (isLast ▸ member)

/-- `up(&mutex)` of the philosopher that has it, which lets the first in the queue have it. -/
theorem Guarded.up (guarded : Guarded table) (held : Critical (table.pcs i)) : Guarded ((upMutex table).goTo i pc) := by
  have nonneg := guarded.nonneg
  have others : ∀ other, AtMutex (table.pcs other) → other ≠ i := by
    rintro other waits rfl
    cases isPc : table.pcs other <;> simp_all [Critical, AtMutex]
  unfold upMutex Semaphore.up
  split
  · rename_i empty
    refine ⟨?_, fun _ => empty, fun zero => ?_, fun other member => ?_, guarded.distinct⟩
    · change 0 ≤ table.mutex.value + 1
      omega
    · change table.mutex.value + 1 = 0 at zero
      omega
    · change other ∈ table.mutex.queue at member
      rw [empty] at member
      cases member
  · rename_i first rest isQueue
    have distinct := guarded.distinct
    rw [isQueue, List.nodup_cons] at distinct
    have waits := guarded.waiting first (by simp [isQueue])
    refine ⟨nonneg, fun positive => ?_, fun _ => ⟨first, Or.inr ?_⟩, fun other member => ?_, distinct.2⟩
    · have empty := guarded.free positive
      rw [isQueue] at empty
      cases empty
    · rw [goTo_of_ne _ _ (others first waits)]
      exact ⟨waits, distinct.1⟩
    · have waitsToo := guarded.waiting other (isQueue ▸ List.mem_cons_of_mem _ member)
      rw [goTo_of_ne _ _ (others other waitsToo)]
      exact waitsToo

/-! ## Steps -/

/-- A philosopher that goes on elsewhere leaves the hungry ones watched when it has tested those it
was going to test. -/
theorem watched_goTo (watched : ∀ i, table.stateSema i = .hungry → table.pcs i ≠ .takeTest → Watched table i)
    (own : table.pcs j = .takeTest → table.stateSema j = .hungry → NeighbourEats table j)
    (onLeft : table.pcs j = .putLeft → table.stateSema (left j) = .hungry → NeighbourEats table (left j))
    (onRight : table.pcs j = .putLeft ∨ table.pcs j = .putRight → pc ≠ .putRight →
      table.stateSema (right j) = .hungry → NeighbourEats table (right j))
    (i : Fin (n + 2)) (hungry : (table.goTo j pc).stateSema i = .hungry) (elsewhere : (table.goTo j pc).pcs i ≠ .takeTest) :
    Watched (table.goTo j pc) i := by
  have hungryBefore : table.stateSema i = .hungry := hungry
  by_cases testing : table.pcs i = .takeTest
  · have here : i = j := by
      by_contra different
      exact elsewhere ((goTo_of_ne table pc different).trans testing)
    subst here
    exact Or.inl (own testing hungry)
  · -- the neighbour on the left has yet to test its right neighbour
    have leftTests : table.pcs (left i) = .putLeft ∨ table.pcs (left i) = .putRight → Watched (table.goTo j pc) i := by
      intro tests
      by_cases here : left i = j
      · subst here
        rw [right_left] at onRight
        by_cases later : pc = .putRight
        · refine Or.inr (Or.inr (Or.inl ?_))
          rw [goTo_self, later]
        · exact Or.inl (onRight tests later hungry)
      · have same := goTo_of_ne table pc here
        exact tests.elim (fun atLeft => Or.inr (Or.inl (same.trans atLeft)))
          fun atRight => Or.inr (Or.inr (Or.inl (same.trans atRight)))
    rcases watched i hungryBefore testing with eats | atLeft | atRight | tests
    · exact Or.inl eats
    · exact leftTests (Or.inl atLeft)
    · exact leftTests (Or.inr atRight)
    · by_cases here : right i = j
      · subst here
        rw [left_right] at onLeft
        exact Or.inl (onLeft tests hungry)
      · exact Or.inr (Or.inr (Or.inr ((goTo_of_ne table pc here).trans tests)))

/-- A step without a test and without a store. -/
theorem watched_plain (watched : ∀ i, table.stateSema i = .hungry → table.pcs i ≠ .takeTest → Watched table i)
    (noTest : table.pcs j ≠ .takeTest) (noLeft : table.pcs j ≠ .putLeft) (noRight : table.pcs j ≠ .putRight) (i : Fin (n + 2))
    (hungry : (table.goTo j pc).stateSema i = .hungry) (elsewhere : (table.goTo j pc).pcs i ≠ .takeTest) :
    Watched (table.goTo j pc) i :=
  watched_goTo watched (fun atTest => absurd atTest noTest) (fun atLeft => absurd atLeft noLeft)
    (fun atPut => absurd atPut (not_or.mpr ⟨noLeft, noRight⟩)) i hungry elsewhere

/-- A philosopher goes on with the same state and the same semaphore. -/
theorem seated_goTo (seated : ∀ i, Seated i (table.pcs i) (table.stateSema i) (table.s i))
    (same : Seated j (table.pcs j) (table.stateSema j) (table.s j) → Seated j pc (table.stateSema j) (table.s j))
    (i : Fin (n + 2)) : Seated i ((table.goTo j pc).pcs i) (table.stateSema i) (table.s i) := by
  by_cases here : i = j
  · subst here
    rw [goTo_self]
    exact same (seated i)
  · rw [goTo_of_ne table pc here]
    exact seated i

/-- A test keeps the order. -/
theorem Orderly.test (orderly : Orderly table) (j : Fin (n + 2)) : Orderly (phiTestSema j table) where
  seated i := by
    rw [phiTestSema_pcs]
    exact phiTestSema_seated orderly.seated j i
  apart := phiTestSema_apart orderly.apart j
  watched i hungry elsewhere := by
    rw [phiTestSema_pcs] at elsewhere
    have before := orderly.watched i (hungry_before hungry) elsewhere
    rw [Watched, phiTestSema_pcs]
    exact before.imp_left fun eats => eats.test j
  guarded := by
    have guarded := orderly.guarded
    refine ⟨?_, ?_, fun zero => ?_, ?_, ?_⟩
    · rw [phiTestSema_mutex]
      exact guarded.nonneg
    · rw [phiTestSema_mutex]
      exact guarded.free
    · rw [phiTestSema_mutex] at zero
      obtain ⟨holder, holds⟩ := guarded.held zero
      refine ⟨holder, ?_⟩
      rw [Holds, phiTestSema_pcs, phiTestSema_mutex]
      exact holds
    · rw [phiTestSema_mutex, phiTestSema_pcs]
      exact guarded.waiting
    · rw [phiTestSema_mutex]
      exact guarded.distinct

/-- A philosopher outside of `down(&mutex)` is not in the queue of the mutex. -/
theorem Guarded.outside (guarded : Guarded table) (notWaiting : ¬ AtMutex (table.pcs j)) : j ∉ table.mutex.queue :=
  fun member => notWaiting (guarded.waiting j member)

/-- A philosopher goes on after its test, and is on its way to put or has put its forks. -/
theorem Orderly.goTo (orderly : Orderly table) (critical : Critical (table.pcs j)) (isCritical : Critical pc)
    (seat : Seated j (table.pcs j) (table.stateSema j) (table.s j) → Seated j pc (table.stateSema j) (table.s j))
    (own : table.pcs j = .takeTest → table.stateSema j = .hungry → NeighbourEats table j)
    (onLeft : table.pcs j = .putLeft → table.stateSema (left j) = .hungry → NeighbourEats table (left j))
    (onRight : table.pcs j = .putLeft ∨ table.pcs j = .putRight → pc ≠ .putRight →
      table.stateSema (right j) = .hungry → NeighbourEats table (right j)) : Orderly (table.goTo j pc) where
  seated := seated_goTo orderly.seated seat
  apart := orderly.apart
  watched := watched_goTo orderly.watched own onLeft onRight
  guarded := by
    refine orderly.guarded.goTo (orderly.guarded.outside fun waits => ?_) (Or.inl isCritical)
    cases isPc : table.pcs j <;> simp_all [Critical, AtMutex]

/-- A philosopher goes on with the same state and the same semaphore, at another place with the mutex. -/
theorem Orderly.moved {mutex : Semaphore (Fin (n + 2))} {rounds : Fin (n + 2) → Nat} (orderly : Orderly table)
    (noTest : table.pcs j ≠ .takeTest) (noLeft : table.pcs j ≠ .putLeft) (noRight : table.pcs j ≠ .putRight)
    (seat : Seated j (table.pcs j) (table.stateSema j) (table.s j) → Seated j pc (table.stateSema j) (table.s j))
    (guarded : Guarded ({ table with mutex := mutex, rounds := rounds }.goTo j pc)) :
    Orderly ({ table with mutex := mutex, rounds := rounds }.goTo j pc) where
  seated := @seated_goTo n { table with mutex := mutex, rounds := rounds } j pc orderly.seated seat
  apart := orderly.apart
  watched := @watched_plain n { table with mutex := mutex, rounds := rounds } j pc orderly.watched noTest noLeft noRight
  guarded := guarded

/-- The other variables do not matter for the mutex. -/
theorem Guarded.others (guarded : Guarded table) (stateSema : Fin (n + 2) → PhiState)
    (s : Fin (n + 2) → Semaphore (Fin (n + 2))) (rounds : Fin (n + 2) → Nat) :
    Guarded { table with stateSema := stateSema, s := s, rounds := rounds } :=
  ⟨guarded.nonneg, guarded.free, guarded.held, guarded.waiting, guarded.distinct⟩

/-- A philosopher that has neither called `down(&mutex)` nor waits for a fork calls it. -/
theorem Orderly.down {returned waits : Pc} (orderly : Orderly table) (rounds : Fin (n + 2) → Nat)
    (outside : table.pcs j = .thinking ∨ table.pcs j = .eating) (isReturned : Critical returned) (isWaits : AtMutex waits)
    (seatReturned : Seated j (table.pcs j) (table.stateSema j) (table.s j) → Seated j returned (table.stateSema j) (table.s j))
    (seatWaits : Seated j (table.pcs j) (table.stateSema j) (table.s j) → Seated j waits (table.stateSema j) (table.s j)) :
    Orderly (downMutex j returned waits { table with rounds := rounds }) := by
  have notCritical : ¬ Critical (table.pcs j) := by
    rcases outside with isPc | isPc <;> simp [isPc, Critical]
  have notWaiting : ¬ AtMutex (table.pcs j) := by
    rcases outside with isPc | isPc <;> simp [isPc, AtMutex]
  have guarded := (orderly.guarded.others table.stateSema table.s rounds).down isReturned isWaits notCritical notWaiting
  refine orderly.moved ?_ ?_ ?_ (fun seat => ?_) guarded
  · rcases outside with isPc | isPc <;> simp [isPc]
  · rcases outside with isPc | isPc <;> simp [isPc]
  · rcases outside with isPc | isPc <;> simp [isPc]
  · split
    · exact seatReturned seat
    · exact seatWaits seat

theorem store_of_ne (table : Table n) (state : PhiState) (different : i ≠ j) :
    (table.store j state).stateSema i = table.stateSema i := Function.update_of_ne different ..

@[simp] theorem store_self (table : Table n) (j : Fin (n + 2)) (state : PhiState) :
    (table.store j state).stateSema j = state := Function.update_self ..

/-- A philosopher that stores its state leaves the others watched: when it ends eating, it is going to
test its neighbours. -/
theorem Watched.store {state : PhiState} (watched : Watched table i) (ends : table.stateSema j = .eating → pc = .putLeft)
    (notLeft : table.pcs j ≠ .putLeft) (notRight : table.pcs j ≠ .putRight) :
    Watched ((table.store j state).goTo j pc) i := by
  rcases watched with (eats | eats) | atLeft | atRight | tests
  · by_cases here : left i = j
    · refine Or.inr (Or.inl ?_)
      rw [here, goTo_self, ends (here ▸ eats)]
    · exact Or.inl (Or.inl ((store_of_ne table state here).trans eats))
  · by_cases here : right i = j
    · refine Or.inr (Or.inr (Or.inr ?_))
      rw [here, goTo_self, ends (here ▸ eats)]
    · exact Or.inl (Or.inr ((store_of_ne table state here).trans eats))
  · have different : left i ≠ j := fun same => notLeft (same ▸ atLeft)
    exact Or.inr (Or.inl ((goTo_of_ne _ pc different).trans atLeft))
  · have different : left i ≠ j := fun same => notRight (same ▸ atRight)
    exact Or.inr (Or.inr (Or.inl ((goTo_of_ne _ pc different).trans atRight)))
  · have different : right i ≠ j := fun same => notLeft (same ▸ tests)
    exact Or.inr (Or.inr (Or.inr ((goTo_of_ne _ pc different).trans tests)))

/-- A philosopher that has the mutex stores its state, which is that it is hungry or thinking. -/
theorem Orderly.store {state : PhiState} (orderly : Orderly table) (critical : Critical (table.pcs j)) (isCritical : Critical pc)
    (seat : Seated j pc state (table.s j)) (notEating : state ≠ .eating) (tests : state = .hungry → pc = .takeTest)
    (ends : table.stateSema j = .eating → pc = .putLeft) (notTest : table.pcs j ≠ .takeTest)
    (notLeft : table.pcs j ≠ .putLeft) (notRight : table.pcs j ≠ .putRight) : Orderly ((table.store j state).goTo j pc) where
  seated i := by
    by_cases here : i = j
    · subst here
      rw [goTo_self, show ((table.store i state).goTo i pc).stateSema i = state from store_self table i state]
      exact seat
    · have same : ((table.store j state).goTo j pc).stateSema i = table.stateSema i := store_of_ne table state here
      rw [goTo_of_ne _ _ here, same]
      exact orderly.seated i
  apart i eats := by
    have different : i ≠ j := by
      rintro rfl
      exact notEating ((store_self table i state).symm.trans eats)
    have before : table.stateSema i = .eating := (store_of_ne table state different).symm.trans eats
    by_cases here : right i = j
    · rw [here]
      exact fun eatsToo => notEating ((store_self table j state).symm.trans eatsToo)
    · exact fun eatsToo => orderly.apart i before ((store_of_ne table state here).symm.trans eatsToo)
  watched i hungry elsewhere := by
    have different : i ≠ j := by
      rintro rfl
      rw [goTo_self] at elsewhere
      exact elsewhere (tests ((store_self table i state).symm.trans hungry))
    rw [goTo_of_ne _ _ different] at elsewhere
    have before : table.stateSema i = .hungry := (store_of_ne table state different).symm.trans hungry
    exact (orderly.watched i before elsewhere).store ends notLeft notRight
  guarded := by
    have guarded := orderly.guarded
    have notWaiting : ¬ AtMutex (table.pcs j) := by
      intro waits
      cases isPc : table.pcs j <;> simp_all [Critical, AtMutex]
    exact (guarded.others (table.store j state).stateSema table.s table.rounds).goTo (guarded.outside notWaiting)
      (Or.inl isCritical)

/-- A philosopher takes what was granted to it, or waits for it. -/
theorem takeSelf_orderly (orderly : Orderly table) (isPc : table.pcs j = .takeSelf) :
    Orderly (downSelf j .eating .takeSelfWait table) := by
  have here := orderly.seated j
  rw [isPc] at here
  obtain ⟨pc, isPcAfter⟩ : ∃ pc, (if ((table.s j).down j).2 then Pc.eating else .takeSelfWait) = pc := ⟨_, rfl⟩
  have seat : Seated j pc (table.stateSema j) ((table.s j).down j).1 := by
    rw [← isPcAfter]
    rcases here with ⟨hungry, empty⟩ | ⟨eats, granted⟩
    · rw [empty]
      exact Or.inl ⟨hungry, rfl⟩
    · rw [granted]
      exact ⟨eats, rfl⟩
  obtain ⟨sems, isSems⟩ : ∃ sems, Function.update table.s j ((table.s j).down j).1 = sems := ⟨_, rfl⟩
  have notWaiting : ¬ AtMutex (table.pcs j) := by simp [isPc, AtMutex]
  have notHolding : ¬ Holds table j := by simp [Holds, isPc, Critical, AtMutex]
  rw [downSelf, isPcAfter, isSems]
  refine ⟨fun i => ?_, orderly.apart, ?_, ?_⟩
  · by_cases here : i = j
    · subst here
      rw [goTo_self]
      change Seated i pc (table.stateSema i) (sems i)
      rw [← isSems, Function.update_self]
      exact seat
    · rw [goTo_of_ne _ _ here]
      change Seated i (table.pcs i) (table.stateSema i) (sems i)
      rw [← isSems, Function.update_of_ne here]
      exact orderly.seated i
  · exact @watched_plain n { table with s := sems } j pc orderly.watched (by simp [isPc]) (by simp [isPc]) (by simp [isPc])
  · exact (orderly.guarded.others table.stateSema sems table.rounds).goTo (orderly.guarded.outside notWaiting)
      (Or.inr notHolding)

/-- Each step of a philosopher keeps the order. -/
theorem phiStep_orderly {next : Table n} (orderly : Orderly table) (taken : phiStep table j = some next) : Orderly next := by
  have guarded := orderly.guarded
  have here := orderly.seated j
  unfold phiStep at taken
  cases isPc : table.pcs j with
  | thinking =>
    simp only [isPc] at taken
    split at taken
    · cases taken
    · cases taken
      refine orderly.down _ (Or.inl isPc) trivial trivial (fun seat => ?_) fun seat => ?_
      · rwa [isPc] at seat
      · rwa [isPc] at seat
  | takeWait =>
    simp only [isPc] at taken
    split at taken
    · cases taken
    · rename_i outside
      cases taken
      refine orderly.moved (by simp [isPc]) (by simp [isPc]) (by simp [isPc]) (fun seat => ?_) ?_
      · rwa [isPc] at seat
      · exact guarded.goTo outside (Or.inl trivial)
  | takeHungry =>
    simp only [isPc, Option.some.injEq] at taken
    subst taken
    have seat := here
    rw [isPc] at seat
    refine orderly.store (by simp [isPc, Critical]) trivial (Or.inl ⟨rfl, seat.2⟩) nofun (fun _ => rfl) (fun eats => ?_)
      (by simp [isPc]) (by simp [isPc]) (by simp [isPc])
    rw [seat.1] at eats
    cases eats
  | takeTest =>
    simp only [isPc, Option.some.injEq] at taken
    subst taken
    refine (orderly.test j).goTo ?_ trivial ?_ (fun _ => hungry_after) ?_ ?_
    · simp [isPc, Critical]
    · simp [isPc, Seated]
    · simp [isPc]
    · simp [isPc]
  | takeUp =>
    simp only [isPc, Option.some.injEq] at taken
    subst taken
    refine orderly.moved (by simp [isPc]) (by simp [isPc]) (by simp [isPc]) (fun seat => ?_) ?_
    · rwa [isPc] at seat
    · exact guarded.up (by simp [isPc, Critical])
  | takeSelf =>
    simp only [isPc, Option.some.injEq] at taken
    subst taken
    exact takeSelf_orderly orderly isPc
  | takeSelfWait =>
    simp only [isPc] at taken
    split at taken
    · cases taken
    · rename_i outside
      cases taken
      refine orderly.moved (by simp [isPc]) (by simp [isPc]) (by simp [isPc]) (fun seat => ?_)
        (guarded.goTo (guarded.outside (by simp [isPc, AtMutex])) (Or.inr ?_))
      · rw [isPc] at seat
        rcases seat with ⟨_, waits⟩ | granted
        · rw [waits] at outside
          exact absurd (List.mem_singleton_self j) outside
        · exact granted
      · simp [Holds, isPc, Critical, AtMutex]
  | eating =>
    simp only [isPc, Option.some.injEq] at taken
    subst taken
    refine orderly.down table.rounds (Or.inr isPc) trivial trivial (fun seat => ?_) fun seat => ?_
    · rwa [isPc] at seat
    · rwa [isPc] at seat
  | putWait =>
    simp only [isPc] at taken
    split at taken
    · cases taken
    · rename_i outside
      cases taken
      refine orderly.moved (by simp [isPc]) (by simp [isPc]) (by simp [isPc]) (fun seat => ?_) ?_
      · rwa [isPc] at seat
      · exact guarded.goTo outside (Or.inl trivial)
  | putThinking =>
    simp only [isPc, Option.some.injEq] at taken
    subst taken
    rw [isPc] at here
    exact orderly.store (by simp [isPc, Critical]) trivial ⟨rfl, here.2⟩ nofun nofun (fun _ => rfl)
      (by simp [isPc]) (by simp [isPc]) (by simp [isPc])
  | putLeft =>
    simp only [isPc, Option.some.injEq] at taken
    subst taken
    refine (orderly.test (left j)).goTo ?_ trivial ?_ ?_ (fun _ => hungry_after) ?_
    · simp [isPc, Critical]
    · simp [isPc, Seated]
    · simp [isPc]
    · simp
  | putRight =>
    simp only [isPc, Option.some.injEq] at taken
    subst taken
    refine (orderly.test (right j)).goTo ?_ trivial ?_ ?_ ?_ (fun _ _ => hungry_after)
    · simp [isPc, Critical]
    · simp [isPc, Seated]
    · simp [isPc]
    · simp [isPc]
  | putUp =>
    simp only [isPc, Option.some.injEq] at taken
    subst taken
    refine orderly.moved (by simp [isPc]) (by simp [isPc]) (by simp [isPc]) (fun seat => ?_) ?_
    · rwa [isPc] at seat
    · exact guarded.up (by simp [isPc, Critical])

/-! ## Any interleaving -/

theorem start_orderly (rounds : Fin (n + 2) → Nat) : Orderly (start rounds) where
  seated _ := ⟨rfl, rfl⟩
  apart _ eats := by cases eats
  watched _ hungry := by cases hungry
  guarded := ⟨by simp [start], fun _ => rfl, fun zero => absurd zero (by simp [start]), nofun, List.nodup_nil⟩

theorem PhiReached.orderly {rounds : Fin (n + 2) → Nat} (reached : PhiReached rounds table) : Orderly table :=
  Reaches.invariant (start_orderly rounds) (fun _ _ _ orderly _ taken => phiStep_orderly orderly taken) reached

/-- Someone has not finished and can go on. -/
def GoesOn (table : Table n) : Prop := ∃ i, ¬ Finished table i ∧ (phiStep table i).isSome

/-- The philosopher that has the mutex goes on. -/
theorem Holds.goesOn (holds : Holds table i) : GoesOn table := by
  refine ⟨i, fun finished => ?_, ?_⟩
  · simp [Holds, finished.1, Critical, AtMutex] at holds
  · rcases holds with critical | ⟨waits, outside⟩
    · unfold phiStep
      cases isPc : table.pcs i <;> simp_all [Critical]
    · unfold phiStep
      cases isPc : table.pcs i <;> simp_all [AtMutex]

/-- A philosopher that waits for the mutex has one that goes on before it. -/
theorem Guarded.goesOn (guarded : Guarded table) (member : i ∈ table.mutex.queue) : GoesOn table := by
  have nonneg := guarded.nonneg
  have zero : table.mutex.value = 0 := by
    by_contra notZero
    rw [guarded.free (by omega)] at member
    cases member
  obtain ⟨holder, holds⟩ := guarded.held zero
  exact holds.goesOn

/-- A philosopher in one of the two functions that does not wait goes on. -/
theorem goesOn_of_step (isPc : table.pcs i = pc) (inside : pc ≠ .thinking) (goesOn : (phiStep table i).isSome) : GoesOn table :=
  ⟨i, fun finished => inside (isPc.symm.trans finished.1), goesOn⟩

theorem goesOn_of_critical (isPc : table.pcs i = pc) (critical : Critical pc) : GoesOn table :=
  Holds.goesOn (Or.inl (isPc ▸ critical))

/-- A philosopher in `down(&mutex)` goes on, or waits for one that does. -/
theorem Guarded.atMutex_goesOn (guarded : Guarded table) (isPc : table.pcs i = pc) (waits : AtMutex pc) : GoesOn table := by
  by_cases member : i ∈ table.mutex.queue
  · exact guarded.goesOn member
  · exact Holds.goesOn (Or.inr ⟨isPc ▸ waits, member⟩)

/-- A philosopher that eats goes on, or waits for one that does. -/
theorem Orderly.eater_goesOn (orderly : Orderly table) (eats : table.stateSema i = .eating) : GoesOn table := by
  have seated := orderly.seated i
  rw [eats] at seated
  cases isPc : table.pcs i with
  | takeTest | takeUp | putThinking => exact goesOn_of_critical isPc trivial
  | takeSelf | eating => exact goesOn_of_step isPc nofun (by simp [phiStep, isPc])
  | takeSelfWait =>
    have granted : table.s i = ⟨0, []⟩ := by simpa [isPc, Seated] using seated
    exact goesOn_of_step isPc nofun (by simp [phiStep, isPc, granted])
  | putWait => exact orderly.guarded.atMutex_goesOn isPc trivial
  | thinking | takeWait | takeHungry | putLeft | putRight | putUp => simp [isPc, Seated] at seated

/-- As long as a philosopher has not finished, one that has not finished goes on. -/
theorem Orderly.goesOn (orderly : Orderly table) (unfinished : ¬ Finished table i) : GoesOn table := by
  cases isPc : table.pcs i with
  | thinking =>
    have more : table.rounds i ≠ 0 := fun none => unfinished ⟨isPc, none⟩
    exact ⟨i, unfinished, by simp [phiStep, isPc, more]⟩
  | takeWait | putWait => exact orderly.guarded.atMutex_goesOn isPc trivial
  | takeSelf | eating => exact goesOn_of_step isPc nofun (by simp [phiStep, isPc])
  | takeSelfWait =>
    have seated := orderly.seated i
    rw [isPc] at seated
    rcases seated with ⟨hungry, _⟩ | ⟨eats, _⟩
    · -- it waits for a neighbour that eats, or that is going to test it
      rcases orderly.watched i hungry (by simp [isPc]) with (eats | eats) | atLeft | atRight | tests
      · exact orderly.eater_goesOn eats
      · exact orderly.eater_goesOn eats
      · exact goesOn_of_critical atLeft trivial
      · exact goesOn_of_critical atRight trivial
      · exact goesOn_of_critical tests trivial
    · exact orderly.eater_goesOn eats
  | takeHungry | takeTest | takeUp | putThinking | putLeft | putRight | putUp => exact goesOn_of_critical isPc trivial

/-- A philosopher between the two functions has the state of one that eats. -/
theorem Orderly.eats (orderly : Orderly table) (eating : table.pcs i = .eating) : table.stateSema i = .eating := by
  have seated := orderly.seated i
  rw [eating] at seated
  exact seated.1

/-- The semaphore of a philosopher is at most 1, and only the philosopher itself waits at it, hungry. -/
theorem Orderly.semaphore (orderly : Orderly table) (i : Fin (n + 2)) :
    (table.s i).value ≤ 1 ∧ ∀ j ∈ (table.s i).queue, table.stateSema j = .hungry := by
  have seated := orderly.seated i
  have cases' : table.s i = ⟨0, []⟩ ∨ table.s i = ⟨1, []⟩ ∨ table.stateSema i = .hungry ∧ table.s i = ⟨0, [i]⟩ := by
    cases isPc : table.pcs i <;> rw [isPc] at seated <;> simp only [Seated] at seated <;> tauto
  rcases cases' with empty | granted | ⟨hungry, waits⟩
  · simp [empty]
  · simp [granted]
  · simp [waits, hungry]

/-- In every table reached: two neighbours are never between the two functions together, no semaphore of
a philosopher is above 1, only a hungry one waits at it, and unless all have finished, one that has
not goes on. -/
theorem philosophers_exact {rounds : Fin (n + 2) → Nat} (reached : PhiReached rounds table) :
    (∀ i, table.pcs i = .eating → table.pcs (left i) ≠ .eating ∧ table.pcs (right i) ≠ .eating) ∧
      (∀ i, (table.s i).value ≤ 1) ∧
      (∀ i, ∀ j ∈ (table.s i).queue, table.stateSema j = .hungry) ∧
      ((∃ i, ¬ Finished table i) → ∃ i, ¬ Finished table i ∧ (phiStep table i).isSome) := by
  have orderly := reached.orderly
  refine ⟨fun i eating => ⟨fun eatingLeft => ?_, fun eatingRight => ?_⟩, fun i => (orderly.semaphore i).1,
    fun i => (orderly.semaphore i).2, ?_⟩
  · refine orderly.apart (left i) (orderly.eats eatingLeft) ?_
    rw [right_left]
    exact orderly.eats eating
  · exact orderly.apart i (orderly.eats eating) (orderly.eats eatingRight)
  · rintro ⟨i, unfinished⟩
    exact orderly.goesOn unfinished

/-- Five philosophers of four rounds each, after the first has called `down(&mutex)`. -/
theorem philosophers_exact_five :
    ∃ table : Table 3, phiStep (start fun _ => 4) 0 = some table ∧
      ∃ i, ¬ Finished table i ∧ (phiStep table i).isSome := by
  obtain ⟨table, taken⟩ : ∃ table : Table 3, phiStep (start fun _ => 4) 0 = some table := ⟨_, rfl⟩
  have reached : PhiReached (fun _ => 4) table := Reaches.step .start trivial taken
  refine ⟨table, taken, (philosophers_exact reached).2.2.2 ⟨1, fun finished => ?_⟩⟩
  cases taken
  exact absurd finished.2 (by decide)

end Ucore.Sync
