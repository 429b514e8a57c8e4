import Mathlib.Data.Int.Interval
import Ucore.Library.Transition
import Ucore.Process.ChildWait

/-!
# Process identifiers

`get_pid` (`kern/process/proc.c`) looks for the next number that no process of
`proc_list` has. Two static variables keep what an earlier search has found out:
no live process has a number strictly between `last_pid` and `next_safe`, so a call
that stays below `next_safe` does not search at all.

A search that arrives at `next_safe` starts again at the head of `proc_list`.
The model counts these rounds; that a bounded number of them is enough is proved,
not assumed. A history is a list of creations, each with the number that `get_pid`
gave, and of removals at any place of `proc_list`.
-/

namespace Ucore.Process

open Schedule Transition

universe u
variable {P : Type u}

/-- `proc_list` with the numbers of its processes, and the static variables of `get_pid`. -/
structure PidTable (P : Type u) where
  procList : List P
  pid : P → Int
  lastPid : Int
  nextSafe : Int

/-- How one pass over `proc_list` ends: at its end, or with `goto repeat`. -/
inductive PidScan where
  | found (lastPid nextSafe : Int)
  | again (lastPid : Int)

/-- The `while` loop of `get_pid` over the rest of the list. -/
def scanPids (pid : P → Int) : List P → Int → Int → PidScan
  | [], lastPid, nextSafe => .found lastPid nextSafe
  | proc :: rest, lastPid, nextSafe =>
      if pid proc = lastPid then
        if nextSafe ≤ lastPid + 1 then
          .again (if maxPid ≤ lastPid + 1 then 1 else lastPid + 1)
        else scanPids pid rest (lastPid + 1) nextSafe
      else if lastPid < pid proc ∧ pid proc < nextSafe then scanPids pid rest lastPid (pid proc)
      else scanPids pid rest lastPid nextSafe

/-- From the label `inside`, at most `rounds` passes over the list. -/
def searchPid (pid : P → Int) (procList : List P) : Nat → Int → Option (Int × Int)
  | 0, _ => none
  | rounds + 1, lastPid =>
      match scanPids pid procList lastPid maxPid with
      | .found lastPid nextSafe => some (lastPid, nextSafe)
      | .again lastPid => searchPid pid procList rounds lastPid

def getPid (rounds : Nat) (table : PidTable P) : Option (Int × PidTable P) :=
  let lastPid := table.lastPid + 1
  let searched := fun start =>
    (searchPid table.pid table.procList rounds start).map fun result =>
      (result.1, { table with lastPid := result.1, nextSafe := result.2 })
  if maxPid ≤ lastPid then searched 1
  else if table.nextSafe ≤ lastPid then searched lastPid
  else some (lastPid, { table with lastPid })

/-- What changes `proc_list`. -/
inductive PidOp (P : Type u) where
  | create (proc : P)
  | remove (proc : P)

/-- `do_fork` numbers the new process and puts it at the head of `proc_list`;
`remove_links` takes a process out of it. -/
def pidStep [DecidableEq P] (rounds : Nat) (table : PidTable P) : PidOp P → Option (PidTable P)
  | .create proc =>
      (getPid rounds table).map fun (number, after) =>
        { after with procList := proc :: after.procList, pid := Function.update after.pid proc number }
  | .remove proc => some { table with procList := table.procList.erase proc }

/-- A process enters `proc_list` once at a time, and only while fewer than `MAX_PROCESS` are in it. -/
def PidAdmitted (table : PidTable P) : PidOp P → Prop
  | .create proc => proc ∉ table.procList ∧ table.procList.length < maxProcess
  | .remove _ => True

/-- Before the first process; the numbers of processes outside `proc_list` are arbitrary. -/
def initialPids (pid : P → Int) : PidTable P :=
  { procList := [], pid, lastPid := maxPid, nextSafe := maxPid }

/-! ## One pass -/

/-- A pass that gets to the end leaves every process below `last_pid` or from `next_safe` on. -/
theorem scanPids_found {pid : P → Int} {procList : List P} {lastPid nextSafe number safe : Int}
    (below : lastPid < nextSafe) (scanned : scanPids pid procList lastPid nextSafe = .found number safe) :
    lastPid ≤ number ∧ number < safe ∧ safe ≤ nextSafe ∧
      ∀ proc ∈ procList, pid proc < number ∨ safe ≤ pid proc := by
  induction procList generalizing lastPid nextSafe with
  | nil =>
    simp only [scanPids, PidScan.found.injEq] at scanned
    obtain ⟨rfl, rfl⟩ := scanned
    exact ⟨le_rfl, below, le_rfl, by simp⟩
  | cons proc rest ih =>
    simp only [scanPids] at scanned
    by_cases same : pid proc = lastPid
    · rw [if_pos same] at scanned
      by_cases reached : nextSafe ≤ lastPid + 1
      · rw [if_pos reached] at scanned
        exact absurd scanned (by simp)
      · rw [if_neg reached] at scanned
        obtain ⟨later, apart, kept, others⟩ := ih (by omega) scanned
        refine ⟨by omega, apart, kept, List.forall_mem_cons.mpr ⟨?_, others⟩⟩
        left
        omega
    · rw [if_neg same] at scanned
      by_cases between : lastPid < pid proc ∧ pid proc < nextSafe
      · rw [if_pos between] at scanned
        obtain ⟨later, apart, kept, others⟩ := ih between.1 scanned
        refine ⟨later, apart, by omega, List.forall_mem_cons.mpr ⟨?_, others⟩⟩
        right
        exact kept
      · rw [if_neg between] at scanned
        obtain ⟨later, apart, kept, others⟩ := ih below scanned
        exact ⟨later, apart, kept, List.forall_mem_cons.mpr ⟨by omega, others⟩⟩

/-- A pass that starts again has passed taken numbers only, from `last_pid` up to the number
it starts again from; `MAX_PID` is replaced by 1. -/
theorem scanPids_again {pid : P → Int} {procList : List P} {lastPid nextSafe start : Int}
    (below : lastPid < nextSafe) (bounded : nextSafe ≤ maxPid)
    (scanned : scanPids pid procList lastPid nextSafe = .again start) :
    ∃ reached, lastPid < reached ∧ reached ≤ maxPid ∧
      (start = if maxPid ≤ reached then 1 else reached) ∧
      ∀ number, lastPid ≤ number → number < reached → ∃ proc ∈ procList, pid proc = number := by
  induction procList generalizing lastPid nextSafe with
  | nil => exact absurd scanned (by simp [scanPids])
  | cons proc rest ih =>
    simp only [scanPids] at scanned
    by_cases same : pid proc = lastPid
    · rw [if_pos same] at scanned
      by_cases reached : nextSafe ≤ lastPid + 1
      · rw [if_pos reached, PidScan.again.injEq] at scanned
        refine ⟨lastPid + 1, by omega, by omega, scanned.symm, fun number low high => ?_⟩
        exact ⟨proc, List.mem_cons_self, by omega⟩
      · rw [if_neg reached] at scanned
        obtain ⟨last, later, high, wrapped, taken⟩ := ih (by omega) bounded scanned
        refine ⟨last, by omega, high, wrapped, fun number low less => ?_⟩
        by_cases first : number = lastPid
        · exact ⟨proc, List.mem_cons_self, same.trans first.symm⟩
        · obtain ⟨other, member, has⟩ := taken number (by omega) less
          exact ⟨other, List.mem_cons_of_mem _ member, has⟩
    · rw [if_neg same] at scanned
      have inRest : ∀ {safe}, lastPid < safe → safe ≤ maxPid → scanPids pid rest lastPid safe = .again start →
          ∃ reached, lastPid < reached ∧ reached ≤ maxPid ∧
            (start = if maxPid ≤ reached then 1 else reached) ∧
            ∀ number, lastPid ≤ number → number < reached → ∃ other ∈ proc :: rest, pid other = number := by
        intro safe apart most again
        obtain ⟨last, later, high, wrapped, taken⟩ := ih apart most again
        refine ⟨last, later, high, wrapped, fun number low less => ?_⟩
        obtain ⟨other, member, has⟩ := taken number low less
        exact ⟨other, List.mem_cons_of_mem _ member, has⟩
      by_cases between : lastPid < pid proc ∧ pid proc < nextSafe
      · rw [if_pos between] at scanned
        exact inRest between.1 (by omega) scanned
      · rw [if_neg between] at scanned
        exact inRest below bounded scanned

/-! ## All passes -/

/-- How many numbers a search that starts at `start` tries at most before `free`. -/
def triesBefore (free start : Int) : Int :=
  if start ≤ free then free - start else maxPid - start + (free - 1)

/-- A search ends, since each new pass is nearer to a free number, also past the wrap to 1. -/
theorem searchPid_returns {pid : P → Int} {procList : List P} {rounds : Nat} {free start : Int}
    (positive : 1 ≤ free) (small : free < maxPid) (unused : ∀ proc ∈ procList, pid proc ≠ free)
    (first : 1 ≤ start) (last : start < maxPid) (enough : triesBefore free start < rounds) :
    ∃ number safe, searchPid pid procList rounds start = some (number, safe) ∧
      1 ≤ number ∧ number < safe ∧ safe ≤ maxPid ∧ ∀ proc ∈ procList, pid proc < number ∨ safe ≤ pid proc := by
  induction rounds generalizing start with
  | zero =>
    unfold triesBefore at enough
    split at enough <;> omega
  | succ rounds ih =>
    simp only [searchPid]
    cases scanned : scanPids pid procList start maxPid with
    | found number safe =>
      obtain ⟨later, apart, kept, others⟩ := scanPids_found last scanned
      exact ⟨number, safe, rfl, by omega, apart, kept, others⟩
    | again next =>
      obtain ⟨reached, later, high, wrapped, taken⟩ := scanPids_again last le_rfl scanned
      have beyond : ¬ (start ≤ free ∧ free < reached) := by
        rintro ⟨low, less⟩
        obtain ⟨proc, member, has⟩ := taken free low less
        exact unused proc member has
      apply ih
      · split at wrapped <;> omega
      · split at wrapped <;> omega
      · unfold triesBefore at enough ⊢
        split at wrapped <;> split at enough <;> split <;> omega

/-- Fewer processes than numbers leave a number free. -/
theorem exists_free_pid (pid : P → Int) {procList : List P} (few : procList.length ≤ maxProcess) :
    ∃ free, 1 ≤ free ∧ free < maxPid ∧ ∀ proc ∈ procList, pid proc ≠ free := by
  have fewer : (procList.map pid).toFinset.card < (Finset.Ico 1 maxPid).card := by
    have most := List.toFinset_card_le (procList.map pid)
    rw [List.length_map] at most
    rw [Int.card_Ico]
    simp only [maxPid, maxProcess] at few ⊢
    omega
  obtain ⟨free, inside, unused⟩ := Finset.exists_mem_notMem_of_card_lt_card fewer
  rw [Finset.mem_Ico] at inside
  refine ⟨free, inside.1, inside.2, fun proc member same => unused ?_⟩
  exact List.mem_toFinset.mpr (List.mem_map.mpr ⟨proc, member, same⟩)

/-! ## Histories -/

/-- No live process has a number strictly between `last_pid` and `next_safe`. -/
structure PidInvariant (table : PidTable P) : Prop where
  positive : 1 ≤ table.lastPid
  bounded : table.lastPid ≤ maxPid
  safe : table.nextSafe ≤ maxPid
  gap : ∀ proc ∈ table.procList, table.pid proc ≤ table.lastPid ∨ table.nextSafe ≤ table.pid proc
  once : (table.procList.map table.pid).Nodup
  few : table.procList.length ≤ maxProcess

/-- What `get_pid` returns: a number in range that no process has, with the gap above it. -/
structure GivesPid (table : PidTable P) (number : Int) (after : PidTable P) : Prop where
  positive : 1 ≤ number
  small : number < maxPid
  unused : ∀ proc ∈ table.procList, table.pid proc ≠ number
  same : after = { table with lastPid := number, nextSafe := after.nextSafe }
  safe : after.nextSafe ≤ maxPid
  gap : ∀ proc ∈ table.procList, table.pid proc ≤ number ∨ after.nextSafe ≤ table.pid proc

/-- The search and the call that needs no search both give a free number. -/
theorem getPid_returns {rounds : Nat} {table : PidTable P} (invariant : PidInvariant table)
    (enough : maxPid ≤ rounds) : ∃ number after, getPid rounds table = some (number, after) ∧
      GivesPid table number after := by
  obtain ⟨free, positive, small, unused⟩ := exists_free_pid table.pid invariant.few
  have search : ∀ start, 1 ≤ start → start < maxPid → ∃ number after,
      (searchPid table.pid table.procList rounds start).map (fun result =>
        (result.1, { table with lastPid := result.1, nextSafe := result.2 })) = some (number, after) ∧
        GivesPid table number after := by
    intro start first last
    have near : triesBefore free start < rounds := by
      unfold triesBefore
      split <;> omega
    obtain ⟨number, safe, searched, least, apart, most, others⟩ :=
      searchPid_returns positive small unused first last near
    refine ⟨number, { table with lastPid := number, nextSafe := safe }, by rw [searched]; rfl, ?_⟩
    exact {
      positive := least
      small := by omega
      unused := fun proc member => by have := others proc member; omega
      same := rfl
      safe := most
      gap := fun proc member => by
        show table.pid proc ≤ number ∨ safe ≤ table.pid proc
        have := others proc member
        omega }
  simp only [getPid]
  have least := invariant.positive
  by_cases wraps : maxPid ≤ table.lastPid + 1
  · rw [if_pos wraps]
    exact search 1 le_rfl (by decide)
  · rw [if_neg wraps]
    by_cases unsafeBound : table.nextSafe ≤ table.lastPid + 1
    · rw [if_pos unsafeBound]
      exact search _ (by omega) (by omega)
    · -- the gap of the last search contains the next number
      rw [if_neg unsafeBound]
      refine ⟨_, _, rfl, ?_⟩
      exact {
        positive := by omega
        small := by omega
        unused := fun proc member => by have := invariant.gap proc member; omega
        same := rfl
        safe := invariant.safe
        gap := fun proc member => by
          show table.pid proc ≤ table.lastPid + 1 ∨ table.nextSafe ≤ table.pid proc
          have := invariant.gap proc member
          omega }

/-- A creation puts the new number below the gap; a removal only takes numbers away. -/
theorem pidStep_keeps [DecidableEq P] {rounds : Nat} {table next : PidTable P} {op : PidOp P} (invariant : PidInvariant table)
    (enough : maxPid ≤ rounds) (allowed : PidAdmitted table op) (taken : pidStep rounds table op = some next) :
    PidInvariant next := by
  cases op with
  | create proc =>
    obtain ⟨absent, room⟩ := allowed
    obtain ⟨number, after, called, gives⟩ := getPid_returns invariant enough
    simp only [pidStep, called, Option.map_some, Option.some.injEq] at taken
    subst taken
    have same := gives.same
    have others : ∀ other ∈ table.procList, Function.update table.pid proc number other = table.pid other :=
      fun other member => Function.update_of_ne (ne_of_mem_of_not_mem member absent) _ _
    have numbers : table.procList.map (Function.update table.pid proc number) = table.procList.map table.pid :=
      List.map_congr_left others
    have safe := gives.safe
    have gap := gives.gap
    generalize after.nextSafe = nextSafe at same safe gap
    subst same
    exact {
      positive := gives.positive
      bounded := le_of_lt gives.small
      safe := safe
      gap := by
        refine List.forall_mem_cons.mpr ⟨?_, fun other member => ?_⟩
        · left
          simp
        · show Function.update table.pid proc number other ≤ number ∨
            nextSafe ≤ Function.update table.pid proc number other
          rw [others other member]
          exact gap other member
      once := by
        simp only [List.map_cons, Function.update_self, numbers, List.nodup_cons]
        refine ⟨fun member => ?_, invariant.once⟩
        obtain ⟨other, inside, has⟩ := List.mem_map.mp member
        exact gives.unused other inside has
      few := room }
  | remove proc =>
    simp only [pidStep, Option.some.injEq] at taken
    subst taken
    exact {
      positive := invariant.positive
      bounded := invariant.bounded
      safe := invariant.safe
      gap := fun other member => invariant.gap other (List.mem_of_mem_erase member)
      once := invariant.once.sublist (List.erase_sublist.map _)
      few := List.erase_sublist.length_le.trans invariant.few }

/-- The static variables have `next_safe = MAX_PID` and `last_pid = MAX_PID` at first. -/
theorem initialPids_invariant (pid : P → Int) : PidInvariant (initialPids pid) where
  positive := by
    show 1 ≤ maxPid
    decide
  bounded := le_rfl
  safe := le_rfl
  gap := by simp [initialPids]
  once := List.nodup_nil
  few := Nat.zero_le _

/-- The tables of a history of creations and removals. -/
def PidReached [DecidableEq P] (rounds : Nat) (pid : P → Int) : PidTable P → Prop :=
  Reaches (pidStep rounds) PidAdmitted (initialPids pid)

/-- In every history the live processes have pairwise different numbers. -/
theorem pidReached_invariant [DecidableEq P] {rounds : Nat} {pid : P → Int} {table : PidTable P} (enough : maxPid ≤ rounds)
    (reached : PidReached rounds pid table) : PidInvariant table :=
  Reaches.invariant (initialPids_invariant pid)
    (fun _ _ _ invariant allowed taken => pidStep_keeps invariant enough allowed taken) reached

/-- After every history `get_pid` returns within `MAX_PID` passes, with a number in `[1, MAX_PID)`
that no process of `proc_list` has. -/
theorem get_pid_unique [DecidableEq P] (rounds : Nat) (pid : P → Int) (table : PidTable P) (enough : maxPid ≤ rounds)
    (reached : PidReached rounds pid table) : ∃ number after, getPid rounds table = some (number, after) ∧
      1 ≤ number ∧ number < maxPid ∧ ∀ proc ∈ table.procList, table.pid proc ≠ number := by
  obtain ⟨number, after, called, gives⟩ := getPid_returns (pidReached_invariant enough reached) enough
  exact ⟨number, after, called, gives.positive, gives.small, gives.unused⟩

/-- Two processes are created and the first one goes: 3 is next. -/
theorem get_pid_unique_third : ∃ table : PidTable (Fin 2), table.procList = [1] ∧ table.pid 1 = 2 ∧
    ∃ number after, getPid 8192 table = some (number, after) ∧
      1 ≤ number ∧ number < maxPid ∧ ∀ proc ∈ table.procList, table.pid proc ≠ number := by
  have none : PidAdmitted (initialPids fun _ : Fin 2 => 0) (.create 0) := ⟨List.not_mem_nil, by decide⟩
  have first : PidReached 8192 (fun _ : Fin 2 => 0) ⟨[0], Function.update (fun _ => 0) 0 1, 1, maxPid⟩ :=
    .step .start none rfl
  have one : PidAdmitted ⟨[(0 : Fin 2)], Function.update (fun _ => 0) 0 1, 1, maxPid⟩ (.create 1) :=
    ⟨by decide, by decide⟩
  have second : PidReached 8192 (fun _ : Fin 2 => 0)
      ⟨[1, 0], Function.update (Function.update (fun _ => 0) 0 1) 1 2, 2, maxPid⟩ := .step first one rfl
  have third : PidReached 8192 (fun _ : Fin 2 => 0)
      ⟨[1], Function.update (Function.update (fun _ => 0) 0 1) 1 2, 2, maxPid⟩ :=
    .step second (show PidAdmitted _ (.remove 0) from trivial) rfl
  exact ⟨_, rfl, rfl, get_pid_unique 8192 (fun _ => 0) _ (by decide) third⟩

end Ucore.Process
