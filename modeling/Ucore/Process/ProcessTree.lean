import Ucore.Library.Transition
import Ucore.Process.ProcTable

/-!
# The process tree

Processes fork, exit and reap their children in any order, and the scheduler
and the sleeping primitives run in between. The tree of unreaped processes is a
family of sibling chains whose owners are alive.
-/

namespace Ucore.Process

open CircularList EmbeddedList SiblingChain Schedule Transition

universe u
variable {P Q : Type u} [DecidableEq P]
variable {schedClass : SchedClass P Q} {idleproc initproc : P}

/-! ## The effect of the operations on the links -/

/-- Waking a process changes neither which process runs nor who is a zombie. -/
theorem wakeupProc_zombies (keeps : schedClass.Keeps) {kernel after : Kernel P Q} {proc : P}
    (woken : wakeupProc schedClass idleproc kernel proc = some after) :
    after.current = kernel.current ∧ ∀ other, isZombie after other ↔ isZombie kernel other := by
  obtain ⟨current, others⟩ := wakeupProc_frame keeps woken
  refine ⟨current, fun other => ?_⟩
  by_cases same : other = proc
  · subst same
    obtain ⟨alive, runnable⟩ := wakeupProc_runnable keeps woken
    simp [isZombie, alive, runnable]
  · rw [isZombie, isZombie, (others other same).1]

theorem wakeWaiting_zombies (keeps : schedClass.Keeps) {kernel after : Kernel P Q} {proc : P}
    (woken : wakeWaiting schedClass idleproc kernel proc = some after) :
    after.current = kernel.current ∧ ∀ other, isZombie after other ↔ isZombie kernel other := by
  unfold wakeWaiting at woken
  split at woken
  · exact wakeupProc_zombies keeps woken
  · obtain rfl := Option.some.inj woken
    exact ⟨rfl, fun _ => Iff.rfl⟩

theorem reportZombie_zombies (keeps : schedClass.Keeps) {kernel after : Kernel P Q} {proc : P}
    (reported : reportZombie schedClass idleproc initproc kernel proc = some after) :
    after.current = kernel.current ∧ ∀ other, isZombie after other ↔ isZombie kernel other := by
  unfold reportZombie at reported
  split at reported
  · exact wakeWaiting_zombies keeps reported
  · obtain rfl := Option.some.inj reported
    exact ⟨rfl, fun _ => Iff.rfl⟩

/-- The tree of a table: every process among `owners` has the chain of its
children, which are the processes among `listed` that name it as their parent. -/
def Kinship (table : ProcTable P Q) (owners listed : Finset P) (before : P → Option P)
    (children : P → List P) : Prop :=
  Family table.cptr table.optr table.yptr table.parent owners listed before children

/-- `set_links` puts a process in front of `proc_list` and of the children of its parent. -/
theorem setLinks_exact {table after : ProcTable P Q} {proc parent : P} {owners listed : Finset P}
    {children : P → List P} {procList : List P}
    (kinship : Kinship table owners listed (fun _ => none) children)
    (ring : Ring table.links .head (procList.map .link)) (inside : parent ∈ owners)
    (own : table.parent proc = some parent) (fresh : proc ∉ listed) (outside : proc ∉ procList)
    (linked : setLinks table proc = some after) :
    Kinship after owners (insert proc listed) (fun _ => none)
        (Function.update children parent (proc :: children parent)) ∧
      Ring after.links .head ((proc :: procList).map .link) ∧
      after.nrProcess = table.nrProcess + 1 ∧ after.kernel = table.kernel ∧ after.parent = table.parent := by
  simp only [setLinks, own, Option.map_some, Option.some.injEq] at linked
  subst linked
  refine ⟨?_, ?_, rfl, rfl, rfl⟩
  · simpa only [Kinship, Function.update_self] using Family.push kinship inside rfl fresh own
  · apply listAdd_first (.link proc) ring
    simpa using outside

/-- A fork below the limit links a childless process behind the running one. -/
theorem doFork_exact {table after : ProcTable P Q} {child current : P} {fields : Proc} {created : Option P}
    {members : Finset P} {children : P → List P} {procList : List P}
    (kinship : Kinship table members members (fun _ => none) children)
    (ring : Ring table.links .head (procList.map .link)) (running : table.kernel.current = some current)
    (inside : current ∈ members) (fresh : child ∉ members) (outside : child ∉ procList)
    (unowned : ∀ proc ∈ members, table.parent proc ≠ some child)
    (forked : doFork table child fields = some (created, after)) :
    (maxProcess : Int) ≤ table.nrProcess ∧ created = none ∧ after = table ∨
    created = some child ∧ (∃ children, Kinship after (insert child members) (insert child members)
        (fun _ => none) children) ∧
      Ring after.links .head ((child :: procList).map .link) ∧ after.nrProcess = table.nrProcess + 1 ∧
      after.kernel = table.kernel.setProc child fields ∧
      after.parent = Function.update table.parent child (some current) := by
  have different : ∀ proc ∈ members, proc ≠ child := fun proc member same => fresh (same ▸ member)
  unfold doFork at forked
  split at forked
  · rename_i full
    obtain ⟨rfl, rfl⟩ : none = created ∧ table = after := by simpa using forked
    exact Or.inl ⟨full, rfl, rfl⟩
  · simp only [running, Option.bind_eq_bind, Option.bind_some] at forked
    obtain ⟨linked, isLinked, finished⟩ := Option.bind_eq_some_iff.mp forked
    obtain ⟨rfl, rfl⟩ : some child = created ∧ linked = after := by simpa using finished
    have copied : Family (Function.update table.cptr child none) table.optr table.yptr
        (Function.update table.parent child (some current)) members members (fun _ => none) children :=
      Family.congr kinship (fun proc member => Function.update_of_ne (different proc member) _ _)
        (fun _ _ => rfl) (fun _ _ => rfl)
        (fun proc member => Function.update_of_ne (different proc member) _ _)
    have noChild : ∀ proc ∈ members,
        Function.update table.parent child (some current) proc ≠ some child := by
      intro proc member
      rw [Function.update_of_ne (different proc member)]
      exact unowned proc member
    have extended : Kinship { table with
        kernel := table.kernel.setProc child fields
        parent := Function.update table.parent child (some current)
        cptr := Function.update table.cptr child none } (insert child members) members (fun _ => none) _ :=
      copied.extend (by simp) noChild
    obtain ⟨tree, list, count, kernel, parents⟩ := setLinks_exact extended ring
      (Finset.mem_insert_of_mem inside) (by simp) fresh outside isLinked
    exact Or.inr ⟨rfl, ⟨_, tree⟩, list, count, kernel, parents⟩

/-- `remove_links` takes a process out of `proc_list` and out of its parent's children. -/
theorem removeLinks_exact {table after : ProcTable P Q} {proc parent : P} {owners listed : Finset P}
    {children : P → List P} {procList : List P}
    (kinship : Kinship table owners listed (fun _ => none) children)
    (ring : Ring table.links .head (procList.map .link)) (inside : parent ∈ owners)
    (own : table.parent proc = some parent) (listing : proc ∈ listed) (entry : proc ∈ procList)
    (removed : removeLinks table proc = some after) :
    Kinship after owners (listed.erase proc) (fun _ => none)
        (Function.update children parent ((children parent).erase proc)) ∧
      Ring after.links .head ((procList.erase proc).map .link) ∧
      after.nrProcess = table.nrProcess - 1 ∧ after.kernel = table.kernel ∧ after.parent = table.parent := by
  have family := Family.remove kinship inside rfl listing own
  have unlinked : Ring (listDel table.links (.link proc)) .head ((procList.erase proc).map .link) := by
    obtain ⟨front, back, _, rfl, remaining⟩ := List.exists_erase_eq entry
    rw [remaining, List.map_append]
    apply listDel_ring
    simpa using ring
  have notSelf : table.optr proc ≠ some proc := by
    have isChild := (kinship.owned parent inside proc).mpr ⟨listing, own⟩
    exact (kinship.chain parent inside).older_ne (kinship.distinct parent inside) isChild
  have stays : store table.yptr (table.optr proc) (table.yptr proc) proc = table.yptr proc := by
    rw [store_apply, if_neg notSelf]
  simp only [removeLinks, stays] at removed
  cases youngest : table.yptr proc with
  | none =>
    simp only [youngest, own, Option.map_some, Option.some.injEq] at removed
    subst removed
    exact ⟨by simpa [Kinship, youngest, store] using family, unlinked, rfl, rfl, rfl⟩
  | some younger =>
    simp only [youngest, Option.some.injEq] at removed
    subst removed
    exact ⟨by simpa [Kinship, youngest, store] using family, unlinked, rfl, rfl, rfl⟩

/-- One round of the loop in `do_exit` moves the youngest child of `current`. -/
theorem reparent_exact {table : ProcTable P Q} {current proc : P} {members : Finset P}
    {children : P → List P} {back : Option P} {rest : List P}
    (kinship : Kinship table members members (Function.update (fun _ => none) current back) children)
    (inside : current ∈ members) (adopter : initproc ∈ members) (different : initproc ≠ current)
    (split : children current = proc :: rest) :
    Kinship (reparent initproc table current proc) members members
      (Function.update (fun _ => none) current (some proc))
      (Function.update (Function.update children current rest) initproc (proc :: children initproc)) := by
  have isMember : proc ∈ members := ((kinship.owned current inside proc).mp (by simp [split])).1
  have popped := Family.pop kinship inside split
  rw [Function.update_idem] at popped
  have renamed : Family (Function.update table.cptr current (table.optr proc)) table.optr table.yptr
      (Function.update table.parent proc (some initproc)) members (members.erase proc)
      (Function.update (fun _ => none) current (some proc)) (Function.update children current rest) := by
    apply popped.congr (fun _ _ => rfl) (fun _ _ => rfl) (fun _ _ => rfl)
    intro node listed
    exact Function.update_of_ne (Finset.ne_of_mem_erase listed) _ _
  have pushed := Family.push renamed adopter (by simp [different]) (Finset.notMem_erase proc members)
    (Function.update_self _ _ _)
  rw [Finset.insert_erase isMember] at pushed
  simpa only [Kinship, reparent, Function.update_self, Function.update_of_ne different] using pushed

/-- The loop in `do_exit` leaves no child behind: each one now names `initproc`. The
induction is on the bound; the chain of `current` has a stale link at its front
between two rounds. -/
theorem reparentChildren_exact (keeps : schedClass.Keeps) {fuel : Nat} {table after : ProcTable P Q}
    {current : P} {members : Finset P} {children : P → List P} {back : Option P}
    (kinship : Kinship table members members (Function.update (fun _ => none) current back) children)
    (inside : current ∈ members) (adopter : initproc ∈ members) (different : initproc ≠ current)
    (enough : (children current).length < fuel)
    (finished : reparentChildren schedClass idleproc initproc current fuel table = some after) :
    (∃ left, Kinship after members members (fun _ => none) left ∧ left current = []) ∧
      after.links = table.links ∧ after.nrProcess = table.nrProcess ∧
      after.kernel.current = table.kernel.current ∧
      (∀ other, isZombie after.kernel other ↔ isZombie table.kernel other) ∧
      ∀ other, after.parent other = table.parent other ∨
        table.parent other = some current ∧ after.parent other = some initproc := by
  induction fuel generalizing table children back with
  | zero => omega
  | succ fuel ih =>
    have chain := kinship.chain current inside
    unfold reparentChildren at finished
    cases youngest : table.cptr current with
    | none =>
      simp only [youngest, Option.some.injEq] at finished
      subst finished
      rw [youngest] at chain
      have empty : children current = [] := by
        cases listing : children current with
        | nil => rfl
        | cons child rest =>
          rw [listing] at chain
          cases chain.1
      refine ⟨⟨children, ?_, empty⟩, rfl, rfl, rfl, fun _ => Iff.rfl, fun _ => Or.inl rfl⟩
      exact Family.rebase kinship empty
    | some proc =>
      simp only [youngest, Option.bind_eq_bind, Option.bind_eq_some_iff] at finished
      obtain ⟨kernel, reported, finished⟩ := finished
      have split : ∃ rest, children current = proc :: rest := by
        cases listing : children current with
        | nil =>
          rw [listing, youngest] at chain
          cases chain
        | cons child rest =>
          rw [listing, youngest] at chain
          exact ⟨rest, by rw [Option.some.inj chain.1]⟩
      obtain ⟨rest, split⟩ := split
      have named : table.parent proc = some current :=
        ((kinship.owned current inside proc).mp (by simp [split])).2
      obtain ⟨sameCurrent, sameZombies⟩ := reportZombie_zombies keeps reported
      have moved : Kinship { reparent initproc table current proc with kernel } members members _ _ :=
        reparent_exact kinship inside adopter different split
      have shorter : (Function.update (Function.update children current rest) initproc
          (proc :: children initproc) current).length < fuel := by
        rw [split, List.length_cons] at enough
        rw [Function.update_of_ne different.symm, Function.update_self]
        omega
      obtain ⟨tree, links, count, running, zombies, parents⟩ := ih moved shorter finished
      refine ⟨tree, links, count, running.trans sameCurrent,
        fun other => (zombies other).trans (sameZombies other), fun other => ?_⟩
      have first : (reparent initproc table current proc).parent other =
          if other = proc then some initproc else table.parent other := Function.update_apply _ _ _ _
      by_cases same : other = proc
      · subst same
        rw [if_pos rfl] at first
        rcases parents other with kept | ⟨wrong, _⟩
        · exact Or.inr ⟨named, kept.trans first⟩
        · exact absurd (Option.some.inj (first.symm.trans wrong)) different
      · rw [if_neg same] at first
        simpa only [first] using parents other

/-- `do_exit` makes the running process a zombie without children. -/
theorem doExit_exact (keeps : schedClass.Keeps) {table after : ProcTable P Q} {current : P}
    {members : Finset P} {children : P → List P}
    (kinship : Kinship table members members (fun _ => none) children)
    (running : table.kernel.current = some current) (inside : current ∈ members) (adopter : initproc ∈ members)
    (enough : (children current).length < table.nrProcess.toNat + 1)
    (finished : doExit schedClass idleproc initproc table = some after) :
    (current ≠ idleproc ∧ current ≠ initproc) ∧
      (∃ left, Kinship after members members (fun _ => none) left ∧ left current = []) ∧
      after.links = table.links ∧ after.nrProcess = table.nrProcess ∧
      (∀ other, isZombie after.kernel other ↔ other = current ∨ isZombie table.kernel other) ∧
      ∀ other, after.parent other = table.parent other ∨
        table.parent other = some current ∧ after.parent other = some initproc := by
  simp only [doExit, running, Option.bind_eq_bind, Option.bind_some] at finished
  split at finished
  · cases finished
  rename_i notIdle
  split at finished
  · cases finished
  rename_i notInit
  obtain ⟨parent, _, finished⟩ := Option.bind_eq_some_iff.mp finished
  obtain ⟨kernel, woken, looped⟩ := Option.bind_eq_some_iff.mp finished
  obtain ⟨_, afterWake⟩ := wakeWaiting_zombies keeps woken
  have kinship' : Kinship { table with kernel } members members
      (Function.update (fun _ => none) current none) children := by
    simpa [Kinship] using kinship
  obtain ⟨left, links, count, _, zombies, parents⟩ :=
    reparentChildren_exact keeps kinship' inside adopter (Ne.symm notInit) enough looped
  refine ⟨⟨notIdle, notInit⟩, left, links, count, fun other => ?_, parents⟩
  rw [zombies other, afterWake other]
  simp only [isZombie, Kernel.setProc_procs]
  by_cases same : other = current
  · simp [same]
  · simp [same]

omit [DecidableEq P] in
/-- What the walk of `do_wait` finds is a zombie of the chain it follows. -/
theorem findZombie_sound {table : ProcTable P Q} {fuel : Nat} {haskid result : Bool} {before first : Option P}
    {nodes : List P} {proc : P} (chain : Chain table.optr table.yptr before first nodes)
    (found : findZombie table fuel haskid first = (result, some proc)) :
    proc ∈ nodes ∧ isZombie table.kernel proc := by
  induction nodes generalizing fuel haskid before first with
  | nil =>
    obtain rfl : first = none := chain
    cases fuel <;> simp [findZombie] at found
  | cons node rest ih =>
    obtain ⟨rfl, _, tail⟩ := chain
    cases fuel with
    | zero => simp [findZombie] at found
    | succ fuel =>
      unfold findZombie at found
      split at found
      · rename_i zombie
        obtain ⟨-, rfl⟩ : true = result ∧ node = proc := by simpa using found
        exact ⟨List.mem_cons_self, zombie⟩
      · obtain ⟨member, zombie⟩ := ih tail found
        exact ⟨List.mem_cons_of_mem _ member, zombie⟩

/-- What `find_proc` may have found. -/
def WaitTarget.Known (members : Finset P) : WaitTarget P → Prop
  | .pid (some found) => found ∈ members
  | _ => True

instance (members : Finset P) : ∀ target : WaitTarget P, Decidable (target.Known members)
  | .pid (some found) => inferInstanceAs (Decidable (found ∈ members))
  | .pid none => inferInstanceAs (Decidable True)
  | .any => inferInstanceAs (Decidable True)

/-- `do_wait` reaps exited children of the caller only. -/
theorem waitSearch_sound {table : ProcTable P Q} {members : Finset P} {children : P → List P}
    {current proc : P} {target : WaitTarget P} {haskid : Bool}
    (kinship : Kinship table members members (fun _ => none) children) (inside : current ∈ members)
    (known : target.Known members)
    (search : waitSearch table current target = (haskid, some proc)) :
    proc ∈ members ∧ table.parent proc = some current ∧ isZombie table.kernel proc := by
  cases target with
  | any =>
    obtain ⟨isChild, zombie⟩ := findZombie_sound (kinship.chain current inside) search
    obtain ⟨member, own⟩ := (kinship.owned current inside proc).mp isChild
    exact ⟨member, own, zombie⟩
  | pid found =>
    cases found with
    | none => simp [waitSearch] at search
    | some found =>
      simp only [waitSearch] at search
      split_ifs at search with own zombie
      · obtain ⟨-, rfl⟩ : true = haskid ∧ found = proc := by simpa using search
        exact ⟨known, own, zombie⟩
      · simp at search
      · simp at search

end Ucore.Process
