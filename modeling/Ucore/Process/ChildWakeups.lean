import Ucore.Process.ChildWait

/-!
# Wakeups of waiting parents

Most of what happens to the states of processes is that some are woken, and
`wakeup_proc` takes the `wait_state` away. `do_exit` wakes the parent of the exiting
process, and `initproc` when it gets an exited child; so a process that still waits
for a child afterwards has no newly exited one.
-/

namespace Ucore.Process

open CircularList EmbeddedList SiblingChain Schedule Transition

universe u
variable {P Q : Type u} [DecidableEq P] {schedClass : SchedClass P Q} {idleproc initproc : P}

/-! ## Changes that wake processes -/

/-- A process keeps its `state` and `wait_state`, or it has been woken. -/
def Rouses (kernel after : Kernel P Q) : Prop := ∀ proc,
  (after.procs proc).state = (kernel.procs proc).state ∧ (after.procs proc).waitState = (kernel.procs proc).waitState ∨
    (kernel.procs proc).state ≠ .zombie ∧ (after.procs proc).state = .runnable ∧ (after.procs proc).waitState = 0

section Rousing

variable {kernel middle after : Kernel P Q} {proc : P}

omit [DecidableEq P] in
theorem Rouses.refl (kernel : Kernel P Q) : Rouses kernel kernel := fun _ => Or.inl ⟨rfl, rfl⟩

omit [DecidableEq P] in
theorem Rouses.trans (first : Rouses kernel middle) (second : Rouses middle after) : Rouses kernel after := by
  intro proc
  rcases second proc with ⟨state, waitState⟩ | ⟨alive, runnable, cleared⟩
  · rw [state, waitState]
    exact first proc
  · refine Or.inr ⟨?_, runnable, cleared⟩
    rcases first proc with ⟨state, _⟩ | ⟨wasAlive, _⟩
    · exact state ▸ alive
    · exact wasAlive

omit [DecidableEq P] in
/-- Waking makes no zombies and raises none. -/
theorem Rouses.zombie_iff (rouses : Rouses kernel after) (proc : P) : isZombie after proc ↔ isZombie kernel proc := by
  rcases rouses proc with ⟨state, _⟩ | ⟨alive, runnable, _⟩
  · rw [isZombie, isZombie, state]
  · simp [isZombie, alive, runnable]

omit [DecidableEq P] in
/-- A process that still waits for a child has not been touched. -/
theorem Rouses.waits (rouses : Rouses kernel after) (waits : (after.procs proc).waitState = wtChild) :
    (after.procs proc).state = (kernel.procs proc).state ∧ (kernel.procs proc).waitState = wtChild := by
  rcases rouses proc with ⟨state, waitState⟩ | ⟨_, _, cleared⟩
  · exact ⟨state, waitState ▸ waits⟩
  · rw [cleared] at waits
    exact absurd waits (by decide)

omit [DecidableEq P] in
/-- A runnable process stays runnable. -/
theorem Rouses.runnable (rouses : Rouses kernel after) (runnable : (kernel.procs proc).state = .runnable) :
    (after.procs proc).state = .runnable := by
  rcases rouses proc with ⟨state, _⟩ | ⟨_, still, _⟩
  · exact state.trans runnable
  · exact still

/-- `wakeup_proc` wakes a process that is not runnable. -/
theorem wakeupProc_rouses (keeps : schedClass.Keeps) (woken : wakeupProc schedClass idleproc kernel proc = some after) :
    Rouses kernel after ∧ ((kernel.procs proc).state ≠ .runnable → (after.procs proc).waitState = 0) := by
  obtain ⟨alive, runnable⟩ := wakeupProc_runnable keeps woken
  have cleared : (kernel.procs proc).state ≠ .runnable → (after.procs proc).waitState = 0 := by
    intro asleep
    have made : ((makeRunnable kernel proc).procs proc).waitState = 0 := by
      simp [makeRunnable, Kernel.setProc_procs]
    simp only [wakeupProc, if_neg alive, ne_eq, asleep, not_false_eq_true, if_true] at woken
    split at woken
    · unfold schedClassEnqueue at woken
      split at woken
      · obtain ⟨queued, accepted, rfl⟩ := Option.map_eq_some_iff.mp woken
        exact (keeps.states _ _ _ accepted proc).2.trans made
      · exact Option.some.inj woken ▸ made
    · exact Option.some.inj woken ▸ made
  refine ⟨fun other => ?_, cleared⟩
  by_cases same : other = proc
  · subst same
    by_cases already : (kernel.procs other).state = .runnable
    · have stays : after = kernel := by
        rw [wakeupProc, if_neg alive, if_neg (not_not.mpr already)] at woken
        exact (Option.some.inj woken).symm
      exact stays ▸ Or.inl ⟨rfl, rfl⟩
    · exact Or.inr ⟨alive, runnable, cleared already⟩
  · exact Or.inl ((wakeupProc_frame keeps woken).2 other same)

/-- A sleeping parent does not wait for children any more. -/
theorem wakeWaiting_rouses (keeps : schedClass.Keeps) (woken : wakeWaiting schedClass idleproc kernel proc = some after) :
    Rouses kernel after ∧
      (((kernel.procs proc).waitState = wtChild → (kernel.procs proc).state ≠ .runnable) →
        (after.procs proc).waitState ≠ wtChild) := by
  unfold wakeWaiting at woken
  split at woken
  · rename_i waits
    obtain ⟨rouses, cleared⟩ := wakeupProc_rouses keeps woken
    refine ⟨rouses, fun sleeps => ?_⟩
    rw [cleared (sleeps waits)]
    decide
  · rename_i elsewhere
    obtain rfl := Option.some.inj woken
    exact ⟨Rouses.refl _, fun _ => elsewhere⟩

end Rousing

/-! ## The exit of a process -/

section Exiting

variable {table after : ProcTable P Q} {current : P} {members : Finset P} {children : P → List P} {back : Option P}

/-- Who waits for a child is not runnable. -/
def AsleepInWait (kernel : Kernel P Q) (proc : P) : Prop :=
  (kernel.procs proc).waitState = wtChild → (kernel.procs proc).state ≠ .runnable

omit [DecidableEq P] in
theorem Rouses.asleep {kernel after : Kernel P Q} {proc : P} (rouses : Rouses kernel after) (asleep : AsleepInWait kernel proc) :
    AsleepInWait after proc := by
  intro waits
  obtain ⟨state, waited⟩ := rouses.waits waits
  rw [state]
  exact asleep waited

/-- The loop in `do_exit` wakes processes only. -/
theorem reparentChildren_rouses (keeps : schedClass.Keeps) {fuel : Nat}
    (finished : reparentChildren schedClass idleproc initproc current fuel table = some after) :
    Rouses table.kernel after.kernel := by
  induction fuel generalizing table with
  | zero =>
    obtain rfl := Option.some.inj finished
    exact Rouses.refl _
  | succ fuel ih =>
    unfold reparentChildren at finished
    cases youngest : table.cptr current with
    | none =>
      simp only [youngest, Option.some.injEq] at finished
      subst finished
      exact Rouses.refl _
    | some proc =>
      simp only [youngest, Option.bind_eq_bind, Option.bind_eq_some_iff] at finished
      obtain ⟨kernel, reported, finished⟩ := finished
      have first : Rouses table.kernel kernel := by
        unfold reportZombie at reported
        split at reported
        · exact (wakeWaiting_rouses keeps reported).1
        · obtain rfl := Option.some.inj reported
          exact Rouses.refl _
      exact first.trans (ih finished)

/-- The loop reports an exited child: `initproc` does not wait any more. -/
theorem reparentChildren_reports (keeps : schedClass.Keeps) {fuel : Nat}
    (kinship : Kinship table members members (Function.update (fun _ => none) current back) children)
    (inside : current ∈ members) (adopter : initproc ∈ members) (different : initproc ≠ current)
    (enough : (children current).length < fuel) (asleep : AsleepInWait table.kernel initproc)
    {child : P} (isChild : child ∈ children current) (zombie : isZombie table.kernel child)
    (finished : reparentChildren schedClass idleproc initproc current fuel table = some after) :
    (after.kernel.procs initproc).waitState ≠ wtChild := by
  induction fuel generalizing table children back with
  | zero => omega
  | succ fuel ih =>
    have chain := kinship.chain current inside
    unfold reparentChildren at finished
    cases split : children current with
    | nil =>
      rw [split] at isChild
      exact absurd isChild List.not_mem_nil
    | cons proc rest =>
      rw [split] at chain
      simp only [chain.1, Option.bind_eq_bind, Option.bind_eq_some_iff] at finished
      obtain ⟨kernel, reported, finished⟩ := finished
      by_cases here : isZombie table.kernel proc
      · -- this round wakes `initproc`, and the later ones keep it so
        have reported : wakeWaiting schedClass idleproc table.kernel initproc = some kernel := (if_pos here).symm.trans reported
        have awake := (wakeWaiting_rouses keeps reported).2 asleep
        exact fun waits => awake ((reparentChildren_rouses keeps finished).waits waits).2
      · have later : child ∈ rest := by
          rw [split] at isChild
          refine (List.mem_cons.mp isChild).resolve_left ?_
          rintro rfl
          exact here zombie
        have same : some table.kernel = some kernel := (if_neg here).symm.trans reported
        obtain rfl := Option.some.inj same
        have moved := reparent_exact kinship inside adopter different split
        refine ih moved ?_ asleep ?_ zombie finished
        · rw [split, List.length_cons] at enough
          rw [Function.update_of_ne different.symm, Function.update_self]
          omega
        · rw [Function.update_of_ne different.symm, Function.update_self]
          exact later

/-- Apart from the exiting process, `do_exit` wakes processes only. -/
theorem doExit_rouses (keeps : schedClass.Keeps) (running : table.kernel.current = some current)
    (finished : doExit schedClass idleproc initproc table = some after) :
    Rouses (table.kernel.setProc current { table.kernel.procs current with state := .zombie }) after.kernel := by
  simp only [doExit, running, Option.bind_eq_bind, Option.bind_some] at finished
  split at finished
  · cases finished
  split at finished
  · cases finished
  obtain ⟨parent, own, finished⟩ := Option.bind_eq_some_iff.mp finished
  obtain ⟨kernel, woken, looped⟩ := Option.bind_eq_some_iff.mp finished
  exact (wakeWaiting_rouses keeps woken).1.trans (reparentChildren_rouses keeps looped)

/-- A process that waits for a child when `do_exit` is done waited before, and none of its children has
exited now: the exiting process and the exited children that it leaves have woken their parent. -/
theorem doExit_waits (keeps : schedClass.Keeps) (kinship : Kinship table members members (fun _ => none) children)
    (running : table.kernel.current = some current) (inside : current ∈ members) (adopter : initproc ∈ members)
    (enough : (children current).length < table.nrProcess.toNat + 1) (runs : (table.kernel.procs current).state = .runnable)
    {proc : P} (asleep : ∀ other, other = current ∨ other = proc → AsleepInWait table.kernel other)
    (finished : doExit schedClass idleproc initproc table = some after)
    (waits : (after.kernel.procs proc).waitState = wtChild) :
    (after.kernel.procs proc).state = (table.kernel.procs proc).state ∧ (table.kernel.procs proc).waitState = wtChild ∧
      ∀ child ∈ members, after.parent child = some proc → isZombie after.kernel child →
        table.parent child = some proc ∧ isZombie table.kernel child := by
  obtain ⟨_, _, _, _, zombies, parents⟩ := doExit_exact keeps kinship running inside adopter enough finished
  obtain ⟨state, waited⟩ := (doExit_rouses keeps running finished).waits waits
  simp only [doExit, running, Option.bind_eq_bind, Option.bind_some] at finished
  split at finished
  · cases finished
  split at finished
  · cases finished
  rename_i notInit
  obtain ⟨parent, own, finished⟩ := Option.bind_eq_some_iff.mp finished
  obtain ⟨kernel, woken, looped⟩ := Option.bind_eq_some_iff.mp finished
  obtain ⟨first, told⟩ := wakeWaiting_rouses keeps woken
  have second := reparentChildren_rouses keeps looped
  have different : proc ≠ current := by
    -- the exiting process was running, so it does not wait
    rintro rfl
    rw [Kernel.setProc_procs, if_pos rfl] at waited
    exact asleep proc (Or.inl rfl) waited runs
  have written : AsleepInWait (table.kernel.setProc current { table.kernel.procs current with state := .zombie }) proc := by
    intro waited
    rw [Kernel.setProc_procs, if_neg different] at waited ⊢
    exact asleep proc (Or.inr rfl) waited
  rw [Kernel.setProc_procs, if_neg different] at state waited
  refine ⟨state, waited, fun child member adopted zombie => ?_⟩
  have notParent : proc ≠ parent := by
    rintro rfl
    exact told written (second.waits waits).2
  have zombieNow : isZombie kernel child := by
    rw [first.zombie_iff, isZombie, Kernel.setProc_procs]
    rcases (zombies child).mp zombie with rfl | wasZombie
    · rw [if_pos rfl]
    · split
      · rfl
      · exact wasZombie
  rcases parents child with same | ⟨isChild, adopted'⟩
  · have stays : table.parent child = some proc := same.symm.trans adopted
    refine ⟨stays, ((zombies child).mp zombie).resolve_left ?_⟩
    -- the exiting process has woken its parent
    rintro rfl
    exact notParent (Option.some.inj (stays.symm.trans own))
  · -- an exited child has woken `initproc`
    exfalso
    obtain rfl := Option.some.inj (adopted.symm.trans adopted')
    have kinship' : Kinship { table with kernel } members members
        (Function.update (fun _ => none) current none) children := by
      simpa [Kinship] using kinship
    have isListed := (kinship.owned current inside child).mpr ⟨member, isChild⟩
    exact reparentChildren_reports keeps kinship' inside adopter (Ne.symm notInit) enough (first.asleep written)
      isListed zombieNow looped waits

/-! ### The run queue -/

section Queueing

variable {kernel woken : Kernel P (RunQueue P)} {left : ProcTable P (RunQueue P)} {proc : P}

theorem wakeupProc_keepsQueue (queued : ∃ waiting, Queued idleproc ⟨kernel, members⟩ waiting) (member : proc ∈ members)
    (returned : wakeupProc defaultSchedClass idleproc kernel proc = some woken) :
    ∃ waiting, Queued idleproc ⟨woken, members⟩ waiting := by
  obtain ⟨waiting, queued⟩ := queued
  have alive := (wakeupProc_runnable defaultSchedClass_keeps returned).1
  obtain ⟨result, longer, accepted, kept⟩ := wakeupProc_queued queued ⟨member, alive⟩
  obtain rfl := Option.some.inj (accepted.symm.trans returned)
  exact ⟨longer, kept⟩

theorem wakeWaiting_keepsQueue (queued : ∃ waiting, Queued idleproc ⟨kernel, members⟩ waiting) (member : proc ∈ members)
    (returned : wakeWaiting defaultSchedClass idleproc kernel proc = some woken) :
    ∃ waiting, Queued idleproc ⟨woken, members⟩ waiting := by
  unfold wakeWaiting at returned
  split at returned
  · exact wakeupProc_keepsQueue queued member returned
  · exact Option.some.inj returned ▸ queued

theorem reparentChildren_keepsQueue {fuel : Nat} {table : ProcTable P (RunQueue P)}
    (queued : ∃ waiting, Queued idleproc ⟨table.kernel, members⟩ waiting) (adopter : initproc ∈ members)
    (finished : reparentChildren defaultSchedClass idleproc initproc current fuel table = some left) :
    ∃ waiting, Queued idleproc ⟨left.kernel, members⟩ waiting := by
  induction fuel generalizing table with
  | zero => exact Option.some.inj finished ▸ queued
  | succ fuel ih =>
    unfold reparentChildren at finished
    cases youngest : table.cptr current with
    | none =>
      simp only [youngest, Option.some.injEq] at finished
      exact finished ▸ queued
    | some proc =>
      simp only [youngest, Option.bind_eq_bind, Option.bind_eq_some_iff] at finished
      obtain ⟨kernel, reported, finished⟩ := finished
      refine ih ?_ finished
      unfold reportZombie at reported
      split at reported
      · exact wakeWaiting_keepsQueue queued adopter reported
      · exact Option.some.inj reported ▸ queued

/-- `do_exit` keeps the queue: the exiting process runs, and it wakes a parent that exists. -/
theorem doExit_keepsQueue {table : ProcTable P (RunQueue P)} (running : table.kernel.current = some current)
    (queued : ∃ waiting, Queued idleproc ⟨table.kernel, members⟩ waiting) (adopter : initproc ∈ members)
    (known : ∀ parent, table.parent current = some parent → parent ∈ members)
    (finished : doExit defaultSchedClass idleproc initproc table = some left) :
    ∃ waiting, Queued idleproc ⟨left.kernel, members⟩ waiting := by
  simp only [doExit, running, Option.bind_eq_bind, Option.bind_some] at finished
  split at finished
  · cases finished
  split at finished
  · cases finished
  obtain ⟨parent, own, finished⟩ := Option.bind_eq_some_iff.mp finished
  obtain ⟨kernel, woken, looped⟩ := Option.bind_eq_some_iff.mp finished
  obtain ⟨waiting, queued⟩ := queued
  obtain ⟨written, wrote, kept⟩ := setCurrent_queued (fun fields => { fields with state := .zombie }) queued
  simp only [setCurrent, running, Option.map_some, Option.some.injEq] at wrote
  subst wrote
  exact reparentChildren_keepsQueue (wakeWaiting_keepsQueue ⟨waiting, kept⟩ (known parent own) woken) adopter looped

end Queueing

end Exiting

/-! ## What a search finds -/

section Searching

variable {table : ProcTable P Q} {current proc : P} {nodes : List P}

omit [DecidableEq P] in
/-- The walk of `do_wait` passes over no zombie. -/
theorem findZombie_none {fuel : Nat} {haskid result : Bool} {before first : Option P}
    (chain : Chain table.optr table.yptr before first nodes) (enough : nodes.length < fuel)
    (found : findZombie table fuel haskid first = (result, none)) : ∀ node ∈ nodes, ¬ isZombie table.kernel node := by
  induction nodes generalizing fuel haskid before first with
  | nil => exact fun node member => absurd member List.not_mem_nil
  | cons node rest ih =>
    obtain ⟨rfl, _, tail⟩ := chain
    cases fuel with
    | zero => omega
    | succ fuel =>
      unfold findZombie at found
      split at found
      · cases found
      · rename_i alive
        exact List.forall_mem_cons.mpr ⟨alive, ih tail (by simpa using enough) found⟩

end Searching

/-! ## The scheduler -/

variable {system : System P} {waiting : List P}

/-- A write to a field that is not `wait_state`. -/
theorem setProc_waits (kernel : Kernel P Q) (proc other : P) {fields : Proc}
    (same : fields.waitState = (kernel.procs proc).waitState) :
    ((kernel.setProc proc fields).procs other).waitState = (kernel.procs other).waitState := by
  rw [Kernel.setProc_procs]
  split
  · rename_i here
    rw [same, here]
  · rfl

theorem scheduleOut_waits {kernel left : Kernel P (RunQueue P)} {current proc : P}
    (out : scheduleOut defaultSchedClass idleproc kernel current = some left) :
    (left.procs proc).waitState = (kernel.procs proc).waitState := by
  have written := @setProc_waits P (RunQueue P) _ kernel current proc
    { kernel.procs current with needResched := false } rfl
  unfold scheduleOut at out
  simp only at out
  split at out
  · unfold schedClassEnqueue at out
    split at out
    · obtain ⟨queued, accepted, rfl⟩ := Option.map_eq_some_iff.mp out
      exact (defaultSchedClass_keeps.states _ _ _ accepted proc).2.trans written
    · exact Option.some.inj out ▸ written
  · exact Option.some.inj out ▸ written

theorem scheduleIn_waits (kernel : Kernel P Q) (current proc : P) (next : Option P) :
    ((scheduleIn idleproc kernel current next).procs proc).waitState = (kernel.procs proc).waitState := by
  have written := @setProc_waits P Q _ kernel (next.getD idleproc) proc
    { kernel.procs (next.getD idleproc) with runs := (kernel.procs (next.getD idleproc)).runs + 1 } rfl
  unfold scheduleIn
  simp only
  split <;> exact written

/-- `schedule` lets a runnable process run and changes no state. -/
theorem schedule_runs {kernel : Kernel P (RunQueue P)} (queued : Queued idleproc system waiting)
    (idle : (system.kernel.procs idleproc).state = .runnable)
    (returned : schedule defaultSchedClass idleproc system.kernel = some kernel) :
    Rouses system.kernel kernel ∧ (∃ waiting, Queued idleproc { system with kernel } waiting) ∧
      ∀ current ∈ kernel.current, (kernel.procs current).state = .runnable := by
  obtain ⟨current, member, running⟩ := queued.running
  obtain ⟨other, waiting', returned', queued'⟩ := schedule_queued queued
  obtain rfl := Option.some.inj (returned.symm.trans returned')
  obtain ⟨left, out, held, stays, fifo, states⟩ := scheduleOut_exact queued member running
  have competes := mem_candidates queued member running
  generalize candidates idleproc system current waiting = competing at held fifo competes
  have small := queued.small held.nodup fun proc listed => ((competes proc).mp listed).1
  obtain ⟨chosen, choice, _, same, _, procs⟩ := chooseNext_exact held fifo small
  obtain ⟨runs, _, _, _, sameStates⟩ := scheduleIn_exact idleproc chosen current competing.head? (same.trans stays)
  have isKernel : scheduleIn idleproc chosen current competing.head? = kernel := by
    simpa [schedule, running, out, choice] using returned
  subst isKernel
  refine ⟨fun proc => Or.inl ⟨?_, ?_⟩, ⟨waiting', queued'⟩, fun next isNext => ?_⟩
  · rw [sameStates, procs, states]
  · rw [scheduleIn_waits, procs, scheduleOut_waits out]
  · obtain rfl := Option.some.inj (runs.symm.trans isNext)
    rw [sameStates, procs, states]
    cases competing with
    | nil => exact idle
    | cons first rest => exact ((competes first).mp List.mem_cons_self).2.1

end Ucore.Process
