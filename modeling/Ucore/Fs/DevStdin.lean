import Ucore.Library.RingBuffer
import Ucore.Library.Transition
import Ucore.Schedule.Sched

/-!
# The keyboard input buffer

`kern/fs/devs/dev_stdin.c` keeps characters in a buffer of 4096 cells with two positions
that are only advanced. `dev_stdin_write` runs in the interrupt handler; `dev_stdin_read`
runs with interrupts off and gives the processor away where it finds the buffer empty, so
it is cut there. The positions are `off_t` and the number of characters read is an `int`:
an advance past the type has no defined result and is refused.

The buffer tests a character only against NUL, so characters are of any type.
-/

namespace Ucore.DevStdin

open RingBuffer Schedule Transition

universe u
variable {R C : Type u} [DecidableEq R] [DecidableEq C]

/-- `STDIN_BUFSIZE` -/
def stdinBufsize : Nat := 4096

/-- `WT_KBD` -/
def wtKbd : BitVec 32 := 0x00000004#32 ||| wtInterrupted

/-- `off_t` and `int`, without the sign. -/
def offMax : Nat := 2 ^ 63
def intMax : Nat := 2 ^ 31

/-- The buffer and its positions; the wait queue, whose records are named by the readers,
and the flags in these records. -/
structure Stdin (R C : Type u) where
  buffer : Nat → C
  rpos : Nat
  wpos : Nat
  waitQueue : List R
  wakeupFlags : R → BitVec 32

/-- `wait_current_set`, as far as the record goes. -/
def waitCurrentSet (reader : R) (stdin : Stdin R C) : Stdin R C :=
  { stdin with
    waitQueue := stdin.waitQueue ++ [reader]
    wakeupFlags := Function.update stdin.wakeupFlags reader wtInterrupted }

/-- `wait_current_del` -/
def waitCurrentDel (reader : R) (stdin : Stdin R C) : Stdin R C :=
  { stdin with waitQueue := stdin.waitQueue.filter (· ≠ reader) }

/-- `wakeup_queue` with `del` set. -/
def wakeupQueue (wakeupFlags : BitVec 32) (stdin : Stdin R C) : Stdin R C :=
  { stdin with
    waitQueue := []
    wakeupFlags := fun reader =>
      if reader ∈ stdin.waitQueue then wakeupFlags else stdin.wakeupFlags reader }

variable (nul : C)

/-- `dev_stdin_write` -/
def devStdinWrite (c : C) (stdin : Stdin R C) : Option (Stdin R C) :=
  if c = nul then some stdin
  else
    let written := { stdin with buffer := store stdinBufsize stdin.buffer stdin.wpos c }
    if stdin.wpos < stdin.rpos + stdinBufsize then
      if stdin.wpos + 1 < offMax then some (wakeupQueue wtKbd { written with wpos := stdin.wpos + 1 })
      else none
    else some (wakeupQueue wtKbd written)

/-- A call of `dev_stdin_read`: the characters in `buf`, as many as `ret`, and those still
asked for. -/
structure Request (C : Type u) where
  buf : List C
  wanted : Nat

/-- The loop of `dev_stdin_read`, up to its end or to an empty buffer; the request is done
when no character is wanted. -/
def readLoop : Nat → List C → Stdin R C → Option (Request C × Stdin R C)
  | 0, buf, stdin => some (⟨buf, 0⟩, stdin)
  | wanted + 1, buf, stdin =>
      if stdin.rpos < stdin.wpos then
        if buf.length + 1 < intMax then
          readLoop wanted (buf ++ [load stdinBufsize stdin.buffer stdin.rpos])
            { stdin with rpos := stdin.rpos + 1 }
        else none
      else some (⟨buf, wanted + 1⟩, stdin)

/-- `dev_stdin_read` from `try_again` on, up to its return or to `schedule`. The request is
kept where the reader waits. -/
def readOn (reader : R) (request : Request C) (stdin : Stdin R C) :
    Option (Request C × Option (Request C) × Stdin R C) :=
  (readLoop request.wanted request.buf stdin).map fun (request, stdin) =>
    if request.wanted = 0 then (request, none, stdin)
    else (request, some request, waitCurrentSet reader stdin)

/-- `dev_stdin_read` after `schedule`. -/
def readResume (reader : R) (request : Request C) (stdin : Stdin R C) :
    Option (Request C × Option (Request C) × Stdin R C) :=
  let stdin := waitCurrentDel reader stdin
  if stdin.wakeupFlags reader = wtKbd then readOn reader request stdin
  else some (request, none, stdin)

/-! ## Runs -/

/-- A character from the interrupt handler, a call of a reader, or a reader that goes on
after `schedule`, woken by a character or by a kill. -/
inductive StdinOperation (R C : Type u) where
  | write (c : C)
  | read (reader : R) (len : Nat)
  | resume (reader : R)

/-- The buffer, the requests of the readers that wait, and the history: the characters
written, those for which the write position was advanced, and those copied to readers. -/
structure StdinSystem (R C : Type u) where
  stdin : Stdin R C
  inside : R → Option (Request C)
  written : List C
  accepted : List C
  delivered : List C

/-- The state after `stdin_device_init`. -/
def bootStdin (buffer : Nat → C) (flags : R → BitVec 32) : StdinSystem R C where
  stdin := { buffer := buffer, rpos := 0, wpos := 0, waitQueue := [], wakeupFlags := flags }
  inside _ := none
  written := []
  accepted := []
  delivered := []

/-- The reader's part of a step: `before` are the characters it had when the step began. -/
def StdinSystem.deliver (system : StdinSystem R C) (reader : R) (before : List C)
    (result : Request C × Option (Request C) × Stdin R C) : StdinSystem R C :=
  { system with
    stdin := result.2.2
    inside := Function.update system.inside reader result.2.1
    delivered := system.delivered ++ result.1.buf.drop before.length }

/-- One operation; a reader is in one call at a time. -/
def stdinStep (system : StdinSystem R C) : StdinOperation R C → Option (StdinSystem R C)
  | .write c => (devStdinWrite nul c system.stdin).map fun stdin =>
      { system with
        stdin := stdin
        written := system.written ++ [c]
        accepted := if system.stdin.wpos < stdin.wpos then system.accepted ++ [c] else system.accepted }
  | .read reader len =>
      match system.inside reader with
      | some _ => none
      | none => (readOn reader ⟨[], len⟩ system.stdin).map (system.deliver reader [])
  | .resume reader => do
      let request ← system.inside reader
      (readResume reader request system.stdin).map (system.deliver reader request.buf)

/-- The characters delivered are the first ones accepted, each one once and in their order,
and the others stand unread in the buffer; only characters written are accepted. -/
structure LossyFifo (system : StdinSystem R C) (unread : List C) : Prop where
  ordered : system.accepted = system.delivered ++ unread
  stands : Holds stdinBufsize system.stdin.buffer system.stdin.rpos unread
  counted : system.stdin.wpos = system.stdin.rpos + unread.length
  written : system.accepted.Sublist system.written

/-- A character other than NUL is written only where the buffer has room for it. -/
def HasRoom (system : StdinSystem R C) : StdinOperation R C → Prop
  | .write c => c ≠ nul → system.stdin.wpos < system.stdin.rpos + stdinBufsize
  | _ => True

/-! ## One step -/

variable {nul}

/-- A write that finds room adds the character behind the unread ones. -/
theorem write_lossyFifo {system next : StdinSystem R C} {unread : List C} {c : C}
    (lossy : LossyFifo system unread) (room : HasRoom nul system (.write c))
    (taken : stdinStep nul system (.write c) = some next) : ∃ unread, LossyFifo next unread := by
  obtain ⟨stdin, accepted, rfl⟩ := Option.map_eq_some_iff.mp taken
  by_cases ignored : c = nul
  · simp only [devStdinWrite, ignored, if_true, Option.some.injEq] at accepted
    subst accepted
    refine ⟨unread, ⟨by simpa using lossy.ordered, lossy.stands, lossy.counted, ?_⟩⟩
    simpa using lossy.written.trans (List.sublist_append_left _ _)
  · have free := room ignored
    simp only [devStdinWrite, ignored, if_false, free, if_true] at accepted
    split at accepted
    case isFalse => cases accepted
    case isTrue =>
      obtain rfl := Option.some.inj accepted
      have counted := lossy.counted
      have short : unread.length < stdinBufsize := by omega
      have advanced : system.stdin.wpos < system.stdin.wpos + 1 := Nat.lt_succ_self _
      refine ⟨unread ++ [c], ⟨?_, ?_, ?_, ?_⟩⟩
      · simp [wakeupQueue, lossy.ordered]
      · have pushed := lossy.stands.push short c
        rw [← counted] at pushed
        exact pushed
      · simp only [wakeupQueue, List.length_append, List.length_singleton]
        omega
      · simpa [wakeupQueue] using lossy.written

omit [DecidableEq R] [DecidableEq C] in
/-- The loop copies the first unread characters and leaves the others where they are; it
stops short only of an empty buffer. -/
theorem readLoop_exact {wanted : Nat} {buf unread : List C} {stdin after : Stdin R C} {request : Request C}
    (stands : Holds stdinBufsize stdin.buffer stdin.rpos unread)
    (counted : stdin.wpos = stdin.rpos + unread.length)
    (returned : readLoop wanted buf stdin = some (request, after)) :
    ∃ copied rest, unread = copied ++ rest ∧ request.buf = buf ++ copied ∧
      Holds stdinBufsize after.buffer after.rpos rest ∧ after.wpos = after.rpos + rest.length ∧
      (request.wanted = 0 ∨ rest = []) := by
  induction wanted generalizing buf unread stdin with
  | zero =>
    simp only [readLoop, Option.some.injEq, Prod.mk.injEq] at returned
    obtain ⟨rfl, rfl⟩ := returned
    exact ⟨[], unread, rfl, by simp, stands, counted, Or.inl rfl⟩
  | succ wanted ih =>
    cases unread with
    | nil =>
      have empty : ¬stdin.rpos < stdin.wpos := by simp [counted]
      simp only [readLoop, empty, if_false, Option.some.injEq, Prod.mk.injEq] at returned
      obtain ⟨rfl, rfl⟩ := returned
      exact ⟨[], [], rfl, by simp, stands, counted, Or.inr rfl⟩
    | cons item unread =>
      simp only [List.length_cons] at counted
      have waiting : stdin.rpos < stdin.wpos := by omega
      simp only [readLoop, waiting, if_true, stands.head] at returned
      split at returned
      case isFalse => cases returned
      case isTrue =>
        have behind : stdin.wpos = stdin.rpos + 1 + unread.length := by omega
        obtain ⟨copied, rest, rfl, copies, after⟩ := ih stands.tail behind returned
        exact ⟨item :: copied, rest, rfl, by simp [copies], after⟩

omit [DecidableEq C] in
/-- What a reader gets is the front of the unread characters, wherever its request stands. -/
theorem readOn_lossyFifo {system : StdinSystem R C} {unread : List C} {reader : R} {request : Request C}
    {result : Request C × Option (Request C) × Stdin R C} (lossy : LossyFifo system unread)
    (returned : readOn reader request system.stdin = some result) :
    ∃ unread, LossyFifo (system.deliver reader request.buf result) unread := by
  obtain ⟨⟨read, stdin⟩, looped, rfl⟩ := Option.map_eq_some_iff.mp returned
  obtain ⟨copied, rest, rfl, copies, stands, counted, _⟩ :=
    readLoop_exact lossy.stands lossy.counted looped
  refine ⟨rest, ?_⟩
  have ordered : system.accepted = (system.delivered ++ read.buf.drop request.buf.length) ++ rest := by
    simp [lossy.ordered, copies]
  by_cases finished : read.wanted = 0
  · simp only [finished, if_true]
    exact ⟨ordered, stands, counted, lossy.written⟩
  · simp only [finished, if_false]
    exact ⟨ordered, stands, counted, lossy.written⟩

/-- One step that finds room where it writes. -/
theorem stdinStep_lossyFifo (system : StdinSystem R C) (operation : StdinOperation R C)
    (next : StdinSystem R C) (lossy : ∃ unread, LossyFifo system unread)
    (room : HasRoom nul system operation) (taken : stdinStep nul system operation = some next) :
    ∃ unread, LossyFifo next unread := by
  obtain ⟨unread, lossy⟩ := lossy
  cases operation with
  | write c => exact write_lossyFifo lossy room taken
  | read reader len =>
    simp only [stdinStep] at taken
    split at taken
    · cases taken
    · obtain ⟨result, returned, rfl⟩ := Option.map_eq_some_iff.mp taken
      exact readOn_lossyFifo lossy returned
  | resume reader =>
    obtain ⟨request, _, resumed⟩ := Option.bind_eq_some_iff.mp taken
    obtain ⟨result, returned, rfl⟩ := Option.map_eq_some_iff.mp resumed
    simp only [readResume] at returned
    split at returned
    · have same : LossyFifo { system with stdin := waitCurrentDel reader system.stdin } unread :=
        ⟨lossy.ordered, lossy.stands, lossy.counted, lossy.written⟩
      have after := readOn_lossyFifo same returned
      exact after
    · obtain rfl := Option.some.inj returned
      refine ⟨unread, ⟨?_, lossy.stands, lossy.counted, lossy.written⟩⟩
      simpa [StdinSystem.deliver] using lossy.ordered

/-! ## Whole runs -/

/-- In every run whose writes find room, characters are delivered once, in order, and none
is overwritten or skipped. -/
theorem stdin_lossy_fifo (nul : C) (buffer : Nat → C) (flags : R → BitVec 32) (system : StdinSystem R C)
    (reached : Reaches (stdinStep nul) (HasRoom nul) (bootStdin buffer flags) system) :
    ∃ unread, LossyFifo system unread := by
  refine @Reaches.invariant _ _ _ _ _ (fun system => ∃ unread, LossyFifo system unread) ?initially ?preserved _ reached
  case initially => exact ⟨[], rfl, holds_nil _ _ _, rfl, List.Sublist.refl _⟩
  case preserved => exact stdinStep_lossyFifo

/-- `HasRoom`, tested. -/
def hasRoom (nul : C) (system : StdinSystem R C) : StdinOperation R C → Bool
  | .write c => decide (c ≠ nul → system.stdin.wpos < system.stdin.rpos + stdinBufsize)
  | _ => true

omit [DecidableEq R] in
theorem hasRoom_sound (nul : C) (system : StdinSystem R C) (operation : StdinOperation R C)
    (tested : hasRoom nul system operation = true) : HasRoom nul system operation := by
  cases operation with
  | write c =>
    have room : c ≠ nul → system.stdin.wpos < system.stdin.rpos + stdinBufsize := of_decide_eq_true tested
    exact room
  | read reader len => trivial
  | resume reader => trivial

/-- A reader asks for three characters, gets two and waits; a character wakes it. -/
theorem stdin_lossy_fifo_waiting :
    ∃ system : StdinSystem Nat Nat,
      Reaches (stdinStep 0) (HasRoom 0) (bootStdin (fun _ => 0) fun _ => 0) system ∧
      system.delivered = [97, 98, 99] ∧ ∃ unread, LossyFifo system unread := by
  have completed : (run (guarded (stdinStep 0) (hasRoom 0))
      [.write 97, .write 0, .write 98, .read 7 3, .write 99, .resume 7, .write 100]
      (bootStdin (fun _ => 0) fun _ => 0)).map StdinSystem.delivered = some [97, 98, 99] := by
    decide +kernel
  obtain ⟨system, last, delivered⟩ := Option.map_eq_some_iff.mp completed
  have reached := guarded_reaches (hasRoom_sound 0) _ _ _ last
  exact ⟨system, reached, delivered, stdin_lossy_fifo 0 _ _ system reached⟩

/-- A request for one character, of a buffer that is not empty. -/
theorem read_one {nul : C} {system : StdinSystem R C} {reader : R} (idle : system.inside reader = none)
    (waiting : system.stdin.rpos < system.stdin.wpos) :
    ∃ next, stdinStep nul system (.read reader 1) = some next ∧ next.accepted = system.accepted ∧
      next.delivered = system.delivered ++ [load stdinBufsize system.stdin.buffer system.stdin.rpos] := by
  simp [stdinStep, idle, readOn, readLoop, waiting, intMax, StdinSystem.deliver]

/-- A buffer that only takes characters until it is full. -/
theorem fill (n : Nat) (fits : n ≤ stdinBufsize) :
    ∃ system : StdinSystem Nat Nat,
      Reaches (stdinStep 0) (fun _ _ => True) (bootStdin (fun _ => 0) fun _ => 0) system ∧
      system.accepted = List.replicate n 97 ∧ system.delivered = [] ∧ system.inside = (fun _ => none) ∧
      system.stdin.rpos = 0 ∧ system.stdin.wpos = n := by
  induction n with
  | zero => exact ⟨_, .start, rfl, rfl, rfl, rfl, rfl⟩
  | succ n ih =>
    obtain ⟨system, reached, accepted, delivered, inside, rpos, wpos⟩ := ih (Nat.le_of_succ_le fits)
    have room : n < stdinBufsize := fits
    have small : n + 1 < offMax := lt_of_le_of_lt fits (by decide)
    let after := wakeupQueue wtKbd { system.stdin with
      buffer := store stdinBufsize system.stdin.buffer n 97
      wpos := n + 1 }
    have taken : stdinStep 0 system (.write 97) = some { system with
        stdin := after
        written := system.written ++ [97]
        accepted := system.accepted ++ [97] } := by
      simp [stdinStep, devStdinWrite, rpos, wpos, room, small, after, wakeupQueue]
    refine ⟨_, .step reached trivial taken, ?_, delivered, inside, rpos, rfl⟩
    simp only [accepted, List.replicate_succ']

/-- A character that finds the buffer full is stored in the place of the oldest unread
one, which is never delivered. -/
theorem full_buffer_overwritten :
    ∃ system : StdinSystem Nat Nat,
      Reaches (stdinStep 0) (fun _ _ => True) (bootStdin (fun _ => 0) fun _ => 0) system ∧
      system.accepted = List.replicate 4096 97 ∧ system.delivered = [98] ∧
      ¬ ∃ unread, LossyFifo system unread := by
  obtain ⟨full, reached, accepted, delivered, inside, rpos, wpos⟩ := fill 4096 (Nat.le_refl _)
  let overwritten := wakeupQueue wtKbd { full.stdin with
    buffer := store stdinBufsize full.stdin.buffer 4096 98 }
  have written : stdinStep 0 full (.write 98) = some { full with
      stdin := overwritten
      written := full.written ++ [98] } := by
    simp [stdinStep, devStdinWrite, rpos, wpos, stdinBufsize, overwritten, wakeupQueue]
  have loaded : load stdinBufsize (store stdinBufsize full.stdin.buffer 4096 98) 0 = 98 :=
    load_store_self 4096
  let ready : StdinSystem Nat Nat := { full with
    stdin := overwritten
    written := full.written ++ [98] }
  have waiting : ready.stdin.rpos < ready.stdin.wpos := by simp [ready, overwritten, wakeupQueue, rpos, wpos]
  have idle : ready.inside 7 = none := congrFun inside 7
  have next : ∃ last, stdinStep 0 ready (.read 7 1) = some last ∧ last.accepted = ready.accepted ∧
      last.delivered = ready.delivered ++ [load stdinBufsize ready.stdin.buffer ready.stdin.rpos] :=
    read_one idle waiting
  obtain ⟨last, taken, same, copied⟩ := next
  have delivered : last.delivered = [98] := by
    rw [copied]
    simpa [ready, overwritten, wakeupQueue, delivered, rpos] using loaded
  have first : last.accepted = List.replicate 4096 97 := same.trans accepted
  refine ⟨last, .step (.step reached trivial written) trivial taken, first, delivered, ?_⟩
  rintro ⟨unread, lossy⟩
  have ordered := lossy.ordered
  rw [first, delivered] at ordered
  have front := congrArg List.head? ordered
  rw [List.head?_replicate, List.singleton_append, List.head?_cons] at front
  exact absurd front (by decide)

end Ucore.DevStdin
