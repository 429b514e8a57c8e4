import Mathlib.Algebra.Ring.Int.Defs
import Ucore.Library.RingBuffer
import Ucore.Library.Transition

/-!
# The console input buffer

`kern/driver/console.c` keeps the characters that were typed in a buffer of 512 cells, with a
position to read at and one to write at. Both are set back to 0 at the end of the buffer.
`cons_intr` does not look at the read position, and `cons_getc` takes equal positions for an
empty buffer.

The characters that a call of `cons_intr` gets from `proc` are those before its first -1.
-/

namespace Ucore.Console

open RingBuffer Transition

/-- `CONSBUFSIZE` -/
def consbufsize : Nat := 512

/-- `cons` -/
structure Cons where
  buf : Nat → BitVec 8
  rpos : Nat
  wpos : Nat

/-- A position goes on, and back to 0 at the end of the buffer. -/
def advance (pos : Nat) : Nat := if pos + 1 = consbufsize then 0 else pos + 1

/-- One round of the loop of `cons_intr`. -/
def consPut (cons : Cons) (c : Int) : Cons :=
  if c ≠ 0 then { cons with
    buf := Function.update cons.buf cons.wpos (BitVec.ofInt 8 c)
    wpos := advance cons.wpos }
  else cons

/-- `cons_intr` -/
def consIntr (chars : List Int) (cons : Cons) : Cons := chars.foldl consPut cons

/-- `serial_proc_data`, for what `sbi_console_getchar` returns; `none` is -1. -/
def serialProcData (c : Int) : Option Int := if c < 0 then none else if c = 127 then some 8 else some c

/-- The characters of `serial_proc_data` before its first -1. -/
def serialChars : List Int → List Int
  | [] => []
  | c :: rest =>
      match serialProcData c with
      | none => []
      | some c => c :: serialChars rest

/-- `serial_intr` -/
def serialIntr (input : List Int) (cons : Cons) : Cons := consIntr (serialChars input) cons

/-- `cons_getc`, where the serial port has this input. -/
def consGetc (input : List Int) (cons : Cons) : Int × Cons :=
  let cons := serialIntr input cons
  if cons.rpos ≠ cons.wpos then ((cons.buf cons.rpos).toNat, { cons with rpos := advance cons.rpos })
  else (0, cons)

/-! ## Runs -/

/-- A call of `cons_intr` by an interrupt, or a call of `cons_getc`. -/
inductive ConsOperation where
  | intr (chars : List Int)
  | getc (input : List Int)

/-- What a call of `cons_getc` returned, and the characters unread before it took one. -/
structure Answer where
  unread : List (BitVec 8)
  ret : Int
deriving DecidableEq

/-- The first unread character is returned, or 0 when there is none. -/
def Answer.Right (answer : Answer) : Prop :=
  match answer.unread with
  | [] => answer.ret = 0
  | c :: _ => answer.ret = c.toNat ∧ answer.ret ≠ 0

/-- The buffer in memory, and the history: the characters inserted, those of them not taken yet,
and the answers. -/
structure ConsSystem where
  cons : Cons
  arrived : List (BitVec 8)
  unread : List (BitVec 8)
  answers : List Answer

/-- The buffer at boot. -/
def bootCons : ConsSystem where
  cons := { buf := fun _ => 0, rpos := 0, wpos := 0 }
  arrived := []
  unread := []
  answers := []

/-- The characters that are kept. -/
def inserted (chars : List Int) : List (BitVec 8) := (chars.filter (· ≠ 0)).map (BitVec.ofInt 8)

/-- The characters that an operation gets from `proc`. -/
def ConsOperation.chars : ConsOperation → List Int
  | .intr chars => chars
  | .getc input => serialChars input

/-- One operation. -/
def consStep (system : ConsSystem) : ConsOperation → Option ConsSystem
  | .intr chars => some { system with
      cons := consIntr chars system.cons
      arrived := system.arrived ++ inserted chars
      unread := system.unread ++ inserted chars }
  | .getc input =>
      let unread := system.unread ++ inserted (serialChars input)
      some {
        cons := (consGetc input system.cons).2
        arrived := system.arrived ++ inserted (serialChars input)
        unread := unread.tail
        answers := system.answers ++ [⟨unread, (consGetc input system.cons).1⟩] }

/-- Characters are bytes, and no more of them are unread than the buffer has cells. -/
def Fits (system : ConsSystem) (operation : ConsOperation) : Prop :=
  (∀ c ∈ operation.chars, 0 ≤ c ∧ c < 256) ∧
    (system.unread ++ inserted operation.chars).length ≤ consbufsize

/-- The characters that calls of `cons_getc` returned. -/
def returned (answers : List Answer) : List (BitVec 8) :=
  (answers.filter fun answer => answer.ret ≠ 0).map fun answer => BitVec.ofInt 8 answer.ret

/-- Every answer is right, and the characters returned are those inserted, in order and each once. -/
def Delivers (system : ConsSystem) : Prop :=
  (∀ answer ∈ system.answers, answer.Right) ∧ system.arrived = returned system.answers ++ system.unread

/-! ## The buffer as a list -/

variable {cons : Cons} {unread : List (BitVec 8)} {system : ConsSystem}

/-- The buffer holds the unread characters from the read position on. -/
structure Cons.Stores (cons : Cons) (unread : List (BitVec 8)) : Prop where
  holds : Holds consbufsize cons.buf cons.rpos unread
  rpos : cons.rpos < consbufsize
  wpos : cons.wpos = (cons.rpos + unread.length) % consbufsize

/-- A position is advanced round the buffer. -/
theorem advance_mod (pos : Nat) (inside : pos < consbufsize) : advance pos = (pos + 1) % consbufsize := by
  unfold advance consbufsize at *
  split <;> omega

theorem Cons.Stores.wpos_lt (stores : cons.Stores unread) : cons.wpos < consbufsize := by
  rw [stores.wpos]
  exact Nat.mod_lt _ (by decide)

/-- The contents depend on the read position round the buffer only. -/
theorem holds_mod {cells : Nat → BitVec 8} {first : Nat} (holds : Holds consbufsize cells first unread) :
    Holds consbufsize cells (first % consbufsize) unread where
  fits := holds.fits
  stands offset inside := by
    rw [holds.stands offset inside, load, load, Nat.mod_add_mod]

/-- `cons_intr` adds its characters behind the unread ones, when there is room. -/
theorem consIntr_stores (chars : List Int) (stores : cons.Stores unread)
    (room : (unread ++ inserted chars).length ≤ consbufsize) :
    (consIntr chars cons).Stores (unread ++ inserted chars) := by
  induction chars generalizing cons unread with
  | nil => simpa [consIntr, inserted] using stores
  | cons c rest ih =>
    by_cases nul : c = 0
    · subst nul
      exact ih stores room
    · have split : unread ++ inserted (c :: rest) = (unread ++ [BitVec.ofInt 8 c]) ++ inserted rest := by
        simp [inserted, nul]
      rw [split] at room ⊢
      have isRoom : unread.length < consbufsize := by
        simp only [List.length_append, List.length_singleton] at room
        omega
      have put : (consPut cons c).Stores (unread ++ [BitVec.ofInt 8 c]) := by
        rw [consPut, if_pos nul]
        constructor
        case holds =>
          have pushed := stores.holds.push isRoom (BitVec.ofInt 8 c)
          rw [store, ← stores.wpos] at pushed
          exact pushed
        case rpos => exact stores.rpos
        case wpos =>
          rw [advance_mod _ stores.wpos_lt, stores.wpos, Nat.mod_add_mod, List.length_append]
          rfl
      exact ih put room

/-- The first character is taken from a buffer that is not full. -/
theorem consGetc_first {c : BitVec 8} {rest : List (BitVec 8)} {input : List Int}
    (stores : (serialIntr input cons).Stores (c :: rest)) (notFull : (c :: rest).length ≠ consbufsize) :
    (consGetc input cons).1 = c.toNat ∧ (consGetc input cons).2.Stores rest := by
  have apart : (serialIntr input cons).rpos ≠ (serialIntr input cons).wpos := by
    have inside := stores.rpos
    have bound := stores.holds.fits
    rw [stores.wpos]
    simp only [consbufsize, List.length_cons] at *
    omega
  have isFirst : (serialIntr input cons).buf (serialIntr input cons).rpos = c := by
    have first := stores.holds.head
    rwa [load, Nat.mod_eq_of_lt stores.rpos] at first
  simp only [consGetc, if_pos apart, isFirst, true_and]
  constructor
  case holds =>
    rw [advance_mod _ stores.rpos]
    exact holds_mod stores.holds.tail
  case rpos =>
    rw [advance_mod _ stores.rpos]
    exact Nat.mod_lt _ (by decide)
  case wpos =>
    rw [advance_mod _ stores.rpos, stores.wpos, Nat.mod_add_mod, List.length_cons]
    congr 1
    omega

/-- Nothing is taken from an empty buffer, nor from a full one. -/
theorem consGetc_none {input : List Int} (stores : (serialIntr input cons).Stores unread)
    (around : unread.length % consbufsize = 0) : consGetc input cons = (0, serialIntr input cons) := by
  have same : (serialIntr input cons).rpos = (serialIntr input cons).wpos := by
    rw [stores.wpos, Nat.add_mod, around, Nat.add_zero, Nat.mod_mod, Nat.mod_eq_of_lt stores.rpos]
  simp only [consGetc, same, ne_eq, not_true_eq_false, if_false]

/-! ## Whole runs -/

/-- The buffer stores the unread characters, and they were delivered so far. -/
structure Sound (system : ConsSystem) : Prop where
  stores : system.cons.Stores system.unread
  nonzero : ∀ c ∈ system.unread, c ≠ 0#8
  delivers : Delivers system
  notFull : ∀ answer ∈ system.answers, answer.unread.length ≠ consbufsize

/-- A call found the buffer full and its answer was not right. -/
def Lost (system : ConsSystem) : Prop :=
  ∃ answer ∈ system.answers, answer.unread.length = consbufsize ∧ ¬ answer.Right

theorem inserted_nonzero {chars : List Int} (bytes : ∀ c ∈ chars, 0 ≤ c ∧ c < 256) : ∀ c ∈ inserted chars, c ≠ 0#8 := by
  intro c member
  obtain ⟨char, kept, rfl⟩ := List.mem_map.mp member
  obtain ⟨listed, notZero⟩ := List.mem_filter.mp kept
  have bound := bytes char listed
  intro isZero
  have value := congrArg BitVec.toNat isZero
  simp only [BitVec.toNat_ofInt, BitVec.toNat_ofNat, decide_eq_true_eq, ne_eq] at value notZero
  omega

/-- A call of `cons_getc` that finds the buffer full returns 0. -/
theorem getc_lost {input : List Int} {next : ConsSystem}
    (stores : (serialIntr input system.cons).Stores (system.unread ++ inserted (serialChars input)))
    (full : (system.unread ++ inserted (serialChars input)).length = consbufsize)
    (taken : consStep system (.getc input) = some next) : Lost next := by
  obtain rfl := Option.some.inj taken
  have missed := consGetc_none stores (by rw [full, Nat.mod_self])
  refine ⟨⟨system.unread ++ inserted (serialChars input), 0⟩, ?_, full, ?_⟩
  · simp only [missed]
    exact List.mem_append_right _ (List.mem_singleton_self _)
  · generalize system.unread ++ inserted (serialChars input) = unread at full ⊢
    cases unread with
    | nil => cases full
    | cons c rest => exact fun right => right.2 rfl

/-- A call of `cons_getc` delivers the first unread character, or finds the buffer full. -/
theorem getc_sound (sound : Sound system) (input : List Int)
    (stores : (serialIntr input system.cons).Stores (system.unread ++ inserted (serialChars input)))
    (nonzero : ∀ c ∈ system.unread ++ inserted (serialChars input), c ≠ 0#8) {next : ConsSystem}
    (taken : consStep system (.getc input) = some next) : Sound next ∨ Lost next := by
  by_cases full : (system.unread ++ inserted (serialChars input)).length = consbufsize
  case pos => exact Or.inr (getc_lost stores full taken)
  obtain rfl := Option.some.inj taken
  obtain ⟨right, inOrder⟩ := sound.delivers
  have arrived : system.arrived ++ inserted (serialChars input) =
      returned system.answers ++ (system.unread ++ inserted (serialChars input)) := by
    rw [inOrder, List.append_assoc]
  generalize isUnread : system.unread ++ inserted (serialChars input) = unread at stores nonzero arrived full ⊢
  have added : ∀ answer : Answer, answer.Right → answer.unread.length ≠ consbufsize →
      (∀ other ∈ system.answers ++ [answer], other.Right) ∧
        ∀ other ∈ system.answers ++ [answer], other.unread.length ≠ consbufsize := by
    intro answer isRight short
    simp only [List.mem_append, List.mem_singleton]
    constructor
    · rintro other (old | rfl)
      · exact right other old
      · exact isRight
    · rintro other (old | rfl)
      · exact sound.notFull other old
      · exact short
  cases unread with
  | nil =>
    have empty := consGetc_none stores rfl
    obtain ⟨allRight, allShort⟩ := added ⟨[], 0⟩ rfl (by decide)
    simp only [empty]
    refine Or.inl ⟨stores, nonzero, ⟨allRight, ?_⟩, allShort⟩
    simpa [returned] using arrived
  | cons c rest =>
    obtain ⟨ret, stores⟩ := consGetc_first stores full
    have notZero : (c.toNat : Int) ≠ 0 := fun isZero =>
      nonzero c List.mem_cons_self (BitVec.eq_of_toNat_eq (Int.ofNat_eq_zero.mp isZero))
    obtain ⟨allRight, allShort⟩ := added ⟨c :: rest, c.toNat⟩ ⟨rfl, notZero⟩ full
    simp only [ret]
    refine Or.inl ⟨stores, fun other member => nonzero other (List.mem_cons_of_mem _ member), ⟨allRight, ?_⟩, allShort⟩
    have isChar : BitVec.ofInt 8 (c.toNat : Int) = c := by simp
    rw [returned, List.filter_append, List.map_append,
      List.filter_cons_of_pos (by simpa using notZero), List.filter_nil, List.map_singleton, isChar, List.append_assoc]
    exact arrived

/-- One operation keeps what was delivered, or finds the buffer full. -/
theorem consStep_sound (system : ConsSystem) (operation : ConsOperation) (next : ConsSystem)
    (state : Sound system ∨ Lost system) (fits : Fits system operation)
    (taken : consStep system operation = some next) : Sound next ∨ Lost next := by
  obtain ⟨bytes, room⟩ := fits
  rcases state with sound | ⟨answer, member, full, wrong⟩
  case inr =>
    have kept : answer ∈ next.answers := by
      cases operation with
      | intr chars =>
        obtain rfl := Option.some.inj taken
        exact member
      | getc input =>
        obtain rfl := Option.some.inj taken
        exact List.mem_append_left _ member
    exact Or.inr ⟨answer, kept, full, wrong⟩
  case inl =>
  have nonzero : ∀ c ∈ system.unread ++ inserted operation.chars, c ≠ 0#8 := by
    intro c member
    rcases List.mem_append.mp member with old | new
    · exact sound.nonzero c old
    · exact inserted_nonzero bytes c new
  have stores := consIntr_stores operation.chars sound.stores room
  cases operation with
  | intr chars =>
    obtain rfl := Option.some.inj taken
    obtain ⟨right, inOrder⟩ := sound.delivers
    refine Or.inl ⟨stores, nonzero, ⟨right, ?_⟩, sound.notFull⟩
    dsimp only
    rw [inOrder, List.append_assoc]
  | getc input => exact getc_sound sound input stores nonzero taken

theorem bootCons_sound : Sound bootCons where
  stores := ⟨holds_nil _ _ _, by decide, rfl⟩
  nonzero := by simp [bootCons]
  delivers := ⟨by simp [bootCons], rfl⟩
  notFull := by simp [bootCons]

/-- In every run where no more characters are unread than the buffer has cells, they are delivered
exactly when no call of `cons_getc` finds the buffer full. -/
theorem console_in_order (system : ConsSystem) (reached : Reaches consStep Fits bootCons system) :
    Delivers system ↔ ∀ answer ∈ system.answers, answer.unread.length ≠ consbufsize := by
  have state : Sound system ∨ Lost system := by
    refine reached.invariant ?initially consStep_sound
    case initially => exact Or.inl bootCons_sound
  rcases state with sound | ⟨answer, member, full, wrong⟩
  · exact ⟨fun _ => sound.notFull, fun _ => sound.delivers⟩
  · exact ⟨fun delivers => absurd (delivers.1 answer member) wrong, fun short => absurd full (short answer member)⟩

/-- Two characters are typed and one of them is taken. -/
theorem console_in_order_two : ∃ system, Reaches consStep Fits bootCons system ∧ Delivers system ∧
    system.answers = [⟨[97, 98], 97⟩] := by
  obtain ⟨system, ran, answers⟩ : ∃ system, consStep (bootCons) (.getc [97, 98, -1]) = some system ∧
      system.answers = [⟨[97, 98], 97⟩] := ⟨_, rfl, by decide⟩
  have reached : Reaches consStep Fits bootCons system := .step .start ⟨by decide, by decide⟩ ran
  refine ⟨system, reached, (console_in_order system reached).mpr ?_, answers⟩
  rw [answers]
  decide

/-- As many characters as the buffer has cells are typed, and then `cons_getc` returns 0. -/
theorem burst_undelivered {chars : List Int} (bytes : ∀ c ∈ chars, 0 ≤ c ∧ c < 256)
    (full : (inserted chars).length = consbufsize) : ∃ system, Reaches consStep Fits bootCons system ∧ ¬ Delivers system := by
  have typed : Fits bootCons (.intr chars) := ⟨bytes, Nat.le_of_eq full⟩
  have reached : Reaches consStep Fits bootCons ⟨consIntr chars bootCons.cons, inserted chars, inserted chars, []⟩ :=
    .step .start typed rfl
  have stores : (consIntr chars bootCons.cons).Stores (inserted chars) :=
    consIntr_stores chars bootCons_sound.stores (Nat.le_of_eq full)
  have polled : inserted chars ++ inserted (serialChars []) = inserted chars := List.append_nil _
  have fits : Fits ⟨consIntr chars bootCons.cons, inserted chars, inserted chars, []⟩ (.getc []) :=
    ⟨by nofun, Nat.le_of_eq ((congrArg List.length polled).trans full)⟩
  obtain ⟨answer, member, _, wrong⟩ := @getc_lost ⟨consIntr chars bootCons.cons, inserted chars, inserted chars, []⟩ [] _
    (by rw [polled]; exact stores) (by rw [polled, full]) rfl
  exact ⟨_, reached.step fits rfl, fun delivers => wrong (delivers.1 answer member)⟩

/-- 512 characters in one burst. -/
theorem console_full : ∃ system, Reaches consStep Fits bootCons system ∧ ¬ Delivers system := by
  refine @burst_undelivered (List.replicate consbufsize 97) (fun c member => ?_) ?_
  · obtain rfl := List.eq_of_mem_replicate member
    decide
  · rw [inserted, List.filter_replicate, if_pos (by decide), List.map_replicate, List.length_replicate]

end Ucore.Console
