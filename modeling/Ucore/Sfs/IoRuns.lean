import Ucore.Sfs.SfsIo
import Ucore.Sync.LockedCalls

/-!
# Threads that read and write blocks

`lock_sfs_io` is `down` on `io_sem`, and `unlock_sfs_io` is `up`. Any number of threads call the
functions of `kern/fs/sfs/sfs_io.c`, and `sfs_buffer` holds at each call what the one before left
there.
-/

namespace Ucore.SfsIo

open Sections Sync Transition

/-- The threads, `io_sem`, the device and `sfs_buffer`, and the calls that have returned. -/
abbrev IoState (T : Type) := LockedState T Request Local Shared Answer

variable {T : Type} [DecidableEq T] (device : Nat → Int) (blocks : Nat)

/-- A step of a thread. -/
def ioStep : IoState T → LockedOperation T Request → Option (IoState T) :=
  lockedStep (ioBody device blocks) fun request => request.call.Asserts

/-- The blocks of a call are those of the file system. -/
def Call.InRange : Call → Prop
  | .sfsRbuf _ blkno _ | .sfsWbuf _ blkno _ => blkno ≠ 0 ∧ blkno < blocks
  | .sfsRblock blkno nblks | .sfsWblock blkno nblks | .sfsClearBlock _ blkno nblks => blkno ≠ 0 ∧ blkno + nblks ≤ blocks

/-- So are those that are left. -/
def Frame.InRange : Frame → Prop
  | .rbufRead _ blkno _ | .wbufRead _ blkno _ | .wbufCopy _ blkno _ | .wbufWrite blkno => blkno ≠ 0 ∧ blkno < blocks
  | .rwblock _ blkno nblks _ | .clearSet _ blkno nblks | .clearLoop _ blkno nblks => blkno ≠ 0 ∧ blkno + nblks ≤ blocks
  | .rbufCopy .. | .unlock _ => True

variable {device blocks} {shared after : Shared} {here there : Local} {state : IoState T} {thread : T}
  {bytes : Bytes} {base blkno nblks : Nat} {write : Bool}

/-! ## No assertion fails -/

theorem Call.InRange.enter {call : Call} (inRange : call.InRange blocks) : call.enter.InRange blocks := by
  cases call <;> exact inRange

/-- A transfer of a block of the file system returns, and the step goes on. -/
theorem transfer_returns {further : Int × Bytes × Shared → Option (Local × Shared)} (isBlock : blkno ≠ 0 ∧ blkno < blocks)
    (goesOn : ∀ result, (further result).isSome) :
    ((sfsRwblockNolock device blocks shared bytes base blkno write true).bind further).isSome := by
  have returned : ∃ result, sfsRwblockNolock device blocks shared bytes base blkno write true = some result :=
    ⟨_, if_pos ⟨Or.inl isBlock.1, isBlock.2⟩⟩
  obtain ⟨result, returned⟩ := returned
  rw [returned]
  exact goesOn result

/-- So does a round of a loop over the blocks of a range. -/
theorem round_proceeds {stopped goesOn : Int × Bytes × Shared → Local × Shared} {ended : Local × Shared}
    (inRange : blkno ≠ 0 ∧ blkno + nblks ≤ blocks) :
    (if nblks ≠ 0 then (sfsRwblockNolock device blocks shared bytes base blkno write true).bind fun result =>
        if result.1 ≠ 0 then some (stopped result) else some (goesOn result)
      else some ended).isSome := by
  by_cases more : nblks ≠ 0
  · rw [if_pos more]
    refine transfer_returns ⟨inRange.1, by omega⟩ fun result => ?_
    split <;> rfl
  · rw [if_neg more]
    rfl

theorem frame_proceeds (inRange : here.frame.InRange blocks) :
    ((ioBody device blocks).leave here).isSome ∨ ((ioBody device blocks).step here shared).isSome := by
  obtain ⟨frame, buf⟩ := here
  cases frame with
  | rbufRead => exact Or.inr (transfer_returns inRange fun _ => rfl)
  | rbufCopy => exact Or.inr rfl
  | wbufRead => exact Or.inr (transfer_returns inRange fun _ => rfl)
  | wbufCopy => exact Or.inr rfl
  | wbufWrite => exact Or.inr (transfer_returns inRange fun _ => rfl)
  | rwblock => exact Or.inr (round_proceeds inRange)
  | clearSet => exact Or.inr rfl
  | clearLoop => exact Or.inr (round_proceeds inRange)
  | unlock => exact Or.inl rfl

/-- A round of a loop stops there, or it goes on with the rest of the range. -/
theorem round_cases {stopped goesOn : Int × Bytes × Shared → Local × Shared} {ended : Local × Shared}
    (few : blocks ≤ sfsMaxNblks) (inRange : blkno ≠ 0 ∧ blkno + nblks ≤ blocks)
    (taken : (if nblks ≠ 0 then (sfsRwblockNolock device blocks shared bytes base blkno write true).bind fun result =>
        if result.1 ≠ 0 then some (stopped result) else some (goesOn result)
      else some ended) = some (there, after)) :
    (∃ result, (there, after) = stopped result) ∨ (there, after) = ended ∨
      ((blkno + 1) % 2 ^ 32 ≠ 0 ∧ (blkno + 1) % 2 ^ 32 + (nblks - 1) ≤ blocks) ∧ ∃ result, (there, after) = goesOn result := by
  by_cases more : nblks ≠ 0
  · rw [if_pos more] at taken
    obtain ⟨ret, left, middle, called, continues⟩ := transfer_inv taken
    have isNext := (sfsRwblockNolock_exact few called).1
    by_cases fails : ret ≠ 0
    · rw [if_pos fails] at continues
      exact Or.inl ⟨_, (Option.some.inj continues).symm⟩
    · rw [if_neg fails] at continues
      refine Or.inr (Or.inr ⟨?_, _, (Option.some.inj continues).symm⟩)
      omega
  · rw [if_neg more] at taken
    exact Or.inr (Or.inl (Option.some.inj taken).symm)

/-- The next blocks are in the range, too. -/
theorem frame_inRange (few : blocks ≤ sfsMaxNblks) (inRange : here.frame.InRange blocks)
    (taken : (ioBody device blocks).step here shared = some (there, after)) : there.frame.InRange blocks := by
  obtain ⟨frame, buf⟩ := here
  cases frame with
  | rbufRead =>
    obtain ⟨_, _, _, _, continues⟩ := transfer_inv taken
    cases continues
    dsimp only
    split <;> trivial
  | rbufCopy =>
    cases taken
    trivial
  | wbufRead =>
    obtain ⟨_, _, _, _, continues⟩ := transfer_inv taken
    cases continues
    dsimp only
    split
    · exact inRange
    · trivial
  | wbufCopy =>
    cases taken
    exact inRange
  | wbufWrite =>
    obtain ⟨_, _, _, _, continues⟩ := transfer_inv taken
    cases continues
    trivial
  | rwblock base blkno nblks write =>
    obtain ⟨_, same⟩ | same | ⟨rest, _, same⟩ := round_cases few inRange taken
    · cases same
      trivial
    · cases same
      trivial
    · cases same
      exact rest
  | clearSet =>
    cases taken
    exact inRange
  | clearLoop ret blkno nblks =>
    obtain ⟨_, same⟩ | same | ⟨rest, _, same⟩ := round_cases few inRange taken
    · cases same
      trivial
    · cases same
      trivial
    · cases same
      exact rest
  | unlock => cases taken

/-- The blocks that are left of a call on its way. -/
theorem proceeds_inRange {request : Request} (few : blocks ≤ sfsMaxNblks) (inRange : request.call.InRange blocks)
    (proceeds : (ioBody device blocks).Proceeds ((ioBody device blocks).enter request) shared here after) :
    here.frame.InRange blocks := by
  induction proceeds with
  | refl => exact inRange.enter
  | step _ taken ih => exact frame_inRange few ih taken

/-- While a thread is in one of the functions, some thread can go on: no assertion fails, and there is no deadlock. -/
theorem io_proceeds (few : blocks ≤ sfsMaxNblks)
    (reached : Reaches (ioStep device blocks) (Allows fun request => request.call.InRange blocks) (unlocked shared) state)
    (busy : state.seats thread ≠ .outside) : ∃ holder next, ioStep device blocks state (.go holder) = some next := by
  obtain ⟨exclusive, explained⟩ := locked_serial reached
  obtain ⟨holder, holds⟩ := exclusive.someone busy
  refine ⟨holder, holds_proceeds holds fun request here isInside => ?_⟩
  obtain ⟨_, settled, _, proceeds⟩ := explained.alone isInside
  exact frame_proceeds (proceeds_inRange few ((locked_allowed reached).entered isInside) proceeds)

/-! ## Any interleaving -/

/-- The calls that have returned are a serial history, in which each does what it is for; the device is as the last
one of them left it when no thread is in one of the functions. -/
theorem sub_block_io_exact (few : blocks ≤ sfsMaxNblks)
    (reached : Reaches (ioStep device blocks) (Allows fun request => request.call.Legal blocks) (unlocked shared) state) :
    ∃ settled, Serial (Effect device) shared state.returned settled ∧ (state.system.Free → state.shared = settled) := by
  obtain ⟨_, settled, serial, now⟩ := locked_serial reached
  refine ⟨settled, serial.mono fun request answer before after member completes => ?_, fun free => ?_⟩
  · exact completes_effect few ((locked_allowed reached).returned (request, answer) member) completes
  · obtain ⟨_, same⟩ | ⟨holder, _, _, isInside, _⟩ := now
    · exact same
    · rw [free holder] at isInside
      cases isInside

/-- Whether a call is one of the interface. -/
def legalTest (blocks : Nat) (_ : IoState Bool) : LockedOperation Bool Request → Bool
  | .call _ request => request.call.Legal blocks
  | .go _ => true

theorem legalTest_sound (blocks : Nat) (state : IoState Bool) (operation : LockedOperation Bool Request)
    (legal : legalTest blocks state operation = true) : Allows (fun request => request.call.Legal blocks) state operation := by
  cases operation with
  | call _ request =>
    have isLegal : request.call.Legal blocks := of_decide_eq_true legal
    exact isLegal
  | go => trivial

/-- One thread writes into a block that another one waits to read from; then a transfer fails while blocks are cleared. -/
def twoThreads : List (LockedOperation Bool Request) :=
  [.call false ⟨.sfsWbuf 2 1 4094, fun _ => 7⟩, .go false, .call true ⟨.sfsRbuf 3 1 4093, fun _ => 1⟩, .go false, .go false,
    .go false, .go true, .call false ⟨.sfsClearBlock 22 1 2, fun _ => 1⟩, .go true, .go true, .go true, .go false, .go false,
    .go false, .go false, .go false]

/-- The fifth transfer of this device fails. -/
def fifthFails (calls : Nat) : Int := if calls = 4 then -5 else 0

/-- A device full of zeros. -/
def emptyDevice : Shared := ⟨fun _ => 0, fun _ => 0, 0⟩

/-- The write and the read are correct, and the second block is not cleared. -/
theorem sub_block_io_exact_two_threads :
    ∃ (state : IoState Bool) (settled : Shared),
      run (guarded (ioStep fifthFails 3) (legalTest 3)) twoThreads (unlocked emptyDevice) = some state ∧
      state.returned.map (fun pair => pair.2.ret) = [0, 0, -5] ∧
      Serial (Effect fifthFails) emptyDevice state.returned settled ∧ state.shared = settled := by
  have completed : (run (guarded (ioStep fifthFails 3) (legalTest 3)) twoThreads (unlocked emptyDevice)).map
      (fun state => (state.returned.map fun pair => pair.2.ret, decide (∀ thread, (state.system.inside thread).isNone))) =
      some ([0, 0, -5], true) := by
    decide
  obtain ⟨state, ran, isState⟩ := Option.map_eq_some_iff.mp completed
  obtain ⟨answers, free⟩ := Prod.mk.inj isState
  have reached := guarded_reaches (legalTest_sound 3) _ _ _ ran
  obtain ⟨settled, serial, same⟩ := sub_block_io_exact (by decide) reached
  refine ⟨state, settled, ran, answers, serial, same fun thread => ?_⟩
  exact Option.isNone_iff_eq_none.mp (of_decide_eq_true free thread)

instance : ∀ call : Call, Decidable (call.InRange blocks)
  | .sfsRbuf _ blkno _ | .sfsWbuf _ blkno _ => inferInstanceAs (Decidable (blkno ≠ 0 ∧ blkno < blocks))
  | .sfsRblock blkno nblks | .sfsWblock blkno nblks | .sfsClearBlock _ blkno nblks =>
    inferInstanceAs (Decidable (blkno ≠ 0 ∧ blkno + nblks ≤ blocks))

/-- Whether the blocks of a call are those of the file system. -/
def rangeTest (blocks : Nat) (_ : IoState Bool) : LockedOperation Bool Request → Bool
  | .call _ request => request.call.InRange blocks
  | .go _ => true

theorem rangeTest_sound (blocks : Nat) (state : IoState Bool) (operation : LockedOperation Bool Request)
    (inRange : rangeTest blocks state operation = true) :
    Allows (fun request => request.call.InRange blocks) state operation := by
  cases operation with
  | call _ request =>
    have isInRange : request.call.InRange blocks := of_decide_eq_true inRange
    exact isInRange
  | go => trivial

/-- The first thread has read the block that it changes a part of, and the other one waits. -/
theorem io_proceeds_two_threads :
    ∃ state : IoState Bool,
      run (guarded (ioStep fifthFails 3) (rangeTest 3)) (twoThreads.take 4) (unlocked emptyDevice) = some state ∧
      state.seats true ≠ .outside ∧ ∃ holder next, ioStep fifthFails 3 state (.go holder) = some next := by
  have completed : (run (guarded (ioStep fifthFails 3) (rangeTest 3)) (twoThreads.take 4) (unlocked emptyDevice)).map
      (fun state => match state.seats true with
        | .waiting _ => true
        | _ => false) = some true := by
    decide
  obtain ⟨state, ran, waits⟩ := Option.map_eq_some_iff.mp completed
  have reached := guarded_reaches (rangeTest_sound 3) _ _ _ ran
  have busy : state.seats true ≠ .outside := by
    intro outside
    rw [outside] at waits
    cases waits
  exact ⟨state, ran, busy, io_proceeds (by decide) reached busy⟩

end Ucore.SfsIo
