import Ucore.Fs.FileCounts
import Ucore.Mm.UserMem

/-!
# Reads and writes of a user

`sysfile_read` and `sysfile_write` of `kern/fs/sysfile.c` go through a buffer of one page.
A read moves the position of the descriptor and then copies to the user; a write copies from
the user and then moves the position. The inode may use less of a buffer than it is given,
and may fail at any call.
-/

namespace Ucore.Fs

open Vmm

variable {F N : Type} [DecidableEq F] [DecidableEq N]

/-- `IOBUF_SIZE` -/
def iobufSize : Nat := 4096

theorem iobufSize_small : iobufSize < 2 ^ 32 := by decide

/-- What `vop_read` or `vop_write` of an inode comes to, by the number of the call, the
position and the size of the buffer: an error code, which is negative, or 0, and how much
of the buffer is used. -/
structure NodeIo where
  result : Nat → Int → Nat → Int × Nat
  failure : ∀ call pos resid, (result call pos resid).1 ≤ 0
  short : ∀ call pos resid, (result call pos resid).2 ≤ resid

/-- The open files, the calls of the inode and the memory of a process. The last field is
history: the bytes that writes have handed to the inode, with their positions. -/
structure UserState (F N : Type) where
  table : FileState F N
  calls : Nat
  mm : Option Mm
  bytes : Bytes
  handed : List (Int × Fin 256)

variable (io : NodeIo) (content : Int → Fin 256) (memory : Bool) (files : F) (fd : Int) (state : UserState F N)

/-- `file_testfd`; `none` is a failed assertion, here and below. -/
def fileTestfd (table : FileState F N) (readable writable : Bool) : Option Bool := do
  match ← fd2file table (some files) fd with
  | .error _ => some false
  | .ok slot =>
      let file := table.file slot
      some ((!readable || file.readable) && (!writable || file.writable))

/-- `file_read` and `file_write` behind the tests of the descriptor, with the position of
the transfer. -/
def fileIo (begun : Option (Except Int (Slot F) × FileState F N)) (len : Nat) :
    Option (Int × Nat × Int × UserState F N) := do
  let (acquired, table) ← begun
  match acquired with
  | .error ret => some (ret, 0, 0, { state with table })
  | .ok slot => do
      let pos := (table.file slot).pos
      let (ret, copied) := io.result state.calls pos len
      let table ← advance table slot copied
      some (ret, copied, pos, { state with table, calls := state.calls + 1 })

/-- `file_read`, with the bytes of the file that it leaves in the buffer. -/
def fileRead (len : Nat) : Option (Int × Nat × (Nat → Fin 256) × UserState F N) := do
  let (ret, copied, pos, state) ← fileIo io state (fileReadBegin state.table (some files) fd) len
  some (ret, copied, fun index => content (pos + index), state)

/-- Bytes of a buffer at consecutive positions. -/
def placed (pos : Int) (data : Nat → Fin 256) (n : Nat) : List (Int × Fin 256) :=
  (List.range n).map fun (index : Nat) => (pos + index, data index)

/-- `file_write` -/
def fileWrite (data : Nat → Fin 256) (len : Nat) : Option (Int × Nat × UserState F N) := do
  let (ret, copied, pos, state) ← fileIo io state (fileWriteBegin state.table (some files) fd) len
  some (ret, copied, { state with handed := state.handed ++ placed pos data copied })

/-- The loop of `sysfile_read`, with the number of bytes copied. -/
def readLoop (state : UserState F N) (base : BitVec 64) (len copied : Nat) : Option (Int × Nat × UserState F N) := do
  let (ret, alen, data, state) ← fileRead io content files fd state (min iobufSize len)
  if alen = 0 then some (ret, copied, state)
  else
    let (accepted, mm, bytes) := copyToUser state.mm state.bytes base data alen
    let state := { state with mm, bytes }
    if accepted = false then some (if ret = 0 then -eInval else ret, copied, state)
    else if len < alen then none
    else if ret ≠ 0 ∨ len = alen then some (ret, copied + alen, state)
    else readLoop state (base + BitVec.ofNat 64 alen) (len - alen) (copied + alen)
termination_by len

/-- `sysfile_read`, which may find no memory. -/
def sysfileRead (base : BitVec 64) (len : Nat) : Option (Int × UserState F N) :=
  if len = 0 then some (0, state)
  else do
    let permitted ← fileTestfd files fd state.table true false
    if permitted = false then some (-eInval, state)
    else if memory = false then some (-eNoMem, state)
    else do
      let (ret, copied, state) ← readLoop io content files fd state base len 0
      some (if copied ≠ 0 then toInt copied else ret, state)

/-- The loop of `sysfile_write`, with the number of bytes copied. -/
def writeLoop (state : UserState F N) (base : BitVec 64) (len copied : Nat) : Option (Int × Nat × UserState F N) := do
  let (data, mm) := copyFromUser state.mm state.bytes base (min iobufSize len) false
  match data with
  | none => some (-eInval, copied, { state with mm })
  | some data => do
      let (ret, alen, state) ← fileWrite io files fd { state with mm } data (min iobufSize len)
      if len < alen then none
      else if ret ≠ 0 ∨ alen = 0 ∨ len = alen then some (ret, copied + alen, state)
      else writeLoop state (base + BitVec.ofNat 64 alen) (len - alen) (copied + alen)
termination_by len

/-- `sysfile_write` -/
def sysfileWrite (base : BitVec 64) (len : Nat) : Option (Int × UserState F N) :=
  if len = 0 then some (0, state)
  else do
    let permitted ← fileTestfd files fd state.table false true
    if permitted = false then some (-eInval, state)
    else if memory = false then some (-eNoMem, state)
    else do
      let (ret, copied, state) ← writeLoop io files fd state base len 0
      some (if copied ≠ 0 then toInt copied else ret, state)

/-! ## One transfer -/

/-- The table is in use, and every open slot has a user. -/
structure Ready (files : F) (table : FileState F N) : Prop where
  inUse : 0 < (table.files files).filesCount
  users : ∀ fd, (table.file (files, fd)).status = .opened → 0 < (table.file (files, fd)).openCount

/-- The position of a slot moves on. -/
def FileState.move (table : FileState F N) (slot : Slot F) (n : Nat) : FileState F N :=
  table.setFile slot { table.file slot with pos := (table.file slot).pos + n }

variable {io content memory files fd state} {table : FileState F N} {slot : Slot F} {n m len copied : Nat} {base : BitVec 64}

omit [DecidableEq N] in
theorem FileState.setFile_setFile (table : FileState F N) (slot : Slot F) (file other : File N) :
    (table.setFile slot file).setFile slot other = table.setFile slot other := by
  simp [FileState.setFile, FileState.setFiles]

omit [DecidableEq N] in
theorem FileState.setFile_same (table : FileState F N) (slot : Slot F) : table.setFile slot (table.file slot) = table := by
  simp [FileState.setFile, FileState.setFiles, FileState.file]

omit [DecidableEq N] in
theorem FileState.move_zero (table : FileState F N) (slot : Slot F) : table.move slot 0 = table := by
  have same : { table.file slot with pos := (table.file slot).pos + (0 : Nat) } = table.file slot := by
    rw [Int.ofNat_zero, Int.add_zero]
  rw [FileState.move, same, FileState.setFile_same]

omit [DecidableEq N] in
theorem FileState.move_move (table : FileState F N) (slot : Slot F) (n m : Nat) :
    (table.move slot n).move slot m = table.move slot (n + m) := by
  simp only [FileState.move, FileState.setFile_self, FileState.setFile_setFile, Int.natCast_add, Int.add_assoc]

omit [DecidableEq N] in
theorem FileState.move_pos (table : FileState F N) (slot : Slot F) (n : Nat) :
    ((table.move slot n).file slot).pos = (table.file slot).pos + n := by
  rw [FileState.move, FileState.setFile_self]

omit [DecidableEq N] in
/-- Only the position of the slot changes. -/
theorem FileState.move_fields (table : FileState F N) (slot : Slot F) (n : Nat) (other : Slot F) :
    ∃ pos, (table.move slot n).file other = { table.file other with pos } := by
  by_cases same : other = slot
  · exact ⟨(table.file slot).pos + n, by rw [same, FileState.move, FileState.setFile_self]⟩
  · exact ⟨(table.file other).pos, by rw [FileState.move, FileState.setFile_file, if_neg same]⟩

omit [DecidableEq N] in
theorem FileState.move_count (table : FileState F N) (slot : Slot F) (n : Nat) (files : F) :
    ((table.move slot n).files files).filesCount = (table.files files).filesCount :=
  (FileState.setFile_touches.tables files).2

omit [DecidableEq N] in
/-- A slot that has moved is as ready as before. -/
theorem Ready.move (ready : Ready files table) (slot : Slot F) (n : Nat) : Ready files (table.move slot n) where
  inUse := (table.move_count slot n files).symm ▸ ready.inUse
  users := by
    intro fd isOpen
    obtain ⟨pos, moved⟩ := table.move_fields slot n (files, fd)
    rw [moved] at isOpen ⊢
    exact ready.users fd isOpen

omit [DecidableEq N] in
theorem fd2file_move (table : FileState F N) (slot : Slot F) (n : Nat) (fd : Int) :
    fd2file (table.move slot n) (some files) fd = fd2file table (some files) fd := by
  unfold fd2file getFdArray
  simp only [Option.bind_some, table.move_count slot n]
  obtain ⟨pos, moved⟩ := table.move_fields slot n (files, fd.toNat)
  split
  · by_cases inUse : 0 < (table.files files).filesCount
    · simp only [if_pos inUse, Option.bind_eq_bind, Option.bind_some, moved]
    · simp only [if_neg inUse, Option.bind_eq_bind, Option.bind_none]
  · rfl

/-- A transfer moves the position and changes nothing else of the table. -/
theorem fileIo_exact (ready : Ready files state.table) (found : fd2file state.table (some files) fd = some (.ok slot))
    {allow : File N → Bool} (permitted : allow (state.table.file slot) = true) (len : Nat) :
    fileIo io state (acquireFd state.table (some files) fd allow) len =
      some ((io.result state.calls (state.table.file slot).pos len).1,
        (io.result state.calls (state.table.file slot).pos len).2, (state.table.file slot).pos,
        { state with
          table := state.table.move slot (io.result state.calls (state.table.file slot).pos len).2
          calls := state.calls + 1 }) := by
  obtain ⟨rfl, isOpen, _⟩ := fd2file_slot found
  have users := ready.users fd.toNat isOpen
  have stays : (state.table.file (files, fd.toNat)).openCount + 1 - 1 ≠ 0 := by omega
  have held : 0 < (state.table.file (files, fd.toNat)).openCount + 1 := by omega
  have acquired : acquireFd state.table (some files) fd allow = some (.ok (files, fd.toNat),
      state.table.setFile (files, fd.toNat)
        { state.table.file (files, fd.toNat) with openCount := (state.table.file (files, fd.toNat)).openCount + 1 }) := by
    simp only [acquireFd, found, Option.bind_eq_bind, Option.bind_some, permitted, if_true, fdArrayAcquire, isOpen]
    rfl
  rw [acquired]
  simp only [fileIo, Option.bind_eq_bind, Option.bind_some, FileState.setFile_self, advance, isOpen, if_true,
    fdArrayRelease, true_or, true_and, dropUser, FileState.setFile_setFile, if_neg stays, if_pos held]
  rw [FileState.move, Int.add_sub_cancel]
  dsimp only
  rw [isOpen]

/-! ## Reads -/

/-- The chunks that an inode fills one after the other, with their addresses, until it
fails, fills none or has filled all. -/
def delivered (io : NodeIo) (call : Nat) (pos : Int) (base : BitVec 64) (len : Nat) : List (BitVec 64 × Nat) :=
  let (ret, alen) := io.result call pos (min iobufSize len)
  if alen = 0 then []
  else if ret ≠ 0 ∨ len ≤ alen then [(base, alen)]
  else (base, alen) :: delivered io (call + 1) (pos + alen) (base + BitVec.ofNat 64 alen) (len - alen)
termination_by len

/-- The memory of the process takes every chunk. -/
def Takes (mm : Option Mm) (chunks : List (BitVec 64 × Nat)) : Prop :=
  ∀ chunk ∈ chunks, (userMemCheck mm chunk.1 chunk.2 true).1 = true

/-- Some bytes from an address on lie between the bounds of the memory. -/
def Between (mm : Option Mm) (base : BitVec 64) (n : Nat) : Prop :=
  n = 0 ∨ (accessible mm).1 ≤ base.toNat ∧ base.toNat + n ≤ (accessible mm).2

/-- Where the loop of a read stops: after `n` bytes, with a chunk of `lost` bytes more that
was read and not copied. -/
structure Stopped (io : NodeIo) (content : Int → Fin 256) (mm : Option Mm) (slot : Slot F) (state : UserState F N)
    (base : BitVec 64) (len n lost : Nat) (ret : Int) (after : UserState F N) : Prop where
  table : after.table = state.table.move slot (n + lost)
  bytes : after.bytes =
    memcpy state.bytes base.toNat (fun index => content ((state.table.file slot).pos + index)) n
  between : Between mm base n
  failure : ret ≤ 0
  taken : lost = 0 ↔ Takes mm (delivered io state.calls (state.table.file slot).pos base len)
  refused : lost ≠ 0 → ret < 0

theorem top_small (mm : Option Mm) : (accessible mm).2 < 2 ^ 64 := by
  cases mm with
  | some _ => exact (by decide : userTop.toNat < 2 ^ 64)
  | none => exact (by decide : kernTop.toNat < 2 ^ 64)

/-- The address behind an accepted chunk. -/
theorem behind_exact {mm : Option Mm} (inside : base.toNat + n ≤ (accessible mm).2) :
    (base + BitVec.ofNat 64 n).toNat = base.toNat + n := by
  have small := top_small mm
  rw [BitVec.toNat_add, BitVec.toNat_ofNat]
  omega

theorem Between.cons {mm : Option Mm} (low : (accessible mm).1 ≤ base.toNat) (inside : base.toNat + n ≤ (accessible mm).2)
    (later : Between mm (base + BitVec.ofNat 64 n) m) : Between mm base (n + m) := by
  right
  rcases later with rfl | ⟨_, high⟩
  · exact ⟨low, inside⟩
  · rw [behind_exact inside] at high
    exact ⟨low, by omega⟩

omit [DecidableEq F] [DecidableEq N] in
/-- The length of a transfer fits in an `int`. -/
theorem Between.toInt {mm : Option Mm} (between : Between mm base n) : toInt n = n := by
  apply toInt_small
  have small := accessible_small mm
  rcases between with rfl | ⟨low, high⟩
  · exact Nat.two_pow_pos 31
  · omega

/-- A call of the inode moves the position. -/
def UserState.moved (state : UserState F N) (slot : Slot F) (n : Nat) : UserState F N :=
  { state with table := state.table.move slot n, calls := state.calls + 1 }

theorem fileRead_exact (ready : Ready files state.table) (found : fd2file state.table (some files) fd = some (.ok slot))
    (readable : (state.table.file slot).readable = true) (len : Nat) {ret : Int} {alen : Nat}
    (isResult : io.result state.calls (state.table.file slot).pos len = (ret, alen)) :
    fileRead io content files fd state len =
      some (ret, alen, fun (index : Nat) => content ((state.table.file slot).pos + index), state.moved slot alen) := by
  rw [fileRead, fileReadBegin, fileIo_exact ready found readable, isResult]
  rfl

/-- The loop of a read. The induction is on the bytes that are left. -/
theorem readLoop_exact {mm : Option Mm} (ready : Ready files state.table)
    (found : fd2file state.table (some files) fd = some (.ok slot)) (readable : (state.table.file slot).readable = true)
    (same : SameMemory state.mm mm) :
    ∃ n lost ret after, readLoop io content files fd state base len copied = some (ret, copied + n, after) ∧
      Stopped io content mm slot state base len n lost ret after := by
  induction len using Nat.strong_induction_on generalizing state base copied with
  | h len ih =>
    obtain ⟨⟨ret, alen⟩, isResult⟩ : ∃ result,
        io.result state.calls (state.table.file slot).pos (min iobufSize len) = result := ⟨_, rfl⟩
    have failure : ret ≤ 0 := by
      have code := io.failure state.calls (state.table.file slot).pos (min iobufSize len)
      rwa [isResult] at code
    have short : alen ≤ min iobufSize len := by
      have fits := io.short state.calls (state.table.file slot).pos (min iobufSize len)
      rwa [isResult] at fits
    have fits : alen ≤ len := Nat.le_trans short (Nat.min_le_right _ _)
    have small : alen < 2 ^ 32 := Nat.lt_of_le_of_lt (Nat.le_trans short (Nat.min_le_left _ _)) iobufSize_small
    have chunks := delivered.eq_1 io state.calls (state.table.file slot).pos base len
    simp only [isResult] at chunks
    rw [readLoop, fileRead_exact ready found readable _ isResult]
    simp only [Option.bind_eq_bind, Option.bind_some]
    by_cases nothing : alen = 0
    · subst nothing
      rw [if_pos rfl] at chunks
      refine ⟨0, 0, ret, state.moved slot 0, by rw [if_pos rfl]; rfl, ?_⟩
      exact {
        table := rfl
        bytes := rfl
        between := Or.inl rfl
        failure
        taken := iff_of_true rfl (chunks ▸ fun chunk member => (nomatch member))
        refused := fun lost => absurd rfl lost }
    rw [if_neg nothing] at chunks
    rw [if_neg nothing]
    obtain ⟨sameCheck, kept⟩ := userMemCheck_same same base alen true
    have head : (base, alen) ∈ delivered io state.calls (state.table.file slot).pos base len := by
      rw [chunks]
      split
      · exact List.mem_singleton_self _
      · exact List.mem_cons_self
    by_cases accepted : (userMemCheck state.mm base alen true).1 = true
    · have chunkAccepted := sameCheck.symm.trans accepted
      obtain ⟨low, inside⟩ := userMemCheck_bounds small chunkAccepted
      simp only [copyToUser, UserState.moved, accepted, if_true, Bool.true_eq_false, if_false, if_neg (Nat.not_lt.mpr fits)]
      by_cases last : ret ≠ 0 ∨ len = alen
      · have isLast : ret ≠ 0 ∨ len ≤ alen := last.imp_right Nat.le_of_eq
        rw [if_pos isLast] at chunks
        rw [if_pos last]
        refine ⟨alen, 0, _, _, rfl, ?_⟩
        exact {
          table := rfl
          bytes := rfl
          between := Or.inr ⟨low, inside⟩
          failure
          taken := iff_of_true rfl fun chunk member => by
            rw [chunks, List.mem_singleton] at member
            rw [member]
            exact chunkAccepted
          refused := fun lost => absurd rfl lost }
      · have notLast : ¬ (ret ≠ 0 ∨ len ≤ alen) := fun either => last (either.imp_right (Nat.le_antisymm · fits))
        rw [if_neg notLast] at chunks
        rw [if_neg last]
        have isNext : ((state.table.move slot alen).file slot).pos = (state.table.file slot).pos + alen :=
          FileState.move_pos ..
        have readable' : ((state.table.move slot alen).file slot).readable = true := by
          obtain ⟨pos, moved⟩ := state.table.move_fields slot alen slot
          rw [moved]
          exact readable
        obtain ⟨n, lost, ret', after, ran, stopped⟩ := @ih (len - alen) (by omega)
          { state.moved slot alen with
            mm := (userMemCheck state.mm base alen true).2
            bytes := memcpy state.bytes base.toNat
              (fun (index : Nat) => content ((state.table.file slot).pos + index)) alen }
          (copied + alen) (base + BitVec.ofNat 64 alen) (ready.move slot alen) ((fd2file_move _ slot alen fd).trans found)
          readable' (same.after kept)
        refine ⟨alen + n, lost, ret', after, ?_, ?_⟩
        · rw [← Nat.add_assoc]
          exact ran
        · have isTaken := stopped.taken
          simp only [UserState.moved, isNext] at isTaken
          exact {
            table := by
              rw [stopped.table, Nat.add_assoc]
              exact FileState.move_move ..
            bytes := by
              rw [stopped.bytes, behind_exact inside, ← memcpy_append]
              simp only [UserState.moved, isNext, Int.natCast_add, Int.add_assoc]
            between := .cons low inside stopped.between
            failure := stopped.failure
            taken := by
              rw [isTaken, chunks]
              refine ⟨fun takes chunk member => ?_, fun takes chunk member => takes chunk (List.mem_cons_of_mem _ member)⟩
              rcases List.mem_cons.mp member with rfl | later
              · exact chunkAccepted
              · exact takes chunk later
            refused := stopped.refused }
    · have refused := Bool.eq_false_of_not_eq_true accepted
      simp only [copyToUser, UserState.moved, refused, if_true, Bool.false_eq_true, if_false]
      refine ⟨0, alen, _, _, rfl, ?_⟩
      have negative : (if ret = 0 then -eInval else ret) < 0 := by
        split
        · decide
        · omega
      exact {
        table := by rw [Nat.zero_add]
        bytes := rfl
        between := Or.inl rfl
        failure := Int.le_of_lt negative
        taken := iff_of_false nothing fun takes => accepted (sameCheck.trans (takes _ head))
        refused := fun _ => negative }

omit [DecidableEq F] [DecidableEq N] in
/-- A descriptor is refused, or leads to a slot with the access. -/
theorem fileTestfd_cases (ready : Ready files table) (fd : Int) (readable writable : Bool) :
    fileTestfd files fd table readable writable = some false ∨
      ∃ slot, fd2file table (some files) fd = some (.ok slot) ∧ fileTestfd files fd table readable writable = some true ∧
        (readable = true → (table.file slot).readable = true) ∧ (writable = true → (table.file slot).writable = true) := by
  have array : getFdArray table (some files) = some files := by
    simp [getFdArray, ready.inUse]
  have answers : ∃ found, fd2file table (some files) fd = some found := by
    unfold fd2file
    rw [array]
    split
    · exact ⟨_, rfl⟩
    · exact ⟨_, rfl⟩
  obtain ⟨found, isFound⟩ := answers
  cases found with
  | error ret => exact Or.inl (by rw [fileTestfd, isFound]; rfl)
  | ok slot =>
    cases isTest : (!readable || (table.file slot).readable) && (!writable || (table.file slot).writable) with
    | false =>
      left
      rw [fileTestfd, isFound]
      exact congrArg some isTest
    | true =>
      refine Or.inr ⟨slot, isFound, ?_, ?_, ?_⟩
      · rw [fileTestfd, isFound]
        exact congrArg some isTest
      · rintro rfl
        simpa using (Bool.and_eq_true_iff.mp isTest).1
      · rintro rfl
        simpa using (Bool.and_eq_true_iff.mp isTest).2

/-- The position of a descriptor. -/
def positionOf (files : F) (fd : Int) (table : FileState F N) : Int := (table.file (files, fd.toNat)).pos

/-- A call that is refused before the inode is called. -/
def Refused (memory : Bool) (files : F) (fd : Int) (table : FileState F N) (readable writable : Bool) (len : Nat) : Prop :=
  len = 0 ∨ fileTestfd files fd table readable writable = some false ∨ memory = false

/-- A read that returns a length has moved the position by it and given the bytes of the
file there to the user, and one that returns an error has not moved the position. -/
def ReadRight (io : NodeIo) (content : Int → Fin 256) (memory : Bool) (files : F) (fd : Int) (state : UserState F N)
    (base : BitVec 64) (len : Nat) : Prop :=
  ∃ ret after, sysfileRead io content memory files fd state base len = some (ret, after) ∧
    (0 ≤ ret → positionOf files fd after.table = positionOf files fd state.table + ret ∧
      ∀ index : Nat, index < ret →
        after.bytes (base.toNat + index) = content (positionOf files fd state.table + index)) ∧
    (ret < 0 → positionOf files fd after.table = positionOf files fd state.table)

/-- A read that is refused leaves everything as it is. -/
theorem sysfileRead_refused (ready : Ready files state.table)
    (refused : Refused memory files fd state.table true false len) :
    ∃ ret, sysfileRead io content memory files fd state base len = some (ret, state) ∧ ret ≤ 0 := by
  unfold sysfileRead
  by_cases nothing : len = 0
  · exact ⟨0, if_pos nothing, Int.le_refl 0⟩
  rw [if_neg nothing]
  rcases fileTestfd_cases ready fd true false with denied | ⟨slot, _, permitted, _⟩
  · rw [denied]
    exact ⟨-eInval, rfl, by decide⟩
  · rcases refused with isNothing | denied | noMemory
    · exact absurd isNothing nothing
    · rw [denied]
      exact ⟨-eInval, rfl, by decide⟩
    · rw [permitted, noMemory]
      exact ⟨-eNoMem, rfl, by decide⟩

/-- A read that reaches the inode: `n` bytes are copied, and `lost` bytes more are read. -/
theorem sysfileRead_stopped (ready : Ready files state.table) (ok : ∀ mm ∈ state.mm, mm.Ok)
    (allowed : ¬ Refused memory files fd state.table true false len) :
    ∃ (n lost : Nat) (ret : Int) (after : UserState F N),
      sysfileRead io content memory files fd state base len = some (if n ≠ 0 then (n : Int) else ret, after) ∧
      Stopped io content state.mm (files, fd.toNat) state base len n lost ret after := by
  obtain ⟨nothing, allowed⟩ := not_or.mp allowed
  obtain ⟨permitted, hasMemory⟩ := not_or.mp allowed
  obtain ⟨slot, found, isPermitted, readable, _⟩ := (fileTestfd_cases ready fd true false).resolve_left permitted
  obtain rfl := (fd2file_slot found).1
  obtain ⟨n, lost, ret, after, ran, stopped⟩ :=
    @readLoop_exact _ _ _ _ io content files fd state (files, fd.toNat) len 0 base state.mm ready found (readable rfl)
      (.refl ok)
  rw [Nat.zero_add] at ran
  refine ⟨n, lost, ret, after, ?_, stopped⟩
  rw [sysfileRead, if_neg nothing, isPermitted]
  simp only [Option.bind_eq_bind, Option.bind_some, Bool.true_eq_false, if_false, if_neg hasMemory, ran,
    stopped.between.toInt]

omit [DecidableEq N] in
theorem Stopped.pos {mm : Option Mm} {lost : Nat} {ret : Int} {after : UserState F N}
    (stopped : Stopped io content mm (files, fd.toNat) state base len n lost ret after) :
    positionOf files fd after.table = positionOf files fd state.table + (n + lost : Nat) := by
  rw [positionOf, stopped.table, FileState.move_pos, positionOf]

/-- A chunk that the user does not take is lost. -/
theorem sysfileRead_loses (ready : Ready files state.table) (ok : ∀ mm ∈ state.mm, mm.Ok)
    (allowed : ¬ Refused memory files fd state.table true false len)
    (denied : ¬ Takes state.mm (delivered io state.calls (positionOf files fd state.table) base len)) :
    ¬ ReadRight io content memory files fd state base len := by
  rintro ⟨ret', after', returned', counted, kept⟩
  obtain ⟨n, lost, ret, after, returned, stopped⟩ := sysfileRead_stopped ready ok allowed
  obtain ⟨rfl, rfl⟩ := Prod.mk.inj (Option.some.inj (returned.symm.trans returned'))
  have isLost : lost ≠ 0 := fun none => denied (stopped.taken.mp none)
  have isPos := stopped.pos
  by_cases some : n ≠ 0
  · rw [if_pos some] at counted
    have moved := (counted (Int.natCast_nonneg n)).1
    omega
  · rw [if_neg some] at kept
    have moved := kept (stopped.refused isLost)
    omega

/-- A read that returns has lost no data exactly when it is refused before the inode is
called, or when the user takes every chunk that the inode fills. -/
theorem sysfile_read_exact (ready : Ready files state.table) (ok : ∀ mm ∈ state.mm, mm.Ok) :
    ReadRight io content memory files fd state base len ↔
      Refused memory files fd state.table true false len ∨
        Takes state.mm (delivered io state.calls (positionOf files fd state.table) base len) := by
  by_cases refused : Refused memory files fd state.table true false len
  · refine iff_of_true ?_ (Or.inl refused)
    obtain ⟨ret, returned, negative⟩ := @sysfileRead_refused _ _ _ _ io content memory files fd state len base ready refused
    refine ⟨ret, state, returned, fun positive => ?_, fun _ => rfl⟩
    obtain rfl : ret = 0 := Int.le_antisymm negative positive
    exact ⟨(Int.add_zero _).symm, fun index before => absurd before (by omega)⟩
  rw [or_iff_right refused]
  refine ⟨fun right => by_contra fun denied => sysfileRead_loses ready ok refused denied right, fun takes => ?_⟩
  obtain ⟨n, lost, ret, after, returned, stopped⟩ :=
    @sysfileRead_stopped _ _ _ _ io content memory files fd state len base ready ok refused
  have noneLost : lost = 0 := stopped.taken.mpr takes
  have isPos := stopped.pos
  refine ⟨_, _, returned, fun positive => ?_, fun negative => ?_⟩
  · by_cases some : n ≠ 0
    · rw [if_pos some]
      refine ⟨by omega, fun index before => ?_⟩
      have inside : base.toNat ≤ base.toNat + index ∧ base.toNat + index < base.toNat + n := by omega
      rw [stopped.bytes, memcpy_exact, if_pos inside, Nat.add_sub_cancel_left]
      rfl
    · rw [if_neg some] at positive ⊢
      have isZero := Int.le_antisymm stopped.failure positive
      exact ⟨by omega, fun index before => absurd before (by omega)⟩
  · by_cases some : n ≠ 0
    · rw [if_pos some] at negative
      omega
    · omega

/-- An inode that fills and uses every buffer. -/
def wholeIo : NodeIo where
  result := fun _ _ resid => (0, resid)
  failure := fun _ _ _ => Int.le_refl 0
  short := fun _ _ resid => Nat.le_refl resid

/-- A process with one open file, which can be read and written. -/
def oneOpen (mm : Option Mm) : UserState Unit Unit where
  table := {
    files := fun _ => {
      pwd := none
      fdArray := fun fd =>
        if fd = 0 then
          { status := .opened, readable := true, writable := true, fd := 0, pos := 0, node := some (), openCount := 1, opening := 0 }
        else fdArrayInit fd
      filesCount := 1 }
    inodes := fun _ => { refCount := 1, openCount := 1 }
    opened := 1
    ended := [] }
  calls := 0
  mm
  bytes := fun _ => 0
  handed := []

theorem oneOpen_ready (mm : Option Mm) : Ready () (oneOpen mm).table where
  inUse := Int.zero_lt_one
  users := by
    intro fd isOpen
    simp only [oneOpen, FileState.file] at isOpen ⊢
    split
    · exact Int.zero_lt_one
    · rename_i different
      rw [if_neg different] at isOpen
      cases isOpen

/-- A read of a page into kernel memory. -/
theorem sysfile_read_exact_page :
    ReadRight wholeIo (fun _ => 1) true () 0 (oneOpen none) kernBase 4096 ↔
      Refused true () 0 (oneOpen none).table true false 4096 ∨
        Takes none (delivered wholeIo 0 (positionOf () 0 (oneOpen none).table) kernBase 4096) :=
  sysfile_read_exact (oneOpen_ready none) fun _ isSome => nomatch isSome

/-- A read of one byte to the address 0, which is not in the memory of the user. -/
theorem read_loses_byte : ¬ ReadRight wholeIo (fun _ => 1) true () 0 (oneOpen (some mmCreate)) 0#64 1 := by
  refine sysfileRead_loses (oneOpen_ready _) ?_ (by unfold Refused; decide) fun takes => ?_
  · rintro mm ⟨rfl⟩
    exact mmCreate_ok
  · have chunk : (0#64, 1) ∈ delivered wholeIo 0 (positionOf () 0 (oneOpen (some mmCreate)).table) 0#64 1 := by
      rw [delivered]
      exact List.mem_singleton_self _
    exact absurd (takes _ chunk) (by decide)

/-! ## Writes -/

omit [DecidableEq F] [DecidableEq N] in
theorem placed_append (pos : Int) (data : Nat → Fin 256) (n m : Nat) :
    placed pos data (n + m) = placed pos data n ++ placed (pos + n) (fun index => data (n + index)) m := by
  simp only [placed, List.range_add, List.map_append, List.map_map]
  congr 1
  refine List.map_congr_left fun index _ => ?_
  simp only [Function.comp_apply, Int.natCast_add, Int.add_assoc]

theorem fileWrite_exact (ready : Ready files state.table) (found : fd2file state.table (some files) fd = some (.ok slot))
    (writable : (state.table.file slot).writable = true) (data : Nat → Fin 256) (len : Nat) {ret : Int} {alen : Nat}
    (isResult : io.result state.calls (state.table.file slot).pos len = (ret, alen)) :
    fileWrite io files fd state data len =
      some (ret, alen, { state.moved slot alen with
        handed := state.handed ++ placed (state.table.file slot).pos data alen }) := by
  rw [fileWrite, fileWriteBegin, fileIo_exact ready found writable, isResult]
  rfl

/-- The error of a write whose first call consumes nothing. -/
def writeError (io : NodeIo) (state : UserState F N) (pos : Int) (base : BitVec 64) (len : Nat) : Int :=
  if (userMemCheck state.mm base (min iobufSize len) false).1 then (io.result state.calls pos (min iobufSize len)).1
  else -eInval

/-- What a write of `n` bytes leaves: the position has moved by `n`, and the inode has been
handed the first `n` bytes of the user. -/
structure Wrote (io : NodeIo) (slot : Slot F) (state : UserState F N) (base : BitVec 64) (len n : Nat) (ret : Int)
    (after : UserState F N) : Prop where
  table : after.table = state.table.move slot n
  bytes : after.bytes = state.bytes
  handed : after.handed =
    state.handed ++ placed (state.table.file slot).pos (fun index => state.bytes (base.toNat + index)) n
  fits : n ≤ len
  between : Between state.mm base n
  failure : n = 0 → ret = writeError io state (state.table.file slot).pos base len

/-- The loop of a write. The induction is on the bytes that are left. -/
theorem writeLoop_exact (ready : Ready files state.table)
    (found : fd2file state.table (some files) fd = some (.ok slot)) (writable : (state.table.file slot).writable = true) :
    ∃ n ret after, writeLoop io files fd state base len copied = some (ret, copied + n, after) ∧
      Wrote io slot state base len n ret after := by
  induction len using Nat.strong_induction_on generalizing state base copied with
  | h len ih =>
    obtain ⟨⟨ret, alen⟩, isResult⟩ : ∃ result,
        io.result state.calls (state.table.file slot).pos (min iobufSize len) = result := ⟨_, rfl⟩
    have short : alen ≤ min iobufSize len := by
      have fits := io.short state.calls (state.table.file slot).pos (min iobufSize len)
      rwa [isResult] at fits
    have fits : alen ≤ len := Nat.le_trans short (Nat.min_le_right _ _)
    have small : min iobufSize len < 2 ^ 32 := Nat.lt_of_le_of_lt (Nat.min_le_left _ _) iobufSize_small
    rw [writeLoop]
    by_cases accepted : (userMemCheck state.mm base (min iobufSize len) false).1 = true
    · obtain ⟨low, inside⟩ := userMemCheck_bounds small accepted
      have here : base.toNat + alen ≤ (accessible state.mm).2 := by omega
      have wrote := @fileWrite_exact _ _ _ _ io files fd
        { state with mm := (userMemCheck state.mm base (min iobufSize len) false).2 } slot ready found writable
        (fun index => state.bytes (base.toNat + index)) _ _ _ isResult
      simp only [copyFromUser, accepted, if_true, wrote, Option.bind_eq_bind, Option.bind_some,
        if_neg (Nat.not_lt.mpr fits)]
      by_cases last : ret ≠ 0 ∨ alen = 0 ∨ len = alen
      · rw [if_pos last]
        refine ⟨alen, ret, _, rfl, ?_⟩
        exact {
          table := rfl
          bytes := rfl
          handed := rfl
          fits
          between := Or.inr ⟨low, here⟩
          failure := fun _ => by rw [writeError, if_pos accepted, isResult] }
      · rw [if_neg last]
        have isNext : ((state.table.move slot alen).file slot).pos = (state.table.file slot).pos + alen :=
          FileState.move_pos ..
        have writable' : ((state.table.move slot alen).file slot).writable = true := by
          obtain ⟨pos, moved⟩ := state.table.move_fields slot alen slot
          rw [moved]
          exact writable
        obtain ⟨n, ret', after, ran, later⟩ := @ih (len - alen) (by omega) { ({ state with
            mm := (userMemCheck state.mm base (min iobufSize len) false).2 } : UserState F N).moved slot alen with
            handed := state.handed ++ placed (state.table.file slot).pos (fun index => state.bytes (base.toNat + index)) alen }
          (copied + alen) (base + BitVec.ofNat 64 alen) (ready.move slot alen) ((fd2file_move _ slot alen fd).trans found)
          writable'
        refine ⟨alen + n, ret', after, ?_, ?_⟩
        · rw [← Nat.add_assoc]
          exact ran
        · have between := later.between
          simp only [UserState.moved, Between, accessible_check] at between
          exact {
            table := by
              rw [later.table]
              exact FileState.move_move ..
            bytes := later.bytes
            handed := by
              rw [later.handed, behind_exact here, placed_append]
              simp only [UserState.moved, isNext, List.append_assoc, Nat.add_assoc]
            fits := by
              have laterFits := later.fits
              omega
            between := .cons low here between
            failure := fun none => by omega }
    · have denied := Bool.eq_false_of_not_eq_true accepted
      simp only [copyFromUser, denied, Bool.false_eq_true, if_false]
      refine ⟨0, -eInval, _, rfl, ?_⟩
      exact {
        table := (FileState.move_zero _ _).symm
        bytes := rfl
        handed := (List.append_nil _).symm
        fits := Nat.zero_le len
        between := Or.inl rfl
        failure := fun _ => by rw [writeError, if_neg accepted] }

/-- A write hands the inode a first part of the bytes of the user, at consecutive positions
from the old one on. The position moves by the length of this part, which is returned
unless it is 0; then 0 or the error of the first call is returned. -/
theorem sysfile_write_exact (ready : Ready files state.table) :
    ∃ n ret after, sysfileWrite io memory files fd state base len = some (ret, after) ∧ n ≤ len ∧ n < 2 ^ 31 ∧
      after.handed = state.handed ++ placed (positionOf files fd state.table)
        (fun index => state.bytes (base.toNat + index)) n ∧
      after.bytes = state.bytes ∧
      positionOf files fd after.table = positionOf files fd state.table + n ∧
      ret = if n ≠ 0 then (n : Int)
        else if len = 0 then 0
        else if fileTestfd files fd state.table false true = some false then -eInval
        else if memory = false then -eNoMem
        else writeError io state (positionOf files fd state.table) base len := by
  have isEmpty : ∀ data, state.handed = state.handed ++ placed (positionOf files fd state.table) data 0 := fun _ =>
    (List.append_nil _).symm
  unfold sysfileWrite
  by_cases nothing : len = 0
  · refine ⟨0, 0, state, if_pos nothing, Nat.zero_le _, Nat.two_pow_pos 31, isEmpty _, rfl, (Int.add_zero _).symm, ?_⟩
    rw [if_neg (not_not.mpr rfl), if_pos nothing]
  rw [if_neg nothing]
  rcases fileTestfd_cases ready fd false true with denied | ⟨slot, found, permitted, _, writable⟩
  · rw [denied]
    refine ⟨0, -eInval, state, rfl, Nat.zero_le _, Nat.two_pow_pos 31, isEmpty _, rfl, (Int.add_zero _).symm, ?_⟩
    rw [if_neg (not_not.mpr rfl), if_neg nothing, if_pos rfl]
  rw [permitted]
  have allowed : ¬ some true = some false := by decide
  by_cases noMemory : memory = false
  · refine ⟨0, -eNoMem, state, ?_, Nat.zero_le _, Nat.two_pow_pos 31, isEmpty _, rfl, (Int.add_zero _).symm, ?_⟩
    · simp only [Option.bind_eq_bind, Option.bind_some, Bool.true_eq_false, if_false, if_pos noMemory]
    · rw [if_neg (not_not.mpr rfl), if_neg nothing, if_neg allowed, if_pos noMemory]
  obtain rfl := (fd2file_slot found).1
  obtain ⟨n, ret, after, ran, wrote⟩ :=
    @writeLoop_exact _ _ _ _ io files fd state (files, fd.toNat) len 0 base ready found (writable rfl)
  rw [Nat.zero_add] at ran
  have small : n < 2 ^ 31 := by
    have apart := accessible_small state.mm
    rcases wrote.between with rfl | ⟨low, high⟩
    · exact Nat.two_pow_pos 31
    · omega
  refine ⟨n, if n ≠ 0 then (n : Int) else ret, after, ?_, wrote.fits, small, wrote.handed, wrote.bytes, ?_, ?_⟩
  · simp only [Option.bind_eq_bind, Option.bind_some, Bool.true_eq_false, if_false, if_neg noMemory, ran,
      wrote.between.toInt]
  · rw [positionOf, wrote.table, FileState.move_pos, positionOf]
  · by_cases none : n = 0
    · rw [if_neg (not_not.mpr none), if_neg (not_not.mpr none), if_neg nothing, if_neg allowed, if_neg noMemory,
        wrote.failure none]
      rfl
    · rw [if_pos none, if_pos none]

/-- A write of a page from kernel memory. -/
theorem sysfile_write_exact_page :
    ∃ n ret after, sysfileWrite wholeIo true () 0 (oneOpen none) kernBase 4096 = some (ret, after) ∧ n ≤ 4096 ∧
      n < 2 ^ 31 ∧
      after.handed = (oneOpen none).handed ++ placed (positionOf () 0 (oneOpen none).table)
        (fun index => (oneOpen none).bytes (kernBase.toNat + index)) n ∧
      after.bytes = (oneOpen none).bytes ∧
      positionOf () 0 after.table = positionOf () 0 (oneOpen none).table + n ∧
      ret = if n ≠ 0 then (n : Int)
        else if 4096 = 0 then 0
        else if fileTestfd () 0 (oneOpen none).table false true = some false then -eInval
        else if true = false then -eNoMem
        else writeError wholeIo (oneOpen none) (positionOf () 0 (oneOpen none).table) kernBase 4096 :=
  sysfile_write_exact (oneOpen_ready none)

end Ucore.Fs
