import Ucore.Fs.Disk0
import Ucore.Library.Sections
import Ucore.Libs.Memory

/-!
# Parts of blocks

`kern/fs/sfs/sfs_io.c` reads and writes blocks, and parts of blocks through `sfs_buffer`, which
all calls share. Every function does its work between `lock_sfs_io` and `unlock_sfs_io`; here are
the statements in between, one step for each transfer, copy and round of a loop.

The device is bytes, and `device` gives the result of each call of `dop_io`: a transfer is
correct, or it fails and has no effect. The memory that a call is given is its own, and `buf` is
its content from the address of the argument on.
-/

namespace Ucore.SfsIo

open Disk0 Sections Vfs

/-- `SFS_BLKSIZE` -/
def sfsBlksize : Nat := 4096

/-- `SFS_MAX_NBLKS` -/
def sfsMaxNblks : Nat := 1024 * 512

/-- The content of the device, `sfs_buffer`, and the number of calls of `dop_io`. -/
structure Shared where
  storage : Bytes
  buffer : Bytes
  calls : Nat

-- The result of each call of the device, and `super.blocks`.
variable (device : Nat → Int) (blocks : Nat)

/-- `dop_io`, with the memory of the request. -/
def dopIo (shared : Shared) (bytes : Bytes) (iob : Iobuf) (write : Bool) : Int × Bytes × Shared :=
  let shared' := { shared with calls := shared.calls + 1 }
  if device shared.calls ≠ 0 then (device shared.calls, bytes, shared')
  else if write then
    (0, bytes, { shared' with storage := copied shared.storage bytes iob.ioOffset.toNat iob.ioBase iob.ioResid })
  else (0, copied bytes shared.storage iob.ioBase iob.ioOffset.toNat iob.ioResid, shared')

/-- `sfs_rwblock_nolock`, with the memory of the transfer; the offset of a block is computed in 32 bits. `none` is
a failed assertion, here and below. -/
def sfsRwblockNolock (shared : Shared) (bytes : Bytes) (base blkno : Nat) (write check : Bool) :
    Option (Int × Bytes × Shared) :=
  if (blkno ≠ 0 ∨ check = false) ∧ blkno < blocks then
    some (dopIo device shared bytes (iobufInit base sfsBlksize (blkno * sfsBlksize % 2 ^ 32 : Nat)) write)
  else none

/-- The functions with their arguments but the memory. The variable `ret` of `sfs_clear_block` is not initialized;
`ret` is what it holds. -/
inductive Call where
  | sfsRbuf (len blkno : Nat) (offset : Int)
  | sfsWbuf (len blkno : Nat) (offset : Int)
  | sfsRblock (blkno nblks : Nat)
  | sfsWblock (blkno nblks : Nat)
  | sfsClearBlock (ret : Int) (blkno nblks : Nat)

/-- A call with the memory that it is given. -/
structure Request where
  call : Call
  buf : Bytes

/-- Where a call is: in front of a transfer or a copy, at the head of a loop, or at the end. -/
inductive Frame where
  | rbufRead (len blkno offset : Nat)
  | rbufCopy (len offset : Nat)
  | wbufRead (len blkno offset : Nat)
  | wbufCopy (len blkno offset : Nat)
  | wbufWrite (blkno : Nat)
  | rwblock (base blkno nblks : Nat) (write : Bool)
  | clearSet (ret : Int) (blkno nblks : Nat)
  | clearLoop (ret : Int) (blkno nblks : Nat)
  | unlock (ret : Int)

/-- A call on its way, with its memory. -/
structure Local where
  frame : Frame
  buf : Bytes

/-- What a call returns, and what it leaves in its memory. -/
structure Answer where
  ret : Int
  buf : Bytes

/-- The assertions of `sfs_rbuf` and `sfs_wbuf`, which add in 64 bits. -/
def OffsetAsserts (len : Nat) (offset : Int) : Prop :=
  0 ≤ offset ∧ offset < sfsBlksize ∧ (offset.toNat + len) % 2 ^ 64 ≤ sfsBlksize

instance (len : Nat) (offset : Int) : Decidable (OffsetAsserts len offset) := inferInstanceAs (Decidable (_ ∧ _ ∧ _))

/-- The assertions in front of `lock_sfs_io`. -/
def Call.Asserts : Call → Prop
  | .sfsRbuf len _ offset | .sfsWbuf len _ offset => OffsetAsserts len offset
  | _ => True

instance (call : Call) : Decidable call.Asserts := by
  cases call <;> simp only [Call.Asserts] <;> infer_instance

/-- Where the function begins behind `lock_sfs_io`. -/
def Call.enter : Call → Frame
  | .sfsRbuf len blkno offset => .rbufRead len blkno offset.toNat
  | .sfsWbuf len blkno offset => .wbufRead len blkno offset.toNat
  | .sfsRblock blkno nblks => .rwblock 0 blkno nblks false
  | .sfsWblock blkno nblks => .rwblock 0 blkno nblks true
  | .sfsClearBlock ret blkno nblks => .clearSet ret blkno nblks

/-- The next statement. -/
def frameStep (buf : Bytes) (shared : Shared) : Frame → Option (Local × Shared)
  | .rbufRead len blkno offset => do
      let (ret, buffer, shared) ← sfsRwblockNolock device blocks shared shared.buffer 0 blkno false true
      some (⟨if ret = 0 then .rbufCopy len offset else .unlock ret, buf⟩, { shared with buffer })
  | .rbufCopy len offset =>
      some (⟨.unlock 0, memcpy buf 0 (fun index => shared.buffer (offset + index)) len⟩, shared)
  | .wbufRead len blkno offset => do
      let (ret, buffer, shared) ← sfsRwblockNolock device blocks shared shared.buffer 0 blkno false true
      some (⟨if ret = 0 then .wbufCopy len blkno offset else .unlock ret, buf⟩, { shared with buffer })
  | .wbufCopy len blkno offset =>
      some (⟨.wbufWrite blkno, buf⟩, { shared with buffer := memcpy shared.buffer offset buf len })
  | .wbufWrite blkno => do
      let (ret, buffer, shared) ← sfsRwblockNolock device blocks shared shared.buffer 0 blkno true true
      some (⟨.unlock ret, buf⟩, { shared with buffer })
  | .rwblock base blkno nblks write =>
      if nblks ≠ 0 then do
        let (ret, buf, shared) ← sfsRwblockNolock device blocks shared buf base blkno write true
        if ret ≠ 0 then some (⟨.unlock ret, buf⟩, shared)
        else some (⟨.rwblock (base + sfsBlksize) ((blkno + 1) % 2 ^ 32) (nblks - 1) write, buf⟩, shared)
      else some (⟨.unlock 0, buf⟩, shared)
  | .clearSet ret blkno nblks =>
      some (⟨.clearLoop ret blkno nblks, buf⟩, { shared with buffer := memcpy shared.buffer 0 (fun _ => 0) sfsBlksize })
  | .clearLoop ret blkno nblks =>
      if nblks ≠ 0 then do
        let (ret, buffer, shared) ← sfsRwblockNolock device blocks shared shared.buffer 0 blkno true true
        if ret ≠ 0 then some (⟨.unlock ret, buf⟩, { shared with buffer })
        else some (⟨.clearLoop ret ((blkno + 1) % 2 ^ 32) (nblks - 1), buf⟩, { shared with buffer })
      else some (⟨.unlock ret, buf⟩, shared)
  | .unlock _ => none

/-- The code between `lock_sfs_io` and `unlock_sfs_io`. -/
def ioBody : Body Request Local Shared Answer where
  enter request := ⟨request.call.enter, request.buf⟩
  step here shared := frameStep device blocks here.buf shared here.frame
  leave here :=
    match here.frame with
    | .unlock ret => some ⟨ret, here.buf⟩
    | _ => none

/-! ## What the calls do -/

/-- So many transfers in a row are correct; then all are done, or the next one fails with `ret`. -/
def StopsAfter (calls nblks done : Nat) (ret : Int) : Prop :=
  (∀ index < done, device (calls + index) = 0) ∧
    (done = nblks ∧ ret = 0 ∨ done < nblks ∧ ret = device (calls + done) ∧ ret ≠ 0)

/-- The bytes of a block. -/
def address (blkno : Nat) : Nat := blkno * sfsBlksize

/-- What a call returns, leaves in its memory and leaves on the device. -/
def Effect (request : Request) (before : Shared) (answer : Answer) (after : Shared) : Prop :=
  match request.call with
  | .sfsRbuf len blkno offset => after.storage = before.storage ∧
      (∃ done, StopsAfter device before.calls 1 done answer.ret) ∧
      answer.buf = if answer.ret = 0 then copied request.buf before.storage 0 (address blkno + offset.toNat) len
        else request.buf
  | .sfsWbuf len blkno offset => answer.buf = request.buf ∧
      (∃ done, StopsAfter device before.calls 2 done answer.ret) ∧
      after.storage = if answer.ret = 0 then copied before.storage request.buf (address blkno + offset.toNat) 0 len
        else before.storage
  | .sfsRblock blkno nblks => after.storage = before.storage ∧
      ∃ done, StopsAfter device before.calls nblks done answer.ret ∧
        answer.buf = copied request.buf before.storage 0 (address blkno) (done * sfsBlksize)
  | .sfsWblock blkno nblks => answer.buf = request.buf ∧
      ∃ done, StopsAfter device before.calls nblks done answer.ret ∧
        after.storage = copied before.storage request.buf (address blkno) 0 (done * sfsBlksize)
  | .sfsClearBlock ret blkno nblks => answer.buf = request.buf ∧
      ∃ done, (nblks = 0 ∧ done = 0 ∧ answer.ret = ret ∨ nblks ≠ 0 ∧ StopsAfter device before.calls nblks done answer.ret) ∧
        after.storage = copied before.storage (fun _ => 0) (address blkno) 0 (done * sfsBlksize)

/-- The calls of the interface: the range of `sfs_rbuf` and `sfs_wbuf` lies in the block, and the first block is one of the file system. -/
def Call.Legal (blocks : Nat) : Call → Prop
  | .sfsRbuf len blkno offset | .sfsWbuf len blkno offset =>
      (0 ≤ offset ∧ offset < sfsBlksize ∧ offset + len ≤ sfsBlksize) ∧ blkno ≠ 0 ∧ blkno < blocks
  | .sfsRblock blkno _ | .sfsWblock blkno _ | .sfsClearBlock _ blkno _ => blkno ≠ 0 ∧ blkno < blocks

instance (call : Call) : Decidable (call.Legal blocks) := by
  cases call <;> simp only [Call.Legal] <;> infer_instance

variable {device} {blocks} {request : Request} {before shared after : Shared} {here there : Local} {answer : Answer}
  {buf bytes left : Bytes} {base blkno len offset nblks done rest : Nat} {ret : Int} {write check : Bool}

/-- The device and the memory of a transfer. -/
def Shared.disk (shared : Shared) (bytes : Bytes) : DiskState := ⟨shared.storage, shared.buffer, bytes⟩

/-- The bytes of a transfer with this result. -/
def transferLen (ret : Int) : Nat := if ret = 0 then sfsBlksize else 0

theorem transferLen_le (ret : Int) : transferLen ret ≤ sfsBlksize := by
  rw [transferLen]
  split
  · exact Nat.le_refl sfsBlksize
  · exact Nat.zero_le sfsBlksize

/-- The numbers of the blocks and their addresses have less than 32 bits. -/
theorem address_narrow (few : blocks ≤ sfsMaxNblks) (inside : blkno < blocks) :
    blkno * sfsBlksize % 2 ^ 32 = address blkno ∧ (blkno + 1) % 2 ^ 32 = blkno + 1 := by
  simp only [address, sfsBlksize, sfsMaxNblks] at *
  omega

theorem dopIo_exact {iob : Iobuf} (isAddress : iob.ioOffset = (address blkno : Nat)) (isBlock : iob.ioResid = sfsBlksize)
    (called : dopIo device shared bytes iob write = (ret, left, after)) :
    ret = device shared.calls ∧ after.calls = shared.calls + 1 ∧ after.buffer = shared.buffer ∧
      Transferred write (shared.disk bytes) (after.disk left) iob.ioBase (address blkno) (transferLen ret) := by
  simp only [dopIo, isAddress, isBlock, Int.toNat_natCast] at called
  split at called
  · rename_i failed
    cases called
    refine ⟨rfl, rfl, rfl, ?_⟩
    rw [transferLen, if_neg failed]
    exact .refl _
  · rename_i correct
    have isZero : device shared.calls = 0 := not_not.mp correct
    rw [isZero]
    cases write with
    | false =>
      cases called
      exact ⟨rfl, rfl, rfl, rfl, rfl⟩
    | true =>
      cases called
      exact ⟨rfl, rfl, rfl, rfl, rfl⟩

/-- On a block of the disk, `disk0_io` is such a device. -/
theorem disk0Io_dopIo {dev : IdeDevice} (diskBuffer : Bytes) (inside : blkno < dev.dBlocks)
    (correct : device shared.calls = 0) :
    ∃ rest disk, disk0Io dev write (iobufInit base sfsBlksize (address blkno : Nat)) ⟨shared.storage, diskBuffer, bytes⟩ =
        some (0, rest, disk) ∧
      dopIo device shared bytes (iobufInit base sfsBlksize (address blkno : Nat)) write =
        (0, disk.bytes, ⟨disk.image, shared.buffer, shared.calls + 1⟩) := by
  have aligned : BlockAligned (iobufInit base sfsBlksize (address blkno : Nat)) := by
    refine ⟨?_, Nat.mod_self sfsBlksize⟩
    apply (Int.ofNat_tmod (blkno * disk0Blksize) disk0Blksize).symm.trans
    exact congrArg Nat.cast (Nat.mul_mod_left blkno disk0Blksize)
  have within : Within dev (iobufInit base sfsBlksize (address blkno : Nat)) := by
    simp only [Within, iobufInit, address, sfsBlksize, disk0Blksize]
    omega
  obtain ⟨rest, disk, ran, _, transferred⟩ := disk0Io_inside aligned within
  refine ⟨rest, disk, ran, ?_⟩
  rw [dopIo, if_neg (not_not.mpr correct)]
  cases write with
  | false =>
    obtain ⟨isImage, isBytes⟩ := transferred
    rw [isImage, isBytes]
    rfl
  | true =>
    obtain ⟨isBytes, isImage⟩ := transferred
    rw [isImage, isBytes]
    rfl

/-- A transfer of a block, all of it or nothing. -/
theorem sfsRwblockNolock_exact (few : blocks ≤ sfsMaxNblks)
    (called : sfsRwblockNolock device blocks shared bytes base blkno write check = some (ret, left, after)) :
    (blkno + 1) % 2 ^ 32 = blkno + 1 ∧ ret = device shared.calls ∧ after.calls = shared.calls + 1 ∧
      after.buffer = shared.buffer ∧
      Transferred write (shared.disk bytes) (after.disk left) base (address blkno) (transferLen ret) := by
  rw [sfsRwblockNolock] at called
  split at called
  · rename_i asserted
    obtain ⟨isAddress, next⟩ := address_narrow few asserted.2
    exact ⟨next, dopIo_exact (congrArg Nat.cast isAddress) rfl (Option.some.inj called)⟩
  · cases called

/-- The transfer of a step and what the step makes of it. -/
theorem transfer_inv {further : Int × Bytes × Shared → Option (Local × Shared)}
    (taken : (sfsRwblockNolock device blocks shared bytes base blkno write check).bind further = some (there, after)) :
    ∃ ret left middle, sfsRwblockNolock device blocks shared bytes base blkno write check = some (ret, left, middle) ∧
      further (ret, left, middle) = some (there, after) := by
  obtain ⟨⟨ret, left, middle⟩, called, continues⟩ := Option.bind_eq_some_iff.mp taken
  exact ⟨ret, left, middle, called, continues⟩

theorem StopsAfter.start (device : Nat → Int) (calls : Nat) : StopsAfter device calls 0 0 0 :=
  ⟨fun _ below => absurd below (Nat.not_lt_zero _), Or.inl ⟨rfl, rfl⟩⟩

/-- One more correct transfer. -/
theorem StopsAfter.next {calls : Nat} (correct : StopsAfter device calls done done 0) (isCorrect : device (calls + done) = 0) :
    StopsAfter device calls (done + 1) (done + 1) 0 := by
  refine ⟨fun index below => ?_, Or.inl ⟨rfl, rfl⟩⟩
  by_cases isLast : index = done
  · exact isLast ▸ isCorrect
  · exact correct.1 index (by omega)

/-- A transfer that fails. -/
theorem StopsAfter.fails {calls : Nat} (correct : StopsAfter device calls done done 0) (more : done < nblks)
    (fails : device (calls + done) ≠ 0) : StopsAfter device calls nblks done (device (calls + done)) :=
  ⟨correct.1, Or.inr ⟨more, rfl, fails⟩⟩

/-! ## Reading and writing a part of a block -/

/-- Where `sfs_rbuf` is, and what holds there. -/
inductive RbufAt (device : Nat → Int) (buf : Bytes) (before : Shared) (len blkno offset : Nat) : Local → Shared → Prop where
  | read : RbufAt device buf before len blkno offset ⟨.rbufRead len blkno offset, buf⟩ before
  | copy {shared : Shared} {buffer : Bytes} (correct : StopsAfter device before.calls 1 1 0)
      (unchanged : shared.storage = before.storage)
      (holds : shared.buffer = copied buffer before.storage 0 (address blkno) sfsBlksize) :
      RbufAt device buf before len blkno offset ⟨.rbufCopy len offset, buf⟩ shared
  | done {shared : Shared} (correct : StopsAfter device before.calls 1 1 0) (unchanged : shared.storage = before.storage) :
      RbufAt device buf before len blkno offset
        ⟨.unlock 0, copied buf before.storage 0 (address blkno + offset) len⟩ shared
  | failed {shared : Shared} {ret : Int} (stops : StopsAfter device before.calls 1 0 ret) (fails : ret ≠ 0)
      (unchanged : shared.storage = before.storage) :
      RbufAt device buf before len blkno offset ⟨.unlock ret, buf⟩ shared

theorem rbufAt_step (few : blocks ≤ sfsMaxNblks) (fits : offset + len ≤ sfsBlksize)
    (rbuf : RbufAt device buf before len blkno offset here shared)
    (taken : (ioBody device blocks).step here shared = some (there, after)) :
    RbufAt device buf before len blkno offset there after := by
  cases rbuf with
  | read =>
    obtain ⟨ret, buffer, middle, called, continues⟩ := transfer_inv taken
    obtain ⟨_, isRet, _, _, unchanged, isBuffer⟩ := sfsRwblockNolock_exact few called
    cases continues
    have stops := StopsAfter.start device before.calls
    by_cases fails : ret = 0
    · rw [if_pos fails]
      rw [transferLen, if_pos fails] at isBuffer
      exact .copy (stops.next (isRet ▸ fails)) unchanged isBuffer
    · rw [if_neg fails]
      rw [isRet] at fails ⊢
      exact .failed (stops.fails Nat.one_pos fails) fails unchanged
  | copy correct unchanged holds =>
    cases taken
    rw [holds, memcpy_copied_part _ _ _ fits]
    exact .done correct unchanged
  | done => cases taken
  | failed => cases taken

/-- Where `sfs_wbuf` is, and what holds there. -/
inductive WbufAt (device : Nat → Int) (buf : Bytes) (before : Shared) (len blkno offset : Nat) : Local → Shared → Prop where
  | read : WbufAt device buf before len blkno offset ⟨.wbufRead len blkno offset, buf⟩ before
  | copy {shared : Shared} {buffer : Bytes} (correct : StopsAfter device before.calls 1 1 0)
      (calls : shared.calls = before.calls + 1) (unchanged : shared.storage = before.storage)
      (holds : shared.buffer = copied buffer before.storage 0 (address blkno) sfsBlksize) :
      WbufAt device buf before len blkno offset ⟨.wbufCopy len blkno offset, buf⟩ shared
  | write {shared : Shared} {buffer : Bytes} (correct : StopsAfter device before.calls 1 1 0)
      (calls : shared.calls = before.calls + 1) (unchanged : shared.storage = before.storage)
      (holds : shared.buffer = memcpy (copied buffer before.storage 0 (address blkno) sfsBlksize) offset buf len) :
      WbufAt device buf before len blkno offset ⟨.wbufWrite blkno, buf⟩ shared
  | done {shared : Shared} (correct : StopsAfter device before.calls 2 2 0)
      (changed : shared.storage = copied before.storage buf (address blkno + offset) 0 len) :
      WbufAt device buf before len blkno offset ⟨.unlock 0, buf⟩ shared
  | failed {shared : Shared} {done : Nat} {ret : Int} (stops : StopsAfter device before.calls 2 done ret) (fails : ret ≠ 0)
      (unchanged : shared.storage = before.storage) : WbufAt device buf before len blkno offset ⟨.unlock ret, buf⟩ shared

theorem wbufAt_step (few : blocks ≤ sfsMaxNblks) (fits : offset + len ≤ sfsBlksize)
    (wbuf : WbufAt device buf before len blkno offset here shared)
    (taken : (ioBody device blocks).step here shared = some (there, after)) :
    WbufAt device buf before len blkno offset there after := by
  cases wbuf with
  | read =>
    obtain ⟨ret, buffer, middle, called, continues⟩ := transfer_inv taken
    obtain ⟨_, isRet, calls, _, unchanged, isBuffer⟩ := sfsRwblockNolock_exact few called
    cases continues
    have stops := StopsAfter.start device before.calls
    by_cases fails : ret = 0
    · rw [if_pos fails]
      rw [transferLen, if_pos fails] at isBuffer
      exact .copy (stops.next (isRet ▸ fails)) calls unchanged isBuffer
    · rw [if_neg fails]
      rw [isRet] at fails ⊢
      exact .failed (stops.fails Nat.two_pos fails) fails unchanged
  | copy correct calls unchanged holds =>
    cases taken
    exact .write correct calls unchanged (congrArg (memcpy · offset buf len) holds)
  | write correct calls unchanged holds =>
    obtain ⟨ret, buffer, middle, called, continues⟩ := transfer_inv taken
    obtain ⟨_, isRet, _, _, _, isStorage⟩ := sfsRwblockNolock_exact few called
    cases continues
    have written : middle.storage = copied shared.storage shared.buffer (address blkno) 0 (transferLen ret) := isStorage
    rw [calls] at isRet
    by_cases fails : ret = 0
    · have patched : copied shared.storage shared.buffer (address blkno) 0 (transferLen ret) =
          copied before.storage buf (address blkno + offset) 0 len := by
        rw [unchanged, holds, transferLen, if_pos fails]
        exact copied_memcpy_part _ _ _ fits
      rw [fails]
      exact .done (correct.next (isRet ▸ fails)) (written.trans patched)
    · have nothing : copied shared.storage shared.buffer (address blkno) 0 (transferLen ret) = shared.storage := by
        rw [transferLen, if_neg fails]
        exact copied_none ..
      rw [isRet] at fails ⊢
      exact .failed (correct.fails Nat.one_lt_two fails) fails ((written.trans nothing).trans unchanged)
  | done => cases taken
  | failed => cases taken

/-! ## Loops over blocks -/

theorem address_add (blkno done : Nat) : address (blkno + done) = address blkno + done * sfsBlksize := Nat.add_mul ..

/-- Where `sfs_rwblock` is, and what holds there: so many blocks are done. -/
inductive RwblockAt (device : Nat → Int) (write : Bool) (buf : Bytes) (before : Shared) (blkno nblks : Nat) :
    Local → Shared → Prop where
  | head {done rest : Nat} {bytes : Bytes} {shared : Shared} (counts : done + rest = nblks)
      (correct : StopsAfter device before.calls done done 0) (calls : shared.calls = before.calls + done)
      (moved : Transferred write (before.disk buf) (shared.disk bytes) 0 (address blkno) (done * sfsBlksize)) :
      RwblockAt device write buf before blkno nblks ⟨.rwblock (done * sfsBlksize) (blkno + done) rest write, bytes⟩ shared
  | done {done : Nat} {ret : Int} {bytes : Bytes} {shared : Shared} (stops : StopsAfter device before.calls nblks done ret)
      (moved : Transferred write (before.disk buf) (shared.disk bytes) 0 (address blkno) (done * sfsBlksize)) :
      RwblockAt device write buf before blkno nblks ⟨.unlock ret, bytes⟩ shared

theorem rwblockAt_start (device : Nat → Int) (write : Bool) (buf : Bytes) (before : Shared) (blkno nblks : Nat) :
    RwblockAt device write buf before blkno nblks ⟨.rwblock 0 blkno nblks write, buf⟩ before := by
  have moved : Transferred write (before.disk buf) (before.disk buf) 0 (address blkno) (0 * sfsBlksize) := by
    rw [Nat.zero_mul]
    exact .refl _
  have head := RwblockAt.head (Nat.zero_add nblks) (.start device before.calls) (Nat.add_zero before.calls).symm moved
  rwa [Nat.zero_mul] at head

theorem rwblockAt_step (few : blocks ≤ sfsMaxNblks) (rwblock : RwblockAt device write buf before blkno nblks here shared)
    (taken : (ioBody device blocks).step here shared = some (there, after)) :
    RwblockAt device write buf before blkno nblks there after := by
  cases rwblock with
  | @head done rest bytes _ counts correct calls moved =>
    simp only [ioBody, frameStep] at taken
    by_cases more : rest ≠ 0
    · rw [if_pos more] at taken
      obtain ⟨ret, left, middle, called, continues⟩ := transfer_inv taken
      obtain ⟨isNext, isRet, called, _, movedToo⟩ := sfsRwblockNolock_exact few called
      have movedOn : Transferred write (before.disk buf) (middle.disk left) 0 (address blkno)
          (done * sfsBlksize + transferLen ret) := by
        apply moved.trans
        rw [Nat.zero_add, ← address_add]
        exact movedToo
      rw [calls] at isRet called
      by_cases fails : ret = 0
      · rw [if_neg (not_not.mpr fails)] at continues
        cases continues
        rw [transferLen, if_pos fails, ← Nat.succ_mul] at movedOn
        rw [isNext, ← Nat.succ_mul]
        exact .head (by omega) (correct.next (isRet ▸ fails)) called movedOn
      · rw [if_pos fails] at continues
        cases continues
        rw [transferLen, if_neg fails, Nat.add_zero] at movedOn
        rw [isRet] at fails ⊢
        exact .done (correct.fails (by omega) fails) movedOn
    · rw [if_neg more] at taken
      cases taken
      have all : done = nblks := by omega
      exact .done (all ▸ correct) moved
  | done => cases taken

/-- Where `sfs_clear_block` is, and what holds there; `ret` is not initialized before the first transfer. -/
inductive ClearAt (device : Nat → Int) (buf : Bytes) (before : Shared) (garbage : Int) (blkno nblks : Nat) :
    Local → Shared → Prop where
  | set : ClearAt device buf before garbage blkno nblks ⟨.clearSet garbage blkno nblks, buf⟩ before
  | head {done rest : Nat} {shared : Shared} (counts : done + rest = nblks)
      (correct : StopsAfter device before.calls done done 0) (calls : shared.calls = before.calls + done)
      (zeros : ∀ index < sfsBlksize, shared.buffer index = 0)
      (cleared : shared.storage = copied before.storage (fun _ => 0) (address blkno) 0 (done * sfsBlksize)) :
      ClearAt device buf before garbage blkno nblks
        ⟨.clearLoop (if done = 0 then garbage else 0) (blkno + done) rest, buf⟩ shared
  | done {done : Nat} {ret : Int} {shared : Shared}
      (stops : nblks = 0 ∧ done = 0 ∧ ret = garbage ∨ nblks ≠ 0 ∧ StopsAfter device before.calls nblks done ret)
      (cleared : shared.storage = copied before.storage (fun _ => 0) (address blkno) 0 (done * sfsBlksize)) :
      ClearAt device buf before garbage blkno nblks ⟨.unlock ret, buf⟩ shared

theorem clearAt_step {garbage : Int} (few : blocks ≤ sfsMaxNblks)
    (clear : ClearAt device buf before garbage blkno nblks here shared)
    (taken : (ioBody device blocks).step here shared = some (there, after)) :
    ClearAt device buf before garbage blkno nblks there after := by
  cases clear with
  | set =>
    cases taken
    apply @ClearAt.head device buf before garbage blkno nblks 0 nblks
    case counts => exact Nat.zero_add nblks
    case correct => exact .start device before.calls
    case calls => exact (Nat.add_zero before.calls).symm
    case zeros =>
      intro index below
      simp only [memcpy_exact]
      rw [if_pos (by omega)]
    case cleared => rw [Nat.zero_mul, copied_none]
  | @head done rest _ counts correct calls zeros cleared =>
    simp only [ioBody, frameStep] at taken
    by_cases more : rest ≠ 0
    · rw [if_pos more] at taken
      obtain ⟨ret, left, middle, called, continues⟩ := transfer_inv taken
      obtain ⟨isNext, isRet, called, _, isLeft, written⟩ := sfsRwblockNolock_exact few called
      have clearedOn : middle.storage =
          copied before.storage (fun _ => 0) (address blkno) 0 (done * sfsBlksize + transferLen ret) := by
        rw [← copied_copied, ← cleared, ← address_add]
        apply Eq.trans written
        apply copied_congr
        intro index below
        apply (congrArg shared.buffer (Nat.zero_add index)).trans
        exact zeros index (Nat.lt_of_lt_of_le below (transferLen_le ret))
      have isBuffer : left = shared.buffer := isLeft
      rw [calls] at isRet called
      by_cases fails : ret = 0
      · rw [if_neg (not_not.mpr fails)] at continues
        cases continues
        rw [transferLen, if_pos fails, ← Nat.succ_mul] at clearedOn
        rw [isNext, fails, isBuffer]
        exact .head (by omega) (correct.next (isRet ▸ fails)) called zeros clearedOn
      · rw [if_pos fails] at continues
        cases continues
        rw [transferLen, if_neg fails, Nat.add_zero] at clearedOn
        rw [isRet] at fails ⊢
        exact .done (Or.inr ⟨by omega, correct.fails (by omega) fails⟩) clearedOn
    · rw [if_neg more] at taken
      cases taken
      refine .done ?_ cleared
      by_cases nothing : done = 0
      · rw [if_pos nothing]
        exact Or.inl ⟨by omega, nothing, rfl⟩
      · have all : done = nblks := by omega
        rw [if_neg nothing]
        exact Or.inr ⟨by omega, all ▸ correct⟩
  | done => cases taken

/-! ## Whole calls -/

theorem RbufAt.effect {offset : Int} (rbuf : RbufAt device buf before len blkno offset.toNat here after)
    (ended : (ioBody device blocks).leave here = some answer) :
    Effect device ⟨.sfsRbuf len blkno offset, buf⟩ before answer after := by
  cases rbuf with
  | read => cases ended
  | copy => cases ended
  | done correct unchanged =>
    cases ended
    exact ⟨unchanged, ⟨1, correct⟩, (if_pos rfl).symm⟩
  | failed stops fails unchanged =>
    cases ended
    exact ⟨unchanged, ⟨0, stops⟩, (if_neg fails).symm⟩

theorem WbufAt.effect {offset : Int} (wbuf : WbufAt device buf before len blkno offset.toNat here after)
    (ended : (ioBody device blocks).leave here = some answer) :
    Effect device ⟨.sfsWbuf len blkno offset, buf⟩ before answer after := by
  cases wbuf with
  | read => cases ended
  | copy => cases ended
  | write => cases ended
  | done correct changed =>
    cases ended
    exact ⟨rfl, ⟨2, correct⟩, changed.trans (if_pos rfl).symm⟩
  | failed stops fails unchanged =>
    cases ended
    exact ⟨rfl, ⟨_, stops⟩, unchanged.trans (if_neg fails).symm⟩

theorem RwblockAt.effect (rwblock : RwblockAt device write buf before blkno nblks here after)
    (ended : (ioBody device blocks).leave here = some answer) :
    Effect device ⟨if write then .sfsWblock blkno nblks else .sfsRblock blkno nblks, buf⟩ before answer after := by
  cases rwblock with
  | head => cases ended
  | @done done ret _ _ stops moved =>
    cases ended
    cases write with
    | false => exact ⟨moved.1, done, stops, moved.2⟩
    | true => exact ⟨moved.1, done, stops, moved.2⟩

theorem ClearAt.effect {garbage : Int} (clear : ClearAt device buf before garbage blkno nblks here after)
    (ended : (ioBody device blocks).leave here = some answer) :
    Effect device ⟨.sfsClearBlock garbage blkno nblks, buf⟩ before answer after := by
  cases clear with
  | set => cases ended
  | head => cases ended
  | @done done _ _ stops cleared =>
    cases ended
    exact ⟨rfl, done, stops, cleared⟩

/-- A call that nobody interrupts. -/
theorem completes_effect (few : blocks ≤ sfsMaxNblks) (legal : request.call.Legal blocks)
    (completes : (ioBody device blocks).Completes request before answer after) : Effect device request before answer after := by
  obtain ⟨call, buf⟩ := request
  obtain ⟨last, proceeds, ended⟩ := completes
  cases call with
  | sfsRbuf len blkno offset =>
    have fits : offset.toNat + len ≤ sfsBlksize := by
      obtain ⟨⟨_, _, fits⟩, _⟩ := legal
      omega
    exact (proceeds.invariant .read (rbufAt_step few fits)).effect ended
  | sfsWbuf len blkno offset =>
    have fits : offset.toNat + len ≤ sfsBlksize := by
      obtain ⟨⟨_, _, fits⟩, _⟩ := legal
      omega
    exact (proceeds.invariant .read (wbufAt_step few fits)).effect ended
  | sfsRblock blkno nblks =>
    exact (proceeds.invariant (rwblockAt_start ..) (rwblockAt_step few)).effect ended
  | sfsWblock blkno nblks =>
    exact (proceeds.invariant (rwblockAt_start ..) (rwblockAt_step few)).effect ended
  | sfsClearBlock ret blkno nblks => exact (proceeds.invariant .set (clearAt_step few)).effect ended

end Ucore.SfsIo
