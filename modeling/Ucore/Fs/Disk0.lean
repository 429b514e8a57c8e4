import Mathlib.Algebra.Ring.Int.Defs
import Ucore.Fs.Iobuf

/-!
# The disk device

`disk0_io` of `kern/fs/devs/dev_disk0.c` transfers whole blocks through a buffer of four
blocks, with the sectors of `kern/driver/ide.c` and `kern/driver/ramdisk.c`. The numbers of
the blocks have 32 bits, and the checks on a request see nothing else of its offset and its
length. The semaphore of the device is left out.
-/

namespace Ucore.Disk0

open Vfs

/-- `SECTSIZE` -/
def sectsize : Nat := 512

/-- `DISK0_BLKSIZE` -/
def disk0Blksize : Nat := 4096

/-- `DISK0_BUFSIZE` -/
def disk0Bufsize : Nat := 4 * disk0Blksize

/-- `DISK0_BLK_NSECT` -/
def disk0BlkNsect : Nat := disk0Blksize / sectsize

/-- `MAX_NSECS` -/
def maxNsecs : Nat := 128

/-- `MAX_DISK_NSECS` -/
def maxDiskNsecs : Nat := 0x10000000

/-- `ide_devices[DISK0_DEV_NO]`: how long the image is that `ramdisk_init` finds. -/
structure IdeDevice where
  length : Nat

/-- The size of a device in sectors, from a length of 32 bits. -/
def IdeDevice.size (dev : IdeDevice) : Nat := dev.length % 2 ^ 32 / sectsize

/-- The `d_blocks` that `disk0_device_init` stores. -/
def IdeDevice.dBlocks (dev : IdeDevice) : Nat := dev.size / disk0BlkNsect

/-- The memory from the image on, `disk0_buffer` and the memory of the request. -/
structure DiskState where
  image : Bytes
  buffer : Bytes
  bytes : Bytes

variable (dev : IdeDevice)

/-- The assertions of `ide_read_secs` and `ide_write_secs`. -/
def secsAllowed (secno nsecs : Nat) : Prop :=
  nsecs ≤ maxNsecs ∧ secno < maxDiskNsecs ∧ secno + nsecs ≤ maxDiskNsecs

instance (secno nsecs : Nat) : Decidable (secsAllowed secno nsecs) :=
  inferInstanceAs (Decidable (_ ∧ _ ∧ _))

/-- The sectors that `ramdisk_read` and `ramdisk_write` transfer. -/
def ramdiskNsecs (secno nsecs : Nat) : Nat :=
  min nsecs ((dev.size + (2 ^ 64 - secno % 2 ^ 64)) % 2 ^ 64)

/-- `ide_read_secs`; `none` is a failed assertion, here and below. -/
def ideReadSecs (secno nsecs : Nat) (state : DiskState) : Option DiskState :=
  if secsAllowed secno nsecs then
    let source := fun index => state.image (secno * sectsize + index)
    some { state with buffer := memcpy state.buffer 0 source (ramdiskNsecs dev secno nsecs * sectsize) }
  else none

/-- `ide_write_secs` -/
def ideWriteSecs (secno nsecs : Nat) (state : DiskState) : Option DiskState :=
  if secsAllowed secno nsecs then
    let length := ramdiskNsecs dev secno nsecs * sectsize
    some { state with image := memcpy state.image (secno * sectsize) state.buffer length }
  else none

/-- `disk0_read_blks_nolock`; `ide_read_secs` returns no error. -/
def disk0ReadBlksNolock (blkno nblks : Nat) (state : DiskState) : Option DiskState :=
  ideReadSecs dev (blkno * disk0BlkNsect % 2 ^ 32) (nblks * disk0BlkNsect % 2 ^ 32) state

/-- `disk0_write_blks_nolock` -/
def disk0WriteBlksNolock (blkno nblks : Nat) (state : DiskState) : Option DiskState :=
  ideWriteSecs dev (blkno * disk0BlkNsect % 2 ^ 32) (nblks * disk0BlkNsect % 2 ^ 32) state

/-- A round of the loop of `disk0_io` for a write, with the number of bytes copied. -/
def writeRound (iob : Iobuf) (blkno resid : Nat) (state : DiskState) : Option (Nat × Iobuf × DiskState) := do
  let moved ← iobufMove iob state.bytes state.buffer disk0Bufsize false
  if moved.copied ≠ 0 ∧ moved.copied ≤ resid ∧ moved.copied % disk0Blksize = 0 then do
    let state ← disk0WriteBlksNolock dev blkno (moved.copied / disk0Blksize)
      { state with buffer := moved.data, bytes := moved.bytes }
    some (moved.copied, moved.iob, state)
  else none

/-- A round of the loop for a read. -/
def readRound (iob : Iobuf) (blkno resid : Nat) (state : DiskState) : Option (Nat × Iobuf × DiskState) := do
  let alen := if resid < disk0Bufsize then resid else disk0Bufsize
  let state ← disk0ReadBlksNolock dev blkno (alen / disk0Blksize) state
  let moved ← iobufMove iob state.bytes state.buffer alen true
  if moved.copied = alen ∧ moved.copied % disk0Blksize = 0 then
    some (moved.copied, moved.iob, { state with buffer := moved.data, bytes := moved.bytes })
  else none

/-- The loop of `disk0_io`. The bound on its rounds must be shown to suffice. -/
def disk0Loop (write : Bool) : Nat → Iobuf → Nat → Nat → DiskState → Option (Iobuf × DiskState)
  | 0, iob, _, resid, state => if resid = 0 then some (iob, state) else none
  | rounds + 1, iob, blkno, resid, state =>
      if resid = 0 then some (iob, state)
      else do
        let (copied, iob, state) ←
          if write then writeRound dev iob blkno resid state else readRound dev iob blkno resid state
        disk0Loop write rounds iob ((blkno + copied / disk0Blksize) % 2 ^ 32) (resid - copied) state

/-- The number of the first block, in 32 bits. -/
def narrowBlkno (offset : Int) : Nat := (offset.tdiv disk0Blksize % 2 ^ 32).toNat

/-- The number of blocks, in 32 bits. -/
def narrowNblks (resid : Nat) : Nat := resid / disk0Blksize % 2 ^ 32

/-- A request for whole blocks. -/
def BlockAligned (iob : Iobuf) : Prop := iob.ioOffset.tmod disk0Blksize = 0 ∧ iob.ioResid % disk0Blksize = 0

instance (iob : Iobuf) : Decidable (BlockAligned iob) := inferInstanceAs (Decidable (_ ∧ _))

/-- `disk0_io` -/
def disk0Io (write : Bool) (iob : Iobuf) (state : DiskState) : Option (Int × Iobuf × DiskState) :=
  let blkno := narrowBlkno iob.ioOffset
  let nblks := narrowNblks iob.ioResid
  if ¬ BlockAligned iob then some (-eInval, iob, state)
  else if dev.dBlocks < (blkno + nblks) % 2 ^ 32 then some (-eInval, iob, state)
  else if nblks = 0 then some (0, iob, state)
  else (disk0Loop dev write iob.ioResid iob blkno iob.ioResid state).map fun (iob, state) => (0, iob, state)

/-! ## Requests within the disk -/

/-- A request that lies within the disk. -/
def Within (iob : Iobuf) : Prop :=
  0 ≤ iob.ioOffset ∧ iob.ioOffset + iob.ioResid ≤ (dev.dBlocks * disk0Blksize : Nat)

instance (iob : Iobuf) : Decidable (Within dev iob) := inferInstanceAs (Decidable (_ ∧ _))

/-- The `n` bytes of `target` from `dst` on replaced by those of `source` from `src` on. -/
def copied (target source : Bytes) (dst src n : Nat) : Bytes := fun address =>
  if dst ≤ address ∧ address < dst + n then source (src + (address - dst)) else target address

/-- What a transfer of `n` bytes leaves of the image and of the memory. -/
def Transferred (write : Bool) (before after : DiskState) (base offset n : Nat) : Prop :=
  if write then after.bytes = before.bytes ∧ after.image = copied before.image before.bytes offset base n
  else after.image = before.image ∧ after.bytes = copied before.bytes before.image base offset n

variable {dev} {write : Bool} {iob : Iobuf} {state middle after : DiskState} {blkno base offset n m : Nat}

theorem memcpy_copied (target source : Bytes) (dst src n : Nat) :
    memcpy target dst (fun index => source (src + index)) n = copied target source dst src n := by
  funext address
  rw [memcpy_exact]
  rfl

/-- A copy through a buffer. -/
theorem memcpy_bounced (target buffer source : Bytes) (dst src n : Nat) :
    memcpy target dst (copied buffer source 0 src n) n = copied target source dst src n := by
  funext address
  rw [memcpy_exact]
  simp only [copied]
  split
  · rename_i here
    rw [if_pos (by omega), Nat.sub_zero]
  · rfl

theorem copied_none (target source : Bytes) (dst src : Nat) : copied target source dst src 0 = target := by
  funext address
  exact if_neg (by omega)

/-- Two copies in a row are one. -/
theorem copied_copied (target source : Bytes) (dst src n m : Nat) :
    copied (copied target source dst src n) source (dst + n) (src + n) m = copied target source dst src (n + m) := by
  funext address
  simp only [copied]
  by_cases later : dst + n ≤ address ∧ address < dst + n + m
  · have index : src + n + (address - (dst + n)) = src + (address - dst) := by omega
    rw [if_pos later, if_pos (by omega), index]
  · rw [if_neg later]
    by_cases first : dst ≤ address ∧ address < dst + n
    · rw [if_pos first, if_pos (by omega)]
    · rw [if_neg first, if_neg (by omega)]

theorem copied_congr (target : Bytes) {source other : Bytes} {dst src from' n : Nat}
    (same : ∀ index < n, source (src + index) = other (from' + index)) :
    copied target source dst src n = copied target other dst from' n := by
  funext address
  simp only [copied]
  split
  · rename_i here
    exact same _ (by omega)
  · rfl

/-- A copy of a part of a copy. -/
theorem memcpy_copied_part (target buffer source : Bytes) {src n offset len : Nat} (fits : offset + len ≤ n) :
    memcpy target 0 (fun index => copied buffer source 0 src n (offset + index)) len =
      copied target source 0 (src + offset) len := by
  funext address
  rw [memcpy_exact]
  simp only [copied]
  split
  · rename_i here
    rw [if_pos (by omega)]
    exact congrArg source (by omega)
  · rfl

/-- Bytes that are copied, changed in a part and copied back are changed in that part. -/
theorem copied_memcpy_part (target buffer source : Bytes) {dst n offset len : Nat} (fits : offset + len ≤ n) :
    copied target (memcpy (copied buffer target 0 dst n) offset source len) dst 0 n =
      copied target source (dst + offset) 0 len := by
  funext address
  simp only [copied, memcpy_exact, Nat.zero_add]
  by_cases inBlock : dst ≤ address ∧ address < dst + n
  · by_cases inPart : dst + offset ≤ address ∧ address < dst + offset + len
    · rw [if_pos inBlock, if_pos (by omega), if_pos inPart]
      exact congrArg source (by omega)
    · rw [if_pos inBlock, if_neg (by omega), if_pos (by omega), if_neg inPart]
      exact congrArg target (by omega)
  · rw [if_neg inBlock, if_neg (by omega)]

theorem Transferred.refl (state : DiskState) : Transferred write state state base offset 0 := by
  cases write
  · exact ⟨rfl, (copied_none _ _ _ _).symm⟩
  · exact ⟨rfl, (copied_none _ _ _ _).symm⟩

theorem Transferred.trans (first : Transferred write state middle base offset n)
    (second : Transferred write middle after (base + n) (offset + n) m) :
    Transferred write state after base offset (n + m) := by
  cases write with
  | false =>
    obtain ⟨image, bytes⟩ := first
    obtain ⟨imageToo, bytesToo⟩ := second
    exact ⟨imageToo.trans image, by rw [bytesToo, bytes, image, copied_copied]⟩
  | true =>
    obtain ⟨bytes, image⟩ := first
    obtain ⟨bytesToo, imageToo⟩ := second
    exact ⟨bytesToo.trans bytes, by rw [imageToo, bytes, image, copied_copied]⟩

/-- The blocks of a disk have numbers of far fewer than 32 bits. -/
theorem dBlocks_small (dev : IdeDevice) : dev.dBlocks * disk0BlkNsect ≤ dev.size ∧ dev.size < 2 ^ 23 := by
  simp only [IdeDevice.dBlocks, IdeDevice.size, disk0BlkNsect, disk0Blksize, sectsize]
  omega

/-- Blocks within the disk are sectors within the device. -/
theorem secs_exact {nblks : Nat} (inside : blkno + nblks ≤ dev.dBlocks) (some : 0 < nblks) (few : nblks ≤ 4) :
    blkno * disk0BlkNsect % 2 ^ 32 * sectsize = blkno * disk0Blksize ∧
      secsAllowed (blkno * disk0BlkNsect % 2 ^ 32) (nblks * disk0BlkNsect % 2 ^ 32) ∧
      ramdiskNsecs dev (blkno * disk0BlkNsect % 2 ^ 32) (nblks * disk0BlkNsect % 2 ^ 32) * sectsize =
        nblks * disk0Blksize := by
  obtain ⟨fits, small⟩ := dBlocks_small dev
  have inSectors : (blkno + nblks) * disk0BlkNsect ≤ dev.size :=
    Nat.le_trans (Nat.mul_le_mul_right _ inside) fits
  simp only [secsAllowed, ramdiskNsecs, disk0BlkNsect, disk0Blksize, sectsize, maxNsecs, maxDiskNsecs] at inSectors ⊢
  omega

/-- What a round copies. -/
structure Round (write : Bool) (iob : Iobuf) (blkno : Nat) (state : DiskState)
    (result : Option (Nat × Iobuf × DiskState)) : Prop where
  exact : ∃ copied left after, result = some (copied, left, after) ∧ 0 < copied ∧ copied ≤ iob.ioResid ∧
    copied % disk0Blksize = 0 ∧ left.ioBase = iob.ioBase + copied ∧ left.ioResid = iob.ioResid - copied ∧
    Transferred write state after iob.ioBase (blkno * disk0Blksize) copied

/-- A request for some blocks within the disk. -/
structure Pending (dev : IdeDevice) (iob : Iobuf) (blkno : Nat) : Prop where
  whole : iob.ioResid % disk0Blksize = 0
  inside : blkno * disk0Blksize + iob.ioResid ≤ dev.dBlocks * disk0Blksize

/-- The blocks of a round. -/
theorem Pending.round (pending : Pending dev iob blkno) (more : iob.ioResid ≠ 0) (n : Nat)
    (isLength : n = if iob.ioResid < disk0Bufsize then iob.ioResid else disk0Bufsize) :
    0 < n ∧ n ≤ iob.ioResid ∧ n % disk0Blksize = 0 ∧ blkno + n / disk0Blksize ≤ dev.dBlocks ∧
      0 < n / disk0Blksize ∧ n / disk0Blksize ≤ 4 ∧ n / disk0Blksize * disk0Blksize = n := by
  obtain ⟨whole, inside⟩ := pending
  split at isLength
  · rename_i short
    simp only [disk0Blksize, disk0Bufsize] at whole inside short ⊢
    omega
  · rename_i long
    simp only [disk0Blksize, disk0Bufsize] at whole inside isLength long ⊢
    omega

/-- What a round of a write takes from the request. -/
theorem writeMove_exact {iob : Iobuf} {n len : Nat} (bytes buffer : Bytes)
    (isLength : n = if iob.ioResid < len then iob.ioResid else len) :
    ∃ ret left, iobufMove iob bytes buffer len false =
      some ⟨ret, n, left, bytes, copied buffer bytes 0 iob.ioBase n⟩ ∧
      left.ioBase = iob.ioBase + n ∧ left.ioResid = iob.ioResid - n := by
  rw [← memcpy_copied]
  split at isLength
  · rename_i short
    rw [isLength, iobufMove_rest (Nat.le_of_lt short)]
    exact ⟨_, _, rfl, rfl, (Nat.sub_self _).symm⟩
  · rename_i long
    rw [isLength, iobufMove_exact (Nat.not_lt.mp long)]
    exact ⟨_, _, rfl, rfl, rfl⟩

theorem writeRound_exact (pending : Pending dev iob blkno) (more : iob.ioResid ≠ 0) :
    Round true iob blkno state (writeRound dev iob blkno iob.ioResid state) := by
  obtain ⟨n, isLength⟩ : ∃ n, n = if iob.ioResid < disk0Bufsize then iob.ioResid else disk0Bufsize := ⟨_, rfl⟩
  obtain ⟨positive, fits, whole, inside, someBlocks, fewBlocks, isBlocks⟩ := pending.round more n isLength
  obtain ⟨isAddress, allowed, isTransfer⟩ := secs_exact inside someBlocks fewBlocks
  obtain ⟨ret, left, moves, isBase, isResid⟩ := writeMove_exact state.bytes state.buffer isLength
  have ran : writeRound dev iob blkno iob.ioResid state = some (n, left, {
      image := memcpy state.image (blkno * disk0Blksize) (copied state.buffer state.bytes 0 iob.ioBase n) n
      buffer := copied state.buffer state.bytes 0 iob.ioBase n
      bytes := state.bytes }) := by
    simp only [writeRound, moves, Option.bind_eq_bind, Option.bind_some,
      if_pos (And.intro (Nat.ne_of_gt positive) (And.intro fits whole)), disk0WriteBlksNolock, ideWriteSecs,
      if_pos allowed, isAddress, isTransfer, isBlocks]
  refine ⟨⟨n, left, _, ran, positive, fits, whole, isBase, isResid, rfl, memcpy_bounced _ _ _ _ _ _⟩⟩

theorem readRound_exact (pending : Pending dev iob blkno) (more : iob.ioResid ≠ 0) :
    Round false iob blkno state (readRound dev iob blkno iob.ioResid state) := by
  obtain ⟨n, isLength⟩ : ∃ n, n = if iob.ioResid < disk0Bufsize then iob.ioResid else disk0Bufsize := ⟨_, rfl⟩
  obtain ⟨positive, fits, whole, inside, someBlocks, fewBlocks, isBlocks⟩ := pending.round more n isLength
  obtain ⟨isAddress, allowed, isTransfer⟩ := secs_exact inside someBlocks fewBlocks
  have ran : readRound dev iob blkno iob.ioResid state = some (n,
      { iob with ioBase := iob.ioBase + n, ioOffset := iob.ioOffset + n, ioResid := iob.ioResid - n }, {
      image := state.image
      buffer := copied state.buffer state.image 0 (blkno * disk0Blksize) n
      bytes := memcpy state.bytes iob.ioBase (copied state.buffer state.image 0 (blkno * disk0Blksize) n) n }) := by
    simp only [readRound, ← isLength, disk0ReadBlksNolock, ideReadSecs, if_pos allowed, isAddress, isTransfer, isBlocks,
      Option.bind_eq_bind, Option.bind_some, iobufMove_exact fits, whole, and_self, if_true, memcpy_copied]
  refine ⟨⟨n, _, _, ran, positive, fits, whole, rfl, rfl, rfl, memcpy_bounced _ _ _ _ _ _⟩⟩

/-- The loop transfers what is left of a request within the disk. The induction is on the
bound: each round takes at least one block. -/
theorem disk0Loop_exact {rounds : Nat} (pending : Pending dev iob blkno) (enough : iob.ioResid ≤ rounds) :
    ∃ left after, disk0Loop dev write rounds iob blkno iob.ioResid state = some (left, after) ∧
      left.ioResid = 0 ∧ Transferred write state after iob.ioBase (blkno * disk0Blksize) iob.ioResid := by
  induction rounds generalizing iob blkno state with
  | zero =>
    have nothing := Nat.le_zero.mp enough
    refine ⟨iob, state, by rw [disk0Loop, if_pos nothing], nothing, ?_⟩
    rw [nothing]
    exact Transferred.refl state
  | succ rounds ih =>
    by_cases nothing : iob.ioResid = 0
    · refine ⟨iob, state, by rw [disk0Loop, if_pos nothing], nothing, ?_⟩
      rw [nothing]
      exact Transferred.refl state
    have round : Round write iob blkno state
        (if write then writeRound dev iob blkno iob.ioResid state else readRound dev iob blkno iob.ioResid state) := by
      cases write
      · exact readRound_exact pending nothing
      · exact writeRound_exact pending nothing
    obtain ⟨n, left, middle, ran, positive, fits, whole, isBase, isResid, transferred⟩ := round.exact
    have small := dBlocks_small dev
    have bounds : blkno + n / disk0Blksize < 2 ^ 32 ∧ (blkno + n / disk0Blksize) * disk0Blksize = blkno * disk0Blksize + n := by
      have inside := pending.inside
      simp only [disk0Blksize, disk0BlkNsect, sectsize] at small inside whole ⊢
      omega
    have later : Pending dev left ((blkno + n / disk0Blksize) % 2 ^ 32) := by
      obtain ⟨isWhole, inside⟩ := pending
      refine ⟨?_, ?_⟩
      · rw [isResid]
        simp only [disk0Blksize] at isWhole whole ⊢
        omega
      · rw [Nat.mod_eq_of_lt bounds.1, bounds.2, isResid]
        omega
    have next : disk0Loop dev write (rounds + 1) iob blkno iob.ioResid state =
        disk0Loop dev write rounds left ((blkno + n / disk0Blksize) % 2 ^ 32) left.ioResid middle := by
      rw [disk0Loop, if_neg nothing, isResid]
      cases write with
      | false =>
        have ran : readRound dev iob blkno iob.ioResid state = some (n, left, middle) := ran
        simp only [Bool.false_eq_true, if_false, ran, Option.bind_eq_bind, Option.bind_some]
      | true =>
        have ran : writeRound dev iob blkno iob.ioResid state = some (n, left, middle) := ran
        simp only [if_true, ran, Option.bind_eq_bind, Option.bind_some]
    obtain ⟨last, after, ended, isEmpty, remaining⟩ : ∃ last after,
        disk0Loop dev write rounds left ((blkno + n / disk0Blksize) % 2 ^ 32) left.ioResid middle = some (last, after) ∧
        last.ioResid = 0 ∧ Transferred write middle after left.ioBase
          ((blkno + n / disk0Blksize) % 2 ^ 32 * disk0Blksize) left.ioResid := ih later (by omega)
    refine ⟨last, after, ?_, isEmpty, ?_⟩
    · rw [next]
      exact ended
    · rw [Nat.mod_eq_of_lt bounds.1, bounds.2, isBase, isResid] at remaining
      have whole : iob.ioResid = n + (iob.ioResid - n) := by omega
      rw [whole]
      exact transferred.trans remaining

/-! ## All requests -/

/-- A request within the disk transfers its blocks and nothing else, and every other
request is refused. -/
def TransferRight (dev : IdeDevice) (write : Bool) (iob : Iobuf) (state : DiskState) : Prop :=
  (BlockAligned iob ∧ Within dev iob → ∃ left after, disk0Io dev write iob state = some (0, left, after) ∧
    left.ioResid = 0 ∧ Transferred write state after iob.ioBase iob.ioOffset.toNat iob.ioResid) ∧
  (¬ (BlockAligned iob ∧ Within dev iob) → disk0Io dev write iob state = some (-eInval, iob, state))

/-- The numbers of the blocks of a request within the disk. -/
theorem narrow_exact (aligned : BlockAligned iob) (inside : Within dev iob) :
    narrowBlkno iob.ioOffset * disk0Blksize = iob.ioOffset.toNat ∧
      narrowNblks iob.ioResid * disk0Blksize = iob.ioResid ∧
      narrowBlkno iob.ioOffset + narrowNblks iob.ioResid ≤ dev.dBlocks := by
  obtain ⟨fits, small⟩ := dBlocks_small dev
  obtain ⟨wholeOffset, wholeResid⟩ := aligned
  obtain ⟨positive, within⟩ := inside
  obtain ⟨offset, isOffset⟩ := Int.eq_ofNat_of_zero_le positive
  rw [isOffset] at wholeOffset within ⊢
  have quotient : ((offset : Int).tdiv disk0Blksize % 2 ^ 32).toNat = offset / disk0Blksize % 2 ^ 32 := by
    rw [← Int.ofNat_tdiv]
    rfl
  have remainder : offset % disk0Blksize = 0 := by
    rw [← Int.ofNat_tmod] at wholeOffset
    exact Int.ofNat_eq_zero.mp wholeOffset
  have bound : offset + iob.ioResid ≤ dev.dBlocks * disk0Blksize := by exact_mod_cast within
  rw [narrowBlkno, quotient, narrowNblks]
  simp only [disk0BlkNsect, disk0Blksize, sectsize, Int.toNat_natCast] at *
  omega

/-- A request within the disk. -/
theorem disk0Io_inside (aligned : BlockAligned iob) (inside : Within dev iob) :
    ∃ left after, disk0Io dev write iob state = some (0, left, after) ∧ left.ioResid = 0 ∧
      Transferred write state after iob.ioBase iob.ioOffset.toNat iob.ioResid := by
  obtain ⟨isBlkno, isNblks, bound⟩ := narrow_exact aligned inside
  have small := dBlocks_small dev
  have passes : ¬ dev.dBlocks < (narrowBlkno iob.ioOffset + narrowNblks iob.ioResid) % 2 ^ 32 := by
    simp only [disk0BlkNsect, disk0Blksize, sectsize] at small
    omega
  simp only [disk0Io, aligned, not_true_eq_false, if_false, if_neg passes]
  by_cases nothing : narrowNblks iob.ioResid = 0
  · rw [nothing, Nat.zero_mul] at isNblks
    refine ⟨iob, state, if_pos nothing, isNblks.symm, ?_⟩
    rw [← isNblks]
    exact Transferred.refl state
  · have pending : Pending dev iob (narrowBlkno iob.ioOffset) := by
      refine ⟨aligned.2, ?_⟩
      rw [← isNblks, ← Nat.add_mul]
      exact Nat.mul_le_mul_right _ bound
    obtain ⟨left, after, ran, isEmpty, transferred⟩ :=
      @disk0Loop_exact dev write iob state _ iob.ioResid pending (Nat.le_refl _)
    rw [isBlkno] at transferred
    exact ⟨left, after, by rw [if_neg nothing, ran]; rfl, isEmpty, transferred⟩

/-- A request that passes the checks is not refused. -/
theorem disk0Io_passes (aligned : BlockAligned iob)
    (passes : (narrowBlkno iob.ioOffset + narrowNblks iob.ioResid) % 2 ^ 32 ≤ dev.dBlocks) :
    disk0Io dev write iob state ≠ some (-eInval, iob, state) := by
  intro refused
  unfold disk0Io at refused
  simp only [aligned, not_true_eq_false, if_false, if_neg (Nat.not_lt.mpr passes)] at refused
  split at refused
  · cases refused
  · obtain ⟨⟨left, after⟩, _, result⟩ := Option.map_eq_some_iff.mp refused
    cases result

/-- `disk0_io` is right about a request exactly when it is not aligned, lies within the
disk, or has block numbers that lie beyond the disk in 32 bits as well. -/
theorem disk0_transfer (dev : IdeDevice) (write : Bool) (iob : Iobuf) (state : DiskState) :
    TransferRight dev write iob state ↔ ¬ BlockAligned iob ∨ Within dev iob ∨
      dev.dBlocks < (narrowBlkno iob.ioOffset + narrowNblks iob.ioResid) % 2 ^ 32 := by
  by_cases aligned : BlockAligned iob
  case neg =>
    refine iff_of_true ⟨fun both => absurd both.1 aligned, fun _ => ?_⟩ (Or.inl aligned)
    rw [disk0Io, if_pos aligned]
  by_cases inside : Within dev iob
  · refine iff_of_true ⟨fun _ => ?_, fun outside => absurd ⟨aligned, inside⟩ outside⟩ (Or.inr (Or.inl inside))
    exact disk0Io_inside aligned inside
  · by_cases refused : dev.dBlocks < (narrowBlkno iob.ioOffset + narrowNblks iob.ioResid) % 2 ^ 32
    · refine iff_of_true ⟨fun both => absurd both.2 inside, fun _ => ?_⟩ (Or.inr (Or.inr refused))
      simp only [disk0Io, aligned, not_true_eq_false, if_false, if_pos refused]
    · refine iff_of_false (fun right => ?_) (fun some => some.elim (absurd aligned) fun some => some.elim inside refused)
      exact disk0Io_passes aligned (Nat.not_lt.mp refused) (right.2 fun both => inside both.2)

/-- A disk of one block, and a read of one block at offset 2^44. -/
theorem far_read_passes :
    ¬ TransferRight ⟨4096⟩ false (iobufInit 0 4096 (2 ^ 44)) ⟨fun _ => 0, fun _ => 0, fun _ => 0⟩ := by
  intro right
  have aligned : BlockAligned (iobufInit 0 4096 (2 ^ 44)) := by decide
  have outside : ¬ Within ⟨4096⟩ (iobufInit 0 4096 (2 ^ 44)) := by decide
  exact disk0Io_passes aligned (by decide) (right.2 fun both => outside both.2)

end Ucore.Disk0
