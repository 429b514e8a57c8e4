import Ucore.Sfs.IoRuns
import Ucore.Sfs.BlockIo

/-!
# Words of blocks

The files of a volume are modelled with blocks of words, and with calls that nobody
interrupts; `kern/fs/sfs/sfs_io.c` moves bytes, through a buffer that all threads share. Here
the words of the volume are the bytes of the device, the lowest byte first, and every
interleaving of the threads leaves the device as the calls on words leave the volume, made
one after the other in the order of their returns, with the same results.

The calls have ranges of whole words, as all callers in the kernel do that read or write a part
of a block for something else than the data of a file.
-/

namespace Ucore.SfsIo

open Disk0 Sections Sync Transition
open Volume (SfsFs Block sfsBlkNentry)

/-- Four bytes of a memory as a word, the lowest first. -/
def wordAt (bytes : Bytes) (start : Nat) : Nat :=
  bytes start + 2 ^ 8 * bytes (start + 1) + 2 ^ 16 * bytes (start + 2) + 2 ^ 24 * bytes (start + 3)

/-- The words of a memory from an address on. -/
def wordsFrom (bytes : Bytes) (start : Nat) : Block := fun index => wordAt bytes (start + 4 * index)

/-- The words of a block are the same. -/
def SameWords (first second : Block) : Prop := ∀ index < sfsBlkNentry, first index = second index

/-- The volume is made of the words of the device. -/
structure Agrees (blocks : Nat) (fs : SfsFs) (shared : Shared) : Prop where
  few : fs.super.blocks = blocks
  calls : shared.calls = fs.calls
  words : ∀ blkno < blocks, SameWords (wordsFrom shared.storage (address blkno)) (fs.disk blkno)

/-- The volume with one more call of the device. -/
def counted (fs : SfsFs) : SfsFs := { fs with calls := fs.calls + 1 }

/-- The volume with one more call of the device, which wrote a block. -/
def putBlock (fs : SfsFs) (blkno : Nat) (words : Block) : SfsFs :=
  { fs with calls := fs.calls + 1, disk := Function.update fs.disk blkno words }

theorem putBlock_disk (fs : SfsFs) (blkno : Nat) (words : Block) :
    (putBlock fs blkno words).disk = Function.update fs.disk blkno words := rfl

variable {device : Nat → Int} {blocks : Nat} {fs : SfsFs} {shared after before : Shared} {here there : Local}
  {buf bytes left : Bytes} {words : Block} {base blkno len nblks start src n index : Nat} {ret : Int}
  {write check : Bool}

/-! ## Words of copies -/

/-- A copy of whole words. -/
theorem wordAt_copied (target source : Bytes) (aligned : start % 4 = 0) (isWhole : n % 4 = 0) (isWord : base % 4 = 0) :
    wordAt (copied target source base src n) start =
      if base ≤ start ∧ start < base + n then wordAt source (src + (start - base)) else wordAt target start := by
  split
  · rename_i inside
    have moves : ∀ byte < 4, copied target source base src n (start + byte) = source (src + (start - base) + byte) := by
      intro byte below
      rw [copied, if_pos (by omega)]
      exact congrArg source (by omega)
    have first := moves 0 (by decide)
    rw [Nat.add_zero, Nat.add_zero] at first
    rw [wordAt, wordAt, first, moves 1 (by decide), moves 2 (by decide), moves 3 (by decide)]
  · rename_i outside
    have stays : ∀ byte < 4, copied target source base src n (start + byte) = target (start + byte) := by
      intro byte below
      exact if_neg (by omega)
    have first := stays 0 (by decide)
    rw [Nat.add_zero] at first
    rw [wordAt, wordAt, first, stays 1 (by decide), stays 2 (by decide), stays 3 (by decide)]

theorem address_aligned (blkno : Nat) : address blkno % 4 = 0 := by
  simp only [address, sfsBlksize]
  omega

theorem address_succ (blkno : Nat) : address (blkno + 1) = address blkno + sfsBlksize := Nat.succ_mul ..

/-- A block that is read has the words of the device. -/
theorem wordsFrom_read (target source : Bytes) (isWord : base % 4 = 0) :
    SameWords (wordsFrom (copied target source base (address blkno) sfsBlksize) base)
      (wordsFrom source (address blkno)) := by
  intro index below
  have inside : index < 1024 := below
  simp only [wordsFrom]
  rw [wordAt_copied _ _ (by omega) (by decide) isWord, if_pos (by simp only [sfsBlksize]; omega)]
  exact congrArg (wordAt source) (by omega)

/-- A block that is written takes the words of the memory, and the other blocks keep theirs. -/
theorem wordsFrom_written (target source : Bytes) (other : Nat) :
    SameWords (wordsFrom (copied target source (address blkno) base sfsBlksize) (address other))
      (if other = blkno then wordsFrom source base else wordsFrom target (address other)) := by
  intro index below
  have inside : index < 1024 := below
  have aligned := address_aligned other
  simp only [wordsFrom]
  rw [wordAt_copied _ _ (by omega) (by decide) (address_aligned blkno)]
  by_cases same : other = blkno
  · subst same
    rw [if_pos (by simp only [sfsBlksize]; omega), if_pos rfl]
    exact congrArg (wordAt source) (by omega)
  · rw [if_neg (by simp only [address, sfsBlksize]; omega), if_neg same]
    rfl

/-! ## One transfer -/

/-- The volume does not depend on `sfs_buffer`. -/
theorem Agrees.buffer (agrees : Agrees blocks fs shared) (buffer : Bytes) : Agrees blocks fs { shared with buffer } :=
  ⟨agrees.few, agrees.calls, agrees.words⟩

theorem Agrees.asserted (agrees : Agrees blocks fs shared)
    (called : (sfsRwblockNolock device blocks shared bytes base blkno write check).isSome) :
    (blkno ≠ 0 ∨ check = false) ∧ blkno < fs.super.blocks := by
  unfold sfsRwblockNolock at called
  split at called
  · rename_i asserted
    exact ⟨asserted.1, agrees.few ▸ asserted.2⟩
  · cases called

/-- A read of a block, in words. -/
theorem read_words (few : blocks ≤ sfsMaxNblks) (agrees : Agrees blocks fs shared)
    (called : sfsRwblockNolock device blocks shared bytes base blkno false check = some (ret, left, after)) (words : Block) :
    Volume.sfsRwblockNolock device fs words blkno false check =
        some (ret, if ret = 0 then fs.disk blkno else words, counted fs) ∧
      Agrees blocks (counted fs) after ∧ after.buffer = shared.buffer ∧
      left = copied bytes shared.storage base (address blkno) (transferLen ret) := by
  have asserted := agrees.asserted (Option.isSome_of_eq_some called)
  obtain ⟨-, isRet, calls, sameBuffer, sameStorage, isLeft⟩ := sfsRwblockNolock_exact few called
  have storage : after.storage = shared.storage := sameStorage
  refine ⟨?_, ⟨agrees.few, ?_, fun other below => storage ▸ agrees.words other below⟩, sameBuffer, isLeft⟩
  · rw [agrees.calls] at isRet
    simp only [Volume.sfsRwblockNolock, if_pos asserted, ← isRet]
    by_cases fails : ret = 0
    · simp only [fails, ne_eq, not_true_eq_false, if_false, if_true, Bool.false_eq_true, counted]
    · simp only [fails, ne_eq, not_false_eq_true, if_true, if_false, counted]
  · rw [calls, agrees.calls, counted]

/-- A write of a block, in words. -/
theorem write_words (few : blocks ≤ sfsMaxNblks) (agrees : Agrees blocks fs shared)
    (holds : SameWords (wordsFrom bytes base) words)
    (called : sfsRwblockNolock device blocks shared bytes base blkno true check = some (ret, left, after)) :
    ∃ written, Volume.sfsRwblockNolock device fs words blkno true check = some (ret, words, written) ∧
      Agrees blocks written after ∧ after.buffer = shared.buffer ∧ left = bytes := by
  have asserted := agrees.asserted (Option.isSome_of_eq_some called)
  obtain ⟨-, isRet, calls, sameBuffer, isLeft, isStorage⟩ := sfsRwblockNolock_exact few called
  have left : left = bytes := isLeft
  have storage : after.storage = copied shared.storage bytes (address blkno) base (transferLen ret) := isStorage
  rw [agrees.calls] at isRet calls
  by_cases fails : ret = 0
  · refine ⟨putBlock fs blkno words, ?_, ⟨agrees.few, calls, ?_⟩, sameBuffer, left⟩
    · simp only [Volume.sfsRwblockNolock, if_pos asserted, ← isRet, fails, ne_eq, not_true_eq_false, if_false, if_true,
        putBlock]
    · intro other below index inside
      rw [storage, transferLen, if_pos fails, wordsFrom_written _ _ other index inside, putBlock_disk]
      by_cases same : other = blkno
      · rw [if_pos same, same, Function.update_self]
        exact holds index inside
      · rw [if_neg same, Function.update_of_ne same]
        exact agrees.words other below index inside
  · refine ⟨counted fs, ?_, ⟨agrees.few, calls, ?_⟩, sameBuffer, left⟩
    · simp only [Volume.sfsRwblockNolock, if_pos asserted, ← isRet, fails, ne_eq, not_false_eq_true, if_true, counted]
    · rw [storage, transferLen, if_neg fails, copied_none]
      exact agrees.words

/-! ## Parts of a block -/

/-- Where `sfs_rbuf` is, and what the call on words has done there. -/
inductive RbufWords (device : Nat → Int) (blocks : Nat) (fs : SfsFs) (buf : Bytes) (len blkno offset : Nat) :
    Local → Shared → Prop where
  | read {shared : Shared} (agrees : Agrees blocks fs shared) :
      RbufWords device blocks fs buf len blkno offset ⟨.rbufRead len blkno offset, buf⟩ shared
  | copy {shared : Shared} (agrees : Agrees blocks (counted fs) shared)
      (reads : Volume.sfsRwblockNolock device fs (fun _ => 0) blkno false true = some (0, fs.disk blkno, counted fs))
      (holds : SameWords (wordsFrom shared.buffer 0) (fs.disk blkno)) :
      RbufWords device blocks fs buf len blkno offset ⟨.rbufCopy len offset, buf⟩ shared
  | done {shared : Shared} {bytes : Bytes} (agrees : Agrees blocks (counted fs) shared)
      (reads : Volume.sfsRwblockNolock device fs (fun _ => 0) blkno false true = some (0, fs.disk blkno, counted fs))
      (given : ∀ index < len / 4, wordsFrom bytes 0 index = fs.disk blkno (offset / 4 + index)) :
      RbufWords device blocks fs buf len blkno offset ⟨.unlock 0, bytes⟩ shared
  | failed {shared : Shared} {ret : Int} (agrees : Agrees blocks (counted fs) shared) (fails : ret ≠ 0)
      (reads : Volume.sfsRwblockNolock device fs (fun _ => 0) blkno false true = some (ret, fun _ => 0, counted fs)) :
      RbufWords device blocks fs buf len blkno offset ⟨.unlock ret, buf⟩ shared

theorem rbufWords_step {offset : Nat} (few : blocks ≤ sfsMaxNblks) (fits : offset + len ≤ sfsBlksize)
    (isWhole : len % 4 = 0) (aligned : offset % 4 = 0)
    (rbuf : RbufWords device blocks fs buf len blkno offset here shared)
    (taken : (ioBody device blocks).step here shared = some (there, after)) :
    RbufWords device blocks fs buf len blkno offset there after := by
  cases rbuf with
  | read agrees =>
    obtain ⟨ret, buffer, middle, called, continues⟩ := transfer_inv taken
    obtain ⟨reads, stillAgrees, _, isBuffer⟩ := read_words few agrees called fun _ => 0
    cases continues
    by_cases fails : ret = 0
    · subst fails
      refine .copy (stillAgrees.buffer buffer) reads ?_
      intro index inside
      obtain ⟨_, below⟩ := agrees.asserted (Option.isSome_of_eq_some called)
      rw [isBuffer]
      exact (wordsFrom_read _ _ (by decide) index inside).trans (agrees.words blkno (agrees.few ▸ below) index inside)
    · rw [if_neg fails] at reads ⊢
      exact .failed (stillAgrees.buffer buffer) fails reads
  | copy agrees reads holds =>
    cases taken
    refine .done agrees reads fun index below => ?_
    have inside : offset / 4 + index < sfsBlkNentry := by
      simp only [sfsBlksize, sfsBlkNentry] at fits ⊢
      omega
    rw [← holds _ inside, memcpy_copied]
    simp only [wordsFrom]
    rw [wordAt_copied _ _ (by omega) isWhole (by decide), if_pos (by omega)]
    exact congrArg (wordAt _) (by omega)
  | done => cases taken
  | failed => cases taken

/-- Where `sfs_wbuf` is, and what the call on words has done there. -/
inductive WbufWords (device : Nat → Int) (blocks : Nat) (fs : SfsFs) (buf : Bytes) (len blkno offset : Nat) :
    Local → Shared → Prop where
  | read {shared : Shared} (agrees : Agrees blocks fs shared) :
      WbufWords device blocks fs buf len blkno offset ⟨.wbufRead len blkno offset, buf⟩ shared
  | copy {shared : Shared} (agrees : Agrees blocks (counted fs) shared)
      (reads : Volume.sfsRwblockNolock device fs (fun _ => 0) blkno false true = some (0, fs.disk blkno, counted fs))
      (holds : SameWords (wordsFrom shared.buffer 0) (fs.disk blkno)) :
      WbufWords device blocks fs buf len blkno offset ⟨.wbufCopy len blkno offset, buf⟩ shared
  | write {shared : Shared} (agrees : Agrees blocks (counted fs) shared)
      (reads : Volume.sfsRwblockNolock device fs (fun _ => 0) blkno false true = some (0, fs.disk blkno, counted fs))
      (holds : SameWords (wordsFrom shared.buffer 0)
        (Volume.copyWords (fs.disk blkno) (wordsFrom buf 0) (len / 4) (offset / 4))) :
      WbufWords device blocks fs buf len blkno offset ⟨.wbufWrite blkno, buf⟩ shared
  | done {shared : Shared} {ret : Int} {last : SfsFs} (agrees : Agrees blocks last shared)
      (returns : (offset / 4 < sfsBlkNentry ∧ offset / 4 + len / 4 ≤ sfsBlkNentry) →
        Volume.sfsWbuf device fs (wordsFrom buf 0) (len / 4) blkno (offset / 4) = some (ret, last)) :
      WbufWords device blocks fs buf len blkno offset ⟨.unlock ret, buf⟩ shared

theorem wbufWords_step {offset : Nat} (few : blocks ≤ sfsMaxNblks) (isWhole : len % 4 = 0) (aligned : offset % 4 = 0)
    (wbuf : WbufWords device blocks fs buf len blkno offset here shared)
    (taken : (ioBody device blocks).step here shared = some (there, after)) :
    WbufWords device blocks fs buf len blkno offset there after := by
  cases wbuf with
  | read agrees =>
    obtain ⟨ret, buffer, middle, called, continues⟩ := transfer_inv taken
    obtain ⟨reads, stillAgrees, _, isBuffer⟩ := read_words few agrees called fun _ => 0
    cases continues
    by_cases fails : ret = 0
    · subst fails
      refine .copy (stillAgrees.buffer buffer) reads ?_
      intro index inside
      obtain ⟨_, below⟩ := agrees.asserted (Option.isSome_of_eq_some called)
      rw [isBuffer]
      exact (wordsFrom_read _ _ (by decide) index inside).trans (agrees.words blkno (agrees.few ▸ below) index inside)
    · rw [if_neg fails] at reads ⊢
      refine .done (stillAgrees.buffer buffer) fun fits => ?_
      simp only [Volume.sfsWbuf, if_pos fits, reads, Option.bind_eq_bind, Option.bind_some, ne_eq, fails,
        not_false_eq_true, if_true]
  | copy agrees reads holds =>
    cases taken
    refine .write (agrees.buffer _) reads fun index inside => ?_
    have isCopy : memcpy shared.buffer offset buf len = copied shared.buffer buf offset 0 len := by
      rw [← memcpy_copied]
      simp only [Nat.zero_add]
    simp only [isCopy, wordsFrom, Volume.copyWords]
    rw [wordAt_copied _ _ (by omega) isWhole aligned]
    by_cases inPart : offset / 4 ≤ index ∧ index < offset / 4 + len / 4
    · rw [if_pos (by omega), if_pos inPart]
      exact congrArg (wordAt buf) (by omega)
    · rw [if_neg (by omega), if_neg inPart]
      exact holds index inside
  | write agrees reads holds =>
    obtain ⟨ret, buffer, middle, called, continues⟩ := transfer_inv taken
    obtain ⟨written, writes, stillAgrees, sameBuffer, isLeft⟩ := write_words few agrees holds called
    cases continues
    refine .done (stillAgrees.buffer buffer) fun fits => ?_
    simp only [Volume.sfsWbuf, if_pos fits, reads, writes, Option.bind_eq_bind, Option.bind_some, ne_eq,
      not_true_eq_false, if_false]
  | done => cases taken

/-! ## Loops over blocks -/

/-- `sfs_rblock`, with the words of the memory: so many blocks are read, and the rest are to be. -/
def sfsRblock (device : Nat → Int) (fs : SfsFs) (memory : Nat → Block) (blkno done : Nat) :
    Nat → Option (Int × (Nat → Block) × SfsFs)
  | 0 => some (0, memory, fs)
  | rest + 1 => do
      let (ret, block, fs) ← Volume.sfsRwblockNolock device fs (memory done) (blkno + done) false true
      if ret ≠ 0 then some (ret, memory, fs)
      else sfsRblock device fs (Function.update memory done block) blkno (done + 1) rest

/-- Where `sfs_rblock` is, and what is left of the call on words there. -/
inductive RblockWords (device : Nat → Int) (blocks : Nat) (blkno nblks : Nat)
    (total : Option (Int × (Nat → Block) × SfsFs)) : Local → Shared → Prop where
  | head {done rest : Nat} {bytes : Bytes} {shared : Shared} {fs : SfsFs} {memory : Nat → Block}
      (counts : done + rest = nblks) (agrees : Agrees blocks fs shared)
      (holds : ∀ block < nblks, SameWords (wordsFrom bytes (address block)) (memory block))
      (left : sfsRblock device fs memory blkno done rest = total) :
      RblockWords device blocks blkno nblks total ⟨.rwblock (address done) (blkno + done) rest false, bytes⟩ shared
  | done {ret : Int} {bytes : Bytes} {shared : Shared} {fs : SfsFs} {memory : Nat → Block}
      (agrees : Agrees blocks fs shared)
      (holds : ∀ block < nblks, SameWords (wordsFrom bytes (address block)) (memory block))
      (returns : total = some (ret, memory, fs)) :
      RblockWords device blocks blkno nblks total ⟨.unlock ret, bytes⟩ shared

theorem rblockWords_step {total : Option (Int × (Nat → Block) × SfsFs)} (few : blocks ≤ sfsMaxNblks)
    (rblock : RblockWords device blocks blkno nblks total here shared)
    (taken : (ioBody device blocks).step here shared = some (there, after)) :
    RblockWords device blocks blkno nblks total there after := by
  cases rblock with
  | @head done rest bytes _ fs memory counts agrees holds remains =>
    simp only [ioBody, frameStep] at taken
    cases rest with
    | zero =>
      rw [if_neg (not_not.mpr rfl)] at taken
      cases taken
      exact .done agrees holds remains.symm
    | succ rest =>
      rw [if_pos (Nat.succ_ne_zero rest)] at taken
      obtain ⟨ret, left, middle, called, continues⟩ := transfer_inv taken
      obtain ⟨isNext, -⟩ := sfsRwblockNolock_exact few called
      obtain ⟨reads, stillAgrees, _, isLeft⟩ := read_words few agrees called (memory done)
      obtain ⟨_, below⟩ := agrees.asserted (Option.isSome_of_eq_some called)
      simp only [sfsRblock, reads, Option.bind_eq_bind, Option.bind_some] at remains
      by_cases fails : ret = 0
      · rw [if_neg (not_not.mpr fails)] at continues remains
        cases continues
        rw [isNext, Nat.add_assoc, ← address_succ, Nat.add_sub_cancel]
        rw [if_pos fails] at remains
        refine .head (by omega) stillAgrees (fun block inBlocks index inside => ?_) remains
        rw [isLeft, transferLen, if_pos fails]
        by_cases same : block = done
        · subst same
          rw [Function.update_self]
          exact (wordsFrom_read _ _ (address_aligned block) index inside).trans
            (agrees.words _ (agrees.few ▸ below) index inside)
        · rw [Function.update_of_ne same, ← holds block inBlocks index inside]
          exact (wordsFrom_written _ _ block index inside).trans (by rw [if_neg same])
      · rw [if_pos fails] at continues remains
        cases continues
        refine .done stillAgrees (fun block inBlocks => ?_) remains.symm
        rw [isLeft, transferLen, if_neg fails, copied_none]
        exact holds block inBlocks
  | done => cases taken

/-- Where `sfs_wblock` is, and what is left of the call on words there. -/
inductive WblockWords (device : Nat → Int) (blocks : Nat) (buf : Bytes) (blkno : Nat) (total : Option (Int × SfsFs)) :
    Local → Shared → Prop where
  | head {done rest : Nat} {shared : Shared} {fs : SfsFs} (agrees : Agrees blocks fs shared)
      (left : Volume.sfsWblock device fs (fun block => wordsFrom buf (address (done + block))) (blkno + done) rest = total) :
      WblockWords device blocks buf blkno total ⟨.rwblock (address done) (blkno + done) rest true, buf⟩ shared
  | done {ret : Int} {shared : Shared} {fs : SfsFs} (agrees : Agrees blocks fs shared)
      (returns : total = some (ret, fs)) : WblockWords device blocks buf blkno total ⟨.unlock ret, buf⟩ shared

theorem wblockWords_step {total : Option (Int × SfsFs)} (few : blocks ≤ sfsMaxNblks)
    (wblock : WblockWords device blocks buf blkno total here shared)
    (taken : (ioBody device blocks).step here shared = some (there, after)) :
    WblockWords device blocks buf blkno total there after := by
  cases wblock with
  | @head done rest _ fs agrees remains =>
    simp only [ioBody, frameStep] at taken
    cases rest with
    | zero =>
      rw [if_neg (not_not.mpr rfl)] at taken
      cases taken
      exact .done agrees remains.symm
    | succ rest =>
      rw [if_pos (Nat.succ_ne_zero rest)] at taken
      obtain ⟨ret, left, middle, called, continues⟩ := transfer_inv taken
      obtain ⟨isNext, -⟩ := sfsRwblockNolock_exact few called
      have holds : SameWords (wordsFrom buf (address done)) (wordsFrom buf (address (done + 0))) := fun _ _ => rfl
      obtain ⟨written, writes, stillAgrees, _, rfl⟩ := write_words few agrees holds called
      simp only [Volume.sfsWblock, writes, Option.bind_eq_bind, Option.bind_some] at remains
      by_cases fails : ret = 0
      · rw [if_neg (not_not.mpr fails)] at continues remains
        cases continues
        rw [isNext, Nat.add_assoc, ← address_succ, Nat.add_sub_cancel]
        have shifted : (fun block => wordsFrom left (address (done + 1 + block))) =
            fun block => wordsFrom left (address (done + (block + 1))) := by
          funext block
          rw [Nat.add_assoc, Nat.add_comm 1 block]
        refine .head stillAgrees ?_
        rw [shifted]
        exact remains
      · rw [if_pos fails] at continues remains
        cases continues
        exact .done stillAgrees remains.symm
  | done => cases taken

/-- Where `sfs_clear_block` is, and what is left of the call on words there; `ret` is set by the first transfer. -/
inductive ClearWords (device : Nat → Int) (blocks : Nat) (buf : Bytes) (garbage : Int) (total : Option (Int × SfsFs)) :
    Local → Shared → Prop where
  | set {blkno nblks : Nat} {shared : Shared} {fs : SfsFs} (agrees : Agrees blocks fs shared) (some : nblks ≠ 0)
      (left : Volume.sfsClearBlock device fs blkno nblks = total) :
      ClearWords device blocks buf garbage total ⟨.clearSet garbage blkno nblks, buf⟩ shared
  | head {ret : Int} {blkno rest : Nat} {shared : Shared} {fs : SfsFs} (agrees : Agrees blocks fs shared)
      (zeros : SameWords (wordsFrom shared.buffer 0) fun _ => 0)
      (left : Volume.sfsClearBlock device fs blkno rest = total) (isRet : rest = 0 → ret = 0) :
      ClearWords device blocks buf garbage total ⟨.clearLoop ret blkno rest, buf⟩ shared
  | done {ret : Int} {shared : Shared} {fs : SfsFs} (agrees : Agrees blocks fs shared)
      (returns : total = some (ret, fs)) : ClearWords device blocks buf garbage total ⟨.unlock ret, buf⟩ shared

/-- A buffer of zeros. -/
theorem wordsFrom_zeros (target : Bytes) :
    SameWords (wordsFrom (memcpy target 0 (fun _ => 0) sfsBlksize) 0) fun _ => 0 := by
  intro index inside
  have below : index < 1024 := inside
  have isCopy : memcpy target 0 (fun _ => 0) sfsBlksize = copied target (fun _ => 0) 0 0 sfsBlksize :=
    memcpy_copied target (fun _ => 0) 0 0 sfsBlksize
  simp only [isCopy, wordsFrom]
  rw [wordAt_copied _ _ (by omega) (by decide) (by decide), if_pos (by simp only [sfsBlksize]; omega)]
  rfl

theorem clearWords_step {garbage : Int} {total : Option (Int × SfsFs)} (few : blocks ≤ sfsMaxNblks)
    (clear : ClearWords device blocks buf garbage total here shared)
    (taken : (ioBody device blocks).step here shared = some (there, after)) :
    ClearWords device blocks buf garbage total there after := by
  cases clear with
  | @set blkno nblks shared fs agrees some remains =>
    have zeros := wordsFrom_zeros shared.buffer
    obtain ⟨rfl, rfl⟩ := Prod.mk.inj (Option.some.inj taken)
    generalize memcpy shared.buffer 0 (fun _ => 0) sfsBlksize = buffer at zeros
    exact .head (agrees.buffer buffer) zeros remains fun nothing => absurd nothing some
  | @head ret blkno rest _ fs agrees zeros remains isRet =>
    simp only [ioBody, frameStep] at taken
    cases rest with
    | zero =>
      rw [if_neg (not_not.mpr rfl)] at taken
      cases taken
      exact .done agrees (by rw [← remains, isRet rfl]; rfl)
    | succ rest =>
      rw [if_pos (Nat.succ_ne_zero rest)] at taken
      obtain ⟨ret, left, middle, called, continues⟩ := transfer_inv taken
      obtain ⟨isNext, -⟩ := sfsRwblockNolock_exact few called
      obtain ⟨written, writes, stillAgrees, sameBuffer, rfl⟩ := write_words few agrees zeros called
      simp only [Volume.sfsClearBlock, Volume.sfsWblock, writes, Option.bind_eq_bind, Option.bind_some] at remains
      by_cases fails : ret = 0
      · rw [if_neg (not_not.mpr fails)] at continues remains
        cases continues
        rw [isNext, Nat.add_sub_cancel]
        exact .head (stillAgrees.buffer _) zeros remains fun _ => fails
      · rw [if_pos fails] at continues remains
        cases continues
        exact .done (stillAgrees.buffer _) remains.symm
  | done => cases taken

/-! ## Whole calls -/

/-- The ranges of whole words; a call that clears no block returns what happens to be in `ret`. -/
def Call.Whole : Call → Prop
  | .sfsRbuf len _ offset | .sfsWbuf len _ offset => len % 4 = 0 ∧ offset % 4 = 0
  | .sfsClearBlock _ _ nblks => nblks ≠ 0
  | _ => True

instance : ∀ call : Call, Decidable call.Whole
  | .sfsRbuf len _ offset | .sfsWbuf len _ offset => inferInstanceAs (Decidable (len % 4 = 0 ∧ offset % 4 = 0))
  | .sfsClearBlock _ _ nblks => inferInstanceAs (Decidable (nblks ≠ 0))
  | .sfsRblock .. | .sfsWblock .. => inferInstanceAs (Decidable True)

/-- The call on words does the same on the volume, and gives the same answer. -/
def WordEffect (device : Nat → Int) (request : Request) (fs : SfsFs) (answer : Answer) (last : SfsFs) : Prop :=
  match request.call with
  | .sfsRbuf len blkno offset => ∃ result,
      Volume.sfsRbuf device fs (len / 4) blkno (offset.toNat / 4) = some (result, last) ∧
        match result with
        | .ok words => answer.ret = 0 ∧ ∀ index < len / 4, wordsFrom answer.buf 0 index = words index
        | .error ret => answer.ret = ret ∧ answer.buf = request.buf
  | .sfsWbuf len blkno offset => answer.buf = request.buf ∧
      Volume.sfsWbuf device fs (wordsFrom request.buf 0) (len / 4) blkno (offset.toNat / 4) = some (answer.ret, last)
  | .sfsRblock blkno nblks => ∃ memory,
      sfsRblock device fs (fun block => wordsFrom request.buf (address block)) blkno 0 nblks =
        some (answer.ret, memory, last) ∧
      ∀ block < nblks, SameWords (wordsFrom answer.buf (address block)) (memory block)
  | .sfsWblock blkno nblks => answer.buf = request.buf ∧
      Volume.sfsWblock device fs (fun block => wordsFrom request.buf (address block)) blkno nblks = some (answer.ret, last)
  | .sfsClearBlock _ blkno nblks => answer.buf = request.buf ∧
      Volume.sfsClearBlock device fs blkno nblks = some (answer.ret, last)

variable {request : Request} {answer : Answer}

theorem RbufWords.effect {offset : Int}
    (rbuf : RbufWords device blocks fs buf len blkno offset.toNat here after)
    (fits : offset.toNat / 4 < sfsBlkNentry ∧ offset.toNat / 4 + len / 4 ≤ sfsBlkNentry)
    (ended : (ioBody device blocks).leave here = some answer) :
    ∃ last, WordEffect device ⟨.sfsRbuf len blkno offset, buf⟩ fs answer last ∧ Agrees blocks last after := by
  cases rbuf with
  | read => cases ended
  | copy => cases ended
  | done agrees reads given =>
    cases ended
    refine ⟨counted fs, ⟨.ok fun index => fs.disk blkno (offset.toNat / 4 + index), ?_, rfl, given⟩, agrees⟩
    simp only [Volume.sfsRbuf, if_pos fits, reads, Option.bind_eq_bind, Option.bind_some, if_true]
  | @failed _ ret agrees fails reads =>
    cases ended
    refine ⟨counted fs, ⟨.error ret, ?_, rfl, rfl⟩, agrees⟩
    simp only [Volume.sfsRbuf, if_pos fits, reads, Option.bind_eq_bind, Option.bind_some, if_neg fails]

theorem WbufWords.effect {offset : Int}
    (wbuf : WbufWords device blocks fs buf len blkno offset.toNat here after)
    (fits : offset.toNat / 4 < sfsBlkNentry ∧ offset.toNat / 4 + len / 4 ≤ sfsBlkNentry)
    (ended : (ioBody device blocks).leave here = some answer) :
    ∃ last, WordEffect device ⟨.sfsWbuf len blkno offset, buf⟩ fs answer last ∧ Agrees blocks last after := by
  cases wbuf with
  | read => cases ended
  | copy => cases ended
  | write => cases ended
  | @done _ ret last agrees returns =>
    cases ended
    exact ⟨last, ⟨rfl, returns fits⟩, agrees⟩

theorem RblockWords.effect
    (rblock : RblockWords device blocks blkno nblks
      (sfsRblock device fs (fun block => wordsFrom buf (address block)) blkno 0 nblks) here after)
    (ended : (ioBody device blocks).leave here = some answer) :
    ∃ last, WordEffect device ⟨.sfsRblock blkno nblks, buf⟩ fs answer last ∧ Agrees blocks last after := by
  cases rblock with
  | head => cases ended
  | @done ret bytes _ last memory agrees holds returns =>
    cases ended
    exact ⟨last, ⟨memory, returns, holds⟩, agrees⟩

theorem WblockWords.effect
    (wblock : WblockWords device blocks buf blkno
      (Volume.sfsWblock device fs (fun block => wordsFrom buf (address block)) blkno nblks) here after)
    (ended : (ioBody device blocks).leave here = some answer) :
    ∃ last, WordEffect device ⟨.sfsWblock blkno nblks, buf⟩ fs answer last ∧ Agrees blocks last after := by
  cases wblock with
  | head => cases ended
  | @done ret _ last agrees returns =>
    cases ended
    exact ⟨last, ⟨rfl, returns⟩, agrees⟩

theorem ClearWords.effect {garbage : Int}
    (clear : ClearWords device blocks buf garbage (Volume.sfsClearBlock device fs blkno nblks) here after)
    (ended : (ioBody device blocks).leave here = some answer) :
    ∃ last, WordEffect device ⟨.sfsClearBlock garbage blkno nblks, buf⟩ fs answer last ∧ Agrees blocks last after := by
  cases clear with
  | set => cases ended
  | head => cases ended
  | @done ret _ last agrees returns =>
    cases ended
    exact ⟨last, ⟨rfl, returns⟩, agrees⟩

/-- The words of a range that lies in the block. -/
theorem words_inside {offset : Int} (legal : 0 ≤ offset ∧ offset < sfsBlksize ∧ offset + len ≤ sfsBlksize) :
    offset.toNat / 4 < sfsBlkNentry ∧ offset.toNat / 4 + len / 4 ≤ sfsBlkNentry := by
  obtain ⟨positive, below, fits⟩ := legal
  simp only [sfsBlksize, sfsBlkNentry] at *
  omega

/-- A call that nobody interrupts is the call on words. -/
theorem completes_words (few : blocks ≤ sfsMaxNblks) (legal : request.call.Legal blocks) (whole : request.call.Whole)
    (agrees : Agrees blocks fs before) (completes : (ioBody device blocks).Completes request before answer after) :
    ∃ last, WordEffect device request fs answer last ∧ Agrees blocks last after := by
  obtain ⟨call, buf⟩ := request
  obtain ⟨last, proceeds, ended⟩ := completes
  cases call with
  | sfsRbuf len blkno offset =>
    obtain ⟨isWhole, aligned⟩ := whole
    have inside := words_inside legal.1
    have fits : offset.toNat + len ≤ sfsBlksize := by
      obtain ⟨⟨_, _, fits⟩, _⟩ := legal
      omega
    have isAligned : offset.toNat % 4 = 0 := by omega
    exact (proceeds.invariant (.read agrees) (rbufWords_step few fits isWhole isAligned)).effect inside ended
  | sfsWbuf len blkno offset =>
    obtain ⟨isWhole, aligned⟩ := whole
    have inside := words_inside legal.1
    have isAligned : offset.toNat % 4 = 0 := by omega
    exact (proceeds.invariant (.read agrees) (wbufWords_step few isWhole isAligned)).effect inside ended
  | sfsRblock blkno nblks =>
    have start : RblockWords device blocks blkno nblks
        (sfsRblock device fs (fun block => wordsFrom buf (address block)) blkno 0 nblks)
        ⟨.rwblock (address 0) (blkno + 0) nblks false, buf⟩ before :=
      .head (Nat.zero_add nblks) agrees (fun _ _ _ _ => rfl) rfl
    exact (proceeds.invariant start (rblockWords_step few)).effect ended
  | sfsWblock blkno nblks =>
    have start : WblockWords device blocks buf blkno
        (Volume.sfsWblock device fs (fun block => wordsFrom buf (address block)) blkno nblks)
        ⟨.rwblock (address 0) (blkno + 0) nblks true, buf⟩ before :=
      .head agrees (by simp only [Nat.zero_add, Nat.add_zero])
    exact (proceeds.invariant start (wblockWords_step few)).effect ended
  | sfsClearBlock ret blkno nblks =>
    have start : ClearWords device blocks buf ret (Volume.sfsClearBlock device fs blkno nblks)
        ⟨.clearSet ret blkno nblks, buf⟩ before := .set agrees whole rfl
    exact (proceeds.invariant start (clearWords_step few)).effect ended

/-! ## Any interleaving -/

/-- Threads read and write blocks and whole words of blocks in any interleaving. The calls that have
returned are a run of the calls on words, each with the result that the thread got, and the volume
that the run leaves is the device, when no thread is in one of the functions. -/
theorem word_io_exact {T : Type} [DecidableEq T] {state : IoState T} (few : blocks ≤ sfsMaxNblks)
    (agrees : Agrees blocks fs shared)
    (reached : Reaches (ioStep device blocks) (Allows fun request => request.call.Legal blocks ∧ request.call.Whole)
      (unlocked shared) state) :
    ∃ last, Serial (WordEffect device) fs state.returned last ∧ (state.system.Free → Agrees blocks last state.shared) := by
  obtain ⟨_, settled, serial, now⟩ := locked_serial reached
  obtain ⟨last, words, ends⟩ := serial.simulates agrees fun {request answer before after there} member here completes =>
    have allowed := (locked_allowed reached).returned (request, answer) member
    completes_words few allowed.1 allowed.2 here completes
  refine ⟨last, words, fun free => ?_⟩
  obtain ⟨_, same⟩ | ⟨holder, _, _, isInside, _⟩ := now
  · have isSettled : state.shared = settled := same
    exact isSettled ▸ ends
  · rw [free holder] at isInside
    cases isInside

/-- Whether a call is one of the interface, with a range of whole words. -/
def wordTest (blocks : Nat) (_ : IoState Bool) : LockedOperation Bool Request → Bool
  | .call _ request => decide (request.call.Legal blocks ∧ request.call.Whole)
  | .go _ => true

theorem wordTest_sound (blocks : Nat) (state : IoState Bool) (operation : LockedOperation Bool Request)
    (legal : wordTest blocks state operation = true) :
    Allows (fun request => request.call.Legal blocks ∧ request.call.Whole) state operation := by
  cases operation with
  | call _ request =>
    have isLegal : request.call.Legal blocks ∧ request.call.Whole := of_decide_eq_true legal
    exact isLegal
  | go => trivial

/-- One thread writes a word, while another one waits to read it and the word behind it. -/
def wordThreads : List (LockedOperation Bool Request) :=
  [.call false ⟨.sfsWbuf 4 1 8, fun _ => 7⟩, .go false, .call true ⟨.sfsRbuf 8 1 8, fun _ => 1⟩, .go false, .go false,
    .go false, .go true, .go true, .go true, .go true]

/-- A volume full of zeros. -/
def emptyVolume : SfsFs where
  super := { magic := 0, blocks := 3, unusedBlocks := 0, info := fun _ => 0 }
  superDirty := false
  freemap := { nbits := 0, nwords := 0, map := fun _ => 0, covered := Nat.le_refl 0 }
  disk := fun _ _ => 0
  calls := 0

/-- Both calls return, and the volume that they leave on words is the device. -/
theorem word_io_exact_two_threads :
    ∃ (state : IoState Bool) (last : SfsFs),
      run (guarded (ioStep fifthFails 3) (wordTest 3)) wordThreads (unlocked emptyDevice) = some state ∧
      state.returned.map (fun pair => pair.2.ret) = [0, 0] ∧
      Serial (WordEffect fifthFails) emptyVolume state.returned last ∧ Agrees 3 last state.shared := by
  have completed : (run (guarded (ioStep fifthFails 3) (wordTest 3)) wordThreads (unlocked emptyDevice)).map
      (fun state => (state.returned.map fun pair => pair.2.ret, decide (∀ thread, (state.system.inside thread).isNone))) =
      some ([0, 0], true) := by
    decide
  obtain ⟨state, ran, isState⟩ := Option.map_eq_some_iff.mp completed
  obtain ⟨answers, free⟩ := Prod.mk.inj isState
  have reached := guarded_reaches (wordTest_sound 3) _ _ _ ran
  have agrees : Agrees 3 emptyVolume emptyDevice := ⟨rfl, rfl, fun _ _ _ _ => rfl⟩
  obtain ⟨last, serial, same⟩ := word_io_exact (by decide) agrees reached
  refine ⟨state, last, ran, answers, serial, same fun thread => ?_⟩
  exact Option.isNone_iff_eq_none.mp (of_decide_eq_true free thread)

end Ucore.SfsIo
