import Ucore.Sfs.Bitmap

/-!
# Blocks on disk

`kern/fs/sfs/sfs_io.c` reads and writes whole blocks and parts of blocks. A block is
kept in words of 32 bits, and lengths and offsets are counted in words. Each call of
the device may fail; a write that fails leaves the block as it was.
-/

namespace Ucore.Volume

/-- The words of a block. -/
abbrev Block := Nat → Nat

/-- `SFS_BLK_NENTRY`, the words in a block. -/
def sfsBlkNentry : Nat := 1024

/-- `SFS_NDIRECT` -/
def sfsNdirect : Nat := 12

def sfsBlknSuper : Nat := 0
def sfsBlknFreemap : Nat := 2

/-- `SFS_BLKBITS` -/
def sfsBlkbits : Nat := 32768

/-- `struct sfs_super`, with `info` in words. -/
structure Super where
  magic : Nat
  blocks : Nat
  unusedBlocks : Nat
  info : Nat → Nat

/-- `struct sfs_disk_inode` -/
structure DiskInode where
  size : Nat
  type : Nat
  nlinks : Nat
  blocks : Nat
  direct : Nat → Nat
  indirect : Nat

/-- `sizeof(struct sfs_disk_inode)` in words. -/
def diskInodeWords : Nat := 16

/-- The words of a disk inode; `type` and `nlinks` share one. -/
def DiskInode.words (din : DiskInode) : Block
  | 0 => din.size
  | 1 => din.type + din.nlinks * 65536
  | 2 => din.blocks
  | index + 3 => if index < sfsNdirect then din.direct index else if index = sfsNdirect then din.indirect else 0

def DiskInode.ofWords (words : Block) : DiskInode where
  size := words 0
  type := words 1 % 65536
  nlinks := words 1 / 65536
  blocks := words 2
  direct := fun index => words (index + 3)
  indirect := words 15

/-- The words of a superblock. -/
def Super.words (super : Super) : Block
  | 0 => super.magic
  | 1 => super.blocks
  | 2 => super.unusedBlocks
  | index + 3 => if index < 8 then super.info index else 0

/-- `struct sfs_fs`, and the disk with the number of calls the device has had. -/
structure SfsFs where
  super : Super
  superDirty : Bool
  freemap : Bitmap
  disk : Nat → Block
  calls : Nat

-- The result of each call of the device.
variable (device : Nat → Int)

/-- `sfs_rwblock_nolock`, with the buffer it leaves; `none` is a failed assertion. -/
def sfsRwblockNolock (fs : SfsFs) (buf : Block) (blkno : Nat) (write check : Bool) :
    Option (Int × Block × SfsFs) :=
  if (blkno ≠ 0 ∨ check = false) ∧ blkno < fs.super.blocks then
    if device fs.calls ≠ 0 then some (device fs.calls, buf, { fs with calls := fs.calls + 1 })
    else if write then
      some (0, buf, { fs with calls := fs.calls + 1, disk := Function.update fs.disk blkno buf })
    else some (0, fs.disk blkno, { fs with calls := fs.calls + 1 })
  else none

/-- `sfs_wblock`: block after block, from one buffer. -/
def sfsWblock (fs : SfsFs) (buf : Nat → Block) (blkno : Nat) : Nat → Option (Int × SfsFs)
  | 0 => some (0, fs)
  | nblks + 1 => do
      let (ret, _, fs) ← sfsRwblockNolock device fs (buf 0) blkno true true
      if ret ≠ 0 then some (ret, fs) else sfsWblock fs (fun index => buf (index + 1)) (blkno + 1) nblks

/-- `sfs_rbuf`, with the words it copies. -/
def sfsRbuf (fs : SfsFs) (len blkno offset : Nat) : Option (Except Int Block × SfsFs) :=
  if offset < sfsBlkNentry ∧ offset + len ≤ sfsBlkNentry then do
    let (ret, buffer, fs) ← sfsRwblockNolock device fs (fun _ => 0) blkno false true
    some (if ret = 0 then .ok fun index => buffer (offset + index) else .error ret, fs)
  else none

/-- `memcpy` into the words of a block. -/
def copyWords (block buf : Block) (len offset : Nat) : Block := fun index =>
  if offset ≤ index ∧ index < offset + len then buf (index - offset) else block index

/-- `sfs_wbuf` -/
def sfsWbuf (fs : SfsFs) (buf : Block) (len blkno offset : Nat) : Option (Int × SfsFs) :=
  if offset < sfsBlkNentry ∧ offset + len ≤ sfsBlkNentry then do
    let (ret, buffer, fs) ← sfsRwblockNolock device fs (fun _ => 0) blkno false true
    if ret ≠ 0 then some (ret, fs)
    else do
      let (ret, _, fs) ← sfsRwblockNolock device fs (copyWords buffer buf len offset) blkno true true
      some (ret, fs)
  else none

/-- `sfs_clear_block` -/
def sfsClearBlock (fs : SfsFs) (blkno nblks : Nat) : Option (Int × SfsFs) :=
  sfsWblock device fs (fun _ _ => 0) blkno nblks

/-- `sfs_sync_super` -/
def sfsSyncSuper (fs : SfsFs) : Option (Int × SfsFs) := do
  let (ret, _, fs) ← sfsRwblockNolock device fs fs.super.words sfsBlknSuper true false
  some (ret, fs)

/-- The words of the freemap, block by block. -/
def Bitmap.blocks (freemap : Bitmap) : Nat → Block := fun block index =>
  (freemap.map (block * sfsBlkNentry + index)).toNat

/-- `sfs_freemap_blocks` -/
def sfsFreemapBlocks (super : Super) : Nat := (super.blocks + sfsBlkbits - 1) / sfsBlkbits

/-- `sfs_sync_freemap` -/
def sfsSyncFreemap (fs : SfsFs) : Option (Int × SfsFs) :=
  sfsWblock device fs fs.freemap.blocks sfsBlknFreemap (sfsFreemapBlocks fs.super)

variable {device} {fs after : SfsFs} {buf : Block} {blkno len offset : Nat} {ret : Int}

/-- A read gives the block, or fails; nothing but the number of calls changes. -/
theorem rwblock_read {buffer : Block} {check : Bool}
    (called : sfsRwblockNolock device fs buf blkno false check = some (ret, buffer, after)) :
    after = { fs with calls := fs.calls + 1 } ∧ (ret = 0 → buffer = fs.disk blkno) := by
  unfold sfsRwblockNolock at called
  split at called
  · split at called
    · rename_i failed
      obtain ⟨rfl, rfl, rfl⟩ := called
      exact ⟨rfl, fun succeeded => absurd succeeded failed⟩
    · obtain ⟨rfl, rfl, rfl⟩ := called
      exact ⟨rfl, fun _ => rfl⟩
  · cases called

/-- A write changes the block, or fails. -/
theorem rwblock_write {buffer : Block} {check : Bool}
    (called : sfsRwblockNolock device fs buf blkno true check = some (ret, buffer, after)) :
    ret ≠ 0 ∧ after = { fs with calls := fs.calls + 1 } ∨
      ret = 0 ∧ after = { fs with calls := fs.calls + 1, disk := Function.update fs.disk blkno buf } := by
  unfold sfsRwblockNolock at called
  split at called
  · split at called
    · rename_i failed
      obtain ⟨rfl, rfl, rfl⟩ := called
      exact Or.inl ⟨failed, rfl⟩
    · obtain ⟨rfl, rfl, rfl⟩ := called
      exact Or.inr ⟨rfl, rfl⟩
  · cases called

/-- A read of a device that works gives the words. -/
theorem sfsRbuf_works (works : ∀ call, device call = 0) (inside : offset < sfsBlkNentry ∧ offset + len ≤ sfsBlkNentry)
    (isBlock : blkno ≠ 0 ∧ blkno < fs.super.blocks) : sfsRbuf device fs len blkno offset =
      some (.ok fun index => fs.disk blkno (offset + index), { fs with calls := fs.calls + 1 }) := by
  have accepted : (blkno ≠ 0 ∨ true = false) ∧ blkno < fs.super.blocks := ⟨Or.inl isBlock.1, isBlock.2⟩
  have ended : ¬ device fs.calls ≠ 0 := fun fails => fails (works _)
  simp only [sfsRbuf, if_pos inside, sfsRwblockNolock, if_pos accepted, if_neg ended]
  rfl

/-- `sfs_rbuf` copies words of the block, or fails. -/
theorem sfsRbuf_cases {result : Except Int Block} (called : sfsRbuf device fs len blkno offset = some (result, after)) :
    (∃ calls, after = { fs with calls }) ∧
      ∀ words, result = .ok words → words = fun index => fs.disk blkno (offset + index) := by
  unfold sfsRbuf at called
  split at called
  · obtain ⟨⟨ret, buffer, middle⟩, read, copied⟩ := Option.bind_eq_some_iff.mp called
    obtain ⟨rfl, isBlock⟩ := rwblock_read read
    obtain ⟨rfl, rfl⟩ := Prod.mk.inj (Option.some.inj copied)
    refine ⟨⟨_, rfl⟩, ?_⟩
    intro words isOk
    by_cases succeeded : ret = 0
    · simp only [succeeded, if_true] at isOk
      rw [← Except.ok.inj isOk, isBlock succeeded]
    · simp [succeeded] at isOk
  · cases called

/-- `sfs_wbuf` changes words of the block, or fails and changes none. -/
theorem sfsWbuf_cases (called : sfsWbuf device fs buf len blkno offset = some (ret, after)) :
    ∃ calls, ret ≠ 0 ∧ after = { fs with calls } ∨
      ret = 0 ∧ after = { fs with
        calls, disk := Function.update fs.disk blkno (copyWords (fs.disk blkno) buf len offset) } := by
  unfold sfsWbuf at called
  split at called
  · obtain ⟨⟨first, buffer, middle⟩, read, rest⟩ := Option.bind_eq_some_iff.mp called
    obtain ⟨rfl, isBlock⟩ := rwblock_read read
    by_cases failed : first = 0
    · simp only [failed, ne_eq, not_true_eq_false, if_false] at rest
      obtain ⟨⟨second, buffer', last⟩, written, isLast⟩ := Option.bind_eq_some_iff.mp rest
      obtain ⟨rfl, rfl⟩ := Prod.mk.inj (Option.some.inj isLast)
      rw [isBlock failed] at written
      exact ⟨fs.calls + 2, rwblock_write written⟩
    · simp only [ne_eq, failed, not_false_eq_true, if_true] at rest
      obtain ⟨rfl, rfl⟩ := Prod.mk.inj (Option.some.inj rest)
      exact ⟨_, Or.inl ⟨failed, rfl⟩⟩
  · cases called

/-- `sfs_clear_block` of one block fills it with zeros, or fails. -/
theorem sfsClearBlock_cases (called : sfsClearBlock device fs blkno 1 = some (ret, after)) :
    ∃ calls, ret ≠ 0 ∧ after = { fs with calls } ∨
      ret = 0 ∧ after = { fs with calls, disk := Function.update fs.disk blkno fun _ => 0 } := by
  simp only [sfsClearBlock, sfsWblock] at called
  obtain ⟨⟨first, buffer, middle⟩, written, isLast⟩ := Option.bind_eq_some_iff.mp called
  have same : (ret, after) = (first, middle) := by
    by_cases failed : first = 0
    · simpa [failed, eq_comm] using isLast
    · simpa [failed, eq_comm] using isLast
  obtain ⟨rfl, rfl⟩ := Prod.mk.inj same
  exact ⟨fs.calls + 1, rwblock_write written⟩

end Ucore.Volume
