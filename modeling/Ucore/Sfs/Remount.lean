import Ucore.Sfs.Formatted

/-!
# From one mount to the next

A volume is used, synchronized and mounted again. What differs from the disk is marked, so that a
synchronized volume is on disk as a whole, and the next mount finds it as it was.
-/

namespace Ucore.Volume

open Ownership Transition

variable {device : Nat → Int} {volume next : Mounted} {fs after : SfsFs} {sin : SfsInode} {ino : Nat}

/-- `sfs_unmount`, with the inodes of `inode_list`; `none` is the failed assertion. -/
def sfsUnmount (fs : SfsFs) (inodes : List SfsInode) : Option Int :=
  if inodes ≠ [] then some (-eBusy) else if fs.superDirty then none else some 0

/-- The inodes of `inode_list`. -/
structure Lists (volume : Mounted) (inodes : List SfsInode) : Prop where
  nodup : (inodes.map SfsInode.ino).Nodup
  all : ∀ ino sin, volume.inodes ino = some sin ↔ sin ∈ inodes ∧ sin.ino = ino

/-- A volume without inodes in memory. -/
def remounted (fs : SfsFs) (files : Finset Nat) : Mounted := ⟨fs, fun _ => none, files⟩

/-- The files of a volume as they were: their inodes, the blocks that they name, and what is in these. -/
structure SameFiles (volume next : Mounted) : Prop where
  files : next.files = volume.files
  din : ∀ ino ∈ volume.files, Alike (next.din ino) (volume.din ino) ∧ (next.din ino).size = (volume.din ino).size
  names : next.names = volume.names
  contents : ∀ ino place block, place ≠ .inode → volume.names ino place = some block → next.fs.disk block = volume.fs.disk block

/-- The same superblock and the same bits of the freemap. -/
structure SameSuper (fs after : SfsFs) : Prop where
  magic : after.super.magic = fs.super.magic
  blocks : after.super.blocks = fs.super.blocks
  unusedBlocks : after.super.unusedBlocks = fs.super.unusedBlocks
  info : ∀ index < 8, after.super.info index = fs.super.info index
  nbits : after.freemap.nbits = fs.freemap.nbits
  bits : ∀ index < fs.freemap.nbits, after.freemap.bit index = fs.freemap.bit index

/-- An inode of the volume is none of the reserved blocks. -/
theorem Formatted.file_free (formatted : Formatted volume) (member : ino ∈ volume.files) : ¬ volume.fs.Reserved ino := by
  intro reserved
  refine (formatted.reserved ino reserved).2 ino .inode ?_
  simp [Mounted.names, member, Volume.names]

theorem Formatted.separate (formatted : Formatted volume) {inodes : List SfsInode} (lists : Lists volume inodes) :
    Separate volume.fs inodes := by
  refine ⟨lists.nodup, fun sin member => ?_⟩
  have isIn := (lists.all sin.ino sin).mpr ⟨member, rfl⟩
  have free := formatted.file_free (formatted.consistent.loaded sin.ino sin isIn).1
  rw [SfsFs.Reserved, not_or, not_and, not_lt] at free
  refine ⟨free.1, ?_⟩
  by_cases below : sin.ino < sfsBlknFreemap
  · exact Or.inl below
  · exact Or.inr (free.2 (by omega))

/-- A clean inode is on disk with all its words. -/
theorem onDisk_same {block : Block} {din : DiskInode} (same : SameInode (.ofWords block) din)
    (type : (DiskInode.ofWords block).type = din.type) (nlinks : (DiskInode.ofWords block).nlinks = din.nlinks) :
    ∀ index < diskInodeWords, block index = din.words index := by
  intro index small
  match index with
  | 0 => exact same.size
  | 1 =>
    show block 1 = din.type + din.nlinks * 65536
    rw [← type, ← nlinks]
    show block 1 = block 1 % 65536 + block 1 / 65536 * 65536
    omega
  | 2 => exact same.blocks
  | index + 3 =>
    simp only [DiskInode.words]
    by_cases direct : index < sfsNdirect
    · rw [if_pos direct]
      exact same.pointers.1 index direct
    · have last : index = sfsNdirect := by
        simp only [sfsNdirect, diskInodeWords] at small direct ⊢
        omega
      rw [if_neg direct, if_pos last, last]
      exact same.pointers.2

/-- The words of an inode that are on disk give it back. -/
theorem alike_onDisk {block : Block} {din : DiskInode} (small : din.type < 65536)
    (onDisk : ∀ index < diskInodeWords, block index = din.words index) :
    Alike (.ofWords block) din ∧ (DiskInode.ofWords block).size = din.size := by
  have isWord : block 1 = din.type + din.nlinks * 65536 := onDisk 1 (by decide)
  have pointers := ofWords_words din
  refine ⟨⟨?_, ?_, onDisk 2 (by decide), fun index inside => ?_, ?_⟩, onDisk 0 (by decide)⟩
  · simp only [DiskInode.ofWords, isWord]
    omega
  · simp only [DiskInode.ofWords, isWord]
    omega
  · rw [← pointers.1 index inside]
    exact onDisk (index + 3) (by simp only [sfsNdirect, diskInodeWords] at inside ⊢; omega)
  · rw [← pointers.2]
    exact onDisk 15 (by decide)

/-! ## The synchronization -/

/-- A transfer of a block of the file system returns. -/
theorem rwblock_returns {buf : Block} {blkno : Nat} {write check : Bool}
    (isBlock : (blkno ≠ 0 ∨ check = false) ∧ blkno < fs.super.blocks) :
    ∃ ret buffer calls disk, sfsRwblockNolock device fs buf blkno write check = some (ret, buffer, { fs with calls, disk }) := by
  rw [sfsRwblockNolock, if_pos isBlock]
  split
  · exact ⟨_, _, _, fs.disk, rfl⟩
  · split
    · exact ⟨_, _, _, _, rfl⟩
    · exact ⟨_, _, _, fs.disk, rfl⟩

theorem sfsWblock_returns {blocks : Nat → Block} {blkno nblks : Nat} (nonzero : blkno ≠ 0)
    (fits : blkno + nblks ≤ fs.super.blocks) :
    ∃ ret calls disk, sfsWblock device fs blocks blkno nblks = some (ret, { fs with calls, disk }) := by
  induction nblks generalizing fs blocks blkno with
  | zero => exact ⟨0, fs.calls, fs.disk, rfl⟩
  | succ nblks ih =>
    obtain ⟨ret, buffer, calls, disk, written⟩ := @rwblock_returns device fs (blocks 0) blkno true true
      ⟨Or.inl nonzero, by omega⟩
    rw [sfsWblock, written]
    simp only [Option.bind_eq_bind, Option.bind_some]
    split
    · exact ⟨ret, calls, disk, rfl⟩
    · exact ih (Nat.succ_ne_zero _) (show blkno + 1 + nblks ≤ fs.super.blocks by omega)

theorem sfsFsync_returns (isBlock : sin.ino ≠ 0 ∧ sin.ino < fs.super.blocks) :
    ∃ ret calls disk sinAfter, sfsFsync device fs sin = some (ret, { fs with calls, disk }, sinAfter) := by
  have accepted : (sin.ino ≠ 0 ∨ true = false) ∧ sin.ino < fs.super.blocks := ⟨Or.inl isBlock.1, isBlock.2⟩
  have inside : (0 : Nat) < sfsBlkNentry ∧ 0 + diskInodeWords ≤ sfsBlkNentry := by decide
  unfold sfsFsync
  split
  · rw [sfsWbuf, if_pos inside]
    obtain ⟨ret, buffer, calls, disk, read⟩ := @rwblock_returns device fs (fun _ => 0) sin.ino false true accepted
    rw [read]
    simp only [Option.bind_eq_bind, Option.bind_some]
    split
    · exact ⟨ret, calls, disk, _, rfl⟩
    · obtain ⟨second, buffer', calls', disk', written⟩ := @rwblock_returns device { fs with calls, disk }
        (copyWords buffer sin.din.words diskInodeWords 0) sin.ino true true accepted
      rw [written]
      exact ⟨second, calls', disk', _, rfl⟩
  · exact ⟨0, fs.calls, fs.disk, sin, rfl⟩

theorem syncInodes_returns {inodes : List SfsInode} (areBlocks : ∀ sin ∈ inodes, sin.ino ≠ 0 ∧ sin.ino < fs.super.blocks) :
    ∃ calls disk inodesAfter, syncInodes device fs inodes = some ({ fs with calls, disk }, inodesAfter) := by
  induction inodes generalizing fs with
  | nil => exact ⟨fs.calls, fs.disk, [], rfl⟩
  | cons sin rest ih =>
    obtain ⟨ret, calls, disk, sinAfter, synced⟩ := @sfsFsync_returns device fs sin (areBlocks sin List.mem_cons_self)
    obtain ⟨calls', disk', restAfter, walked⟩ := @ih { fs with calls, disk } fun sin member =>
      areBlocks sin (List.mem_cons_of_mem _ member)
    refine ⟨calls', disk', sinAfter :: restAfter, ?_⟩
    rw [syncInodes, synced]
    simp only [Option.bind_eq_bind, Option.bind_some, walked]

/-- Behind the walk `sfs_sync` returns; when it succeeds, the superblock is clean. -/
theorem syncSuper_returns (positive : 0 < fs.super.blocks) (fits : sfsBlknFreemap + sfsFreemapBlocks fs.super ≤ fs.super.blocks) :
    ∃ ret calls disk dirty, syncSuper device fs = some (ret, { fs with calls, disk, superDirty := dirty }) ∧
      (ret = 0 → dirty = false) := by
  unfold syncSuper
  split
  · obtain ⟨ret, buffer, calls, disk, written⟩ := @rwblock_returns device { fs with superDirty := false } fs.super.words
      sfsBlknSuper true false ⟨Or.inr rfl, positive⟩
    have wroteSuper : sfsSyncSuper device { fs with superDirty := false } =
        some (ret, { fs with superDirty := false, calls, disk }) := by
      rw [sfsSyncSuper, written]
      rfl
    rw [wroteSuper]
    simp only [Option.bind_eq_bind, Option.bind_some]
    split
    · rename_i failed
      exact ⟨ret, calls, disk, true, rfl, fun zero => absurd zero failed⟩
    · obtain ⟨second, calls', disk', wroteFreemap⟩ := @sfsWblock_returns device { fs with superDirty := false, calls, disk }
        fs.freemap.blocks sfsBlknFreemap (sfsFreemapBlocks fs.super) (by decide) fits
      rw [sfsSyncFreemap, wroteFreemap]
      simp only [Option.bind_some]
      split
      · rename_i failed
        exact ⟨second, calls', disk', true, rfl, fun zero => absurd zero failed⟩
      · exact ⟨0, calls', disk', false, rfl, fun _ => rfl⟩
  · rename_i clean
    exact ⟨0, fs.calls, fs.disk, fs.superDirty, rfl, fun _ => by simpa using clean⟩

/-- What `sfs_sync` makes of a volume: everything is on disk, and only the blocks of inodes and the reserved ones are written. -/
structure Synchronized (volume : Mounted) (inodes : List SfsInode) (after : SfsFs) (inodesAfter : List SfsInode) : Prop where
  super : after.super = volume.fs.super
  freemap : after.freemap = volume.fs.freemap
  clean : after.superDirty = false
  same : inodesAfter.map (fun sin => (sin.ino, sin.din)) = inodes.map (fun sin => (sin.ino, sin.din))
  durable : Durable after inodesAfter
  elsewhere : ∀ block, block ∉ inodes.map SfsInode.ino → ¬ volume.fs.Reserved block → after.disk block = volume.fs.disk block

theorem walkCalls_le (device : Nat → Int) (inodes : List SfsInode) (call : Nat) : call ≤ walkCalls device call inodes := by
  induction inodes generalizing call with
  | nil => exact Nat.le_refl call
  | cons sin rest ih =>
    refine Nat.le_trans ?_ (ih _)
    split
    · split <;> omega
    · exact Nat.le_refl call

/-- On a device that works from now on, `sfs_sync` succeeds. -/
theorem Formatted.sync (formatted : Formatted volume) {inodes : List SfsInode} (lists : Lists volume inodes)
    (works : ∀ call, volume.fs.calls ≤ call → device call = 0) :
    ∃ after inodesAfter, sfsSync device volume.fs inodes = some (0, after, inodesAfter) ∧
      Synchronized volume inodes after inodesAfter := by
  have separate := formatted.separate lists
  have listed : ∀ sin ∈ inodes, volume.inodes sin.ino = some sin := fun sin member => (lists.all sin.ino sin).mpr ⟨member, rfl⟩
  have areBlocks : ∀ sin ∈ inodes, sin.ino ≠ 0 ∧ sin.ino < volume.fs.super.blocks := fun sin member =>
    ⟨(separate.2 sin member).1, formatted.inRange _ (formatted.consistent.loaded sin.ino sin (listed sin member)).1⟩
  obtain ⟨calls, disk, inodesAfter, walked⟩ := @syncInodes_returns device volume.fs inodes areBlocks
  obtain ⟨ret, calls', disk', dirty, called, clean⟩ := @syncSuper_returns device { volume.fs with calls, disk }
    formatted.positive formatted.fits
  have synced : sfsSync device volume.fs inodes =
      some (ret, { volume.fs with calls := calls', disk := disk', superDirty := dirty }, inodesAfter) := by
    rw [sfsSync, walked]
    simp only [Option.bind_eq_bind, Option.bind_some, called]
  obtain ⟨⟨disk'', isWalked⟩, same, elsewhere, _⟩ := syncInodes_exact separate.1 walked
  obtain ⟨isRet, outside, _⟩ := syncSuper_exact called
  have isCalls : calls = walkCalls device volume.fs.calls inodes := congrArg SfsFs.calls isWalked
  have later : ∀ call, calls ≤ call → device call = 0 := fun call behind =>
    works call (Nat.le_trans (isCalls ▸ walkCalls_le device inodes volume.fs.calls) behind)
  have succeeded : ret = 0 := by
    rw [isRet]
    rintro ⟨_, block, _, failed⟩
    exact failed (later _ (Nat.le_add_right _ _))
  have honest : SyncHonest device volume.fs inodes := by
    refine Or.inr ⟨?_, ?_⟩
    · rintro front sin back rfl
      have behind := walkCalls_le device front volume.fs.calls
      have isIn := listed sin (by simp)
      cases isDirty : sin.dirty with
      | true => exact Or.inr ⟨isDirty, works _ behind, works _ (Nat.le_succ_of_le behind)⟩
      | false =>
        have typed := formatted.typed sin.ino sin isIn
        exact Or.inl (onDisk_same (formatted.synced sin.ino sin isIn isDirty) typed.1 typed.2)
    · cases isDirty : volume.fs.superDirty with
      | true => exact Or.inl rfl
      | false => exact Or.inr (formatted.onDisk isDirty)
  subst succeeded
  refine ⟨_, inodesAfter, synced, rfl, rfl, clean rfl, same,
    (sync_durable device volume.fs inodes separate 0 _ inodesAfter synced).mpr honest rfl, ?_⟩
  intro block unlisted free
  rw [SfsFs.Reserved, not_or, not_and, not_lt] at free
  have notFreemap : block < sfsBlknFreemap ∨ sfsBlknFreemap + sfsFreemapBlocks volume.fs.super ≤ block := by
    by_cases below : block < sfsBlknFreemap
    · exact Or.inl below
    · exact Or.inr (free.2 (by omega))
  exact (outside block free.1 notFreemap).trans (elsewhere block unlisted)

/-! ## The next mount -/

/-- The superblock that a mount reads is the one that was written. -/
theorem SuperOnDisk.super (onDisk : SuperOnDisk fs) (info : fs.super.info 7 < 16777216) :
    (Super.ofWords (fs.disk sfsBlknSuper)).magic = fs.super.magic ∧
      (Super.ofWords (fs.disk sfsBlknSuper)).blocks = fs.super.blocks ∧
      (Super.ofWords (fs.disk sfsBlknSuper)).unusedBlocks = fs.super.unusedBlocks ∧
      ∀ index < 8, (Super.ofWords (fs.disk sfsBlknSuper)).info index = fs.super.info index := by
  obtain ⟨words, _⟩ := onDisk
  refine ⟨words 0 (by decide), words 1 (by decide), words 2 (by decide), fun index small => ?_⟩
  have isWord : fs.disk sfsBlknSuper (index + 3) = fs.super.info index := by
    rw [words (index + 3) (by simp only [superWords]; omega)]
    exact if_pos small
  simp only [Super.ofWords]
  split
  · rename_i last
    subst last
    rw [isWord]
    exact Nat.mod_eq_of_lt info
  · exact isWord

/-- The freemap that a mount reads is the one that was written. -/
theorem SuperOnDisk.bits (onDisk : SuperOnDisk fs) {index : Nat} (inside : index < sfsFreemapBits fs.super) :
    diskBit fs.disk index = fs.freemap.bit index := by
  have inBlocks : index / wordBits / sfsBlkNentry < sfsFreemapBlocks fs.super := by
    simp only [sfsFreemapBits, sfsFreemapBlocks, sfsBlkbits, wordBits, sfsBlkNentry] at inside ⊢
    omega
  have inBlock : index / wordBits % sfsBlkNentry < sfsBlkNentry := Nat.mod_lt _ (by decide)
  have isWord : index / wordBits / sfsBlkNentry * sfsBlkNentry + index / wordBits % sfsBlkNentry = index / wordBits :=
    Nat.div_add_mod' _ _
  rw [diskBit, diskFreemap, onDisk.2 _ inBlocks _ inBlock, Bitmap.blocks, isWord, BitVec.ofNat_toNat, BitVec.setWidth_eq]
  rfl

theorem SuperOnDisk.counts (onDisk : SuperOnDisk fs) (info : fs.super.info 7 < 16777216) (counted : fs.Counted)
    (nbits : fs.freemap.nbits = sfsFreemapBits fs.super) (nwords : wordBits * fs.freemap.nwords = fs.freemap.nbits) :
    CountsUnused fs.disk := by
  obtain ⟨_, blocks, unused, _⟩ := onDisk.super info
  have isBits : sfsFreemapBits (Super.ofWords (fs.disk sfsBlknSuper)) = sfsFreemapBits fs.super := by
    rw [sfsFreemapBits, blocks, sfsFreemapBits]
  rw [CountsUnused, isBits, unused, counted, Bitmap.setBits, nwords, nbits]
  refine congrArg Finset.card (Finset.filter_congr fun index member => ?_)
  rw [onDisk.bits (Finset.mem_range.mp member)]

/-- The blocks that inodes name besides their own are not written by `sfs_sync`. -/
theorem Formatted.unwritten (formatted : Formatted volume) {inodes inodesAfter : List SfsInode} (lists : Lists volume inodes)
    (synchronized : Synchronized volume inodes after inodesAfter) {place : Place} {block : Nat} (notInode : place ≠ .inode)
    (named : volume.names ino place = some block) : after.disk block = volume.fs.disk block := by
  refine synchronized.elsewhere block (fun listed => ?_) fun reserved => (formatted.reserved block reserved).2 ino place named
  obtain ⟨sin, member, rfl⟩ := List.mem_map.mp listed
  have isIn := (lists.all sin.ino sin).mpr ⟨member, rfl⟩
  have inside := (formatted.consistent.loaded sin.ino sin isIn).1
  have isInode : volume.names sin.ino .inode = some sin.ino := by simp [Mounted.names, inside, Volume.names]
  exact notInode (formatted.consistent.partitioned.once named isInode).2

/-- The inodes on disk are those in force. -/
theorem Formatted.alike (formatted : Formatted volume) {inodes inodesAfter : List SfsInode} (lists : Lists volume inodes)
    (synchronized : Synchronized volume inodes after inodesAfter) (member : ino ∈ volume.files) :
    Alike (.ofWords (after.disk ino)) (volume.din ino) ∧ (DiskInode.ofWords (after.disk ino)).size = (volume.din ino).size := by
  cases isIn : volume.inodes ino with
  | none =>
    have unlisted : ino ∉ inodes.map SfsInode.ino := by
      intro listed
      obtain ⟨sin, inList, rfl⟩ := List.mem_map.mp listed
      rw [(lists.all sin.ino sin).mpr ⟨inList, rfl⟩] at isIn
      cases isIn
    rw [synchronized.elsewhere ino unlisted (formatted.file_free member)]
    have isDin : volume.din ino = .ofWords (volume.fs.disk ino) := by simp [Mounted.din, isIn]
    exact isDin ▸ ⟨Alike.refl _, rfl⟩
  | some sin =>
    obtain ⟨inList, isIno⟩ := (lists.all ino sin).mp isIn
    have isDin : volume.din ino = sin.din := by simp [Mounted.din, isIn]
    have pair : (sin.ino, sin.din) ∈ inodesAfter.map fun sin => (sin.ino, sin.din) :=
      synchronized.same ▸ List.mem_map_of_mem inList
    obtain ⟨sinAfter, inAfter, isSame⟩ := List.mem_map.mp pair
    obtain ⟨sameIno, sameDin⟩ := Prod.mk.inj isSame
    have onDisk := synchronized.durable.1 sinAfter inAfter
    rw [InodeOnDisk, sameIno, sameDin, isIno] at onDisk
    rw [isDin]
    exact alike_onDisk (formatted.typed ino sin isIn).small onDisk

theorem Formatted.sameFiles (formatted : Formatted volume) {inodes inodesAfter : List SfsInode} (lists : Lists volume inodes)
    (synchronized : Synchronized volume inodes after inodesAfter) (isDisk : fs.disk = after.disk) :
    SameFiles volume (remounted fs volume.files) := by
  have isDin : ∀ other, (remounted fs volume.files).din other = .ofWords (after.disk other) := by
    intro other
    rw [← isDisk]
    rfl
  refine ⟨rfl, fun other member => isDin other ▸ formatted.alike lists synchronized member, ?_, ?_⟩
  · funext other
    by_cases member : other ∈ volume.files
    · have same := (formatted.alike lists synchronized member).1.pointers
      have sameIndirect : (volume.din other).indirect ≠ 0 →
          after.disk (volume.din other).indirect = volume.fs.disk (volume.din other).indirect := by
        intro nonzero
        have named : volume.names other .indirect = some (volume.din other).indirect := by
          simp [Mounted.names, member, Volume.names, pointer_nonzero nonzero]
        exact formatted.unwritten lists synchronized (by simp) named
      funext place
      have isMember : other ∈ (remounted fs volume.files).files := member
      rw [Mounted.names, if_pos isMember, isDin, Mounted.names, if_pos member, ← names_congr sameIndirect, names_same same]
      exact congrArg (fun disk => Volume.names disk other _ place) isDisk
    · funext place
      simp [Mounted.names, remounted, member]
  · intro other place block notInode named
    show fs.disk block = volume.fs.disk block
    rw [isDisk]
    exact formatted.unwritten lists synchronized notInode named

/-- In every run from a formatted volume whose growths fail only marked, once the device works `sfs_sync` succeeds,
`sfs_unmount` does not fail its assertion, and the next mount finds the superblock, the freemap and all files as they were. -/
theorem sync_remount (device : Nat → Int) (start volume : Mounted) (formatted : Formatted start)
    (reached : Reaches (volumeStep device) (Persists device) start volume) (inodes : List SfsInode) (lists : Lists volume inodes)
    (works : ∀ call, volume.fs.calls ≤ call → device call = 0) :
    ∃ after inodesAfter, sfsSync device volume.fs inodes = some (0, after, inodesAfter) ∧
      sfsUnmount after inodesAfter = some (if inodes = [] then 0 else -eBusy) ∧
      ∀ next memory dBlocks, volume.fs.super.blocks ≤ dBlocks → (∀ call, next call = 0) → (∀ call, memory call = true) →
        ∃ fs, sfsDoMount next memory sfsBlksize dBlocks after.disk = some (.ok fs) ∧ SameSuper volume.fs fs ∧
          SameFiles volume (remounted fs volume.files) := by
  have kept : Formatted volume := reached.invariant formatted persists_keeps
  obtain ⟨after, inodesAfter, synced, synchronized⟩ := kept.sync lists works
  refine ⟨after, inodesAfter, synced, ?_, ?_⟩
  · have isEmpty : inodesAfter = [] ↔ inodes = [] := by
      have same := congrArg List.length synchronized.same
      rw [List.length_map, List.length_map] at same
      rw [← List.length_eq_zero_iff, same, List.length_eq_zero_iff]
    unfold sfsUnmount
    by_cases empty : inodes = []
    · simp [isEmpty.mpr empty, empty, synchronized.clean]
    · have notEmpty : inodesAfter ≠ [] := fun none => empty (isEmpty.mp none)
      simp [notEmpty, empty]
  · intro next memory dBlocks fits reads available
    have onDisk := synchronized.durable.2
    have info : after.super.info 7 < 16777216 := synchronized.super ▸ kept.info
    have counted : after.Counted := by
      rw [SfsFs.Counted, synchronized.super, synchronized.freemap]
      exact kept.consistent.counted
    have nbits : after.freemap.nbits = sfsFreemapBits after.super := by
      rw [synchronized.super, synchronized.freemap]
      exact kept.nbits
    have nwords : wordBits * after.freemap.nwords = after.freemap.nbits := by
      rw [synchronized.freemap]
      exact kept.nwords
    obtain ⟨magic, blocks, unused, infos⟩ := onDisk.super info
    have isBits : sfsFreemapBits (Super.ofWords (after.disk sfsBlknSuper)) = sfsFreemapBits volume.fs.super := by
      rw [sfsFreemapBits, blocks, synchronized.super, sfsFreemapBits]
    rw [synchronized.super] at magic blocks unused infos
    have small : sfsFreemapBits (Super.ofWords (after.disk sfsBlknSuper)) < 2 ^ 32 := by
      rw [isBits]
      exact kept.small
    obtain ⟨result, mounted, isOk, from'⟩ := @sfsDoMount_counts next memory after.disk sfsBlksize dBlocks
      (onDisk.counts info counted nbits nwords) (magic.trans kept.magic) (blocks ▸ kept.positive) small
    obtain ⟨fs, rfl⟩ := isOk ⟨rfl, Nat.le_trans (Nat.le_of_eq blocks) fits, reads, available⟩
    have fromDisk := from' fs rfl
    refine ⟨fs, mounted, ?_, kept.sameFiles lists synchronized fromDisk.sameDisk⟩
    have sameBits : fs.freemap.nbits = volume.fs.freemap.nbits := by
      rw [fromDisk.nbits, fromDisk.super, isBits, kept.nbits]
    refine ⟨?_, ?_, ?_, ?_, sameBits, fun index inside => ?_⟩
    · rw [fromDisk.super, magic]
    · rw [fromDisk.super, blocks]
    · rw [fromDisk.super, unused]
    · intro index small
      rw [fromDisk.super, infos index small]
    · rw [fromDisk.bits index (sameBits ▸ inside), onDisk.bits (by rw [synchronized.super, ← kept.nbits]; exact inside),
        synchronized.freemap]

/-! ## A volume with two files -/

theorem block_covers : 32768 ≤ wordBits * 1024 := by decide

/-- The blocks of a disk with a superblock, a freemap and two empty files, of 32 blocks in all. -/
def formattedDisk (block index : Nat) : Nat :=
  if block = 0 then if index = 0 then sfsMagic else if index = 1 then 32 else if index = 2 then 27 else 0
  else if block = 2 ∧ index = 0 then 0xFFFFFFE0
  else if (block = 3 ∨ block = 4) ∧ index = 1 then 65537
  else 0

/-- The volume on this disk, with the first file in memory. -/
def formattedVolume : Mounted where
  fs := {
    super := { magic := sfsMagic, blocks := 32, unusedBlocks := 27, info := fun _ => 0 }
    superDirty := false
    freemap := { nbits := 32768, nwords := 1024, map := fun ix => if ix = 0 then 0xFFFFFFE0#32 else 0, covered := block_covers }
    disk := formattedDisk
    calls := 0 }
  inodes := fun ino => if ino = 3 then some (emptyFile 3 1) else none
  files := {3, 4}

theorem formattedVolume_din {ino : Nat} (member : ino ∈ formattedVolume.files) :
    formattedVolume.din ino = (emptyFile ino 1).din ∧ (ino = 3 ∨ ino = 4) := by
  have isFile : ino = 3 ∨ ino = 4 := by simpa [formattedVolume] using member
  refine ⟨?_, isFile⟩
  rcases isFile with rfl | rfl
  · rfl
  · have direct : (fun index => formattedDisk 4 (index + 3)) = fun _ => 0 := by
      funext index
      simp [formattedDisk]
    show DiskInode.mk _ _ _ _ (fun index => formattedDisk 4 (index + 3)) _ = _
    rw [direct]
    rfl

theorem formattedVolume_names {ino block : Nat} {place : Place} (named : formattedVolume.names ino place = some block) :
    place = .inode ∧ block = ino ∧ (ino = 3 ∨ ino = 4) := by
  simp only [Mounted.names] at named
  split at named
  · rename_i member
    obtain ⟨isDin, isFile⟩ := formattedVolume_din member
    rw [isDin] at named
    cases place with
    | inode => exact ⟨rfl, (Option.some.inj named).symm, isFile⟩
    | direct index => simp [Volume.names, emptyFile] at named
    | indirect => simp [Volume.names, emptyFile] at named
    | entry index => simp [Volume.names, emptyFile] at named
  · cases named

theorem formattedVolume_loaded {ino : Nat} {sin : SfsInode} (isIn : formattedVolume.inodes ino = some sin) :
    ino = 3 ∧ sin = emptyFile 3 1 := by
  simp only [formattedVolume] at isIn
  split at isIn
  · rename_i isThree
    exact ⟨isThree, (Option.some.inj isIn).symm⟩
  · cases isIn

theorem formattedVolume_counted : formattedVolume.fs.Counted := by
  have few : ((Finset.range (wordBits * 1024)).filter fun index => formattedVolume.fs.freemap.bit index = true) =
      (Finset.range 32).filter fun index => formattedVolume.fs.freemap.bit index = true := by
    ext index
    simp only [Finset.mem_filter, Finset.mem_range]
    refine and_congr_left fun isSet => ?_
    have first : index / wordBits = 0 := by
      by_contra later
      simp [Bitmap.bit, formattedVolume, later] at isSet
    simp only [wordBits] at first ⊢
    omega
  have isCount : formattedVolume.fs.freemap.setBits =
      ((Finset.range 32).filter fun index => formattedVolume.fs.freemap.bit index = true).card := congrArg Finset.card few
  rw [SfsFs.Counted, isCount]
  decide +kernel

theorem formattedVolume_reserved {block : Nat} (reserved : formattedVolume.fs.Reserved block) : block = 0 ∨ block = 2 := by
  rcases reserved with isSuper | ⟨lower, upper⟩
  · exact Or.inl isSuper
  · have one : sfsFreemapBlocks formattedVolume.fs.super = 1 := by decide
    simp only [sfsBlknFreemap, one] at lower upper
    omega

theorem formattedVolume_formatted : Formatted formattedVolume where
  consistent := by
    refine ⟨?_, formattedVolume_counted, ?_, ?_⟩
    · intro owner
      constructor
      · intro place block named
        obtain ⟨_, rfl, rfl | rfl⟩ := formattedVolume_names named
        · rfl
        · rfl
      · intro place other block named same
        rw [(formattedVolume_names named).1, (formattedVolume_names same).1]
      · rintro place block named ⟨other, different, place', same⟩
        exact different ((formattedVolume_names same).2.1.symm.trans (formattedVolume_names named).2.1)
      · rintro block ⟨other, _, place, named⟩
        obtain ⟨_, rfl, rfl | rfl⟩ := formattedVolume_names named
        · rfl
        · rfl
    · intro ino sin isIn
      obtain ⟨rfl, rfl⟩ := formattedVolume_loaded isIn
      exact ⟨by decide, rfl⟩
    · intro ino sin isIn
      obtain ⟨rfl, rfl⟩ := formattedVolume_loaded isIn
      exact fun _ => ⟨fun _ _ => rfl, rfl⟩
  synced := by
    intro ino sin isIn _
    obtain ⟨rfl, rfl⟩ := formattedVolume_loaded isIn
    exact ⟨rfl, rfl, fun _ _ => rfl, rfl⟩
  typed := by
    intro ino sin isIn
    obtain ⟨rfl, rfl⟩ := formattedVolume_loaded isIn
    exact ⟨rfl, rfl⟩
  magic := rfl
  positive := by decide
  small := by decide
  info := by decide
  nbits := rfl
  nwords := rfl
  fits := by decide
  inRange := by decide
  reserved := by
    intro block reserved
    refine ⟨?_, fun ino place named => ?_⟩
    · rcases formattedVolume_reserved reserved with rfl | rfl
      · rfl
      · rfl
    · obtain ⟨_, rfl, rfl | rfl⟩ := formattedVolume_names named
      · rcases formattedVolume_reserved reserved with same | same <;> cases same
      · rcases formattedVolume_reserved reserved with same | same <;> cases same
  onDisk := by
    intro _
    refine ⟨by decide, fun block small index _ => ?_⟩
    obtain rfl : block = 0 := by
      have one : sfsFreemapBlocks formattedVolume.fs.super = 1 := by decide
      omega
    by_cases first : index = 0
    · simp [formattedVolume, formattedDisk, Bitmap.blocks, sfsBlknFreemap, first]
    · simp [formattedVolume, formattedDisk, Bitmap.blocks, sfsBlknFreemap, first]

theorem truncfile_elsewhere {len : Int} {other : Nat} (taken : volumeStep device volume (.truncfile ino len) = some next)
    (different : other ≠ ino) : next.inodes other = volume.inodes other := by
  obtain ⟨sin, _, rest⟩ := Option.bind_eq_some_iff.mp taken
  obtain ⟨⟨ret, after, sinAfter⟩, _, isNext⟩ := Option.bind_eq_some_iff.mp rest
  obtain rfl := Option.some.inj isNext
  exact Function.update_of_ne different _ _

/-- The second call of this device fails. -/
def secondFails (call : Nat) : Int := if call = 1 then -1 else 0

/-- A growth fails at its second block, and the file has one block after the next mount. -/
theorem sync_remount_grown : ∃ volume sin, volumeStep secondFails formattedVolume (.truncfile 3 5000) = some volume ∧
    volume.inodes 3 = some sin ∧ sin.din.blocks = 1 ∧
      ∃ after inodesAfter, sfsSync secondFails volume.fs [sin] = some (0, after, inodesAfter) ∧
        ∃ fs, sfsDoMount (fun _ => 0) (fun _ => true) 4096 32 after.disk = some (.ok fs) ∧
          SameSuper volume.fs fs ∧ SameFiles volume (remounted fs volume.files) := by
  have completed : (volumeStep secondFails formattedVolume (.truncfile 3 5000)).map
      (fun volume => ((volume.inodes 3).map fun sin => sin.din.blocks, volume.fs.calls, volume.fs.super.blocks)) =
        some (some 1, 2, 32) := by
    decide +kernel
  obtain ⟨volume, taken, results⟩ := Option.map_eq_some_iff.mp completed
  obtain ⟨isBlocks, isCalls, isSize⟩ : _ ∧ _ ∧ _ := by simpa using results
  obtain ⟨sin, isIn, blocks⟩ : ∃ sin, volume.inodes 3 = some sin ∧ sin.din.blocks = 1 := by simpa using isBlocks
  have allowed : Persists secondFails formattedVolume (.truncfile 3 5000) := by decide +kernel
  have reached : Reaches (volumeStep secondFails) (Persists secondFails) formattedVolume volume := .step .start allowed taken
  have formatted : Formatted volume := reached.invariant formattedVolume_formatted persists_keeps
  have isIno : sin.ino = 3 := (formatted.consistent.loaded 3 sin isIn).2
  have elsewhere : ∀ other, other ≠ 3 → volume.inodes other = none := fun other different =>
    (truncfile_elsewhere taken different).trans (if_neg different)
  have lists : Lists volume [sin] := by
    refine ⟨by simp, fun ino other => ?_⟩
    rw [List.mem_singleton]
    by_cases same : ino = 3
    · subst same
      rw [isIn]
      exact ⟨fun isSame => ⟨(Option.some.inj isSame).symm, Option.some.inj isSame ▸ isIno⟩, fun isSame => congrArg some isSame.1.symm⟩
    · rw [elsewhere ino same]
      refine iff_of_false (by simp) ?_
      rintro ⟨rfl, isThree⟩
      exact same (isThree.symm.trans isIno)
  have works : ∀ call, volume.fs.calls ≤ call → secondFails call = 0 := by
    intro call later
    rw [isCalls] at later
    exact if_neg (by omega)
  obtain ⟨after, inodesAfter, synced, _, mounts⟩ := sync_remount secondFails formattedVolume volume formattedVolume_formatted
    reached [sin] lists works
  obtain ⟨fs, mounted, same, files⟩ := mounts (fun _ => 0) (fun _ => true) 32 (Nat.le_of_eq isSize) (fun _ => rfl) fun _ => rfl
  exact ⟨volume, sin, taken, isIn, blocks, after, inodesAfter, synced, fs, mounted, same, files⟩

end Ucore.Volume
