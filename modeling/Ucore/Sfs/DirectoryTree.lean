import Mathlib.Data.List.Find
import Ucore.Sfs.Directory
import Ucore.Sfs.VolumeRuns

/-!
# Trees of directories

A tree on a volume can be walked: its inodes and the entries of its directories can be read.
Inodes come into memory and leave it, and a dirty one is written when it leaves; the tree
stays what it is, wherever its inodes are.
-/

namespace Ucore.Volume

/-- Two disk inodes that differ in their sizes at most. -/
structure Alike (first second : DiskInode) : Prop where
  type : first.type = second.type
  nlinks : first.nlinks = second.nlinks
  blocks : first.blocks = second.blocks
  pointers : SamePointers first second

/-- The blocks of a directory: not among the inodes. -/
structure Apart (files : Finset Nat) (disk : Nat → Block) (din : DiskInode) : Prop where
  indirect : sfsNdirect < din.blocks → din.indirect ∉ files
  slots : ∀ slot < din.blocks, slotBlock disk din slot ∉ files

/-- The inodes of a volume have links and a type, their blocks are usable, and the entries
of directories can be read and name inodes. -/
structure Tree (volume : Mounted) : Prop where
  usable : ∀ ino ∈ volume.files, volume.fs.Usable ino
  linked : ∀ ino ∈ volume.files, (volume.din ino).nlinks ≠ 0
  typed : ∀ ino ∈ volume.files, (volume.din ino).type = sfsTypeDir ∨ (volume.din ino).type = sfsTypeFile
  readable : ∀ ino ∈ volume.files, (volume.din ino).type = sfsTypeDir → Readable volume.fs (volume.din ino)
  apart : ∀ ino ∈ volume.files, (volume.din ino).type = sfsTypeDir →
    Apart volume.files volume.fs.disk (volume.din ino)
  entries : ∀ ino ∈ volume.files, (volume.din ino).type = sfsTypeDir → ∀ slot < (volume.din ino).blocks,
    (entryAt volume.fs.disk (volume.din ino) slot).ino ≠ 0 →
      (entryAt volume.fs.disk (volume.din ino) slot).ino ∈ volume.files

/-- Inodes in memory are those of the tree, and a clean one is as on disk. -/
structure Cached (volume : Mounted) : Prop where
  loaded : ∀ ino sin, volume.inodes ino = some sin → ino ∈ volume.files ∧ sin.ino = ino
  synced : ∀ ino sin, volume.inodes ino = some sin → sin.dirty = false →
    Alike (.ofWords (volume.fs.disk ino)) sin.din

/-- Two volumes with the same tree. -/
structure SameTree (volume next : Mounted) : Prop where
  files : next.files = volume.files
  super : next.fs.super = volume.fs.super
  freemap : next.fs.freemap = volume.fs.freemap
  disk : ∀ block, block ∉ volume.files → next.fs.disk block = volume.fs.disk block
  din : ∀ ino ∈ volume.files, Alike (next.din ino) (volume.din ino)

variable {volume middle next : Mounted} {fs : SfsFs} {sin : SfsInode} {device : Nat → Int} {ino slot : Nat}
  {disk : Nat → Block} {first second third : DiskInode}

theorem Alike.refl (din : DiskInode) : Alike din din := ⟨rfl, rfl, rfl, fun _ _ => rfl, rfl⟩

theorem Alike.trans (left : Alike third second) (right : Alike second first) : Alike third first where
  type := left.type.trans right.type
  nlinks := left.nlinks.trans right.nlinks
  blocks := left.blocks.trans right.blocks
  pointers := ⟨fun index small => (left.pointers.1 index small).trans (right.pointers.1 index small),
    left.pointers.2.trans right.pointers.2⟩

theorem SameTree.refl (volume : Mounted) : SameTree volume volume :=
  ⟨rfl, rfl, rfl, fun _ _ => rfl, fun _ _ => Alike.refl _⟩

theorem SameTree.trans (left : SameTree volume middle) (right : SameTree middle next) : SameTree volume next where
  files := right.files.trans left.files
  super := right.super.trans left.super
  freemap := right.freemap.trans left.freemap
  disk := fun block outside => (right.disk block (left.files ▸ outside)).trans (left.disk block outside)
  din := fun ino member => (right.din ino (left.files ▸ member)).trans (left.din ino member)

theorem SameTree.usable (same : SameTree volume next) {block : Nat} (usable : volume.fs.Usable block) :
    next.fs.Usable block := by
  unfold SfsFs.Usable assertInuse sfsBlockInuse at *
  rw [same.super, same.freemap]
  exact usable

/-- A directory keeps the blocks of its slots. -/
theorem SameTree.slotBlock (same : SameTree volume next) (tree : Tree volume) (member : ino ∈ volume.files)
    (isDir : (volume.din ino).type = sfsTypeDir) (small : slot < (volume.din ino).blocks) :
    Volume.slotBlock next.fs.disk (next.din ino) slot = Volume.slotBlock volume.fs.disk (volume.din ino) slot := by
  obtain ⟨direct, indirect⟩ := (same.din ino member).pointers
  unfold Volume.slotBlock
  split
  · rename_i inside
    exact direct slot inside
  · rename_i outside
    have apart := (tree.apart ino member isDir).indirect (by omega)
    rw [indirect, same.disk _ apart]

/-- A directory keeps its entries. -/
theorem SameTree.entryAt (same : SameTree volume next) (tree : Tree volume) (member : ino ∈ volume.files)
    (isDir : (volume.din ino).type = sfsTypeDir) (small : slot < (volume.din ino).blocks) :
    Volume.entryAt next.fs.disk (next.din ino) slot = Volume.entryAt volume.fs.disk (volume.din ino) slot := by
  unfold Volume.entryAt
  rw [same.slotBlock tree member isDir small, same.disk _ ((tree.apart ino member isDir).slots slot small)]

/-- The same volume, elsewhere in memory, has a tree too. -/
theorem SameTree.tree (same : SameTree volume next) (tree : Tree volume) : Tree next where
  usable := fun ino member => same.usable (tree.usable ino (same.files ▸ member))
  linked := by
    intro ino member
    rw [same.files] at member
    rw [(same.din ino member).nlinks]
    exact tree.linked ino member
  typed := by
    intro ino member
    rw [same.files] at member
    rw [(same.din ino member).type]
    exact tree.typed ino member
  readable := by
    intro ino member isDir
    rw [same.files] at member
    have alike := same.din ino member
    rw [alike.type] at isDir
    obtain ⟨_, few, indirect, usable⟩ := tree.readable ino member isDir
    refine ⟨alike.type.trans isDir, alike.blocks ▸ few, fun many => ?_, fun slot small => ?_⟩
    · rw [alike.pointers.2]
      exact same.usable (indirect (alike.blocks ▸ many))
    · rw [alike.blocks] at small
      rw [same.slotBlock tree member isDir small]
      exact same.usable (usable slot small)
  apart := by
    intro ino member isDir
    rw [same.files] at member
    have alike := same.din ino member
    rw [alike.type] at isDir
    obtain ⟨indirect, slots⟩ := tree.apart ino member isDir
    refine ⟨fun many => ?_, fun slot small => ?_⟩
    · rw [alike.pointers.2, same.files]
      exact indirect (alike.blocks ▸ many)
    · rw [alike.blocks] at small
      rw [same.slotBlock tree member isDir small, same.files]
      exact slots slot small
  entries := by
    intro ino member isDir slot small
    rw [same.files] at member
    have alike := same.din ino member
    rw [alike.type] at isDir
    rw [alike.blocks] at small
    rw [same.entryAt tree member isDir small, same.files]
    exact tree.entries ino member isDir slot small

/-- The first slot that passes a test stays it. -/
theorem SameTree.firstSlot (same : SameTree volume next) (tree : Tree volume) (member : ino ∈ volume.files)
    (isDir : (volume.din ino).type = sfsTypeDir) (test : DiskEntry → Bool) :
    Volume.firstSlot next.fs.disk (next.din ino) 0 (next.din ino).blocks test =
      Volume.firstSlot volume.fs.disk (volume.din ino) 0 (volume.din ino).blocks test := by
  unfold Volume.firstSlot
  rw [(same.din ino member).blocks]
  apply List.find?_congr
  intro slot inside
  have small : slot < (volume.din ino).blocks := by simpa using inside
  rw [same.entryAt tree member isDir small]

/-! ## Inodes that come and go -/

/-- The disk inode in force of an inode in memory. -/
theorem din_of {volume : Mounted} (isIn : volume.inodes ino = some sin) : volume.din ino = sin.din := by
  simp [Mounted.din, isIn]

/-- Only calls of the device are counted. -/
theorem sameTree_called (calls : Nat) : SameTree volume { volume with fs := { volume.fs with calls } } :=
  ⟨rfl, rfl, rfl, fun _ _ => rfl, fun _ _ => Alike.refl _⟩

/-- An inode comes into memory, or changes there in what the tree does not see, and only
calls of the device are counted. -/
theorem sameTree_put {calls : Nat} (here : sin.din = volume.din ino) :
    SameTree volume (volume.put ino { volume.fs with calls } (some sin)) where
  files := rfl
  super := rfl
  freemap := rfl
  disk := fun _ _ => rfl
  din := by
    intro other _
    have same : Mounted.din (volume.put ino { volume.fs with calls } (some sin)) other = volume.din other := by
      by_cases isOther : other = ino
      · subst isOther
        rw [← here]
        simp [Mounted.din, Mounted.put]
      · simp [Mounted.din, Mounted.put, isOther]
    exact same ▸ Alike.refl _

theorem Cached.put (cached : Cached volume) {sinAfter : SfsInode} {calls : Nat} (member : ino ∈ volume.files)
    (isIno : sinAfter.ino = ino)
    (synced : sinAfter.dirty = false → Alike (.ofWords (volume.fs.disk ino)) sinAfter.din) :
    Cached (volume.put ino { volume.fs with calls } (some sinAfter)) where
  loaded := by
    intro other sin isIn
    by_cases same : other = ino
    · subst same
      obtain rfl : sinAfter = sin := by simpa [Mounted.put] using isIn
      exact ⟨member, isIno⟩
    · exact cached.loaded other sin (by simpa [Mounted.put, same] using isIn)
  synced := by
    intro other sin isIn notDirty
    by_cases same : other = ino
    · subst same
      obtain rfl : sinAfter = sin := by simpa [Mounted.put] using isIn
      exact synced notDirty
    · exact cached.synced other sin (by simpa [Mounted.put, same] using isIn) notDirty

/-- A write of words to a device that works. -/
theorem sfsWbuf_works (works : ∀ call, device call = 0) {buf : Block} {len blkno offset : Nat}
    (inside : offset < sfsBlkNentry ∧ offset + len ≤ sfsBlkNentry)
    (isBlock : blkno ≠ 0 ∧ blkno < fs.super.blocks) :
    sfsWbuf device fs buf len blkno offset = some (0, { fs with
      calls := fs.calls + 1 + 1
      disk := Function.update fs.disk blkno (copyWords (fs.disk blkno) buf len offset) }) := by
  have accepted : (blkno ≠ 0 ∨ true = false) ∧ blkno < fs.super.blocks := ⟨Or.inl isBlock.1, isBlock.2⟩
  have read : sfsRwblockNolock device fs (fun _ => 0) blkno false true =
      some (0, fs.disk blkno, { fs with calls := fs.calls + 1 }) := by
    simp only [sfsRwblockNolock, if_pos accepted, works, ne_eq, not_true_eq_false, if_false, Bool.false_eq_true]
  have written : ∀ words, sfsRwblockNolock device { fs with calls := fs.calls + 1 } words blkno true true =
      some (0, words, { fs with
        calls := fs.calls + 1 + 1
        disk := Function.update fs.disk blkno words }) := by
    intro words
    simp only [sfsRwblockNolock, if_pos accepted, works, ne_eq, not_true_eq_false, if_false, if_true]
  simp only [sfsWbuf, if_pos inside, read, written, Option.bind_eq_bind, Option.bind_some, ne_eq, not_true_eq_false,
    if_false]

/-- What `sfs_fsync` writes is read back, when the type fits into its 16 bits. -/
theorem alike_words (block : Block) {din : DiskInode} (small : din.type < 65536) :
    Alike (.ofWords (copyWords block din.words diskInodeWords 0)) din := by
  have same := ofWords_words din
  have isWord : copyWords block din.words diskInodeWords 0 1 = din.type + din.nlinks * 65536 := rfl
  refine ⟨?_, ?_, rfl, fun index inside => ?_, same.2⟩
  · simp only [DiskInode.ofWords, isWord]
    omega
  · simp only [DiskInode.ofWords, isWord]
    omega
  · have within : 0 ≤ index + 3 ∧ index + 3 < 0 + diskInodeWords := by
      simp only [sfsNdirect, diskInodeWords] at inside ⊢
      omega
    have written := same.1 index inside
    simpa only [DiskInode.ofWords, copyWords, within, and_self, if_true, Nat.sub_zero] using written

/-- What becomes of a volume when an inode is dropped, after it was written perhaps. -/
structure Dropped (ino : Nat) (volume next : Mounted) : Prop where
  tree : SameTree volume next
  cached : Cached next
  elsewhere : ∀ other, other ≠ ino → next.inodes other = volume.inodes other

/-- An inode whose block on disk is as it is in memory is dropped. -/
theorem Cached.drop (cached : Cached volume) {after : SfsFs} (member : ino ∈ volume.files)
    (isIn : volume.inodes ino = some sin) (super : after.super = volume.fs.super)
    (freemap : after.freemap = volume.fs.freemap)
    (disk : ∀ block, block ≠ ino → after.disk block = volume.fs.disk block)
    (alike : Alike (.ofWords (after.disk ino)) sin.din) : Dropped ino volume (volume.put ino after none) where
  tree := by
    refine ⟨rfl, super, freemap, fun block outside => disk block fun same => outside (same ▸ member), ?_⟩
    intro other _
    by_cases same : other = ino
    · subst same
      simpa [Mounted.din, Mounted.put, isIn] using alike
    · have sameDin : Mounted.din (volume.put ino after none) other = volume.din other := by
        simp [Mounted.din, Mounted.put, same, disk other same]
      exact sameDin ▸ Alike.refl _
  cached := by
    constructor
    · intro other sin isOther
      by_cases same : other = ino
      · simp [Mounted.put, same] at isOther
      · exact cached.loaded other sin (by simpa [Mounted.put, same] using isOther)
    · intro other sin isOther notDirty
      by_cases same : other = ino
      · simp [Mounted.put, same] at isOther
      · have before := cached.synced other sin (by simpa [Mounted.put, same] using isOther) notDirty
        simpa only [Mounted.put, disk other same] using before
  elsewhere := fun other different => Function.update_of_ne different _ _

/-- A reclaim that succeeds drops the inode. -/
theorem reclaim_drops (isIn : volume.inodes ino = some sin) (linked : sin.din.nlinks ≠ 0) {after : SfsFs}
    (called : sfsReclaim device volume.fs sin 0 = some (0, after, none)) :
    volumeStep device volume (.reclaim ino 0) = some (volume.put ino after none) := by
  simp only [volumeStep, isIn, called, Option.bind_eq_bind, Option.bind_some, linked, and_false, if_false]
  rfl

/-- With a device that works, the reclaim of an inode with links succeeds: it is dropped,
or another reference to come keeps it. -/
theorem reclaim_works (works : ∀ call, device call = 0) (tree : Tree volume) (cached : Cached volume)
    (isIn : volume.inodes ino = some sin) (positive : 0 < sin.reclaimCount) :
    ∃ next, volumeStep device volume (.reclaim ino 0) = some next ∧ Dropped ino volume next ∧
      (next.inodes ino = none ∨ next.inodes ino = some { sin with reclaimCount := sin.reclaimCount - 1 }) := by
  obtain ⟨member, isIno⟩ := cached.loaded ino sin isIn
  have isDin := din_of isIn
  have linked : sin.din.nlinks ≠ 0 := isDin ▸ tree.linked ino member
  have usable := tree.usable ino member
  have small : sin.din.type < 65536 := by
    rcases tree.typed ino member with isType | isType <;> rw [isDin] at isType <;> rw [isType] <;> decide
  by_cases last : sin.reclaimCount - 1 = 0
  · by_cases dirty : sin.dirty = true
    · have wrote := @sfsWbuf_works volume.fs device works sin.din.words diskInodeWords sin.ino 0
        ⟨by decide, by decide⟩ (isIno.symm ▸ usable.range)
      have called : sfsReclaim device volume.fs sin 0 = some (0, { volume.fs with
          calls := volume.fs.calls + 1 + 1
          disk := Function.update volume.fs.disk sin.ino
            (copyWords (volume.fs.disk sin.ino) sin.din.words diskInodeWords 0) }, none) := by
        simp only [sfsReclaim, if_pos positive, last, ne_eq, not_true_eq_false, or_self, if_false, reclaimSync,
          reclaimTruncate, linked, dirty, if_true, sfsFsync, wrote, reclaimFree, Option.bind_eq_bind, Option.bind_some]
      refine ⟨_, reclaim_drops isIn linked called, ?_, Or.inl ?_⟩
      · refine cached.drop member isIn rfl rfl ?_ ?_
        · intro block different
          exact Function.update_of_ne (isIno ▸ different) _ _
        · rw [← isIno]
          simp only [Function.update_self]
          exact alike_words _ small
      · simp [Mounted.put]
    · have called : sfsReclaim device volume.fs sin 0 = some (0, volume.fs, none) := by
        simp only [sfsReclaim, if_pos positive, last, ne_eq, not_true_eq_false, or_self, if_false, reclaimSync,
          reclaimTruncate, linked, dirty, reclaimFree, Option.bind_eq_bind, Option.bind_some, Bool.false_eq_true]
      refine ⟨_, reclaim_drops isIn linked called, ?_, Or.inl ?_⟩
      · exact cached.drop member isIn rfl rfl (fun _ _ => rfl) (cached.synced ino sin isIn (by simpa using dirty))
      · simp [Mounted.put]
  · have called : sfsReclaim device volume.fs sin 0 =
        some (-eBusy, volume.fs, some { sin with reclaimCount := sin.reclaimCount - 1 }) := by
      simp only [sfsReclaim, if_pos positive, ne_eq, last, not_false_eq_true, true_or, if_true]
    refine ⟨volume.put ino volume.fs (some { sin with reclaimCount := sin.reclaimCount - 1 }), ?_, ?_, Or.inr ?_⟩
    · simp only [volumeStep, isIn, called, Option.bind_eq_bind, Option.bind_some, Option.isNone_some,
        Bool.false_eq_true, false_and, if_false]
      rfl
    · exact ⟨sameTree_put isDin.symm, cached.put member isIno (cached.synced ino sin isIn),
        fun other different => Function.update_of_ne different _ _⟩
    · simp [Mounted.put]

end Ucore.Volume
