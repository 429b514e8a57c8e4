import Ucore.Sfs.Directory
import Ucore.Sfs.SizeBlocks

/-!
# Mappings that fail

`sfs_bmap_get_nolock` may allocate a block, and an indirect block for it, before a call of
the device fails. What it has allocated it gives back, but for a block that
`sfs_block_alloc` cannot clear.
-/

namespace Ucore.Volume

/-- The free blocks lie on the disk, and `unused_blocks` counts them. -/
structure SfsFs.Accounted (fs : SfsFs) : Prop where
  counted : fs.Counted
  onDisk : ∀ block < wordBits * fs.freemap.nwords, fs.freemap.bit block = true →
    block ≠ 0 ∧ block < fs.super.blocks ∧ block < fs.freemap.nbits

/-- An inode whose indirect block, if there is one, is in use. -/
structure Mappable (fs : SfsFs) (sin : SfsInode) : Prop extends fs.Accounted where
  indirect : sin.din.indirect ≠ 0 → fs.Usable sin.din.indirect

/-- The free blocks and their number, the inode and the entries of its indirect block are
as before. -/
structure MappingUndone (fs : SfsFs) (sin : SfsInode) (after : SfsFs) (sinAfter : SfsInode) : Prop where
  free : after.freemap.bit = fs.freemap.bit
  unused : after.super.unusedBlocks = fs.super.unusedBlocks
  inode : sinAfter = sin
  entries : sin.din.indirect ≠ 0 → after.disk sin.din.indirect = fs.disk sin.din.indirect

variable (device : Nat → Int)

/-- A mapping that fails is undone. -/
def MappingRight (fs : SfsFs) (sin : SfsInode) (index : Nat) (create : Bool) : Prop :=
  ∀ code after sinAfter, sfsBmapGetNolock device fs sin index create = some (.error code, after, sinAfter) →
    MappingUndone fs sin after sinAfter

/-- The device fails in the call that clears a block for the mapping: a data block, or an
indirect block and then a data block. -/
def ClearFails (fs : SfsFs) (sin : SfsInode) (index : Nat) (create : Bool) : Prop :=
  create = true ∧ 0 < fs.super.unusedBlocks ∧
    if index < sfsNdirect then sin.din.direct index = 0 ∧ device fs.calls ≠ 0
    else if sin.din.indirect ≠ 0 then
      device fs.calls = 0 ∧ fs.disk sin.din.indirect (index - sfsNdirect) = 0 ∧ device (fs.calls + 1) ≠ 0
    else device fs.calls ≠ 0 ∨ 1 < fs.super.unusedBlocks ∧ device (fs.calls + 1) ≠ 0

/-- An operation has taken some free blocks. The blocks that were in use are as before. -/
structure Holding (fs : SfsFs) (taken : Finset Nat) (after : SfsFs) : Prop where
  free : ∀ block ∈ taken, fs.freemap.bit block = true ∧ block < wordBits * fs.freemap.nwords
  bit : ∀ block, after.freemap.bit block = (fs.freemap.bit block && decide (block ∉ taken))
  nbits : after.freemap.nbits = fs.freemap.nbits
  nwords : after.freemap.nwords = fs.freemap.nwords
  unused : after.super.unusedBlocks + taken.card = fs.super.unusedBlocks
  blocks : after.super.blocks = fs.super.blocks
  disk : ∀ block, fs.freemap.bit block = false → after.disk block = fs.disk block

variable {device} {fs middle after : SfsFs} {sin sinAfter : SfsInode} {taken : Finset Nat}
  {block ino ent entp index : Nat} {create : Bool}

/-! ## Blocks taken -/

theorem usable_iff (fs : SfsFs) (block : Nat) : fs.Usable block ↔
    block ≠ 0 ∧ block < fs.super.blocks ∧ block < fs.freemap.nbits ∧ fs.freemap.bit block = false := by
  unfold SfsFs.Usable assertInuse sfsBlockInuse
  by_cases range : block ≠ 0 ∧ block < fs.super.blocks
  · rw [if_pos range]
    by_cases inside : block < fs.freemap.nbits
    · rw [bitmapTest_exact inside]
      cases isBit : fs.freemap.bit block with
      | true => simp
      | false => simp [range, inside]
    · have outside : bitmapTest fs.freemap block = none := if_neg inside
      simp [outside, inside]
  · rw [if_neg range]
    simp only [reduceCtorEq, if_false, false_iff]
    exact fun usable => range ⟨usable.1, usable.2.1⟩

theorem Holding.refl (fs : SfsFs) : Holding fs ∅ fs where
  free := fun _ member => absurd member (Finset.notMem_empty _)
  bit := by simp
  nbits := rfl
  nwords := rfl
  unused := rfl
  blocks := rfl
  disk := fun _ _ => rfl

theorem Holding.calls (holding : Holding fs taken middle) (calls : Nat) : Holding fs taken { middle with calls } :=
  ⟨holding.free, holding.bit, holding.nbits, holding.nwords, holding.unused, holding.blocks, holding.disk⟩

/-- A block is written that was free. -/
theorem Holding.write (holding : Holding fs taken middle) (free : fs.freemap.bit block = true) (words : Block)
    (calls : Nat) : Holding fs taken { middle with calls, disk := Function.update middle.disk block words } where
  free := holding.free
  bit := holding.bit
  nbits := holding.nbits
  nwords := holding.nwords
  unused := holding.unused
  blocks := holding.blocks
  disk := by
    intro other used
    have different : other ≠ block := by
      rintro rfl
      rw [free] at used
      cases used
    simpa [different] using holding.disk other used

/-- The blocks that are left lie on the disk and are counted. -/
theorem Holding.accounted (holding : Holding fs taken middle) (accounted : fs.Accounted) : middle.Accounted where
  counted := by
    have left : (Finset.range (wordBits * middle.freemap.nwords)).filter (fun block => middle.freemap.bit block = true) =
        ((Finset.range (wordBits * fs.freemap.nwords)).filter fun block => fs.freemap.bit block = true) \ taken := by
      ext block
      simp [holding.bit, holding.nwords, and_assoc]
    have inside : taken ⊆ (Finset.range (wordBits * fs.freemap.nwords)).filter fun block =>
        fs.freemap.bit block = true := by
      intro block member
      obtain ⟨free, small⟩ := holding.free block member
      simp [free, small]
    have fewer := Finset.card_sdiff_add_card_eq_card inside
    have counted : fs.super.unusedBlocks = fs.freemap.setBits := accounted.counted
    have unused := holding.unused
    rw [SfsFs.Counted, Bitmap.setBits, left]
    rw [Bitmap.setBits] at counted
    omega
  onDisk := by
    intro block small free
    rw [holding.nwords] at small
    rw [holding.bit, Bool.and_eq_true] at free
    rw [holding.blocks, holding.nbits]
    exact accounted.onDisk block small free.1

/-- The blocks in use stay in use. -/
theorem Holding.usable (holding : Holding fs taken middle) (usable : fs.Usable block) : middle.Usable block := by
  obtain ⟨nonzero, small, inside, used⟩ := (usable_iff fs block).mp usable
  exact (usable_iff middle block).mpr ⟨nonzero, holding.blocks.symm ▸ small, holding.nbits.symm ▸ inside,
    by rw [holding.bit, used, Bool.false_and]⟩

/-- The blocks taken are in use. -/
theorem Holding.taken_usable (holding : Holding fs taken middle) (accounted : fs.Accounted) (member : block ∈ taken) :
    middle.Usable block := by
  obtain ⟨free, small⟩ := holding.free block member
  obtain ⟨nonzero, onDisk, inside⟩ := accounted.onDisk block small free
  exact (usable_iff middle block).mpr ⟨nonzero, holding.blocks.symm ▸ onDisk, holding.nbits.symm ▸ inside,
    by simp [holding.bit, member]⟩

/-- One more block is taken. -/
theorem Holding.takes {freemap : Bitmap} (holding : Holding fs taken middle) (free : middle.freemap.bit ino = true)
    (inside : ino < wordBits * middle.freemap.nwords)
    (bit : freemap.bit = Function.update middle.freemap.bit ino false) (nbits : freemap.nbits = middle.freemap.nbits)
    (nwords : freemap.nwords = middle.freemap.nwords) (positive : 0 < middle.super.unusedBlocks) :
    ino ∉ taken ∧ Holding fs (insert ino taken) { middle with
      super := { middle.super with unusedBlocks := middle.super.unusedBlocks - 1 }
      freemap
      superDirty := true } := by
  rw [holding.bit, Bool.and_eq_true, decide_eq_true_eq] at free
  refine ⟨free.2, ?_, ?_, nbits.trans holding.nbits, nwords.trans holding.nwords, ?_, holding.blocks, holding.disk⟩
  · intro block member
    rcases Finset.mem_insert.mp member with rfl | earlier
    · exact ⟨free.1, holding.nwords ▸ inside⟩
    · exact holding.free block earlier
  · intro block
    rw [bit]
    by_cases same : block = ino
    · simp [same]
    · simp [same, holding.bit]
  · have unused := holding.unused
    rw [Finset.card_insert_of_notMem free.2]
    dsimp only
    omega

/-- A block taken is given back. -/
theorem Holding.release (holding : Holding fs taken middle) (accounted : fs.Accounted) (member : ino ∈ taken) :
    ∃ after, sfsBlockFree middle ino = some after ∧ Holding fs (taken.erase ino) after ∧
      after.calls = middle.calls := by
  obtain ⟨free, small⟩ := holding.free ino member
  have usable := holding.taken_usable accounted member
  obtain ⟨nonzero, onDisk, inside, used⟩ := (usable_iff middle ino).mp usable
  obtain ⟨freemap, freed, bit, nbits, nwords⟩ := bitmapFree_exact inside used
  refine ⟨{ middle with
      super := { middle.super with unusedBlocks := middle.super.unusedBlocks + 1 }
      freemap
      superDirty := true }, ?_,
    ⟨?_, ?_, nbits.trans holding.nbits, nwords.trans holding.nwords, ?_, holding.blocks, holding.disk⟩, rfl⟩
  · rw [SfsFs.Usable] at usable
    rw [sfsBlockFree, usable, Option.bind_eq_bind, Option.bind_some, freed]
    rfl
  · exact fun block still => holding.free block (Finset.mem_of_mem_erase still)
  · intro block
    rw [bit]
    by_cases same : block = ino
    · simp [same, free]
    · simp [same, holding.bit]
  · have unused := holding.unused
    have erased := Finset.card_erase_add_one member
    dsimp only
    omega

variable (device) in
/-- An allocation fails when there is no free block. Otherwise it takes one, and it fails
when it cannot clear it. -/
theorem Holding.alloc (holding : Holding fs taken middle) (accounted : fs.Accounted) :
    middle.super.unusedBlocks = 0 ∧ sfsBlockAlloc device middle = some (.error (-eNoMem), middle) ∨
      0 < middle.super.unusedBlocks ∧ ∃ ino after, ino ∉ taken ∧ Holding fs (insert ino taken) after ∧
        after.calls = middle.calls + 1 ∧ (∀ other, other ≠ ino → after.disk other = middle.disk other) ∧
        (device middle.calls ≠ 0 ∧ sfsBlockAlloc device middle = some (.error (device middle.calls), after) ∨
          device middle.calls = 0 ∧ sfsBlockAlloc device middle = some (.ok ino, after) ∧
            after.disk ino = fun _ => 0) := by
  have left := holding.accounted accounted
  rcases bitmapAlloc_first middle.freemap with ⟨none, allUsed⟩ | ⟨index, _, isTaken, _⟩
  · refine Or.inl ⟨?_, ?_⟩
    · rw [left.counted, Bitmap.setBits, Finset.card_eq_zero, Finset.filter_eq_empty_iff]
      intro block inside
      simp [allUsed block (Finset.mem_range.mp inside)]
    · rw [sfsBlockAlloc, none]
      rfl
  · rcases bitmapAlloc_exact middle.freemap with none | ⟨ino, freemap, found, free, inside, bit, nbits, nwords⟩
    · rw [none] at isTaken
      cases isTaken
    have positive : 0 < middle.super.unusedBlocks := by
      have counted : middle.super.unusedBlocks = middle.freemap.setBits := left.counted
      have fewer := setBits_clear inside free bit nwords
      omega
    obtain ⟨fresh, more⟩ := holding.takes free inside bit nbits nwords positive
    have member : ino ∈ insert ino taken := Finset.mem_insert_self ino taken
    have asserted := more.taken_usable accounted member
    have wasFree := (more.free ino member).1
    have range := asserted.range
    rw [SfsFs.Usable] at asserted
    have allocated : sfsBlockAlloc device middle = takeBlock device middle freemap ino := by
      rw [sfsBlockAlloc, found]
      rfl
    have accepted : (ino ≠ 0 ∨ true = false) ∧ ino < middle.super.blocks := ⟨Or.inl range.1, range.2⟩
    refine Or.inr ⟨positive, ino, ?_⟩
    by_cases works : device middle.calls = 0
    · refine ⟨_, fresh, more.write wasFree (fun _ => 0) (middle.calls + 1), rfl, ?_, Or.inr ⟨works, ?_, ?_⟩⟩
      · intro other different
        simp [different]
      · rw [allocated, takeBlock, if_pos positive]
        simp [asserted, sfsClearBlock, sfsWblock, sfsRwblockNolock, accepted.2, range.1, works]
      · simp
    · refine ⟨_, fresh, more.calls (middle.calls + 1), rfl, fun _ _ => rfl, Or.inl ⟨works, ?_⟩⟩
      rw [allocated, takeBlock, if_pos positive]
      simp [asserted, sfsClearBlock, sfsWblock, sfsRwblockNolock, accepted.2, range.1, works]

variable (device) in
/-- A write of one word reads the block first, and one of the two calls may fail. -/
theorem sfsWbuf_word (inside : index < sfsBlkNentry) (isBlock : block ≠ 0 ∧ block < fs.super.blocks) (word : Nat) :
    (∃ code calls, code ≠ 0 ∧ (device fs.calls ≠ 0 ∨ device (fs.calls + 1) ≠ 0) ∧
        sfsWbuf device fs (fun _ => word) 1 block index = some (code, { fs with calls })) ∨
      device fs.calls = 0 ∧ device (fs.calls + 1) = 0 ∧
        sfsWbuf device fs (fun _ => word) 1 block index = some (0, { fs with
          calls := fs.calls + 2
          disk := Function.update fs.disk block (Function.update (fs.disk block) index word) }) := by
  have fits : index < sfsBlkNentry ∧ index + 1 ≤ sfsBlkNentry := ⟨inside, inside⟩
  by_cases read : device fs.calls = 0
  · by_cases written : device (fs.calls + 1) = 0
    · refine Or.inr ⟨read, written, ?_⟩
      simp [sfsWbuf, fits, sfsRwblockNolock, isBlock, read, written, copyWords_one]
    · refine Or.inl ⟨device (fs.calls + 1), fs.calls + 2, written, Or.inr written, ?_⟩
      simp [sfsWbuf, fits, sfsRwblockNolock, isBlock, read, written]
  · refine Or.inl ⟨device fs.calls, fs.calls + 1, read, Or.inl read, ?_⟩
    simp [sfsWbuf, fits, sfsRwblockNolock, isBlock, read]

/-! ## One mapping -/

/-- The blocks that are left when a new entry fails: its block goes when it is new. -/
def cleaned (taken : Finset Nat) (entp ent : Nat) : Finset Nat := if ent ≠ entp then taken.erase ent else taken

/-- A failed entry gives back its block when it is new. -/
theorem Holding.cleanup (holding : Holding fs taken middle) (accounted : fs.Accounted)
    (new : ent ≠ entp → ent ∈ taken) (ret : Int) :
    ∃ after, failedCleanup middle entp ent ret = some (.error ret, after) ∧ Holding fs (cleaned taken entp ent) after := by
  unfold failedCleanup cleaned
  by_cases different : ent ≠ entp
  · obtain ⟨after, freed, less, _⟩ := holding.release accounted (new different)
    rw [if_pos different, if_pos different, freed]
    exact ⟨after, rfl, less⟩
  · rw [if_neg different, if_neg different]
    exact ⟨middle, rfl, holding⟩

/-- A block taken differs from one in use. -/
theorem Holding.other (holding : Holding fs taken middle) (more : Holding fs (insert ino taken) after)
    (fresh : ino ∉ taken) (used : middle.freemap.bit block = false) : block ≠ ino := by
  rintro rfl
  have free := (more.free block (Finset.mem_insert_self block taken)).1
  rw [holding.bit, free] at used
  simp [fresh] at used

/-- The end of `sfs_bmap_get_sub_nolock` takes a block and enters it. When the block cannot
be cleared it stays taken; when there is none, or when it cannot be entered, everything is
given back. -/
theorem Holding.newEntry (holding : Holding fs taken middle) (accounted : fs.Accounted)
    (new : ent ≠ entp → ent ∈ taken) (usable : middle.Usable ent) (inside : index < sfsBlkNentry) :
    (0 < middle.super.unusedBlocks ∧ device middle.calls ≠ 0) ∧ (∃ ino after,
        Volume.newEntry device middle entp ent index = some (.error (device middle.calls), after) ∧
        ino ∉ cleaned taken entp ent ∧ Holding fs (insert ino (cleaned taken entp ent)) after) ∨
      (middle.super.unusedBlocks = 0 ∨ device middle.calls = 0 ∧
        (device (middle.calls + 1) ≠ 0 ∨ device (middle.calls + 2) ≠ 0)) ∧ (∃ code after, code ≠ 0 ∧
        Volume.newEntry device middle entp ent index = some (.error code, after) ∧
        Holding fs (cleaned taken entp ent) after) ∨
      (0 < middle.super.unusedBlocks ∧ device middle.calls = 0 ∧ device (middle.calls + 1) = 0 ∧
        device (middle.calls + 2) = 0) ∧ ∃ ino after,
        Volume.newEntry device middle entp ent index = some (.ok (ent, ino), { after with
          calls := middle.calls + 3
          disk := Function.update after.disk ent (Function.update (middle.disk ent) index ino) }) ∧
        ino ∉ taken ∧ Holding fs (insert ino taken) after := by
  rcases holding.alloc device accounted with ⟨none, alloc⟩ | ⟨positive, ino, after, fresh, more, calls, disk, outcome⟩
  · right
    left
    obtain ⟨last, cleanup, left⟩ := holding.cleanup accounted new (-eNoMem)
    refine ⟨Or.inl none, -eNoMem, last, by decide, ?_, left⟩
    rw [Volume.newEntry, alloc]
    exact cleanup
  have different : ent ≠ ino := holding.other more fresh ((usable_iff middle ent).mp usable).2.2.2
  have member : ino ∈ insert ino taken := Finset.mem_insert_self ino taken
  have newAfter : ent ≠ entp → ent ∈ insert ino taken := fun isNew => Finset.mem_insert_of_mem (new isNew)
  have stays : cleaned (insert ino taken) entp ent = insert ino (cleaned taken entp ent) := by
    unfold cleaned
    split
    · exact Finset.erase_insert_of_ne different.symm
    · rfl
  have notCleaned : ino ∉ cleaned taken entp ent := by
    unfold cleaned
    split
    · exact fun still => fresh (Finset.mem_of_mem_erase still)
    · exact fresh
  rcases outcome with ⟨fails, alloc⟩ | ⟨works, alloc, _⟩
  · left
    obtain ⟨last, cleanup, left⟩ := more.cleanup accounted newAfter (device middle.calls)
    refine ⟨⟨positive, fails⟩, ino, last, ?_, notCleaned, stays ▸ left⟩
    rw [Volume.newEntry, alloc]
    exact cleanup
  right
  have isEnt : after.Usable ent := by
    obtain ⟨nonzero, small, inBits, used⟩ := (usable_iff middle ent).mp usable
    refine (usable_iff after ent).mpr ⟨nonzero, ?_, ?_, ?_⟩
    · rw [more.blocks, ← holding.blocks]
      exact small
    · rw [more.nbits, ← holding.nbits]
      exact inBits
    · rw [holding.bit] at used
      rw [more.bit]
      simp only [Finset.mem_insert, different, false_or]
      exact used
  have isNext : after.calls + 1 = middle.calls + 2 := by omega
  rcases sfsWbuf_word device inside isEnt.range ino with ⟨code, last, nonzero, fails, wrote⟩ | ⟨read, written, wrote⟩
  · left
    rw [calls, isNext.symm.trans (congrArg (· + 1) calls)] at fails
    obtain ⟨freed, release, less, _⟩ := (more.calls last).release accounted member
    rw [Finset.erase_insert fresh] at less
    obtain ⟨undone, cleanup, left⟩ := less.cleanup accounted new code
    refine ⟨Or.inr ⟨works, fails⟩, code, undone, nonzero, ?_, left⟩
    simp only [Volume.newEntry, alloc, wrote, release, cleanup, Option.bind_eq_bind, Option.bind_some, ne_eq, nonzero,
      not_false_eq_true, if_true]
  · right
    rw [calls] at read
    rw [isNext] at written
    refine ⟨⟨positive, works, read, written⟩, ino, after, ?_, fresh, more⟩
    simp only [Volume.newEntry, alloc, wrote, Option.bind_eq_bind, Option.bind_some, ne_eq, not_true_eq_false, if_false,
      disk ent different, calls]

/-- An empty entry of an indirect block that is in use. -/
theorem sfsBmapGetSubNolock_empty (accounted : fs.Accounted) (usable : fs.Usable entp) (inside : index < sfsBlkNentry)
    (isEmpty : fs.disk entp index = 0) :
    (device fs.calls = 0 ∧ 0 < fs.super.unusedBlocks ∧ device (fs.calls + 1) ≠ 0) ∧ (∃ code ino after, code ≠ 0 ∧
        sfsBmapGetSubNolock device fs entp index true = some (.error code, after) ∧ Holding fs {ino} after) ∨
      (device fs.calls ≠ 0 ∨ fs.super.unusedBlocks = 0 ∨ device (fs.calls + 1) = 0 ∧
        (device (fs.calls + 2) ≠ 0 ∨ device (fs.calls + 3) ≠ 0)) ∧ (∃ code after, code ≠ 0 ∧
        sfsBmapGetSubNolock device fs entp index true = some (.error code, after) ∧ Holding fs ∅ after) ∨
      (0 < fs.super.unusedBlocks ∧ device fs.calls = 0 ∧ device (fs.calls + 1) = 0 ∧ device (fs.calls + 2) = 0 ∧
        device (fs.calls + 3) = 0) ∧ ∃ ino after,
        sfsBmapGetSubNolock device fs entp index true = some (.ok (entp, ino), { after with
          calls := fs.calls + 4
          disk := Function.update after.disk entp (Function.update (fs.disk entp) index ino) }) ∧
        Holding fs {ino} after := by
  have fits : index < sfsBlkNentry ∧ index + 1 ≤ sfsBlkNentry := ⟨inside, inside⟩
  have nonzero := usable.range.1
  by_cases read : device fs.calls = 0
  · have got : sfsBmapGetSubNolock device fs entp index true =
        newEntry device { fs with calls := fs.calls + 1 } entp entp index := by
      simp [sfsBmapGetSubNolock, inside, nonzero, sfsRbuf, fits, sfsRwblockNolock, usable.range.2, read, isEmpty]
    rw [got]
    have start := (Holding.refl fs).calls (fs.calls + 1)
    have same : cleaned ∅ entp entp = ∅ := if_neg fun different => different rfl
    rcases start.newEntry accounted (absurd rfl) (usable.calls (fs.calls + 1)) inside with
      ⟨fails, ino, after, failed, _, left⟩ | ⟨fails, code, after, isCode, failed, left⟩ |
      ⟨works, ino, after, made, _, left⟩
    · rw [same, LawfulSingleton.insert_empty_eq] at left
      exact Or.inl ⟨⟨read, fails⟩, _, ino, after, fails.2, failed, left⟩
    · rw [same] at left
      exact Or.inr (Or.inl ⟨Or.inr fails, code, after, isCode, failed, left⟩)
    · rw [LawfulSingleton.insert_empty_eq] at left
      exact Or.inr (Or.inr ⟨⟨works.1, read, works.2⟩, ino, after, made, left⟩)
  · refine Or.inr (Or.inl ⟨Or.inl read, device fs.calls, _, read, ?_, (Holding.refl fs).calls (fs.calls + 1)⟩)
    simp [sfsBmapGetSubNolock, inside, nonzero, sfsRbuf, fits, sfsRwblockNolock, usable.range.2, read]

/-- An entry of an indirect block that is not there yet. -/
theorem sfsBmapGetSubNolock_new (accounted : fs.Accounted) (inside : index < sfsBlkNentry) :
    (0 < fs.super.unusedBlocks ∧ (device fs.calls ≠ 0 ∨ 1 < fs.super.unusedBlocks ∧ device (fs.calls + 1) ≠ 0)) ∧
        (∃ code ino after, code ≠ 0 ∧
        sfsBmapGetSubNolock device fs 0 index true = some (.error code, after) ∧ Holding fs {ino} after) ∨
      (fs.super.unusedBlocks = 0 ∨ device fs.calls = 0 ∧ (fs.super.unusedBlocks = 1 ∨ device (fs.calls + 1) = 0 ∧
        (device (fs.calls + 2) ≠ 0 ∨ device (fs.calls + 3) ≠ 0))) ∧ (∃ code after, code ≠ 0 ∧
        sfsBmapGetSubNolock device fs 0 index true = some (.error code, after) ∧ Holding fs ∅ after) ∨
      (1 < fs.super.unusedBlocks ∧ device fs.calls = 0 ∧ device (fs.calls + 1) = 0 ∧ device (fs.calls + 2) = 0 ∧
        device (fs.calls + 3) = 0) ∧ ∃ ent ino after, ent ≠ 0 ∧ ino ≠ ent ∧
        sfsBmapGetSubNolock device fs 0 index true = some (.ok (ent, ino), { after with
          calls := fs.calls + 4
          disk := Function.update after.disk ent (Function.update (fun _ => 0) index ino) }) ∧
        Holding fs {ino, ent} after := by
  have refused : ∀ code after, sfsBlockAlloc device fs = some (.error code, after) →
      sfsBmapGetSubNolock device fs 0 index true = some (.error code, after) := by
    intro code after alloc
    simp only [sfsBmapGetSubNolock, if_pos inside, ne_eq, not_true_eq_false, if_false, Bool.true_eq_false, alloc]
    rfl
  have given : ∀ ent after, sfsBlockAlloc device fs = some (.ok ent, after) →
      sfsBmapGetSubNolock device fs 0 index true = newEntry device after 0 ent index := by
    intro ent after alloc
    simp only [sfsBmapGetSubNolock, if_pos inside, ne_eq, not_true_eq_false, if_false, Bool.true_eq_false, alloc]
    rfl
  rcases (Holding.refl fs).alloc device accounted with
    ⟨none, alloc⟩ | ⟨positive, ent, first, _, holding, calls, _, ⟨fails, alloc⟩ | ⟨works, alloc, cleared⟩⟩
  · exact Or.inr (Or.inl ⟨Or.inl none, -eNoMem, fs, by decide, refused _ _ alloc, Holding.refl fs⟩)
  · rw [LawfulSingleton.insert_empty_eq] at holding
    exact Or.inl ⟨⟨positive, Or.inl fails⟩, device fs.calls, ent, first, fails, refused _ _ alloc, holding⟩
  · rw [LawfulSingleton.insert_empty_eq] at holding
    have member : ent ∈ ({ent} : Finset Nat) := Finset.mem_singleton_self ent
    have usable := holding.taken_usable accounted member
    have unused : first.super.unusedBlocks + 1 = fs.super.unusedBlocks := holding.unused
    have isNew : cleaned {ent} 0 ent = ∅ := by
      rw [cleaned, if_pos usable.range.1, Finset.erase_singleton]
    rw [given _ _ alloc]
    rcases holding.newEntry accounted (fun _ => member) usable inside with
      ⟨fails, ino, after, failed, _, left⟩ | ⟨fails, code, after, isCode, failed, left⟩ |
      ⟨more, ino, after, made, fresh, left⟩
    · rw [isNew, LawfulSingleton.insert_empty_eq] at left
      rw [calls] at fails
      refine Or.inl ⟨⟨positive, Or.inr ⟨by omega, fails.2⟩⟩, _, ino, after, ?_, failed, left⟩
      rw [calls]
      exact fails.2
    · rw [isNew] at left
      rw [calls] at fails
      refine Or.inr (Or.inl ⟨Or.inr ⟨works, ?_⟩, code, after, isCode, failed, left⟩)
      rcases fails with none | late
      · exact Or.inl (by omega)
      · exact Or.inr late
    · rw [calls] at more made
      rw [cleared] at made
      refine Or.inr (Or.inr ⟨⟨by omega, works, more.2⟩, ent, ino, after, usable.range.1, ?_, made, left⟩)
      exact fun same => fresh (Finset.mem_singleton.mpr same)

/-- A direct pointer that is not there yet. -/
theorem getDirect_new (accounted : fs.Accounted) (isEmpty : sin.din.direct index = 0) :
    (0 < fs.super.unusedBlocks ∧ device fs.calls ≠ 0) ∧ (∃ code ino after, code ≠ 0 ∧
        getDirect device fs sin index true = some (.error code, after, sin) ∧ Holding fs {ino} after) ∨
      fs.super.unusedBlocks = 0 ∧ (∃ code after, code ≠ 0 ∧
        getDirect device fs sin index true = some (.error code, after, sin) ∧ Holding fs ∅ after) ∨
      (0 < fs.super.unusedBlocks ∧ device fs.calls = 0) ∧ ∃ ino after, after.calls = fs.calls + 1 ∧
        getDirect device fs sin index true = some (.ok ino, after,
          sin.modify { sin.din with direct := Function.update sin.din.direct index ino }) ∧
        Holding fs {ino} after := by
  have empty : sin.din.direct index = 0 ∧ true = true := ⟨isEmpty, rfl⟩
  rcases (Holding.refl fs).alloc device accounted with
    ⟨none, alloc⟩ | ⟨positive, ino, after, _, holding, calls, _, ⟨fails, alloc⟩ | ⟨works, alloc, _⟩⟩
  · refine Or.inr (Or.inl ⟨none, -eNoMem, fs, by decide, ?_, Holding.refl fs⟩)
    rw [getDirect, if_pos empty, alloc]
    rfl
  · rw [LawfulSingleton.insert_empty_eq] at holding
    refine Or.inl ⟨⟨positive, fails⟩, device fs.calls, ino, after, fails, ?_, holding⟩
    rw [getDirect, if_pos empty, alloc]
    rfl
  · rw [LawfulSingleton.insert_empty_eq] at holding
    refine Or.inr (Or.inr ⟨⟨positive, works⟩, ino, after, calls, ?_, holding⟩)
    have usable := holding.taken_usable accounted (Finset.mem_singleton_self ino)
    rw [getDirect, if_pos empty, alloc]
    exact found_usable usable

/-! ## Mappings that fail -/

/-- What is given back. -/
theorem Holding.undone (holding : Holding fs ∅ after) (mappable : Mappable fs sin) :
    MappingUndone fs sin after sin where
  free := by
    funext block
    simp [holding.bit]
  unused := holding.unused
  inode := rfl
  entries := fun nonzero => holding.disk _ ((usable_iff fs _).mp (mappable.indirect nonzero)).2.2.2

/-- A mapping that fails while it clears a block leaves one more block in use. -/
theorem Holding.not_undone (holding : Holding fs {block} after) : ¬ MappingUndone fs sin after sinAfter := by
  intro undone
  have unused : after.super.unusedBlocks + 1 = fs.super.unusedBlocks := holding.unused
  have same := undone.unused
  omega

/-- A pointer that is there is not changed, and reading it may fail. -/
theorem sfsBmapGetSubNolock_there {result : Except Int (Nat × Nat)}
    (there : create = false ∨ entp ≠ 0 ∧ fs.disk entp index ≠ 0)
    (called : sfsBmapGetSubNolock device fs entp index create = some (result, after)) :
    Holding fs ∅ after ∧ ∀ ent ino, result = .ok (ent, ino) → ent = entp := by
  unfold sfsBmapGetSubNolock at called
  split at called
  · split at called
    · obtain ⟨⟨read, middle⟩, isRead, rest⟩ := Option.bind_eq_some_iff.mp called
      obtain ⟨⟨calls, rfl⟩, words⟩ := sfsRbuf_cases isRead
      have left := (Holding.refl fs).calls calls
      cases read with
      | error ret =>
        obtain ⟨rfl, rfl⟩ := Prod.mk.inj (Option.some.inj rest)
        exact ⟨left, fun _ _ isOk => nomatch isOk⟩
      | ok buf =>
        have found : buf 0 ≠ 0 ∨ create = false := by
          rcases there with noCreate | ⟨_, entered⟩
          · exact Or.inr noCreate
          · exact Or.inl (by simpa [words buf rfl] using entered)
        simp only [if_pos found] at rest
        obtain ⟨rfl, rfl⟩ := Prod.mk.inj (Option.some.inj rest)
        exact ⟨left, fun _ _ isOk => (Prod.mk.inj (Except.ok.inj isOk)).1.symm⟩
    · rename_i zero
      have noCreate : create = false := there.resolve_right fun both => zero both.1
      rw [if_pos noCreate] at called
      obtain ⟨rfl, rfl⟩ := Prod.mk.inj (Option.some.inj called)
      exact ⟨Holding.refl fs, fun _ _ isOk => (Prod.mk.inj (Except.ok.inj isOk)).1.symm⟩
  · cases called

/-- `sfs_bmap_get_nolock` fails behind the direct pointers when the entry is not found. -/
theorem getIndirect_error {code : Int}
    (failed : sfsBmapGetSubNolock device fs sin.din.indirect index create = some (.error code, after)) :
    getIndirect device fs sin index create = some (.error code, after, sin) := by
  rw [getIndirect, failed]
  rfl

theorem getIndirect_sub {code : Int} (called : getIndirect device fs sin index create = some (.error code, after, sinAfter)) :
    sfsBmapGetSubNolock device fs sin.din.indirect index create = some (.error code, after) ∧ sinAfter = sin := by
  obtain ⟨⟨sub, middle⟩, got, rest⟩ := Option.bind_eq_some_iff.mp called
  cases sub with
  | error ret =>
    obtain ⟨_, rfl, rfl⟩ := rest
    exact ⟨got, rfl⟩
  | ok both =>
    simp only at rest
    split at rest
    · cases (found_block rest).1
    · split at rest
      · cases (found_block rest).1
      · cases rest

/-- When a mapping fails, it has failed to clear a block, which stays taken, or it has given
everything back. -/
theorem mapping_error (mappable : Mappable fs sin) (inside : index < sfsNdirect + sfsBlkNentry) :
    ClearFails device fs sin index create ∧ (∃ code ino after,
        sfsBmapGetNolock device fs sin index create = some (.error code, after, sin) ∧ Holding fs {ino} after) ∨
      ¬ ClearFails device fs sin index create ∧ ∀ code after sinAfter,
        sfsBmapGetNolock device fs sin index create = some (.error code, after, sinAfter) →
        Holding fs ∅ after ∧ sinAfter = sin := by
  by_cases small : index < sfsNdirect
  · have got : sfsBmapGetNolock device fs sin index create = getDirect device fs sin index create := if_pos small
    simp only [ClearFails, if_pos small, got]
    by_cases new : sin.din.direct index = 0 ∧ create = true
    · obtain ⟨isEmpty, rfl⟩ := new
      rcases getDirect_new mappable.toAccounted isEmpty with
        ⟨fails, code, ino, after, _, failed, left⟩ | ⟨none, code, after, _, failed, left⟩ |
        ⟨works, ino, after, _, made, _⟩
      · exact Or.inl ⟨⟨rfl, fails.1, isEmpty, fails.2⟩, code, ino, after, failed, left⟩
      · refine Or.inr ⟨fun fails => absurd none (Nat.pos_iff_ne_zero.mp fails.2.1), ?_⟩
        intro other last sinLast same
        obtain ⟨_, rfl, rfl⟩ := Option.some.inj (failed.symm.trans same)
        exact ⟨left, rfl⟩
      · refine Or.inr ⟨fun fails => absurd works.2 fails.2.2.2, ?_⟩
        intro other last sinLast same
        cases Option.some.inj (made.symm.trans same)
    · refine Or.inr ⟨fun fails => new ⟨fails.2.2.1, fails.1⟩, ?_⟩
      intro code last sinLast called
      rw [getDirect, if_neg new] at called
      cases (found_block called).1
  · have entry : index - sfsNdirect < sfsBlkNentry := by omega
    have got : sfsBmapGetNolock device fs sin index create = getIndirect device fs sin (index - sfsNdirect) create := by
      rw [sfsBmapGetNolock, if_neg small, if_pos entry]
    simp only [ClearFails, if_neg small, got]
    have undone : ∀ fails : Prop, ¬ fails → (∀ code last,
        sfsBmapGetSubNolock device fs sin.din.indirect (index - sfsNdirect) create = some (.error code, last) →
        Holding fs ∅ last) → ¬ fails ∧ ∀ code last sinLast,
          getIndirect device fs sin (index - sfsNdirect) create = some (.error code, last, sinLast) →
          Holding fs ∅ last ∧ sinLast = sin := by
      intro fails not back
      refine ⟨not, fun code last sinLast called => ?_⟩
      obtain ⟨failed, same⟩ := getIndirect_sub called
      exact ⟨back code last failed, same⟩
    by_cases there : create = false ∨ sin.din.indirect ≠ 0 ∧ fs.disk sin.din.indirect (index - sfsNdirect) ≠ 0
    · refine Or.inr (undone _ ?_ fun code last failed => (sfsBmapGetSubNolock_there there failed).1)
      rintro ⟨rfl, _, fails⟩
      obtain ⟨nonzero, entered⟩ := there.resolve_left (by decide)
      rw [if_pos nonzero] at fails
      exact entered fails.2.1
    obtain ⟨isCreate, empty⟩ := not_or.mp there
    obtain rfl : create = true := by simpa using isCreate
    by_cases nonzero : sin.din.indirect ≠ 0
    · have isEmpty : fs.disk sin.din.indirect (index - sfsNdirect) = 0 := by
        by_contra entered
        exact empty ⟨nonzero, entered⟩
      simp only [if_pos nonzero]
      rcases sfsBmapGetSubNolock_empty mappable.toAccounted (mappable.indirect nonzero) entry isEmpty with
        ⟨fails, code, ino, after, _, failed, left⟩ | ⟨fails, code, after, _, failed, left⟩ |
        ⟨works, ino, after, made, _⟩
      · exact Or.inl ⟨⟨trivial, fails.2.1, fails.1, isEmpty, fails.2.2⟩, code, ino, after, getIndirect_error failed, left⟩
      · refine Or.inr (undone _ ?_ fun other last same => ?_)
        · rintro ⟨_, positive, read, _, cleared⟩
          rcases fails with notRead | none | late
          · exact notRead read
          · omega
          · exact cleared late.1
        · obtain ⟨_, rfl⟩ := Prod.mk.inj (Option.some.inj (failed.symm.trans same))
          exact left
      · refine Or.inr (undone _ (fun fails => fails.2.2.2.2 works.2.2.1) fun other last same => ?_)
        cases Option.some.inj (made.symm.trans same)
    · have zero : sin.din.indirect = 0 := not_not.mp nonzero
      simp only [if_neg nonzero]
      rw [zero] at undone
      rcases sfsBmapGetSubNolock_new mappable.toAccounted entry with
        ⟨fails, code, ino, after, _, failed, left⟩ | ⟨fails, code, after, _, failed, left⟩ |
        ⟨works, ent, ino, after, _, _, made, _⟩
      · rw [← zero] at failed
        exact Or.inl ⟨⟨trivial, fails⟩, code, ino, after, getIndirect_error failed, left⟩
      · refine Or.inr (undone _ ?_ fun other last same => ?_)
        · rintro ⟨_, positive, cleared⟩
          rcases fails with none | ⟨works, one | late⟩
          · omega
          · rcases cleared with first | second
            · exact first works
            · omega
          · rcases cleared with first | second
            · exact first works
            · exact second.2 late.1
        · obtain ⟨_, rfl⟩ := Prod.mk.inj (Option.some.inj (failed.symm.trans same))
          exact left
      · refine Or.inr (undone _ ?_ fun other last same => ?_)
        · rintro ⟨_, positive, first | second⟩
          · exact first works.2.1
          · exact second.2 works.2.2.1
        · cases Option.some.inj (made.symm.trans same)

/-- A mapping that fails is undone if and only if it has not failed to clear a block. -/
theorem mapping_undone_exact (device : Nat → Int) (fs : SfsFs) (sin : SfsInode) (index : Nat) (create : Bool)
    (mappable : Mappable fs sin) (inside : index < sfsNdirect + sfsBlkNentry) :
    MappingRight device fs sin index create ↔ ¬ ClearFails device fs sin index create := by
  rcases @mapping_error device fs sin index create mappable inside with
    ⟨fails, code, ino, after, failed, left⟩ | ⟨works, back⟩
  · refine iff_of_false (fun right => ?_) (not_not.mpr fails)
    exact left.not_undone (right code after sin failed)
  · refine iff_of_true ?_ works
    intro code after sinAfter failed
    obtain ⟨left, rfl⟩ := back code after sinAfter failed
    exact left.undone mappable

theorem twoFiles_mappable : Mappable twoFiles.fs (emptyFile 3 1) where
  counted := by
    unfold SfsFs.Counted
    decide +kernel
  onDisk := by
    decide +kernel
  indirect := fun nonzero => absurd rfl nonzero

/-- The second of two calls fails, and the mapping is undone. -/
theorem mapping_undone_exact_entry :
    sfsBmapGetNolock (fun call => if call = 2 then -1 else 0) twoFiles.fs (emptyFile 3 1) 12 true ≠ none ∧
      MappingRight (fun call => if call = 2 then -1 else 0) twoFiles.fs (emptyFile 3 1) 12 true := by
  refine ⟨by decide +kernel, ?_⟩
  refine (mapping_undone_exact _ _ _ _ _ twoFiles_mappable (by decide)).mpr ?_
  rintro ⟨_, _, fails⟩
  revert fails
  decide +kernel

/-- The device fails to clear the first block of a file, and the block stays taken. -/
theorem uncleared_block_stays : Mappable twoFiles.fs (emptyFile 3 1) ∧ (∃ code after, code ≠ 0 ∧
    sfsBmapGetNolock (fun _ => -1) twoFiles.fs (emptyFile 3 1) 0 true = some (.error code, after, emptyFile 3 1) ∧
      after.super.unusedBlocks + 1 = twoFiles.fs.super.unusedBlocks) ∧
    ¬ MappingRight (fun _ => -1) twoFiles.fs (emptyFile 3 1) 0 true := by
  have empty : (emptyFile 3 1).din.direct 0 = 0 := rfl
  rcases @getDirect_new (fun _ => -1) twoFiles.fs (emptyFile 3 1) 0 twoFiles_mappable.toAccounted empty with
    ⟨_, code, ino, after, nonzero, failed, left⟩ | ⟨none, _⟩ | ⟨works, _⟩
  · exact ⟨twoFiles_mappable, ⟨code, after, nonzero, failed, left.unused⟩,
      fun right => left.not_undone (right code after _ failed)⟩
  · cases none
  · cases works.2

end Ucore.Volume
