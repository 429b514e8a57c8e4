import Mathlib.Data.List.Nodup
import Ucore.Sfs.BlockMap

/-!
# Synchronizing a volume

`sfs_sync` writes the dirty inodes, and then the superblock and the freemap if they are
dirty. It returns the error of a write of the last two but drops those of the inodes,
so that it may succeed with an inode that is not on disk.
-/

namespace Ucore.Volume

variable (device : Nat → Int)

/-- The walk of `sfs_sync` over `inode_list`. -/
def syncInodes (fs : SfsFs) : List SfsInode → Option (SfsFs × List SfsInode)
  | [] => some (fs, [])
  | sin :: rest => do
      let (_, fs, sin) ← sfsFsync device fs sin
      let (fs, rest) ← syncInodes fs rest
      some (fs, sin :: rest)

/-- `sfs_sync` behind the walk. -/
def syncSuper (fs : SfsFs) : Option (Int × SfsFs) :=
  if fs.superDirty then do
    let (ret, fs) ← sfsSyncSuper device { fs with superDirty := false }
    if ret ≠ 0 then some (ret, { fs with superDirty := true })
    else do
      let (ret, fs) ← sfsSyncFreemap device fs
      if ret ≠ 0 then some (ret, { fs with superDirty := true }) else some (0, fs)
  else some (0, fs)

/-- `sfs_sync`, with the inodes of `inode_list` in their order. -/
def sfsSync (fs : SfsFs) (inodes : List SfsInode) : Option (Int × SfsFs × List SfsInode) := do
  let (fs, inodes) ← syncInodes device fs inodes
  let (ret, fs) ← syncSuper device fs
  some (ret, fs, inodes)

/-- The block of an inode holds its words. -/
def InodeOnDisk (fs : SfsFs) (sin : SfsInode) : Prop :=
  ∀ index < diskInodeWords, fs.disk sin.ino index = sin.din.words index

/-- `sizeof(struct sfs_super)` in words. -/
def superWords : Nat := 11

/-- Their blocks hold the superblock and the freemap. -/
def SuperOnDisk (fs : SfsFs) : Prop :=
  (∀ index < superWords, fs.disk sfsBlknSuper index = fs.super.words index) ∧
    ∀ block < sfsFreemapBlocks fs.super, ∀ index < sfsBlkNentry,
      fs.disk (sfsBlknFreemap + block) index = fs.freemap.blocks block index

/-- Everything in memory is on disk. -/
def Durable (fs : SfsFs) (inodes : List SfsInode) : Prop :=
  (∀ sin ∈ inodes, InodeOnDisk fs sin) ∧ SuperOnDisk fs

/-- Inodes have blocks of their own, behind the freemap or between the superblock and
the freemap. -/
def Separate (fs : SfsFs) (inodes : List SfsInode) : Prop :=
  (inodes.map SfsInode.ino).Nodup ∧ ∀ sin ∈ inodes, sin.ino ≠ sfsBlknSuper ∧
    (sin.ino < sfsBlknFreemap ∨ sfsBlknFreemap + sfsFreemapBlocks fs.super ≤ sin.ino)

/-- The calls of the device that the walk has made in the end, where a call to read that
fails is not followed by one to write. -/
def walkCalls (call : Nat) : List SfsInode → Nat
  | [] => call
  | sin :: rest => walkCalls (if sin.dirty then if device call = 0 then call + 2 else call + 1 else call) rest

/-- An inode is on disk already, or is dirty and its two calls do not fail. -/
def Lands (fs : SfsFs) (call : Nat) (sin : SfsInode) : Prop :=
  InodeOnDisk fs sin ∨ sin.dirty = true ∧ device call = 0 ∧ device (call + 1) = 0

variable {device} {fs after : SfsFs} {buf : Block} {blkno len offset : Nat} {ret : Int}

/-- A write depends on one call. -/
theorem rwblock_write_exact {buffer : Block} {check : Bool}
    (called : sfsRwblockNolock device fs buf blkno true check = some (ret, buffer, after)) :
    ret = device fs.calls ∧ after = { fs with
      calls := fs.calls + 1
      disk := if device fs.calls = 0 then Function.update fs.disk blkno buf else fs.disk } := by
  unfold sfsRwblockNolock at called
  split at called
  · split at called
    · rename_i failed
      obtain ⟨rfl, _, rfl⟩ := called
      simp [failed]
    · rename_i succeeded
      obtain ⟨rfl, _, rfl⟩ := called
      simp [not_not.mp succeeded]
  · cases called

/-- A part of a block depends on two calls. -/
theorem sfsWbuf_exact (called : sfsWbuf device fs buf len blkno offset = some (ret, after)) :
    (ret = 0 ↔ device fs.calls = 0 ∧ device (fs.calls + 1) = 0) ∧ after = { fs with
      calls := if device fs.calls = 0 then fs.calls + 2 else fs.calls + 1
      disk := if ret = 0 then Function.update fs.disk blkno (copyWords (fs.disk blkno) buf len offset)
        else fs.disk } := by
  unfold sfsWbuf at called
  split at called
  · obtain ⟨⟨first, buffer, middle⟩, read, rest⟩ := Option.bind_eq_some_iff.mp called
    have isFirst : first = device fs.calls := by
      unfold sfsRwblockNolock at read
      split at read
      · split at read
        · exact (Prod.mk.inj (Option.some.inj read)).1.symm
        · rename_i succeeded
          exact (Prod.mk.inj (Option.some.inj read)).1.symm.trans (not_not.mp succeeded).symm
      · cases read
    obtain ⟨rfl, isBlock⟩ := rwblock_read read
    by_cases succeeded : first = 0
    · simp only [succeeded, ne_eq, not_true_eq_false, if_false] at rest
      obtain ⟨⟨second, buffer', last⟩, written, isLast⟩ := Option.bind_eq_some_iff.mp rest
      obtain ⟨rfl, rfl⟩ := Prod.mk.inj (Option.some.inj isLast)
      obtain ⟨rfl, rfl⟩ := rwblock_write_exact written
      have firstCall : device fs.calls = 0 := isFirst.symm.trans succeeded
      simp [firstCall, isBlock succeeded]
    · simp only [ne_eq, succeeded, not_false_eq_true, if_true] at rest
      obtain ⟨rfl, rfl⟩ := Prod.mk.inj (Option.some.inj rest)
      have firstCall : device fs.calls ≠ 0 := fun zero => succeeded (isFirst.trans zero)
      simp [firstCall, succeeded]
  · cases called

/-- Block after block is written until a call fails. -/
theorem sfsWblock_exact {nblks : Nat} {blocks : Nat → Block}
    (called : sfsWblock device fs blocks blkno nblks = some (ret, after)) :
    (ret = 0 ↔ ∀ block < nblks, device (fs.calls + block) = 0) ∧ after.super = fs.super ∧
      after.freemap = fs.freemap ∧ after.superDirty = fs.superDirty ∧
      (∀ block, block < blkno ∨ blkno + nblks ≤ block → after.disk block = fs.disk block) ∧
      (ret = 0 → ∀ block < nblks, after.disk (blkno + block) = blocks block) := by
  induction nblks generalizing fs blkno blocks with
  | zero =>
    obtain ⟨rfl, rfl⟩ := Prod.mk.inj (Option.some.inj called)
    simp
  | succ nblks ih =>
    obtain ⟨⟨first, buffer, middle⟩, written, rest⟩ := Option.bind_eq_some_iff.mp called
    obtain ⟨rfl, rfl⟩ := rwblock_write_exact written
    simp only at rest
    split at rest
    · rename_i failed
      obtain ⟨rfl, rfl⟩ := Prod.mk.inj (Option.some.inj rest)
      refine ⟨?_, rfl, rfl, rfl, ?_, fun zero => absurd zero failed⟩
      · exact iff_of_false failed fun all => failed (all 0 (Nat.succ_pos _))
      · exact fun _ _ => rfl
    · rename_i succeeded
      have isZero : device fs.calls = 0 := not_not.mp succeeded
      obtain ⟨isRet, isSuper, isFreemap, isDirty, elsewhere, inside⟩ := ih rest
      simp only [isZero, if_true] at elsewhere
      refine ⟨?_, isSuper, isFreemap, isDirty, ?_, ?_⟩
      · rw [isRet]
        constructor
        · intro all block small
          cases block with
          | zero => exact isZero
          | succ block => simpa [Nat.add_assoc, Nat.add_comm 1] using all block (Nat.lt_of_succ_lt_succ small)
        · intro all block small
          simpa [Nat.add_assoc, Nat.add_comm 1] using all (block + 1) (Nat.succ_lt_succ small)
      · intro block outside
        rw [elsewhere block (by omega), Function.update_of_ne (by omega)]
      · intro zero block small
        cases block with
        | zero =>
          rw [elsewhere _ (by omega), Nat.add_zero, Function.update_self]
        | succ block =>
          rw [← inside zero block (Nat.lt_of_succ_lt_succ small)]
          congr 1
          omega

/-- `sfs_fsync` writes a dirty inode if its calls do not fail. -/
theorem sfsFsync_exact {sin sinAfter : SfsInode} (called : sfsFsync device fs sin = some (ret, after, sinAfter)) :
    (sinAfter.ino, sinAfter.din) = (sin.ino, sin.din) ∧ after = { fs with
      calls := if sin.dirty then if device fs.calls = 0 then fs.calls + 2 else fs.calls + 1 else fs.calls
      disk := if sin.dirty = true ∧ device fs.calls = 0 ∧ device (fs.calls + 1) = 0 then
          Function.update fs.disk sin.ino (copyWords (fs.disk sin.ino) sin.din.words diskInodeWords 0)
        else fs.disk } := by
  unfold sfsFsync at called
  split at called
  · rename_i dirty
    obtain ⟨⟨code, written⟩, wrote, rest⟩ := Option.bind_eq_some_iff.mp called
    obtain ⟨rfl, rfl, rfl⟩ := rest
    obtain ⟨isZero, rfl⟩ := sfsWbuf_exact wrote
    refine ⟨rfl, ?_⟩
    simp only [dirty, isZero, if_true, true_and]
  · rename_i notDirty
    obtain ⟨_, rfl, rfl⟩ := called
    exact ⟨rfl, by simp [notDirty]⟩

/-- An inode is on disk after `sfs_fsync` if it lands there. -/
theorem fsync_lands {sin sinAfter : SfsInode} (called : sfsFsync device fs sin = some (ret, after, sinAfter)) :
    InodeOnDisk after sin ↔ Lands device fs fs.calls sin := by
  obtain ⟨_, rfl⟩ := sfsFsync_exact called
  by_cases written : sin.dirty = true ∧ device fs.calls = 0 ∧ device (fs.calls + 1) = 0
  · have onDisk : InodeOnDisk { fs with
        calls := if sin.dirty then if device fs.calls = 0 then fs.calls + 2 else fs.calls + 1 else fs.calls
        disk := if sin.dirty = true ∧ device fs.calls = 0 ∧ device (fs.calls + 1) = 0 then
            Function.update fs.disk sin.ino (copyWords (fs.disk sin.ino) sin.din.words diskInodeWords 0)
          else fs.disk } sin := by
      intro index small
      simp [written, copyWords, small]
    exact iff_of_true onDisk (Or.inr written)
  · simp only [InodeOnDisk, Lands, written, if_false, or_false]

/-- The walk writes an inode after another; each lands or not by its own calls. -/
theorem syncInodes_exact {inodes inodesAfter : List SfsInode} (distinct : (inodes.map SfsInode.ino).Nodup)
    (called : syncInodes device fs inodes = some (after, inodesAfter)) :
    (∃ disk, after = { fs with disk, calls := walkCalls device fs.calls inodes }) ∧
      inodesAfter.map (fun sin => (sin.ino, sin.din)) = inodes.map (fun sin => (sin.ino, sin.din)) ∧
      (∀ block ∉ inodes.map SfsInode.ino, after.disk block = fs.disk block) ∧
      ∀ front sin back, inodes = front ++ sin :: back →
        (InodeOnDisk after sin ↔ Lands device fs (walkCalls device fs.calls front) sin) := by
  induction inodes generalizing fs inodesAfter with
  | nil =>
    obtain ⟨rfl, rfl⟩ := Prod.mk.inj (Option.some.inj called)
    exact ⟨⟨fs.disk, rfl⟩, rfl, fun _ _ => rfl, by simp⟩
  | cons first rest ih =>
    obtain ⟨⟨code, middle, firstAfter⟩, synced, called⟩ := Option.bind_eq_some_iff.mp called
    obtain ⟨⟨last, restAfter⟩, walked, isAfter⟩ := Option.bind_eq_some_iff.mp called
    obtain ⟨rfl, rfl⟩ := Prod.mk.inj (Option.some.inj isAfter)
    obtain ⟨absent, distinctRest⟩ := List.nodup_cons.mp distinct
    have firstLands := fsync_lands synced
    obtain ⟨sameFirst, isMiddle⟩ := sfsFsync_exact synced
    have middleElsewhere : ∀ block, block ≠ first.ino → middle.disk block = fs.disk block := by
      intro block different
      rw [isMiddle]
      dsimp only
      split
      · exact Function.update_of_ne different _ _
      · rfl
    obtain ⟨⟨disk, isLast⟩, sameRest, elsewhere, lands⟩ := ih distinctRest walked
    refine ⟨⟨disk, ?_⟩, ?_, ?_, ?_⟩
    · rw [isLast, isMiddle]
      rfl
    · rw [List.map_cons, List.map_cons, sameFirst, sameRest]
    · intro block outside
      have notFirst : block ≠ first.ino := fun same => outside (by simp [same])
      have notRest : block ∉ rest.map SfsInode.ino := fun member => outside (List.mem_cons_of_mem _ member)
      rw [elsewhere block notRest, middleElsewhere block notFirst]
    · intro front sin back split
      cases front with
      | nil =>
        obtain ⟨rfl, rfl⟩ := List.cons.inj split
        rw [walkCalls, ← firstLands, InodeOnDisk, elsewhere _ absent]
        rfl
      | cons head front =>
        obtain ⟨rfl, isRest⟩ := List.cons.inj split
        have member : sin.ino ∈ rest.map SfsInode.ino := by simp [isRest]
        have different : sin.ino ≠ first.ino := fun same => absent (same ▸ member)
        have sameLands : ∀ call, Lands device middle call sin ↔ Lands device fs call sin := by
          intro call
          rw [Lands, Lands, InodeOnDisk, InodeOnDisk, middleElsewhere sin.ino different]
        have isCalls : middle.calls =
            if first.dirty then if device fs.calls = 0 then fs.calls + 2 else fs.calls + 1 else fs.calls := by
          rw [isMiddle]
        rw [lands front sin back isRest, sameLands, walkCalls, isCalls]

/-- A call for the superblock or the freemap fails. -/
def SuperFails (device : Nat → Int) (fs : SfsFs) (call : Nat) : Prop :=
  fs.superDirty = true ∧ ∃ block < sfsFreemapBlocks fs.super + 1, device (call + block) ≠ 0

/-- The rest of `sfs_sync` returns its errors. -/
theorem syncSuper_exact (called : syncSuper device fs = some (ret, after)) :
    (ret = 0 ↔ ¬ SuperFails device fs fs.calls) ∧
      (∀ block, block ≠ sfsBlknSuper →
        block < sfsBlknFreemap ∨ sfsBlknFreemap + sfsFreemapBlocks fs.super ≤ block →
        after.disk block = fs.disk block) ∧
      (ret = 0 → fs.superDirty = true → SuperOnDisk after) ∧ (fs.superDirty = false → after = fs) := by
  unfold syncSuper at called
  split at called
  · rename_i dirty
    obtain ⟨⟨code, middle⟩, wroteSuper, rest⟩ := Option.bind_eq_some_iff.mp called
    obtain ⟨⟨first, buffer, written⟩, wrote, isMiddle⟩ := Option.bind_eq_some_iff.mp wroteSuper
    obtain ⟨rfl, rfl⟩ := Prod.mk.inj (Option.some.inj isMiddle)
    obtain ⟨rfl, rfl⟩ := rwblock_write_exact wrote
    simp only at rest
    split at rest
    · rename_i failed
      obtain ⟨rfl, rfl⟩ := Prod.mk.inj (Option.some.inj rest)
      refine ⟨?_, ?_, fun zero => absurd zero failed, fun clean => by simp [clean] at dirty⟩
      · exact iff_of_false failed fun fine => fine ⟨dirty, 0, Nat.succ_pos _, failed⟩
      · exact fun _ _ _ => rfl
    · rename_i succeeded
      have isZero : device fs.calls = 0 := not_not.mp succeeded
      obtain ⟨⟨second, last⟩, wroteFreemap, rest⟩ := Option.bind_eq_some_iff.mp rest
      obtain ⟨isSecond, isSuper, isFreemap, _, elsewhere, inside⟩ := sfsWblock_exact wroteFreemap
      simp only [isZero, if_true] at isSecond elsewhere isSuper isFreemap inside
      have fails : SuperFails device fs fs.calls ↔ second ≠ 0 := by
        rw [ne_eq, isSecond]
        simp only [SuperFails, dirty, true_and, not_forall, exists_prop]
        constructor
        · rintro ⟨block, small, failed⟩
          cases block with
          | zero => exact absurd isZero failed
          | succ block =>
            exact ⟨block, Nat.lt_of_succ_lt_succ small, by simpa [Nat.add_assoc, Nat.add_comm 1] using failed⟩
        · rintro ⟨block, small, failed⟩
          exact ⟨block + 1, Nat.succ_lt_succ small, by simpa [Nat.add_assoc, Nat.add_comm 1] using failed⟩
      have stays : ∀ block, block ≠ sfsBlknSuper →
          block < sfsBlknFreemap ∨ sfsBlknFreemap + sfsFreemapBlocks fs.super ≤ block →
          last.disk block = fs.disk block := by
        intro block different outside
        rw [elsewhere block outside, Function.update_of_ne different]
      by_cases failed : second = 0
      · simp only [failed, ne_eq, not_true_eq_false, if_false] at rest
        obtain ⟨rfl, rfl⟩ := Prod.mk.inj (Option.some.inj rest)
        refine ⟨?_, stays, ?_, fun clean => by simp [clean] at dirty⟩
        · rw [fails]
          simp [failed]
        · intro _ _
          constructor
          · intro index _
            rw [elsewhere sfsBlknSuper (by simp [sfsBlknSuper, sfsBlknFreemap]), Function.update_self, isSuper]
          · intro block small index _
            rw [isSuper] at small
            rw [inside failed block small, isFreemap]
      · simp only [failed, ne_eq, not_false_eq_true, if_true] at rest
        obtain ⟨rfl, rfl⟩ := Prod.mk.inj (Option.some.inj rest)
        refine ⟨?_, stays, fun zero => absurd zero failed, fun clean => by simp [clean] at dirty⟩
        rw [fails]
        simp [failed]
  · rename_i clean
    obtain ⟨rfl, rfl⟩ := Prod.mk.inj (Option.some.inj called)
    have isClean : fs.superDirty = false := by simpa using clean
    exact ⟨by simp [SuperFails, isClean], fun _ _ _ => rfl, fun _ dirty => absurd dirty clean, fun _ => rfl⟩

/-- When `sfs_sync` keeps its promise: the superblock or the freemap fails to be written,
or every inode lands on disk and so do these two. -/
def SyncHonest (device : Nat → Int) (fs : SfsFs) (inodes : List SfsInode) : Prop :=
  SuperFails device fs (walkCalls device fs.calls inodes) ∨
    (∀ front sin back, inodes = front ++ sin :: back → Lands device fs (walkCalls device fs.calls front) sin) ∧
      (fs.superDirty = true ∨ SuperOnDisk fs)

/-- A successful `sfs_sync` leaves everything on disk exactly when each inode lands. -/
theorem sync_durable (device : Nat → Int) (fs : SfsFs) (inodes : List SfsInode) (separate : Separate fs inodes)
    (ret : Int) (after : SfsFs) (inodesAfter : List SfsInode)
    (called : sfsSync device fs inodes = some (ret, after, inodesAfter)) :
    (ret = 0 → Durable after inodesAfter) ↔ SyncHonest device fs inodes := by
  obtain ⟨distinct, apart⟩ := separate
  obtain ⟨⟨middle, walked⟩, isWalked, rest⟩ := Option.bind_eq_some_iff.mp called
  obtain ⟨⟨code, last⟩, isLast, isAfter⟩ := Option.bind_eq_some_iff.mp rest
  obtain ⟨rfl, rfl, rfl⟩ := isAfter
  obtain ⟨⟨disk, isMiddle⟩, same, elsewhere, lands⟩ := syncInodes_exact distinct isWalked
  obtain ⟨isRet, outside, written, clean⟩ := syncSuper_exact isLast
  have sameSuper : middle.super = fs.super := by rw [isMiddle]
  have sameDirty : middle.superDirty = fs.superDirty := by rw [isMiddle]
  have sameFreemap : middle.freemap = fs.freemap := by rw [isMiddle]
  have fails : SuperFails device middle middle.calls ↔
      SuperFails device fs (walkCalls device fs.calls inodes) := by
    rw [isMiddle]
    rfl
  have onDisk : (∀ sin ∈ inodesAfter, InodeOnDisk after sin) ↔ ∀ front sin back, inodes = front ++ sin :: back →
      Lands device fs (walkCalls device fs.calls front) sin := by
    have stays : ∀ sin ∈ inodes, InodeOnDisk after sin ↔ InodeOnDisk middle sin := by
      intro sin member
      rw [InodeOnDisk, InodeOnDisk, outside _ (apart sin member).1 (sameSuper ▸ (apart sin member).2)]
    have sameMembers : (∀ sin ∈ inodesAfter, InodeOnDisk after sin) ↔ ∀ sin ∈ inodes, InodeOnDisk after sin := by
      have asPairs : ∀ list : List SfsInode, (∀ sin ∈ list, InodeOnDisk after sin) ↔
          ∀ pair ∈ list.map (fun sin => (sin.ino, sin.din)), ∀ index < diskInodeWords,
            after.disk pair.1 index = pair.2.words index := by
        intro list
        simp [InodeOnDisk]
      rw [asPairs, same, ← asPairs]
    rw [sameMembers]
    constructor
    · rintro all front sin back rfl
      rw [← lands front sin back rfl, ← stays sin (by simp)]
      exact all sin (by simp)
    · intro all sin member
      obtain ⟨front, back, isSplit⟩ := List.append_of_mem member
      rw [stays sin member, lands front sin back isSplit]
      exact all front sin back isSplit
  have superStays : SuperOnDisk middle ↔ SuperOnDisk fs := by
    have superBlock : middle.disk sfsBlknSuper = fs.disk sfsBlknSuper := by
      apply elsewhere
      intro member
      obtain ⟨sin, inside, isSuper⟩ := List.mem_map.mp member
      exact (apart sin inside).1 isSuper
    have freemapBlocks : ∀ block < sfsFreemapBlocks fs.super,
        middle.disk (sfsBlknFreemap + block) = fs.disk (sfsBlknFreemap + block) := by
      intro block small
      apply elsewhere
      intro member
      obtain ⟨sin, inside, isFreemap⟩ := List.mem_map.mp member
      have outsideFreemap := (apart sin inside).2
      omega
    rw [SuperOnDisk, SuperOnDisk, sameSuper, sameFreemap, superBlock]
    refine and_congr_right fun _ => forall₂_congr fun block small => ?_
    rw [freemapBlocks block small]
  rw [SyncHonest, ← fails, ← onDisk]
  by_cases failed : SuperFails device middle middle.calls
  · exact iff_of_true (fun zero => absurd failed (isRet.mp zero)) (Or.inl failed)
  · have succeeded : ret = 0 := isRet.mpr failed
    have superLands : SuperOnDisk after ↔ fs.superDirty = true ∨ SuperOnDisk fs := by
      cases dirty : fs.superDirty with
      | true => exact iff_of_true (written succeeded (sameDirty.trans dirty)) (Or.inl rfl)
      | false => simp [clean (sameDirty.trans dirty), superStays]
    simp only [succeeded, true_imp_iff, failed, false_or, Durable, superLands]

/-- A volume of 32 blocks, in step with its disk but for a file that has grown. -/
def grownVolume : SfsFs where
  super := { magic := 0x2f8dbe2a, blocks := 32, unusedBlocks := 28, info := fun _ => 0 }
  superDirty := false
  freemap := { nbits := 32, nwords := 1, map := fun ix => if ix = 0 then 0xFFFFFFF0#32 else 0, covered := oneWord_covers }
  disk := fun block index =>
    if block = 0 then
      if index = 0 then 0x2f8dbe2a else if index = 1 then 32 else if index = 2 then 28 else 0
    else if block = 2 ∧ index = 0 then 0xFFFFFFF0
    else 0
  calls := 0

def grownFile : SfsInode where
  din := { size := 1, type := sfsTypeFile, nlinks := 1, blocks := 0, direct := fun _ => 0, indirect := 0 }
  ino := 3
  dirty := true
  reclaimCount := 1

theorem grownVolume_onDisk : SuperOnDisk grownVolume := by
  constructor
  · decide
  · intro block small index _
    obtain rfl : block = 0 := by
      have blocks : sfsFreemapBlocks grownVolume.super = 1 := by decide
      omega
    by_cases first : index = 0
    · simp [grownVolume, Bitmap.blocks, sfsBlknFreemap, first]
    · simp [grownVolume, Bitmap.blocks, sfsBlknFreemap, first]

theorem grownFile_separate : Separate grownVolume [grownFile] := by
  constructor
  · simp
  · intro sin member
    obtain rfl := List.mem_singleton.mp member
    decide

/-- The write of the inode does not fail. -/
theorem sync_durable_grown : ∃ after inodesAfter,
    sfsSync (fun _ => 0) grownVolume [grownFile] = some (0, after, inodesAfter) ∧ Durable after inodesAfter := by
  have completed : (sfsSync (fun _ => 0) grownVolume [grownFile]).map Prod.fst = some 0 := by decide
  obtain ⟨⟨ret, after, inodesAfter⟩, called, isRet⟩ := Option.map_eq_some_iff.mp completed
  obtain rfl : ret = 0 := isRet
  refine ⟨after, inodesAfter, called, ?_⟩
  refine (sync_durable _ grownVolume [grownFile] grownFile_separate 0 after inodesAfter called).mpr ?_ rfl
  refine Or.inr ⟨?_, Or.inr grownVolume_onDisk⟩
  intro front sin back isSplit
  have member : sin ∈ [grownFile] := by simp [isSplit]
  obtain rfl := List.mem_singleton.mp member
  exact Or.inr ⟨rfl, rfl, rfl⟩

/-- The read for that write fails, and `sfs_sync` succeeds without the inode on disk. -/
theorem sync_drops_error : ∃ after inodesAfter, Separate grownVolume [grownFile] ∧ SuperOnDisk grownVolume ∧
    sfsSync (fun call => if call = 0 then -1 else 0) grownVolume [grownFile] = some (0, after, inodesAfter) ∧
      ¬ Durable after inodesAfter := by
  refine ⟨{ grownVolume with calls := 1 }, [grownFile], grownFile_separate, grownVolume_onDisk, rfl, ?_⟩
  intro durable
  have onDisk := durable.1 grownFile (List.mem_singleton_self _) 0 (by decide)
  revert onDisk
  decide

end Ucore.Volume
