import Ucore.Sfs.DirtyInodes
import Ucore.Sfs.Directory
import Ucore.Sfs.DirectoryTree

/-!
# What the readers of a file see

A file is its size, its blocks and what is in them. Inodes come into memory, are written and
leave it, and directories are searched, whatever the device does: every file stays what it is
as long as no inode is a block of a file and clean inodes are as they are on disk.
-/

namespace Ucore.Volume

/-- A file as its readers see it. -/
structure FileView where
  size : Nat
  blocks : List Nat
  contents : List Block

/-- The blocks of a file in the order of the file. -/
def Mounted.blockList (volume : Mounted) (ino : Nat) : List Nat :=
  (List.range (volume.din ino).blocks).map (slotBlock volume.fs.disk (volume.din ino))

/-- The file behind an inode number, by the disk inode in force. -/
def Mounted.view (volume : Mounted) (ino : Nat) : FileView where
  size := (volume.din ino).size
  blocks := volume.blockList ino
  contents := (volume.blockList ino).map volume.fs.disk

/-- Inodes in memory have links and are on disk unless they are dirty inodes of the volume,
and no inode is a block of a file. -/
structure Quiet (volume : Mounted) : Prop where
  held : ∀ ino sin, volume.inodes ino = some sin →
    sin.ino = ino ∧ sin.din.nlinks ≠ 0 ∧ (sin.dirty = true → ino ∈ volume.files)
  synced : volume.Synced
  apart : ∀ ino ∈ volume.files, Apart volume.files volume.fs.disk (volume.din ino)

/-- A change of the volume that writes inodes at most, and no other than those in force. -/
structure Calm (volume next : Mounted) : Prop where
  files : next.files = volume.files
  disk : ∀ block, block ∉ volume.files → next.fs.disk block = volume.fs.disk block
  din : ∀ ino, SameInode (next.din ino) (volume.din ino)

/-- An operation that keeps a quiet volume quiet and its files what they are. -/
def Stays (volume next : Mounted) : Prop := Quiet volume → Calm volume next ∧ Quiet next

variable {device : Nat → Int} {volume middle next : Mounted} {fs after : SfsFs} {sin sinAfter : SfsInode}
  {ino slot : Nat} {ret : Int} {first second third : DiskInode}

theorem SameInode.refl (din : DiskInode) : SameInode din din := ⟨rfl, rfl, fun _ _ => rfl, rfl⟩

theorem SameInode.trans (left : SameInode third second) (right : SameInode second first) : SameInode third first where
  size := left.size.trans right.size
  blocks := left.blocks.trans right.blocks
  pointers := ⟨fun index small => (left.pointers.1 index small).trans (right.pointers.1 index small),
    left.pointers.2.trans right.pointers.2⟩

/-! ## Files -/

theorem Calm.refl (volume : Mounted) : Calm volume volume := ⟨rfl, fun _ _ => rfl, fun _ => SameInode.refl _⟩

theorem Calm.trans (left : Calm volume middle) (right : Calm middle next) : Calm volume next where
  files := right.files.trans left.files
  disk := fun block outside => (right.disk block (left.files ▸ outside)).trans (left.disk block outside)
  din := fun ino => (right.din ino).trans (left.din ino)

/-- A file keeps the blocks of its slots. -/
theorem Calm.slotBlock (calm : Calm volume next) (quiet : Quiet volume) (member : ino ∈ volume.files)
    (small : slot < (volume.din ino).blocks) :
    Volume.slotBlock next.fs.disk (next.din ino) slot = Volume.slotBlock volume.fs.disk (volume.din ino) slot := by
  obtain ⟨direct, indirect⟩ := (calm.din ino).pointers
  unfold Volume.slotBlock
  split
  · rename_i inside
    exact direct slot inside
  · rename_i outside
    have apart := (quiet.apart ino member).indirect (by omega)
    rw [indirect, calm.disk _ apart]

theorem Calm.blockList (calm : Calm volume next) (quiet : Quiet volume) (member : ino ∈ volume.files) :
    next.blockList ino = volume.blockList ino := by
  unfold Mounted.blockList
  rw [(calm.din ino).blocks]
  apply List.map_congr_left
  intro slot inside
  exact calm.slotBlock quiet member (List.mem_range.mp inside)

/-- Every file stays what it is. -/
theorem Calm.view (calm : Calm volume next) (quiet : Quiet volume) (member : ino ∈ volume.files) :
    next.view ino = volume.view ino := by
  have blocks := calm.blockList quiet member
  have contents : (volume.blockList ino).map next.fs.disk = (volume.blockList ino).map volume.fs.disk := by
    apply List.map_congr_left
    intro block inside
    obtain ⟨slot, isSlot, rfl⟩ := List.mem_map.mp inside
    exact calm.disk _ ((quiet.apart ino member).slots slot (List.mem_range.mp isSlot))
  simp only [Mounted.view, (calm.din ino).size, blocks, contents]

/-- No inode becomes a block of a file. -/
theorem Calm.apart (calm : Calm volume next) (quiet : Quiet volume) :
    ∀ ino ∈ next.files, Apart next.files next.fs.disk (next.din ino) := by
  intro ino member
  rw [calm.files] at member
  obtain ⟨indirect, slots⟩ := quiet.apart ino member
  have same := calm.din ino
  refine ⟨fun many => ?_, fun slot small => ?_⟩
  · rw [same.pointers.2, calm.files]
    exact indirect (same.blocks ▸ many)
  · rw [same.blocks] at small
    rw [calm.slotBlock quiet member small, calm.files]
    exact slots slot small

/-! ## Operations that keep the files -/

theorem Stays.refl (volume : Mounted) : Stays volume volume := fun quiet => ⟨Calm.refl _, quiet⟩

theorem Stays.trans (left : Stays volume middle) (right : Stays middle next) : Stays volume next := by
  intro quiet
  obtain ⟨calm, quietMiddle⟩ := left quiet
  obtain ⟨calmOn, quietNext⟩ := right quietMiddle
  exact ⟨calm.trans calmOn, quietNext⟩

/-- Only calls of the device are counted. -/
theorem stays_called (volume : Mounted) (calls : Nat) :
    Stays volume { volume with fs := { volume.fs with calls } } :=
  fun quiet => ⟨⟨rfl, fun _ _ => rfl, fun _ => SameInode.refl _⟩, ⟨quiet.held, quiet.synced, quiet.apart⟩⟩

/-- One inode in memory changes, and its block on disk at most. -/
theorem stays_put {left : Option SfsInode} (disk : ∀ block, block ≠ ino → after.disk block = volume.fs.disk block)
    (inside : ino ∉ volume.files → after.disk ino = volume.fs.disk ino)
    (here : Quiet volume → SameInode (Mounted.din (volume.put ino after left) ino) (volume.din ino))
    (kept : Quiet volume → ∀ sin, left = some sin →
      sin.ino = ino ∧ sin.din.nlinks ≠ 0 ∧ (sin.dirty = true → ino ∈ volume.files) ∧
        (sin.dirty = false → SameInode (.ofWords (after.disk ino)) sin.din)) :
    Stays volume (volume.put ino after left) := by
  intro quiet
  have calm : Calm volume (volume.put ino after left) := by
    refine ⟨rfl, fun block outside => ?_, fun other => ?_⟩
    · by_cases same : block = ino
      · subst same
        exact inside outside
      · exact disk block same
    · by_cases same : other = ino
      · exact same ▸ here quiet
      · have sameDin : Mounted.din (volume.put ino after left) other = volume.din other := by
          simp [Mounted.din, Mounted.put, same, disk other same]
        exact sameDin ▸ SameInode.refl _
  refine ⟨calm, ?_, ?_, calm.apart quiet⟩
  · intro other sin isIn
    by_cases same : other = ino
    · subst same
      obtain ⟨isIno, linked, dirty, _⟩ := kept quiet sin (by simpa [Mounted.put] using isIn)
      exact ⟨isIno, linked, dirty⟩
    · exact quiet.held other sin (by simpa [Mounted.put, same] using isIn)
  · intro other sin isIn notDirty
    by_cases same : other = ino
    · subst same
      exact (kept quiet sin (by simpa [Mounted.put] using isIn)).2.2.2 notDirty
    · have before := quiet.synced other sin (by simpa [Mounted.put, same] using isIn) notDirty
      simpa only [Mounted.put, disk other same] using before

/-- An inode in memory keeps its disk inode. -/
theorem stays_fields {calls : Nat} (isIn : volume.inodes ino = some sin) (din : sinAfter.din = sin.din)
    (isIno : sinAfter.ino = sin.ino) (dirty : sinAfter.dirty = sin.dirty) :
    Stays volume (volume.put ino { volume.fs with calls } (some sinAfter)) := by
  refine stays_put (fun _ _ => rfl) (fun _ => rfl) ?_ ?_
  · intro _
    have same : Mounted.din (volume.put ino { volume.fs with calls } (some sinAfter)) ino = volume.din ino := by
      simp [Mounted.din, Mounted.put, isIn, din]
    exact same ▸ SameInode.refl _
  · rintro quiet _ ⟨rfl⟩
    obtain ⟨sameIno, linked, marked⟩ := quiet.held ino sin isIn
    rw [din, isIno, dirty]
    exact ⟨sameIno, linked, marked, quiet.synced ino sin isIn⟩

/-- An inode that is read is the one in force. -/
theorem stays_loaded {calls : Nat} {reclaimCount : Int} (notIn : volume.inodes ino = none)
    (linked : (DiskInode.ofWords (volume.fs.disk ino)).nlinks ≠ 0) :
    Stays volume (volume.put ino { volume.fs with calls } (some {
      din := .ofWords (volume.fs.disk ino), ino, dirty := false, reclaimCount })) := by
  refine stays_put (fun _ _ => rfl) (fun _ => rfl) ?_ ?_
  · intro _
    simp only [Mounted.din, Mounted.put, Function.update_self, notIn]
    exact SameInode.refl _
  · rintro _ _ ⟨rfl⟩
    exact ⟨rfl, linked, by simp, fun _ => SameInode.refl _⟩

/-- A write of an inode, which fails or puts it on disk. -/
theorem sfsFsync_disk (called : sfsFsync device fs sin = some (ret, after, sinAfter)) :
    (∀ block, block ≠ sin.ino → after.disk block = fs.disk block) ∧
      (sin.dirty = false → after.disk = fs.disk) ∧ sinAfter.ino = sin.ino ∧
      (sinAfter.dirty = true → sin.dirty = true) := by
  unfold sfsFsync at called
  split at called
  · rename_i dirty
    obtain ⟨⟨code, written⟩, wrote, rest⟩ := Option.bind_eq_some_iff.mp called
    obtain ⟨rfl, rfl, rfl⟩ := rest
    obtain ⟨calls, ⟨failed, rfl⟩ | ⟨succeeded, rfl⟩⟩ := sfsWbuf_cases wrote
    · exact ⟨fun _ _ => rfl, fun _ => rfl, rfl, fun _ => dirty⟩
    · refine ⟨fun block different => Function.update_of_ne different _ _, fun clean => ?_, rfl, fun _ => dirty⟩
      rw [clean] at dirty
      cases dirty
  · obtain ⟨rfl, rfl, rfl⟩ := called
    exact ⟨fun _ _ => rfl, fun _ => rfl, rfl, id⟩

/-- `sfs_fsync` keeps every file. -/
theorem fsync_stays (called : volumeStep device volume (.fsync ino) = some next) : Stays volume next := by
  obtain ⟨sin, isIn, rest⟩ := Option.bind_eq_some_iff.mp called
  obtain ⟨⟨ret, fs, sinAfter⟩, synced, rest⟩ := Option.bind_eq_some_iff.mp rest
  obtain rfl := Option.some.inj rest
  obtain ⟨disk, unwritten, sameIno, marked⟩ := sfsFsync_disk synced
  intro quiet
  obtain ⟨isIno, linked, dirty⟩ := quiet.held ino sin isIn
  have clean : sin.dirty = false → SameInode (.ofWords (volume.fs.disk sin.ino)) sin.din :=
    isIno ▸ quiet.synced ino sin isIn
  obtain ⟨sameDin, _, onDisk⟩ := sfsFsync_same synced clean
  have stays : Stays volume (volume.put ino fs (some sinAfter)) := by
    apply stays_put (fun block different => disk block (isIno ▸ different))
    · intro outside
      have notDirty : sin.dirty = false := by
        by_contra isDirty
        exact outside (dirty (by simpa using isDirty))
      rw [unwritten notDirty]
    · intro _
      have same : Mounted.din (volume.put ino fs (some sinAfter)) ino = volume.din ino := by
        simp [Mounted.din, Mounted.put, isIn, sameDin]
      exact same ▸ SameInode.refl _
    · rintro _ _ ⟨rfl⟩
      rw [sameIno, sameDin]
      exact ⟨isIno, linked, fun isDirty => dirty (marked isDirty), isIno ▸ onDisk⟩
  exact stays quiet

/-- `sfs_reclaim` of an inode with links writes it or not, and drops it or not. -/
theorem reclaim_stays {refCount : Int} (called : volumeStep device volume (.reclaim ino refCount) = some next) :
    Stays volume next := by
  obtain ⟨sin, isIn, rest⟩ := Option.bind_eq_some_iff.mp called
  obtain ⟨⟨ret, fs, left⟩, reclaimed, rest⟩ := Option.bind_eq_some_iff.mp rest
  obtain rfl := Option.some.inj rest
  intro quiet
  obtain ⟨isIno, linked, dirty⟩ := quiet.held ino sin isIn
  have clean : sin.dirty = false → SameInode (.ofWords (volume.fs.disk sin.ino)) sin.din :=
    isIno ▸ quiet.synced ino sin isIn
  simp only [linked, and_false, if_false]
  have stays : Stays volume (volume.put ino fs left) := by
    unfold sfsReclaim at reclaimed
    split at reclaimed
    · simp only at reclaimed
      split at reclaimed
      · obtain ⟨_, rfl, rfl⟩ := reclaimed
        exact stays_fields isIn rfl rfl rfl
      · obtain ⟨⟨code, middle, sinMiddle⟩, synced, rest⟩ := Option.bind_eq_some_iff.mp reclaimed
        simp only [reclaimSync, reclaimTruncate, linked, if_false, Option.bind_eq_bind, Option.bind_some, ne_eq,
          not_true_eq_false] at synced
        have moved : sinMiddle.din = sin.din ∧ sinMiddle.ino = sin.ino ∧ (sinMiddle.dirty = true → ino ∈ volume.files) ∧
            (∀ block, block ≠ ino → middle.disk block = volume.fs.disk block) ∧
            (ino ∉ volume.files → middle.disk ino = volume.fs.disk ino) ∧
            (sinMiddle.dirty = false → SameInode (.ofWords (middle.disk ino)) sin.din) ∧
            (code = 0 → sinMiddle.dirty = false) := by
          split at synced
          · rename_i isDirty
            obtain ⟨disk, unwritten, sameIno, marked⟩ := sfsFsync_disk synced
            obtain ⟨sameDin, fails, onDisk⟩ := sfsFsync_same synced clean
            refine ⟨sameDin, sameIno, fun isDirty => dirty (marked isDirty), fun block different =>
              disk block (isIno ▸ different), fun outside => absurd (dirty isDirty) outside, isIno ▸ onDisk, ?_⟩
            intro zero
            unfold sfsFsync at synced
            simp only [isDirty, if_true] at synced
            obtain ⟨written, _, rest⟩ := Option.bind_eq_some_iff.mp synced
            obtain ⟨rfl, _, rfl⟩ := rest
            simp [zero]
          · rename_i notDirty
            obtain ⟨rfl, rfl, rfl⟩ := synced
            exact ⟨rfl, rfl, dirty, fun _ _ => rfl, fun _ => rfl, isIno ▸ clean, fun _ => by simpa using notDirty⟩
        obtain ⟨sameDin, sameIno, marked, disk, unwritten, onDisk, done⟩ := moved
        simp only at rest
        split at rest
        · obtain ⟨_, rfl, rfl⟩ := rest
          apply stays_put disk unwritten
          · intro _
            have same : Mounted.din (volume.put ino fs (some sinMiddle)) ino = volume.din ino := by
              simp [Mounted.din, Mounted.put, isIn, sameDin]
            exact same ▸ SameInode.refl _
          · rintro _ _ ⟨rfl⟩
            rw [sameIno, sameDin]
            exact ⟨isIno, linked, marked, onDisk⟩
        · rename_i succeeded
          simp only [reclaimFree, sameDin, linked, if_false] at rest
          obtain ⟨_, rfl, rfl⟩ := rest
          apply stays_put disk unwritten
          · intro _
            have same : Mounted.din (volume.put ino fs none) ino = .ofWords (fs.disk ino) := by
              simp [Mounted.din, Mounted.put]
            rw [same, din_of isIn]
            exact onDisk (done (by simpa using succeeded))
          · rintro _ _ ⟨⟩
    · cases reclaimed
  exact stays quiet

/-! ## Reads of a directory -/

/-- An entry of the indirect block is read without a change. -/
theorem sfsBmapGetSubNolock_reads {entp index : Nat} {result : Except Int (Nat × Nat)}
    (called : sfsBmapGetSubNolock device fs entp index false = some (result, after)) :
    ∃ calls, after = { fs with calls } := by
  unfold sfsBmapGetSubNolock at called
  split at called
  · split at called
    · obtain ⟨⟨read, fsRead⟩, isRead, rest⟩ := Option.bind_eq_some_iff.mp called
      obtain ⟨⟨calls, rfl⟩, _⟩ := sfsRbuf_cases isRead
      cases read with
      | error code =>
        obtain ⟨_, rfl⟩ := Prod.mk.inj (Option.some.inj rest)
        exact ⟨calls, rfl⟩
      | ok words =>
        simp only [or_true, if_true] at rest
        obtain ⟨_, rfl⟩ := Prod.mk.inj (Option.some.inj rest)
        exact ⟨calls, rfl⟩
    · simp only [if_true] at called
      obtain ⟨_, rfl⟩ := Prod.mk.inj (Option.some.inj called)
      exact ⟨fs.calls, rfl⟩
  · cases called

/-- Without `create` the map of blocks changes nothing. -/
theorem sfsBmapGetNolock_reads {index : Nat} {result : Except Int Nat}
    (called : sfsBmapGetNolock device fs sin index false = some (result, after, sinAfter)) :
    sinAfter = sin ∧ ∃ calls, after = { fs with calls } := by
  unfold sfsBmapGetNolock at called
  split at called
  · simp only [getDirect, Bool.false_eq_true, and_false, if_false] at called
    obtain ⟨rfl, rfl⟩ := found_cases called
    exact ⟨rfl, after.calls, rfl⟩
  · split at called
    · obtain ⟨⟨sub, middle⟩, isSub, rest⟩ := Option.bind_eq_some_iff.mp called
      obtain ⟨calls, rfl⟩ := sfsBmapGetSubNolock_reads isSub
      cases sub with
      | error code =>
        obtain ⟨_, rfl, rfl⟩ := rest
        exact ⟨rfl, calls, rfl⟩
      | ok both =>
        obtain ⟨ent, block⟩ := both
        obtain ⟨_, rfl⟩ | ⟨isCreate, _⟩ := sfsBmapGetSubNolock_ent isSub
        · simp only [if_true] at rest
          obtain ⟨rfl, rfl⟩ := found_cases rest
          exact ⟨rfl, calls, rfl⟩
        · cases isCreate
    · cases called

/-- A block that is there is looked up without a change. -/
theorem sfsBmapLoadNolock_reads {result : Except Int Nat} (small : slot < sin.din.blocks)
    (called : sfsBmapLoadNolock device fs sin slot = some (result, after, sinAfter)) :
    sinAfter = sin ∧ ∃ calls, after = { fs with calls } := by
  have noCreate : decide (slot = sin.din.blocks) = false := decide_eq_false (Nat.ne_of_lt small)
  unfold sfsBmapLoadNolock at called
  rw [if_pos (Nat.le_of_lt small)] at called
  simp only [noCreate] at called
  obtain ⟨⟨got, middle, sinMiddle⟩, isGot, rest⟩ := Option.bind_eq_some_iff.mp called
  obtain ⟨rfl, reads⟩ := sfsBmapGetNolock_reads isGot
  cases got with
  | error code =>
    obtain ⟨_, rfl, rfl⟩ := rest
    exact ⟨rfl, reads⟩
  | ok block =>
    obtain ⟨_, _, rest⟩ := Option.bind_eq_some_iff.mp rest
    obtain ⟨_, rfl, rfl⟩ := rest
    exact ⟨rfl, reads⟩

theorem sfsDirentReadNolock_reads {result : Except Int DiskEntry}
    (called : sfsDirentReadNolock device fs sin slot = some (result, after, sinAfter)) :
    sinAfter = sin ∧ ∃ calls, after = { fs with calls } := by
  unfold sfsDirentReadNolock at called
  split at called
  · rename_i inside
    obtain ⟨⟨loaded, middle, sinMiddle⟩, isLoaded, rest⟩ := Option.bind_eq_some_iff.mp called
    obtain ⟨rfl, calls, rfl⟩ := sfsBmapLoadNolock_reads inside.2 isLoaded
    cases loaded with
    | error code =>
      obtain ⟨_, rfl, rfl⟩ := rest
      exact ⟨rfl, calls, rfl⟩
    | ok block =>
      obtain ⟨_, _, rest⟩ := Option.bind_eq_some_iff.mp rest
      obtain ⟨⟨read, last⟩, isRead, rest⟩ := Option.bind_eq_some_iff.mp rest
      obtain ⟨⟨more, rfl⟩, _⟩ := sfsRbuf_cases isRead
      obtain ⟨_, rfl, rfl⟩ := rest
      exact ⟨rfl, more, rfl⟩
  · cases called

/-- The search for a name changes nothing. -/
theorem searchSlots_reads {name : Name} {emptySlot rounds : Nat} {result : Except Int (Nat × Nat)} {left : Option Nat}
    (called : searchSlots device fs sin name slot emptySlot rounds = some (result, left, after, sinAfter)) :
    sinAfter = sin ∧ ∃ calls, after = { fs with calls } := by
  induction rounds generalizing fs sin slot emptySlot with
  | zero =>
    obtain ⟨_, _, rfl, rfl⟩ := called
    exact ⟨rfl, _, rfl⟩
  | succ rounds ih =>
    obtain ⟨⟨read, middle, sinMiddle⟩, isRead, rest⟩ := Option.bind_eq_some_iff.mp called
    obtain ⟨rfl, calls, rfl⟩ := sfsDirentReadNolock_reads isRead
    cases read with
    | error code =>
      obtain ⟨_, _, rfl, rfl⟩ := rest
      exact ⟨rfl, calls, rfl⟩
    | ok entry =>
      simp only at rest
      split at rest
      · obtain ⟨rfl, more, rfl⟩ := ih rest
        exact ⟨rfl, more, rfl⟩
      · split at rest
        · obtain ⟨_, _, rfl, rfl⟩ := rest
          exact ⟨rfl, calls, rfl⟩
        · obtain ⟨rfl, more, rfl⟩ := ih rest
          exact ⟨rfl, more, rfl⟩

theorem sfsDirentSearchNolock_reads {memory : Bool} {name : Name} {result : Except Int (Nat × Nat)} {left : Option Nat}
    (called : sfsDirentSearchNolock device memory fs sin name = some (result, left, after, sinAfter)) :
    sinAfter = sin ∧ ∃ calls, after = { fs with calls } := by
  unfold sfsDirentSearchNolock at called
  split at called
  · split at called
    · obtain ⟨_, _, rfl, rfl⟩ := called
      exact ⟨rfl, fs.calls, rfl⟩
    · exact searchSlots_reads called
  · cases called

end Ucore.Volume
