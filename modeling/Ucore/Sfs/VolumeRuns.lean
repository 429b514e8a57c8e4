import Ucore.Library.Transition
import Ucore.Sfs.BlockOwnership

/-!
# Runs of a volume

Inodes are loaded, resized, extended, synchronized and reclaimed in any order, and the
device fails at any call. The inodes of the volume own their blocks throughout: those
in memory by their memory, the others by the disk.
-/

namespace Ucore.Volume

open Ownership Transition

/-- A mounted file system, its inodes in memory, and the numbers of all its inodes. -/
structure Mounted where
  fs : SfsFs
  inodes : Nat → Option SfsInode
  files : Finset Nat

/-- The operations on inodes, by number. `refCount` is the count of references that the
caller finds, and `din` and `node` tell whether there is memory. -/
inductive VolumeOperation where
  | load (ino : Nat) (refCount : Int) (din node : Bool)
  | fsync (ino : Nat)
  | truncfile (ino : Nat) (len : Int)
  | tryseek (ino : Nat) (pos : Int)
  | bmapLoad (ino index : Nat)
  | written (ino endpos : Nat)
  | reclaim (ino : Nat) (refCount : Int)

def Mounted.put (volume : Mounted) (ino : Nat) (fs : SfsFs) (sin : Option SfsInode) : Mounted :=
  { volume with fs, inodes := Function.update volume.inodes ino sin }

variable (device : Nat → Int)

/-- `sfs_get_ops`, with whether the operations are those of a directory; there are none
for another type. -/
def sfsGetOps (type : Nat) : Option Bool :=
  if type = sfsTypeDir then some true else if type = sfsTypeFile then some false else none

/-- `sfs_load_inode`: an inode in memory gets one more reference. -/
def loadInode (volume : Mounted) (ino : Nat) (refCount : Int) (din node : Bool) : Option Mounted :=
  match volume.inodes ino with
  | some sin =>
      let reclaimCount := if refCount = 1 then sin.reclaimCount + 1 else sin.reclaimCount
      some (volume.put ino volume.fs (some { sin with reclaimCount }))
  | none =>
      if din = false then some volume
      else do
        assertInuse volume.fs ino
        let (read, fs) ← sfsRbuf device volume.fs diskInodeWords ino 0
        match read with
        | .error _ => some { volume with fs }
        | .ok words =>
            let din := DiskInode.ofWords words
            if din.nlinks = 0 then none
            else if node = false then some { volume with fs }
            else if sfsGetOps din.type = none then none
            else some (volume.put ino fs (some { din, ino, dirty := false, reclaimCount := 1 }))

/-- The end of `sfs_io_nolock`, which has written up to `endpos`. -/
def extend (sin : SfsInode) (endpos : Nat) : SfsInode :=
  if sin.din.size < endpos then sin.modify { sin.din with size := endpos } else sin

/-- One operation; `none` is a panic, a failed assertion or an inode not in memory. -/
def volumeStep (volume : Mounted) : VolumeOperation → Option Mounted
  | .load ino refCount din node => loadInode device volume ino refCount din node
  | .fsync ino => do
      let sin ← volume.inodes ino
      let (_, fs, sin) ← sfsFsync device volume.fs sin
      some (volume.put ino fs (some sin))
  | .truncfile ino len => do
      let sin ← volume.inodes ino
      let (_, fs, sin) ← sfsTruncfile device volume.fs sin len
      some (volume.put ino fs (some sin))
  | .tryseek ino pos => do
      let sin ← volume.inodes ino
      let (_, fs, sin) ← sfsTryseek device volume.fs sin pos
      some (volume.put ino fs (some sin))
  | .bmapLoad ino index => do
      let sin ← volume.inodes ino
      let (_, fs, sin) ← sfsBmapLoadNolock device volume.fs sin index
      some (volume.put ino fs (some sin))
  | .written ino endpos => do
      let sin ← volume.inodes ino
      some (volume.put ino volume.fs (some (extend sin endpos)))
  | .reclaim ino refCount => do
      let sin ← volume.inodes ino
      let (_, fs, left) ← sfsReclaim device volume.fs sin refCount
      let removed := left.isNone ∧ sin.din.nlinks = 0
      some { volume.put ino fs left with files := if removed then volume.files.erase ino else volume.files }

/-- An inode is loaded by a number that a directory holds. -/
def VolumeLegal (volume : Mounted) : VolumeOperation → Prop
  | .load ino _ _ _ => ino ∈ volume.files
  | _ => True

/-- The disk inode in force: the one in memory, else the one on disk. -/
def Mounted.din (volume : Mounted) (ino : Nat) : DiskInode :=
  match volume.inodes ino with
  | some sin => sin.din
  | none => .ofWords (volume.fs.disk ino)

/-- What the inodes of the volume name. -/
def Mounted.names (volume : Mounted) (ino : Nat) (place : Place) : Option Nat :=
  if ino ∈ volume.files then Volume.names volume.fs.disk ino (volume.din ino) place else none

/-- Two disk inodes with the same pointers. -/
def SamePointers (first second : DiskInode) : Prop :=
  (∀ index < sfsNdirect, first.direct index = second.direct index) ∧ first.indirect = second.indirect

/-- The pointers of a clean inode are on disk. -/
def OnDisk (fs : SfsFs) (sin : SfsInode) : Prop :=
  sin.dirty = false → SamePointers (.ofWords (fs.disk sin.ino)) sin.din

/-- Every inode owns its blocks, and the superblock counts the free ones. -/
structure VolumeInvariant (volume : Mounted) : Prop where
  partitioned : Partitioned volume.names volume.fs.InUse
  counted : volume.fs.Counted
  loaded : ∀ ino sin, volume.inodes ino = some sin → ino ∈ volume.files ∧ sin.ino = ino
  clean : ∀ ino sin, volume.inodes ino = some sin → OnDisk volume.fs sin

/-- What an operation on one inode does to it and its blocks. -/
structure Moves (frame : Nat → Prop) (fs : SfsFs) (sin : SfsInode) (after : SfsFs) (sinAfter : SfsInode) :
    Prop where
  holds : Holds after sinAfter frame
  ino : sinAfter.ino = sin.ino
  nlinks : sinAfter.din.nlinks = sin.din.nlinks
  disk : ∀ block, frame block → after.disk block = fs.disk block
  clean : OnDisk fs sin → OnDisk after sinAfter

variable {device} {volume next : Mounted} {fs middle after : SfsFs} {sin sinMiddle sinAfter : SfsInode}
  {frame : Nat → Prop} {ino : Nat} {ret : Int}

theorem names_same {disk : Nat → Block} {first second : DiskInode} (same : SamePointers first second) :
    names disk ino first = names disk ino second := by
  obtain ⟨direct, indirect⟩ := same
  funext place
  cases place with
  | inode => rfl
  | indirect => simp [names, indirect]
  | entry index => simp [names, indirect]
  | direct index =>
    by_cases small : index < sfsNdirect
    · simp [names, direct index small]
    · simp [names, small]

theorem Steps.moves (steps : Steps frame fs sin after sinAfter) : Moves frame fs sin after sinAfter where
  holds := steps.holds
  ino := steps.ino
  nlinks := steps.nlinks
  disk := fun block inside => steps.disk block (Or.inl inside)
  clean := by
    intro onDisk notDirty
    rcases steps.dirty with dirty | ⟨same, direct, indirect⟩
    · rw [notDirty] at dirty
      cases dirty
    · rw [steps.ino, steps.disk _ (Or.inr rfl)]
      have before := onDisk (same.symm.trans notDirty)
      simpa only [SamePointers, direct, indirect] using before

theorem Moves.trans (first : Moves frame fs sin middle sinMiddle)
    (second : Moves frame middle sinMiddle after sinAfter) : Moves frame fs sin after sinAfter where
  holds := second.holds
  ino := second.ino.trans first.ino
  nlinks := second.nlinks.trans first.nlinks
  disk := fun block inside => (second.disk block inside).trans (first.disk block inside)
  clean := fun onDisk => second.clean (first.clean onDisk)

/-- The words of a disk inode give its pointers back. -/
theorem ofWords_words (din : DiskInode) : SamePointers (.ofWords din.words) din := by
  constructor
  · intro index small
    simp [DiskInode.ofWords, DiskInode.words, small]
  · rfl

/-- `sfs_fsync` writes the inode or leaves it dirty. -/
theorem Holds.fsync_moves (holds : Holds fs sin frame)
    (called : sfsFsync device fs sin = some (ret, after, sinAfter)) :
    Moves frame fs sin after sinAfter ∧ (ret = 0 → sinAfter.dirty = false) := by
  unfold sfsFsync at called
  split at called
  · obtain ⟨⟨code, written⟩, wrote, rest⟩ := Option.bind_eq_some_iff.mp called
    obtain ⟨rfl, rfl, rfl⟩ := rest
    obtain ⟨calls, ⟨failed, rfl⟩ | ⟨succeeded, rfl⟩⟩ := sfsWbuf_cases wrote
    · have kept := holds.keeps (Keeps.calls fs calls)
      refine ⟨⟨⟨kept.holds.owns, kept.holds.counted⟩, rfl, rfl, fun _ _ => rfl, ?_⟩, fun zero => absurd zero failed⟩
      intro _ notDirty
      simp [failed] at notDirty
    · have notIndirect : sin.din.indirect ≠ 0 → sin.din.indirect ≠ sin.ino := by
        intro nonzero same
        have place := holds.owns.once .indirect .inode _ (pointer_nonzero nonzero) (same ▸ rfl)
        cases place
      refine ⟨⟨⟨?_, holds.counted⟩, rfl, rfl, ?_, ?_⟩, fun _ => by simp [succeeded]⟩
      · have same := fun nonzero => Function.update_of_ne (notIndirect nonzero)
          (copyWords (fs.disk sin.ino) sin.din.words diskInodeWords 0) fs.disk
        rw [names_congr same]
        exact holds.owns
      · intro block inside
        have different : block ≠ sin.ino := by
          rintro rfl
          exact holds.owns.apart .inode _ rfl inside
        simp [different]
      · intro _ _
        have same := ofWords_words sin.din
        simp only [SamePointers, DiskInode.ofWords, Function.update_self] at same ⊢
        refine ⟨fun index small => ?_, ?_⟩
        · have inside : 0 ≤ index + 3 ∧ index + 3 < 0 + diskInodeWords := by
            simp only [sfsNdirect, diskInodeWords] at small ⊢
            omega
          have written := same.1 index small
          simpa only [copyWords, inside, and_self, if_true, Nat.sub_zero] using written
        · simpa [copyWords, diskInodeWords] using same.2
  · rename_i notDirty
    obtain ⟨rfl, rfl, rfl⟩ := called
    exact ⟨holds.refl.moves, fun _ => by simpa using notDirty⟩

/-- The first part of `sfs_reclaim` moves blocks only of this inode; it succeeds with all
pointers on disk. -/
theorem Holds.reclaimSync_moves (holds : Holds fs sin frame)
    (called : reclaimSync device fs sin = some (ret, after, sinAfter)) :
    Moves frame fs sin after sinAfter ∧ (ret = 0 → sinAfter.dirty = false) := by
  obtain ⟨⟨code, middle, sinMiddle⟩, truncated, rest⟩ := Option.bind_eq_some_iff.mp called
  have moves : Moves frame fs sin middle sinMiddle := by
    unfold reclaimTruncate at truncated
    split at truncated
    · exact (holds.vopTruncate_steps truncated).moves
    · obtain ⟨_, rfl, rfl⟩ := truncated
      exact holds.refl.moves
  simp only at rest
  split at rest
  · rename_i failed
    obtain ⟨rfl, rfl, rfl⟩ := rest
    exact ⟨moves, fun zero => absurd zero failed⟩
  · split at rest
    · obtain ⟨synced, isSynced⟩ := moves.holds.fsync_moves rest
      exact ⟨moves.trans synced, isSynced⟩
    · rename_i notDirty
      obtain ⟨rfl, rfl, rfl⟩ := rest
      exact ⟨moves, fun _ => by simpa using notDirty⟩

/-! ## The whole volume -/

/-- An inode in memory owns its blocks against the others. -/
theorem VolumeInvariant.holds (invariant : VolumeInvariant volume) (isIn : volume.inodes ino = some sin) :
    Holds volume.fs sin (others volume.names ino) := by
  obtain ⟨member, isIno⟩ := invariant.loaded ino sin isIn
  refine ⟨?_, invariant.counted⟩
  have same : volume.names ino = Volume.names volume.fs.disk sin.ino sin.din := by
    funext place
    simp [Mounted.names, Mounted.din, member, isIn, isIno]
  exact same ▸ invariant.partitioned ino

/-- When one inode changes and the blocks of the others stay, the others name what they have named. -/
theorem names_elsewhere (files : ∀ other, other ≠ ino → (other ∈ next.files ↔ other ∈ volume.files))
    (inodes : ∀ other, other ≠ ino → next.inodes other = volume.inodes other)
    (disk : ∀ block, others volume.names ino block → next.fs.disk block = volume.fs.disk block) :
    ∀ other, other ≠ ino → next.names other = volume.names other := by
  intro other different
  have named : ∀ place block, volume.names other place = some block → next.fs.disk block = volume.fs.disk block :=
    fun place block names => disk block ⟨other, different, place, names⟩
  by_cases member : other ∈ volume.files
  · have isInode : next.fs.disk other = volume.fs.disk other :=
      named .inode other (by simp [Mounted.names, member, Volume.names])
    have sameDin : next.din other = volume.din other := by
      simp [Mounted.din, inodes other different, isInode]
    have sameNames : Volume.names next.fs.disk other (volume.din other) =
        Volume.names volume.fs.disk other (volume.din other) := by
      apply names_congr
      intro nonzero
      apply named .indirect
      simp [Mounted.names, member, Volume.names, pointer_nonzero nonzero]
    funext place
    simp only [Mounted.names, (files other different).mpr member, member, if_true, sameDin, sameNames]
  · have gone : other ∉ next.files := fun inside => member ((files other different).mp inside)
    funext place
    simp [Mounted.names, member, gone]

/-- One inode changes, and the blocks of the others stay. -/
theorem VolumeInvariant.step (invariant : VolumeInvariant volume)
    (files : ∀ other, other ≠ ino → (other ∈ next.files ↔ other ∈ volume.files))
    (inodes : ∀ other, other ≠ ino → next.inodes other = volume.inodes other)
    (disk : ∀ block, others volume.names ino block → next.fs.disk block = volume.fs.disk block)
    (owns : Owns (next.names ino) next.fs.InUse (others volume.names ino)) (counted : next.fs.Counted)
    (here : ∀ sin, next.inodes ino = some sin → ino ∈ next.files ∧ sin.ino = ino ∧ OnDisk next.fs sin) :
    VolumeInvariant next := by
  have elsewhere := names_elsewhere files inodes disk
  refine ⟨invariant.partitioned.step elsewhere owns, counted, ?_, ?_⟩
  · intro other sin isIn
    by_cases same : other = ino
    · subst same
      exact ⟨(here sin isIn).1, (here sin isIn).2.1⟩
    · rw [inodes other same] at isIn
      obtain ⟨member, isIno⟩ := invariant.loaded other sin isIn
      exact ⟨(files other same).mpr member, isIno⟩
  · intro other sin isIn
    by_cases same : other = ino
    · subst same
      exact (here sin isIn).2.2
    · rw [inodes other same] at isIn
      obtain ⟨member, isIno⟩ := invariant.loaded other sin isIn
      have onDisk := invariant.clean other sin isIn
      have framed : next.fs.disk sin.ino = volume.fs.disk sin.ino :=
        disk sin.ino ⟨other, same, .inode, by simp [Mounted.names, member, Volume.names, isIno]⟩
      simpa only [OnDisk, framed] using onDisk

/-- An operation moves blocks of an inode that stays in memory. -/
theorem VolumeInvariant.moved (invariant : VolumeInvariant volume) (isIn : volume.inodes ino = some sin)
    (moves : Moves (others volume.names ino) volume.fs sin after sinAfter) :
    VolumeInvariant (volume.put ino after (some sinAfter)) := by
  obtain ⟨member, isIno⟩ := invariant.loaded ino sin isIn
  have sameIno : sinAfter.ino = ino := moves.ino.trans isIno
  apply invariant.step
  · exact fun _ _ => Iff.rfl
  · exact fun other different => Function.update_of_ne different _ _
  · exact moves.disk
  · have same : (volume.put ino after (some sinAfter)).names ino =
        Volume.names after.disk sinAfter.ino sinAfter.din := by
      funext place
      simp [Mounted.names, Mounted.din, Mounted.put, member, sameIno]
    rw [same]
    exact moves.holds.owns
  · exact moves.holds.counted
  · intro other isOther
    simp only [Mounted.put, Function.update_self] at isOther
    obtain rfl := Option.some.inj isOther
    exact ⟨member, sameIno, moves.clean (invariant.clean ino sin isIn)⟩

/-- A clean inode leaves memory. -/
theorem VolumeInvariant.dropped (invariant : VolumeInvariant volume) (isIn : volume.inodes ino = some sin)
    (moves : Moves (others volume.names ino) volume.fs sin after sinAfter) (notDirty : sinAfter.dirty = false) :
    VolumeInvariant (volume.put ino after none) := by
  obtain ⟨member, isIno⟩ := invariant.loaded ino sin isIn
  have sameIno : sinAfter.ino = ino := moves.ino.trans isIno
  have onDisk : SamePointers (.ofWords (after.disk ino)) sinAfter.din := by
    have clean := moves.clean (invariant.clean ino sin isIn) notDirty
    rwa [sameIno] at clean
  apply invariant.step
  · exact fun _ _ => Iff.rfl
  · exact fun other different => Function.update_of_ne different _ _
  · exact moves.disk
  · have same : (volume.put ino after none).names ino = Volume.names after.disk sinAfter.ino sinAfter.din := by
      funext place
      simp [Mounted.names, Mounted.din, Mounted.put, member, sameIno, names_same onDisk]
    rw [same]
    exact moves.holds.owns
  · exact moves.holds.counted
  · intro other isOther
    simp [Mounted.put] at isOther

/-- A file without links leaves the volume: its own block and its indirect block go. -/
theorem VolumeInvariant.removed (invariant : VolumeInvariant volume) (isIn : volume.inodes ino = some sin)
    (moves : Moves (others volume.names ino) volume.fs sin middle sinAfter) (unlinked : sinAfter.din.nlinks = 0)
    (freed : reclaimFree middle sinAfter = some after) :
    VolumeInvariant { volume.put ino after none with files := volume.files.erase ino } := by
  obtain ⟨member, isIno⟩ := invariant.loaded ino sin isIn
  have owns := moves.holds.owns
  simp only [reclaimFree, unlinked, if_true] at freed
  obtain ⟨last, freedInode, rest⟩ := Option.bind_eq_some_iff.mp freed
  obtain ⟨_, inodeGoes⟩ := sfsBlockFree_cases freedInode
  have ends : last.disk = after.disk ∧ (last.Counted → after.Counted) ∧
      ∀ block, others volume.names ino block → last.InUse block → after.InUse block := by
    split at rest
    · rename_i nonzero
      obtain ⟨_, indirectGoes⟩ := sfsBlockFree_cases rest
      refine ⟨indirectGoes.disk.symm, indirectGoes.counted, ?_⟩
      intro block inside used
      refine indirectGoes.inUse block ?_ used
      rintro rfl
      exact owns.apart .indirect _ (pointer_nonzero nonzero) inside
    · obtain rfl := Option.some.inj rest
      exact ⟨rfl, id, fun _ _ => id⟩
  apply invariant.step
  · exact fun other different => Finset.mem_erase.trans (and_iff_right different)
  · exact fun other different => Function.update_of_ne different _ _
  · intro block inside
    simp only [Mounted.put, ← ends.1, inodeGoes.disk]
    exact moves.disk block inside
  · have none : ∀ place block, Mounted.names { volume.put ino after none with files := volume.files.erase ino }
        ino place ≠ some block := by
      intro place block
      simp [Mounted.names]
    constructor
    · exact fun place block names => absurd names (none place block)
    · exact fun place _ block names => absurd names (none place block)
    · exact fun place block names => absurd names (none place block)
    · intro block inside
      apply ends.2.2 block inside
      apply inodeGoes.inUse block ?_ (owns.framed block inside)
      rintro rfl
      exact owns.apart .inode _ rfl inside
  · exact ends.2.1 (inodeGoes.counted moves.holds.counted)
  · intro other isOther
    simp [Mounted.put] at isOther

/-- Nothing but the number of calls of the device changes. -/
theorem VolumeInvariant.called (invariant : VolumeInvariant volume) (calls : Nat) :
    VolumeInvariant { volume with fs := { volume.fs with calls } } :=
  ⟨invariant.partitioned, invariant.counted, invariant.loaded, invariant.clean⟩

/-- `sfs_load_inode` keeps the invariant. -/
theorem VolumeInvariant.load (invariant : VolumeInvariant volume) {refCount : Int} {din node : Bool}
    (member : ino ∈ volume.files) (taken : loadInode device volume ino refCount din node = some next) :
    VolumeInvariant next := by
  unfold loadInode at taken
  split at taken
  · rename_i sin isIn
    obtain rfl := Option.some.inj taken
    exact invariant.moved isIn ((invariant.holds isIn).fields rfl rfl rfl (Or.inr rfl)).moves
  · rename_i notIn
    split at taken
    · exact Option.some.inj taken ▸ invariant
    · obtain ⟨_, _, rest⟩ := Option.bind_eq_some_iff.mp taken
      obtain ⟨⟨read, fs⟩, isRead, rest⟩ := Option.bind_eq_some_iff.mp rest
      obtain ⟨⟨calls, rfl⟩, words⟩ := sfsRbuf_cases isRead
      cases read with
      | error code => exact Option.some.inj rest ▸ invariant.called calls
      | ok buf =>
        simp only at rest
        split at rest
        · cases rest
        · split at rest
          · exact Option.some.inj rest ▸ invariant.called calls
          · by_cases noOps : sfsGetOps (DiskInode.ofWords buf).type = none
            · rw [if_pos noOps] at rest
              cases rest
            rw [if_neg noOps] at rest
            obtain rfl := Option.some.inj rest
            have isBlock : buf = volume.fs.disk ino := by
              rw [words buf rfl]
              funext index
              rw [Nat.zero_add]
            have same : (volume.put ino { volume.fs with calls }
                (some { din := .ofWords buf, ino, dirty := false, reclaimCount := 1 })).names ino =
                volume.names ino := by
              funext place
              simp [Mounted.names, Mounted.din, Mounted.put, notIn, isBlock]
            apply invariant.step
            · exact fun _ _ => Iff.rfl
            · exact fun other different => Function.update_of_ne different _ _
            · exact fun _ _ => rfl
            · rw [same]
              exact invariant.partitioned ino
            · exact invariant.counted
            · intro other isOther
              simp only [Mounted.put, Function.update_self] at isOther
              obtain rfl := Option.some.inj isOther
              refine ⟨member, rfl, fun _ => ?_⟩
              rw [isBlock]
              exact ⟨fun _ _ => rfl, rfl⟩

/-- `sfs_reclaim` keeps the invariant, wherever it ends. -/
theorem VolumeInvariant.reclaim (invariant : VolumeInvariant volume) (isIn : volume.inodes ino = some sin)
    {refCount : Int} {left : Option SfsInode}
    (called : sfsReclaim device volume.fs sin refCount = some (ret, after, left)) :
    VolumeInvariant { volume.put ino after left with
      files := if left.isNone ∧ sin.din.nlinks = 0 then volume.files.erase ino else volume.files } := by
  unfold sfsReclaim at called
  split at called
  · have counted : Moves (others volume.names ino) volume.fs sin volume.fs
        { sin with reclaimCount := sin.reclaimCount - 1 } :=
      ((invariant.holds isIn).fields rfl rfl rfl (Or.inr rfl)).moves
    simp only at called
    split at called
    · obtain ⟨_, rfl, rfl⟩ := called
      simpa [Mounted.put] using invariant.moved isIn counted
    · obtain ⟨⟨code, middle, sinMiddle⟩, synced, rest⟩ := Option.bind_eq_some_iff.mp called
      obtain ⟨moves, notDirty⟩ := counted.holds.reclaimSync_moves synced
      have moved := counted.trans moves
      simp only at rest
      split at rest
      · obtain ⟨_, rfl, rfl⟩ := rest
        simpa [Mounted.put] using invariant.moved isIn moved
      · rename_i succeeded
        obtain ⟨freed, isFreed, rest⟩ := Option.bind_eq_some_iff.mp rest
        obtain ⟨_, rfl, rfl⟩ := rest
        by_cases unlinked : sin.din.nlinks = 0
        · simpa [unlinked, Mounted.put] using invariant.removed isIn moved (moved.nlinks.trans unlinked) isFreed
        · have stays : sinMiddle.din.nlinks ≠ 0 := fun zero => unlinked (moved.nlinks.symm.trans zero)
          simp only [reclaimFree, stays, if_false] at isFreed
          obtain rfl := Option.some.inj isFreed
          simpa [unlinked, Mounted.put] using invariant.dropped isIn moved (notDirty (not_not.mp succeeded))
  · cases called

/-- An operation on an inode in memory that moves its blocks. -/
theorem VolumeInvariant.moving {α : Type} (invariant : VolumeInvariant volume)
    (operation : SfsFs → SfsInode → Option (α × SfsFs × SfsInode))
    (moving : ∀ sin result after sinAfter, Holds volume.fs sin (others volume.names ino) →
      operation volume.fs sin = some (result, after, sinAfter) →
      Moves (others volume.names ino) volume.fs sin after sinAfter)
    (taken : ((volume.inodes ino).bind fun sin => (operation volume.fs sin).bind fun result =>
      some (volume.put ino result.2.1 (some result.2.2))) = some next) : VolumeInvariant next := by
  obtain ⟨sin, isIn, rest⟩ := Option.bind_eq_some_iff.mp taken
  obtain ⟨⟨result, after, sinAfter⟩, called, isNext⟩ := Option.bind_eq_some_iff.mp rest
  obtain rfl := Option.some.inj isNext
  exact invariant.moved isIn (moving sin result after sinAfter (invariant.holds isIn) called)

/-- Every operation keeps the invariant. -/
theorem volumeStep_keeps (volume : Mounted) (operation : VolumeOperation) (next : Mounted)
    (invariant : VolumeInvariant volume) (legal : VolumeLegal volume operation)
    (taken : volumeStep device volume operation = some next) : VolumeInvariant next := by
  cases operation with
  | load ino refCount din node => exact invariant.load legal taken
  | fsync ino =>
    exact invariant.moving (sfsFsync device) (fun _ _ _ _ holds called => (holds.fsync_moves called).1) taken
  | truncfile ino len =>
    exact invariant.moving (fun fs sin => sfsTruncfile device fs sin len)
      (fun _ _ _ _ holds called => (holds.truncfile_steps called).moves) taken
  | tryseek ino pos =>
    exact invariant.moving (fun fs sin => sfsTryseek device fs sin pos)
      (fun _ _ _ _ holds called => (holds.tryseek_steps called).moves) taken
  | bmapLoad ino index =>
    exact invariant.moving (fun fs sin => sfsBmapLoadNolock device fs sin index)
      (fun _ _ _ _ holds called => (holds.load_steps called).moves) taken
  | written ino endpos =>
    obtain ⟨sin, isIn, isNext⟩ := Option.bind_eq_some_iff.mp taken
    obtain rfl := Option.some.inj isNext
    unfold extend
    split
    · have grown : Steps (others volume.names ino) volume.fs sin volume.fs
          (sin.modify { sin.din with size := endpos }) :=
        (invariant.holds isIn).fields rfl rfl rfl (Or.inl rfl)
      exact invariant.moved isIn grown.moves
    · exact invariant.moved isIn (invariant.holds isIn).refl.moves
  | reclaim ino refCount =>
    obtain ⟨sin, isIn, rest⟩ := Option.bind_eq_some_iff.mp taken
    obtain ⟨⟨ret, after, left⟩, called, isNext⟩ := Option.bind_eq_some_iff.mp rest
    obtain rfl := Option.some.inj isNext
    exact invariant.reclaim isIn called

/-- What the claim of ownership says of a volume: pointers name blocks in use, no block is
named twice, nor is the block of an inode, and the superblock counts the free blocks. -/
structure BlockOwnership (volume : Mounted) : Prop where
  inUse : ∀ ino place block, volume.names ino place = some block → volume.fs.freemap.bit block = false
  once : ∀ first second place other block, volume.names first place = some block →
    volume.names second other = some block → first = second ∧ place = other
  unused : volume.fs.super.unusedBlocks = volume.fs.freemap.setBits

theorem VolumeInvariant.ownership (invariant : VolumeInvariant volume) : BlockOwnership volume where
  inUse := fun ino place block names => (invariant.partitioned ino).inUse place block names
  once := fun _ _ _ _ _ named same => invariant.partitioned.once named same
  unused := invariant.counted

/-- In every run from a consistent volume, whatever calls of the device fail, the inodes
own their blocks. -/
theorem block_ownership (device : Nat → Int) (start volume : Mounted) (consistent : VolumeInvariant start)
    (reached : Reaches (volumeStep device) VolumeLegal start volume) : BlockOwnership volume := by
  have invariant : VolumeInvariant volume := reached.invariant consistent volumeStep_keeps
  exact invariant.ownership

/-- An empty file in memory. -/
def emptyFile (ino nlinks : Nat) : SfsInode where
  din := { size := 0, type := sfsTypeFile, nlinks, blocks := 0, direct := fun _ => 0, indirect := 0 }
  ino
  dirty := false
  reclaimCount := 1

/-- A volume of 32 blocks with two empty files, the second without links. -/
def twoFiles : Mounted where
  fs := {
    super := { magic := 0x2f8dbe2a, blocks := 32, unusedBlocks := 27, info := fun _ => 0 }
    superDirty := false
    freemap := { nbits := 32, nwords := 1, map := fun _ => 0xFFFFFFE0#32, covered := oneWord_covers }
    disk := fun _ _ => 0
    calls := 0 }
  inodes := fun ino => if ino = 3 then some (emptyFile 3 1) else if ino = 4 then some (emptyFile 4 0) else none
  files := {3, 4}

theorem twoFiles_names {ino block : Nat} {place : Place} (names : twoFiles.names ino place = some block) :
    place = .inode ∧ block = ino ∧ (ino = 3 ∨ ino = 4) := by
  simp only [Mounted.names] at names
  split at names
  · rename_i member
    have isFile : ino = 3 ∨ ino = 4 := by simpa [twoFiles] using member
    have empty : twoFiles.din ino = (emptyFile ino (twoFiles.din ino).nlinks).din := by
      rcases isFile with rfl | rfl
      · rfl
      · rfl
    rw [empty] at names
    cases place with
    | inode => exact ⟨rfl, (Option.some.inj names).symm, isFile⟩
    | direct index => simp [Volume.names, emptyFile] at names
    | indirect => simp [Volume.names, emptyFile] at names
    | entry index => simp [Volume.names, emptyFile] at names
  · cases names

theorem twoFiles_consistent : VolumeInvariant twoFiles where
  partitioned := by
    intro owner
    constructor
    · intro place block names
      obtain ⟨_, rfl, rfl | rfl⟩ := twoFiles_names names
      · rfl
      · rfl
    · intro place other block names same
      rw [(twoFiles_names names).1, (twoFiles_names same).1]
    · rintro place block names ⟨other, different, place', same⟩
      exact different ((twoFiles_names same).2.1.symm.trans (twoFiles_names names).2.1)
    · rintro block ⟨other, _, place, names⟩
      obtain ⟨_, rfl, rfl | rfl⟩ := twoFiles_names names
      · rfl
      · rfl
  counted := by
    unfold SfsFs.Counted
    decide +kernel
  loaded := by
    intro ino sin isIn
    simp only [twoFiles] at isIn ⊢
    split at isIn
    · rename_i isThree
      obtain rfl := Option.some.inj isIn
      simp [isThree, emptyFile]
    · split at isIn
      · rename_i isFour
        obtain rfl := Option.some.inj isIn
        simp [isFour, emptyFile]
      · cases isIn
  clean := by
    intro ino sin isIn
    simp only [twoFiles] at isIn
    split at isIn
    · obtain rfl := Option.some.inj isIn
      exact fun _ => ⟨fun _ _ => rfl, rfl⟩
    · split at isIn
      · obtain rfl := Option.some.inj isIn
        exact fun _ => ⟨fun _ _ => rfl, rfl⟩
      · cases isIn

/-- A write of an entry fails while file 4 grows. File 4 then goes, and file 3 takes over
its blocks, leaves memory and comes back. -/
def reuseRun : List VolumeOperation :=
  [.truncfile 3 8192, .truncfile 4 53248, .truncfile 4 57344, .reclaim 4 0, .truncfile 3 53248, .fsync 3,
    .reclaim 3 0, .load 3 1 true true]

theorem block_ownership_reuse :
    ∃ volume, Reaches (volumeStep fun call => if call = 20 then -1 else 0) VolumeLegal twoFiles volume ∧
      volume.fs.super.unusedBlocks = 14 ∧ volume.names 3 .indirect = some 16 ∧
      volume.names 3 (.entry 0) = some 17 ∧ BlockOwnership volume := by
  have completed : (run (guarded (volumeStep fun call => if call = 20 then -1 else 0) fun volume operation =>
        match operation with
        | .load ino _ _ _ => decide (ino ∈ volume.files)
        | _ => true) reuseRun twoFiles).map
      (fun volume => (volume.fs.super.unusedBlocks, volume.names 3 .indirect, volume.names 3 (.entry 0))) =
      some (14, some 16, some 17) := by
    decide +kernel
  obtain ⟨volume, last, results⟩ := Option.map_eq_some_iff.mp completed
  obtain ⟨unused, indirect, entry⟩ : _ ∧ _ ∧ _ := by simpa using results
  have reached : Reaches (volumeStep fun call => if call = 20 then -1 else 0) VolumeLegal twoFiles volume := by
    refine guarded_reaches ?_ _ _ _ last
    intro state operation tested
    cases operation with
    | load ino refCount din node => simpa [VolumeLegal] using tested
    | _ => trivial
  exact ⟨volume, reached, unused, indirect, entry,
    block_ownership _ twoFiles volume twoFiles_consistent reached⟩

end Ucore.Volume
