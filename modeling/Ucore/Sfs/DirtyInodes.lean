import Ucore.Sfs.SizeBlocks

/-!
# Dirty inodes

An inode in memory that differs from its block on disk has to be dirty, for `sfs_fsync`
and `sfs_reclaim` write only what is dirty. A new pointer and a new size make it dirty, the
number of blocks alone does not: a growth that goes on in an indirect block that is there
already, and then fails, leaves a clean inode with more blocks than it has on disk.
-/

namespace Ucore.Volume

open Ownership Transition

/-- Two disk inodes with the same size, blocks and pointers. -/
structure SameInode (first second : DiskInode) : Prop where
  size : first.size = second.size
  blocks : first.blocks = second.blocks
  pointers : SamePointers first second

/-- A clean inode in memory is the one on disk. -/
def Mounted.Synced (volume : Mounted) : Prop :=
  ∀ ino sin, volume.inodes ino = some sin → sin.dirty = false →
    SameInode (.ofWords (volume.fs.disk ino)) sin.din

variable (device : Nat → Int)

/-- A growth that adds blocks and fails does so on a dirty inode, or adds a block that has
no pointer yet. -/
def MarkedGrowth (fs : SfsFs) (sin : SfsInode) (tblks : Nat) : Prop :=
  sin.din.blocks < tblks → sin.dirty = true ∨
    AllOrNone (blocksAdded device fs sin (tblks - sin.din.blocks)) (tblks - sin.din.blocks) ∨
      ∃ index < blocksAdded device fs sin (tblks - sin.din.blocks), sin.din.Missing (sin.din.blocks + index)

/-- What `sfs_truncfile` asks for. -/
def MarkedTruncfile (fs : SfsFs) (sin : SfsInode) (len : Int) : Prop :=
  0 ≤ len ∧ len ≤ sfsMaxFileSize ∧ sin.din.size ≠ len → MarkedGrowth device fs sin (blocksFor len.toNat)

instance (fs : SfsFs) (sin : SfsInode) (tblks : Nat) : Decidable (MarkedGrowth device fs sin tblks) :=
  inferInstanceAs (Decidable (_ < _ → _ ∨ _ ∨ _))

instance (fs : SfsFs) (sin : SfsInode) (len : Int) : Decidable (MarkedTruncfile device fs sin len) :=
  inferInstanceAs (Decidable (_ ∧ _ ∧ _ → MarkedGrowth _ _ _ _))

/-- Inodes are loaded, resized, synchronized and reclaimed, and no growth fails unmarked. -/
def Marking (volume : Mounted) : VolumeOperation → Prop
  | .load ino _ _ _ => ino ∈ volume.files
  | .truncfile ino len => ∀ sin ∈ volume.inodes ino, MarkedTruncfile device volume.fs sin len
  | .tryseek ino pos => ∀ sin ∈ volume.inodes ino,
      sin.din.size < pos → MarkedTruncfile device volume.fs sin pos
  | .fsync _ | .reclaim _ _ => True
  | .bmapLoad _ _ | .written _ _ => False

instance (volume : Mounted) (operation : VolumeOperation) : Decidable (Marking device volume operation) :=
  match operation with
  | .load ino .. => inferInstanceAs (Decidable (ino ∈ volume.files))
  | .truncfile ino _ => inferInstanceAs (Decidable (∀ sin ∈ volume.inodes ino, MarkedTruncfile _ _ sin _))
  | .tryseek ino _ => inferInstanceAs (Decidable (∀ sin ∈ volume.inodes ino, _ → MarkedTruncfile _ _ sin _))
  | .fsync .. | .reclaim .. => inferInstanceAs (Decidable True)
  | .bmapLoad .. | .written .. => inferInstanceAs (Decidable False)

variable {device} {volume next : Mounted} {fs middle after : SfsFs} {sin sinMiddle sinAfter : SfsInode}
  {frame : Nat → Prop} {ino rounds tblks : Nat} {ret : Int}

/-! ## What leaves an inode dirty -/

/-- A growth leaves the inode dirty if and only if it was so or a block was added that had
no pointer. -/
theorem growBlocks_dirty
    (called : growBlocks device fs sin sin.din.blocks rounds = some (ret, after, sinAfter)) :
    sinAfter.dirty = true ↔ sin.dirty = true ∨
      ∃ index < blocksAdded device fs sin rounds, sin.din.Missing (sin.din.blocks + index) := by
  induction rounds generalizing fs sin with
  | zero =>
    obtain ⟨rfl, rfl, rfl⟩ := called
    simp [blocksAdded]
  | succ rounds ih =>
    obtain ⟨⟨result, middle, sinMiddle⟩, loaded, rest⟩ := Option.bind_eq_some_iff.mp called
    simp only [blocksAdded, loaded]
    rcases sfsBmapLoadNolock_next loaded with ⟨⟨code, rfl⟩, rfl⟩ | ⟨⟨block, rfl⟩, present, rfl⟩ |
      ⟨⟨block, rfl⟩, missing, direct, indirect, rfl⟩
    · obtain ⟨rfl, rfl, rfl⟩ := rest
      simp
    · -- the block had a pointer, and the later ones have what they had
      rw [ih rest, Nat.exists_lt_succ_left]
      simp only [Nat.add_zero, present, false_or, ← Nat.add_assoc, Nat.add_right_comm _ _ 1]
      rfl
    · have dirty : sinAfter.dirty = true := (ih rest).mpr (Or.inl rfl)
      exact iff_of_true dirty (Or.inr ⟨0, Nat.succ_pos _, missing⟩)

/-- A shrinking loop changes nothing or leaves the inode dirty. -/
theorem shrinkBlocks_dirty
    (called : shrinkBlocks device fs sin rounds = some (ret, after, sinAfter)) :
    sinAfter = sin ∨ sinAfter.dirty = true := by
  induction rounds generalizing fs sin with
  | zero =>
    obtain ⟨_, rfl, rfl⟩ := called
    exact Or.inl rfl
  | succ rounds ih =>
    obtain ⟨⟨code, middle, sinMiddle⟩, truncated, rest⟩ := Option.bind_eq_some_iff.mp called
    rcases sfsBmapTruncateNolock_inode truncated with ⟨failed, rfl⟩ | ⟨rfl, _, direct, rfl⟩
    · simp only [ne_eq, failed, not_false_eq_true, if_true] at rest
      obtain ⟨_, rfl, rfl⟩ := rest
      exact Or.inl rfl
    · simp only [ne_eq, not_true_eq_false, if_false] at rest
      rcases ih rest with rfl | dirty
      · exact Or.inr rfl
      · exact Or.inr dirty

/-- A resize that grows only marked changes nothing or leaves the inode dirty, unless it
succeeds. -/
theorem resize_dirty (marked : MarkedGrowth device fs sin tblks)
    (called : resize device fs sin tblks = some (ret, after, sinAfter)) (failed : ret ≠ 0) :
    sinAfter = sin ∨ sinAfter.dirty = true := by
  unfold resize at called
  split at called
  · rename_i grows
    have grown := growBlocks_exact called
    rcases marked grows with dirty | (none | all) | missing
    · exact Or.inr ((growBlocks_dirty called).mpr (Or.inl dirty))
    · exact Or.inl (grown.unmoved none)
    · exact absurd (grown.failed failed) (by omega)
    · exact Or.inr ((growBlocks_dirty called).mpr (Or.inr missing))
  · exact shrinkBlocks_dirty called

theorem sfsTruncfile_dirty {len : Int} (marked : MarkedTruncfile device fs sin len)
    (called : sfsTruncfile device fs sin len = some (ret, after, sinAfter)) :
    sinAfter = sin ∨ sinAfter.dirty = true := by
  unfold sfsTruncfile at called
  split at called
  · obtain ⟨_, rfl, rfl⟩ := called
    exact Or.inl rfl
  · rename_i inside
    simp only at called
    split at called
    · split at called
      · obtain ⟨_, rfl, rfl⟩ := called
        exact Or.inl rfl
      · cases called
    · rename_i different
      obtain ⟨⟨code, middle, sinMiddle⟩, resized, rest⟩ := Option.bind_eq_some_iff.mp called
      have grows : MarkedGrowth device fs sin (blocksFor len.toNat) := by
        apply marked
        refine ⟨?_, ?_, different⟩ <;> omega
      simp only at rest
      split at rest
      · rename_i failed
        obtain ⟨rfl, rfl, rfl⟩ := rest
        exact resize_dirty grows resized failed
      · split at rest
        · obtain ⟨_, _, rfl⟩ := rest
          exact Or.inr rfl
        · cases rest

theorem sfsTryseek_dirty {pos : Int} (marked : sin.din.size < pos → MarkedTruncfile device fs sin pos)
    (called : sfsTryseek device fs sin pos = some (ret, after, sinAfter)) :
    sinAfter = sin ∨ sinAfter.dirty = true := by
  unfold sfsTryseek at called
  split at called
  · obtain ⟨_, rfl, rfl⟩ := called
    exact Or.inl rfl
  · split at called
    · rename_i larger
      exact sfsTruncfile_dirty (marked larger) (vopTruncate_file called)
    · obtain ⟨_, rfl, rfl⟩ := called
      exact Or.inl rfl

/-! ## What is written -/

/-- The words of a disk inode give it back. -/
theorem sameInode_words (block : Block) (din : DiskInode) :
    SameInode (.ofWords (copyWords block din.words diskInodeWords 0)) din where
  size := rfl
  blocks := rfl
  pointers := by
    have same := ofWords_words din
    refine ⟨fun index small => ?_, same.2⟩
    have inside : 0 ≤ index + 3 ∧ index + 3 < 0 + diskInodeWords := by
      simp only [sfsNdirect, diskInodeWords] at small ⊢
      omega
    have written := same.1 index small
    simpa only [DiskInode.ofWords, copyWords, inside, and_self, if_true, Nat.sub_zero] using written

/-- `sfs_fsync` keeps the inode. It leaves it dirty, or as it is on disk. -/
theorem sfsFsync_same (called : sfsFsync device fs sin = some (ret, after, sinAfter))
    (clean : sin.dirty = false → SameInode (.ofWords (fs.disk sin.ino)) sin.din) :
    sinAfter.din = sin.din ∧ (ret ≠ 0 → sinAfter.dirty = true) ∧
      (sinAfter.dirty = false → SameInode (.ofWords (after.disk sin.ino)) sin.din) := by
  unfold sfsFsync at called
  split at called
  · obtain ⟨⟨code, written⟩, wrote, rest⟩ := Option.bind_eq_some_iff.mp called
    obtain ⟨rfl, rfl, rfl⟩ := rest
    obtain ⟨calls, ⟨failed, rfl⟩ | ⟨succeeded, rfl⟩⟩ := sfsWbuf_cases wrote
    · exact ⟨rfl, fun _ => by simp [failed], by simp [failed]⟩
    · refine ⟨rfl, fun failed => absurd succeeded failed, fun _ => ?_⟩
      simp only [Function.update_self]
      exact sameInode_words _ _
  · rename_i notDirty
    obtain ⟨rfl, rfl, rfl⟩ := called
    exact ⟨rfl, fun failed => absurd rfl failed, clean⟩

/-- A file without links only shrinks. -/
theorem reclaimTruncate_dirty (called : reclaimTruncate device fs sin = some (ret, after, sinAfter)) :
    sinAfter = sin ∨ sinAfter.dirty = true := by
  unfold reclaimTruncate at called
  split at called
  · apply sfsTruncfile_dirty ?_ (vopTruncate_file called)
    intro _ grows
    simp [blocksFor, sfsBlksize] at grows
  · obtain ⟨_, rfl, rfl⟩ := called
    exact Or.inl rfl

theorem Holds.reclaimTruncate_steps (holds : Holds fs sin frame)
    (called : reclaimTruncate device fs sin = some (ret, after, sinAfter)) : Steps frame fs sin after sinAfter := by
  unfold reclaimTruncate at called
  split at called
  · exact holds.vopTruncate_steps called
  · obtain ⟨_, rfl, rfl⟩ := called
    exact holds.refl

/-- The first part of `sfs_reclaim` leaves a clean inode only as it is on disk. -/
theorem Holds.reclaimSync_same (holds : Holds fs sin frame)
    (clean : sin.dirty = false → SameInode (.ofWords (fs.disk sin.ino)) sin.din)
    (called : reclaimSync device fs sin = some (ret, after, sinAfter)) (failed : ret ≠ 0)
    (notDirty : sinAfter.dirty = false) : SameInode (.ofWords (after.disk sin.ino)) sinAfter.din := by
  obtain ⟨⟨code, middle, sinMiddle⟩, truncated, rest⟩ := Option.bind_eq_some_iff.mp called
  have steps := holds.reclaimTruncate_steps truncated
  have cleanMiddle : sinMiddle.dirty = false → SameInode (.ofWords (middle.disk sin.ino)) sinMiddle.din := by
    intro isClean
    rcases reclaimTruncate_dirty truncated with rfl | dirty
    · rw [steps.disk _ (Or.inr rfl)]
      exact clean isClean
    · simp [isClean] at dirty
  simp only at rest
  split at rest
  · obtain ⟨_, rfl, rfl⟩ := rest
    exact cleanMiddle notDirty
  · split at rest
    · obtain ⟨_, dirty, _⟩ := sfsFsync_same rest (steps.ino ▸ cleanMiddle)
      simp [dirty failed] at notDirty
    · obtain ⟨rfl, _, _⟩ := rest
      exact absurd rfl failed

theorem reclaimFree_disk (called : reclaimFree fs sin = some after) : after.disk = fs.disk := by
  unfold reclaimFree at called
  split at called
  · obtain ⟨middle, freed, rest⟩ := Option.bind_eq_some_iff.mp called
    have first := (sfsBlockFree_cases freed).2.disk
    split at rest
    · exact (sfsBlockFree_cases rest).2.disk.trans first
    · exact Option.some.inj rest ▸ first
  · exact Option.some.inj called ▸ rfl

/-- `sfs_reclaim` writes no block of another inode, and an inode that it leaves clean is as
it is on disk. -/
theorem Holds.reclaim_same (holds : Holds fs sin frame) {refCount : Int} {left : Option SfsInode}
    (clean : sin.dirty = false → SameInode (.ofWords (fs.disk sin.ino)) sin.din)
    (called : sfsReclaim device fs sin refCount = some (ret, after, left)) :
    (∀ block, frame block → after.disk block = fs.disk block) ∧
      ∀ sinAfter, left = some sinAfter → sinAfter.dirty = false →
        SameInode (.ofWords (after.disk sin.ino)) sinAfter.din := by
  unfold sfsReclaim at called
  split at called
  · have counted : Steps frame fs sin fs { sin with reclaimCount := sin.reclaimCount - 1 } :=
      holds.fields rfl rfl rfl (Or.inr rfl)
    simp only at called
    split at called
    · obtain ⟨_, rfl, rfl⟩ := called
      refine ⟨fun _ _ => rfl, ?_⟩
      rintro _ ⟨rfl⟩ notDirty
      exact clean notDirty
    · obtain ⟨⟨code, middle, sinMiddle⟩, synced, rest⟩ := Option.bind_eq_some_iff.mp called
      obtain ⟨moves, _⟩ := counted.holds.reclaimSync_moves synced
      simp only at rest
      split at rest
      · rename_i failed
        obtain ⟨_, rfl, rfl⟩ := rest
        refine ⟨moves.disk, ?_⟩
        rintro _ ⟨rfl⟩ notDirty
        exact counted.holds.reclaimSync_same clean synced failed notDirty
      · obtain ⟨freed, isFreed, rest⟩ := Option.bind_eq_some_iff.mp rest
        obtain ⟨_, rfl, rfl⟩ := rest
        refine ⟨fun block inside => ?_, by simp⟩
        rw [reclaimFree_disk isFreed]
        exact moves.disk block inside
  · cases called

/-! ## Runs -/

/-- One inode changes, and the blocks of the others stay. -/
theorem Mounted.Synced.put (synced : volume.Synced) (invariant : VolumeInvariant volume) {left : Option SfsInode}
    {files : Finset Nat} (disk : ∀ block, others volume.names ino block → after.disk block = volume.fs.disk block)
    (here : ∀ sin, left = some sin → sin.dirty = false → SameInode (.ofWords (after.disk ino)) sin.din) :
    Mounted.Synced { volume.put ino after left with files } := by
  intro other sin isIn notDirty
  by_cases same : other = ino
  · subst same
    exact here sin (by simpa [Mounted.put] using isIn) notDirty
  · have isBefore : volume.inodes other = some sin := by simpa [Mounted.put, same] using isIn
    have member := (invariant.loaded other sin isBefore).1
    have framed : after.disk other = volume.fs.disk other :=
      disk other ⟨other, same, .inode, by simp [Mounted.names, member, Volume.names]⟩
    simpa only [Mounted.put, framed] using synced other sin isBefore notDirty

/-- A resize that is marked keeps clean inodes as they are on disk. -/
theorem Mounted.Synced.resized (synced : volume.Synced) (invariant : VolumeInvariant volume)
    (isIn : volume.inodes ino = some sin)
    (steps : Steps (others volume.names ino) volume.fs sin after sinAfter)
    (dirty : sinAfter = sin ∨ sinAfter.dirty = true) : (volume.put ino after (some sinAfter)).Synced := by
  refine synced.put invariant (fun block inside => steps.disk block (Or.inl inside)) ?_
  rintro _ ⟨rfl⟩ notDirty
  rcases dirty with rfl | isDirty
  · rw [steps.disk ino (Or.inr (invariant.loaded ino _ isIn).2.symm)]
    exact synced ino _ isIn notDirty
  · simp [notDirty] at isDirty

/-- `sfs_load_inode` reads a clean inode. -/
theorem Mounted.Synced.load (synced : volume.Synced) (invariant : VolumeInvariant volume) {refCount : Int}
    {din node : Bool} (taken : loadInode device volume ino refCount din node = some next) : next.Synced := by
  unfold loadInode at taken
  split at taken
  · rename_i sin isIn
    obtain rfl := Option.some.inj taken
    refine synced.put invariant (fun _ _ => rfl) ?_
    rintro _ ⟨rfl⟩ notDirty
    exact synced ino sin isIn notDirty
  · split at taken
    · exact Option.some.inj taken ▸ synced
    · obtain ⟨_, _, rest⟩ := Option.bind_eq_some_iff.mp taken
      obtain ⟨⟨read, fs⟩, isRead, rest⟩ := Option.bind_eq_some_iff.mp rest
      obtain ⟨⟨calls, rfl⟩, words⟩ := sfsRbuf_cases isRead
      cases read with
      | error code => exact Option.some.inj rest ▸ synced
      | ok buf =>
        simp only at rest
        split at rest
        · cases rest
        · split at rest
          · exact Option.some.inj rest ▸ synced
          · by_cases noOps : sfsGetOps (DiskInode.ofWords buf).type = none
            · rw [if_pos noOps] at rest
              cases rest
            rw [if_neg noOps] at rest
            obtain rfl := Option.some.inj rest
            have isBlock : buf = volume.fs.disk ino := by simpa only [Nat.zero_add] using words buf rfl
            refine synced.put invariant (fun _ _ => rfl) ?_
            rintro _ ⟨rfl⟩ _
            rw [isBlock]
            exact ⟨rfl, rfl, fun _ _ => rfl, rfl⟩

/-- Every marked operation keeps clean inodes as they are on disk. -/
theorem marking_keeps (volume : Mounted) (operation : VolumeOperation) (next : Mounted)
    (kept : VolumeInvariant volume ∧ volume.Synced) (allowed : Marking device volume operation)
    (taken : volumeStep device volume operation = some next) : VolumeInvariant next ∧ next.Synced := by
  obtain ⟨invariant, synced⟩ := kept
  have legal : VolumeLegal volume operation := by
    cases operation with
    | load => exact allowed
    | _ => trivial
  refine ⟨volumeStep_keeps volume operation next invariant legal taken, ?_⟩
  cases operation with
  | load ino refCount din node => exact synced.load invariant taken
  | fsync ino =>
    obtain ⟨sin, isIn, rest⟩ := Option.bind_eq_some_iff.mp taken
    obtain ⟨⟨ret, after, sinAfter⟩, called, isNext⟩ := Option.bind_eq_some_iff.mp rest
    obtain rfl := Option.some.inj isNext
    have isIno := (invariant.loaded ino sin isIn).2
    obtain ⟨din, _, same⟩ := sfsFsync_same called (isIno ▸ synced ino sin isIn)
    refine synced.put invariant ((invariant.holds isIn).fsync_moves called).1.disk ?_
    rintro _ ⟨rfl⟩ notDirty
    rw [din, ← isIno]
    exact same notDirty
  | truncfile ino len =>
    obtain ⟨sin, isIn, rest⟩ := Option.bind_eq_some_iff.mp taken
    obtain ⟨⟨ret, after, sinAfter⟩, called, isNext⟩ := Option.bind_eq_some_iff.mp rest
    obtain rfl := Option.some.inj isNext
    exact synced.resized invariant isIn ((invariant.holds isIn).truncfile_steps called)
      (sfsTruncfile_dirty (allowed sin isIn) called)
  | tryseek ino pos =>
    obtain ⟨sin, isIn, rest⟩ := Option.bind_eq_some_iff.mp taken
    obtain ⟨⟨ret, after, sinAfter⟩, called, isNext⟩ := Option.bind_eq_some_iff.mp rest
    obtain rfl := Option.some.inj isNext
    exact synced.resized invariant isIn ((invariant.holds isIn).tryseek_steps called)
      (sfsTryseek_dirty (allowed sin isIn) called)
  | reclaim ino refCount =>
    obtain ⟨sin, isIn, rest⟩ := Option.bind_eq_some_iff.mp taken
    obtain ⟨⟨ret, after, left⟩, called, isNext⟩ := Option.bind_eq_some_iff.mp rest
    obtain rfl := Option.some.inj isNext
    have isIno := (invariant.loaded ino sin isIn).2
    obtain ⟨disk, here⟩ := (invariant.holds isIn).reclaim_same (isIno ▸ synced ino sin isIn) called
    exact synced.put invariant disk (isIno ▸ here)
  | bmapLoad => cases allowed
  | written => cases allowed

/-- In every run whose growths fail only marked, an inode in memory that differs from the
one on disk is dirty, and a successful `sfs_fsync` makes them equal. -/
theorem dirty_flag_sound (device : Nat → Int) (start volume : Mounted) (consistent : VolumeInvariant start)
    (synced : start.Synced) (reached : Reaches (volumeStep device) (Marking device) start volume) :
    ∀ ino sin, volume.inodes ino = some sin →
      (¬ SameInode (.ofWords (volume.fs.disk ino)) sin.din → sin.dirty = true) ∧
      ∀ after sinAfter, sfsFsync device volume.fs sin = some (0, after, sinAfter) →
        sinAfter.din = sin.din ∧ SameInode (.ofWords (after.disk ino)) sinAfter.din := by
  intro ino sin isIn
  have kept : VolumeInvariant volume ∧ volume.Synced := reached.invariant ⟨consistent, synced⟩ marking_keeps
  have isIno := (kept.1.loaded ino sin isIn).2
  constructor
  · intro differs
    by_contra notDirty
    exact differs (kept.2 ino sin isIn (by simpa using notDirty))
  · intro after sinAfter called
    obtain ⟨din, _, same⟩ := sfsFsync_same called (isIno ▸ kept.2 ino sin isIn)
    refine ⟨din, ?_⟩
    rw [din, ← isIno]
    exact same (((kept.1.holds isIn).fsync_moves called).2 rfl)

theorem twoFiles_synced : twoFiles.Synced := by
  intro ino sin isIn _
  simp only [twoFiles] at isIn
  split at isIn
  · obtain rfl := Option.some.inj isIn
    exact ⟨rfl, rfl, fun _ _ => rfl, rfl⟩
  · split at isIn
    · obtain rfl := Option.some.inj isIn
      exact ⟨rfl, rfl, fun _ _ => rfl, rfl⟩
    · cases isIn

/-- The second block of a growth fails, and the inode, which is dirty, is written. It leaves
memory and comes back, and grows again. -/
def markedRun : List VolumeOperation :=
  [.truncfile 3 8192, .fsync 3, .reclaim 3 0, .load 3 0 true true, .tryseek 3 5000]

theorem dirty_flag_sound_marked :
    ∃ volume sin, Reaches (volumeStep fun call => if call = 1 then -1 else 0)
        (Marking fun call => if call = 1 then -1 else 0) twoFiles volume ∧
      volume.inodes 3 = some sin ∧ sin.din.size = 5000 ∧ sin.din.blocks = 2 ∧
      (volume.fs.disk 3 0, volume.fs.disk 3 2) = (0, 1) ∧
      (¬ SameInode (.ofWords (volume.fs.disk 3)) sin.din → sin.dirty = true) := by
  have completed : (run (guarded (volumeStep fun call => if call = 1 then -1 else 0) fun volume operation =>
        decide (Marking (fun call => if call = 1 then -1 else 0) volume operation)) markedRun twoFiles).bind
      (fun volume => (volume.inodes 3).map fun sin =>
        (sin.din.size, sin.din.blocks, volume.fs.disk 3 0, volume.fs.disk 3 2)) =
      some (5000, 2, 0, 1) := by
    decide +kernel
  obtain ⟨volume, last, rest⟩ := Option.bind_eq_some_iff.mp completed
  obtain ⟨sin, isIn, results⟩ := Option.map_eq_some_iff.mp rest
  obtain ⟨size, blocks, onDisk⟩ : _ ∧ _ ∧ _ := by simpa using results
  have reached : Reaches (volumeStep fun call => if call = 1 then -1 else 0)
      (Marking fun call => if call = 1 then -1 else 0) twoFiles volume :=
    guarded_reaches (fun _ _ tested => of_decide_eq_true tested) _ _ _ last
  have sound := dirty_flag_sound _ twoFiles volume twoFiles_consistent twoFiles_synced reached 3 sin isIn
  exact ⟨volume, sin, reached, isIn, size, blocks, by simp [onDisk], sound.1⟩

/-- A file of 13 blocks is written and then grows by two, and the second one fails. -/
def unmarkedRun : List VolumeOperation := [.truncfile 3 53248, .fsync 3, .truncfile 3 61440]

/-- The first new block is an entry of the indirect block that is there already: the inode
has one more block than on disk and is clean. -/
theorem unmarked_growth :
    ∃ volume sin, Reaches (volumeStep fun call => if call = 22 then -1 else 0)
        (fun volume operation => VolumeLegal volume operation ∧ operation ∈ unmarkedRun) twoFiles volume ∧
      VolumeInvariant twoFiles ∧ twoFiles.Synced ∧ volume.inodes 3 = some sin ∧
      ¬ SameInode (.ofWords (volume.fs.disk 3)) sin.din ∧ sin.dirty = false ∧
      sfsFsync (fun call => if call = 22 then -1 else 0) volume.fs sin = some (0, volume.fs, sin) := by
  have completed : (run (guarded (volumeStep fun call => if call = 22 then -1 else 0) fun _ operation =>
        match operation with
        | .truncfile ino len => decide (ino = 3 ∧ (len = 53248 ∨ len = 61440))
        | .fsync ino => decide (ino = 3)
        | _ => false) unmarkedRun twoFiles).bind
      (fun volume => (volume.inodes 3).map fun sin => (sin.dirty, sin.din.blocks, volume.fs.disk 3 2)) =
      some (false, 14, 13) := by
    decide +kernel
  obtain ⟨volume, last, rest⟩ := Option.bind_eq_some_iff.mp completed
  obtain ⟨sin, isIn, results⟩ := Option.map_eq_some_iff.mp rest
  obtain ⟨clean, blocks, onDisk⟩ : _ ∧ _ ∧ _ := by simpa using results
  refine ⟨volume, sin, guarded_reaches ?_ _ _ _ last, twoFiles_consistent, twoFiles_synced, isIn, ?_, clean, ?_⟩
  · intro state operation tested
    cases operation with
    | truncfile ino len =>
      obtain ⟨rfl, rfl | rfl⟩ : ino = 3 ∧ (len = 53248 ∨ len = 61440) := of_decide_eq_true tested
      · exact ⟨trivial, by simp [unmarkedRun]⟩
      · exact ⟨trivial, by simp [unmarkedRun]⟩
    | fsync ino =>
      obtain rfl : ino = 3 := of_decide_eq_true tested
      exact ⟨trivial, by simp [unmarkedRun]⟩
    | _ => cases tested
  · intro same
    have counts : 13 = 14 := onDisk ▸ blocks ▸ same.blocks
    omega
  · simp [sfsFsync, clean]

end Ucore.Volume
