import Ucore.Sfs.DirectoryTree
import Ucore.Sfs.DirtyInodes
import Ucore.Sfs.Mount
import Ucore.Sfs.SfsSync
import Ucore.Sfs.SuperMarks

/-!
# The form of a volume

The superblock and the freemap have blocks of their own, which no operation on inodes writes, and
they are on disk unless the superblock is marked as dirty. Every operation keeps that form,
whatever calls of the device fail.
-/

namespace Ucore.Volume

open Ownership Transition

/-- The blocks of the superblock and of the freemap. -/
def SfsFs.Reserved (fs : SfsFs) (block : Nat) : Prop :=
  block = sfsBlknSuper ∨ sfsBlknFreemap ≤ block ∧ block < sfsBlknFreemap + sfsFreemapBlocks fs.super

/-- The type and the links of an inode are those on disk. -/
def Typed (disk : Nat → Block) (ino : Nat) (din : DiskInode) : Prop :=
  (DiskInode.ofWords (disk ino)).type = din.type ∧ (DiskInode.ofWords (disk ino)).nlinks = din.nlinks

/-- A consistent volume whose superblock and freemap have the form that a mount gives them. They
are on disk, in blocks of their own, unless the superblock is dirty. -/
structure Formatted (volume : Mounted) : Prop where
  consistent : VolumeInvariant volume
  synced : volume.Synced
  typed : ∀ ino sin, volume.inodes ino = some sin → Typed volume.fs.disk ino sin.din
  magic : volume.fs.super.magic = sfsMagic
  positive : 0 < volume.fs.super.blocks
  small : sfsFreemapBits volume.fs.super < 2 ^ 32
  info : volume.fs.super.info 7 < 16777216
  nbits : volume.fs.freemap.nbits = sfsFreemapBits volume.fs.super
  nwords : wordBits * volume.fs.freemap.nwords = volume.fs.freemap.nbits
  fits : sfsBlknFreemap + sfsFreemapBlocks volume.fs.super ≤ volume.fs.super.blocks
  inRange : ∀ ino ∈ volume.files, ino < volume.fs.super.blocks
  reserved : ∀ block, volume.fs.Reserved block →
    volume.fs.InUse block ∧ ∀ ino place, volume.names ino place ≠ some block
  onDisk : volume.fs.superDirty = false → SuperOnDisk volume.fs

/-- The blocks that an operation on an inode leaves alone. -/
def Mounted.frame (volume : Mounted) (ino block : Nat) : Prop :=
  others volume.names ino block ∨ volume.fs.Reserved block

variable {device : Nat → Int} {volume next : Mounted} {fs after : SfsFs} {sin sinAfter : SfsInode} {ino : Nat} {ret : Int}
  {left : Option SfsInode} {files : Finset Nat}

/-- An inode in memory owns its blocks against the others and the reserved ones. -/
theorem Formatted.holds (formatted : Formatted volume) (isIn : volume.inodes ino = some sin) :
    Holds volume.fs sin (volume.frame ino) := by
  obtain ⟨owns, counted⟩ := formatted.consistent.holds isIn
  obtain ⟨member, isIno⟩ := formatted.consistent.loaded ino sin isIn
  refine ⟨⟨owns.inUse, owns.once, ?_, ?_⟩, counted⟩
  · rintro place block named (inside | reserved)
    · exact owns.apart place block named inside
    · refine (formatted.reserved block reserved).2 ino place ?_
      have isDin : volume.din ino = sin.din := by simp [Mounted.din, isIn]
      rw [Mounted.names, if_pos member, isDin, ← isIno]
      exact named
  · rintro block (inside | reserved)
    · exact owns.framed block inside
    · exact (formatted.reserved block reserved).1

/-- The superblock stays where it is, but for the number of free blocks. -/
theorem Marks.reserved (marks : Marks fs after) : after.Reserved = fs.Reserved := by
  have sameBlocks : after.super.blocks = fs.super.blocks := by rw [marks.super]
  funext block
  simp only [SfsFs.Reserved, sfsFreemapBlocks, sameBlocks]

/-- The superblock is on disk as long as it is not marked. -/
theorem Marks.onDisk (marks : Marks fs after) (disk : ∀ block, fs.Reserved block → after.disk block = fs.disk block)
    (onDisk : fs.superDirty = false → SuperOnDisk fs) (clean : after.superDirty = false) : SuperOnDisk after := by
  rcases marks.marked with dirty | ⟨super, freemap, dirty⟩
  · exact absurd (clean.symm.trans dirty) (by decide)
  · obtain ⟨superBlock, freemapBlocks⟩ := onDisk (dirty.symm.trans clean)
    rw [SuperOnDisk, super, freemap, disk _ (Or.inl rfl)]
    refine ⟨superBlock, fun block small index inside => ?_⟩
    rw [disk _ (Or.inr ⟨Nat.le_add_right _ _, Nat.add_lt_add_left small _⟩)]
    exact freemapBlocks block small index inside

/-- An operation on one inode leaves the reserved blocks alone. -/
structure Spares (volume : Mounted) (ino : Nat) (next : Mounted) : Prop where
  files : ∀ other, other ≠ ino → (other ∈ next.files ↔ other ∈ volume.files)
  fewer : next.files ⊆ volume.files
  inodes : ∀ other, other ≠ ino → next.inodes other = volume.inodes other
  disk : ∀ block, volume.frame ino block → next.fs.disk block = volume.fs.disk block
  inUse : ∀ block, volume.fs.Reserved block → next.fs.InUse block
  apart : ∀ block, volume.fs.Reserved block → ∀ place, next.names ino place ≠ some block
  typed : ∀ sin, next.inodes ino = some sin → Typed next.fs.disk ino sin.din

/-- What keeps the inodes consistent and on disk, spares the reserved blocks and marks its changes keeps the form. -/
theorem Formatted.step (formatted : Formatted volume) (consistent : VolumeInvariant next) (synced : next.Synced)
    (marks : Marks volume.fs next.fs) (spares : Spares volume ino next) : Formatted next where
  consistent := consistent
  synced := synced
  typed := by
    intro other sin isIn
    by_cases same : other = ino
    · subst same
      exact spares.typed sin isIn
    · rw [spares.inodes other same] at isIn
      have member := (formatted.consistent.loaded other sin isIn).1
      have framed := spares.disk other (Or.inl ⟨other, same, .inode, by simp [Mounted.names, member, Volume.names]⟩)
      rw [Typed, framed]
      exact formatted.typed other sin isIn
  magic := by
    rw [marks.super]
    exact formatted.magic
  positive := by
    rw [marks.super]
    exact formatted.positive
  small := by
    rw [marks.super]
    exact formatted.small
  info := by
    rw [marks.super]
    exact formatted.info
  nbits := by
    rw [marks.nbits, marks.super]
    exact formatted.nbits
  nwords := by
    rw [marks.nbits, marks.nwords]
    exact formatted.nwords
  fits := by
    rw [marks.super]
    exact formatted.fits
  inRange := by
    intro other member
    rw [marks.super]
    exact formatted.inRange other (spares.fewer member)
  reserved := by
    intro block reserved
    rw [marks.reserved] at reserved
    refine ⟨spares.inUse block reserved, fun other place => ?_⟩
    by_cases same : other = ino
    · exact same ▸ spares.apart block reserved place
    · rw [names_elsewhere spares.files spares.inodes (fun block inside => spares.disk block (Or.inl inside)) other same]
      exact (formatted.reserved block reserved).2 other place
  onDisk := marks.onDisk (fun block reserved => spares.disk block (Or.inr reserved)) formatted.onDisk

/-- An operation on an inode that stays in memory. -/
theorem Formatted.moved (formatted : Formatted volume) (isIn : volume.inodes ino = some sin)
    (moves : Moves (volume.frame ino) volume.fs sin after sinAfter)
    (typed : Typed after.disk ino sinAfter.din) : Spares volume ino (volume.put ino after (some sinAfter)) := by
  obtain ⟨member, isIno⟩ := formatted.consistent.loaded ino sin isIn
  have sameIno : sinAfter.ino = ino := moves.ino.trans isIno
  refine ⟨fun _ _ => Iff.rfl, fun _ => id, fun other different => Function.update_of_ne different _ _, moves.disk,
    fun block reserved => moves.holds.owns.framed block (Or.inr reserved), ?_, ?_⟩
  · intro block reserved place named
    refine moves.holds.owns.apart place block ?_ (Or.inr reserved)
    simpa [Mounted.names, Mounted.din, Mounted.put, member, sameIno] using named
  · intro other isOther
    simp only [Mounted.put, Function.update_self] at isOther
    obtain rfl := Option.some.inj isOther
    exact typed

/-- An inode on disk has a type of 16 bits. -/
theorem Typed.small {disk : Nat → Block} {din : DiskInode} (typed : Typed disk ino din) : din.type < 65536 := by
  rw [← typed.1]
  exact Nat.mod_lt _ (by decide)

theorem Steps.typed {frame : Nat → Prop} (steps : Steps frame fs sin after sinAfter) (typed : Typed fs.disk sin.ino sin.din)
    (type : sinAfter.din.type = sin.din.type) : Typed after.disk sin.ino sinAfter.din := by
  rw [Typed, steps.disk _ (Or.inr rfl), type, steps.nlinks]
  exact typed

theorem sfsFsync_typed (typed : Typed fs.disk sin.ino sin.din) (called : sfsFsync device fs sin = some (ret, after, sinAfter)) :
    Typed after.disk sin.ino sinAfter.din := by
  obtain ⟨same, rfl⟩ := sfsFsync_exact called
  rw [(Prod.mk.inj same).2]
  unfold Typed
  dsimp only
  split
  · rw [Function.update_self]
    have written := alike_words (fs.disk sin.ino) typed.small
    exact ⟨written.type, written.nlinks⟩
  · exact typed

theorem reclaimTruncate_type (called : reclaimTruncate device fs sin = some (ret, after, sinAfter)) :
    sinAfter.din.type = sin.din.type := by
  unfold reclaimTruncate at called
  split at called
  · exact (sfsTruncfile_size (vopTruncate_file called)).1
  · obtain ⟨_, _, rfl⟩ := called
    rfl

theorem Holds.reclaimSync_typed {frame : Nat → Prop} (holds : Holds fs sin frame) (typed : Typed fs.disk sin.ino sin.din)
    (called : reclaimSync device fs sin = some (ret, after, sinAfter)) : Typed after.disk sin.ino sinAfter.din := by
  obtain ⟨⟨code, middle, sinMiddle⟩, truncated, rest⟩ := Option.bind_eq_some_iff.mp called
  have steps := holds.reclaimTruncate_steps truncated
  have typedMiddle := steps.typed typed (reclaimTruncate_type truncated)
  simp only at rest
  split at rest
  · obtain ⟨_, rfl, rfl⟩ := rest
    exact typedMiddle
  · split at rest
    · rw [← steps.ino] at typedMiddle ⊢
      exact sfsFsync_typed typedMiddle rest
    · obtain ⟨_, rfl, rfl⟩ := rest
      exact typedMiddle

/-- A clean inode leaves memory. -/
theorem Formatted.dropped (formatted : Formatted volume) (isIn : volume.inodes ino = some sin)
    (moves : Moves (volume.frame ino) volume.fs sin after sinAfter) (notDirty : sinAfter.dirty = false) :
    Spares volume ino (volume.put ino after none) := by
  obtain ⟨member, isIno⟩ := formatted.consistent.loaded ino sin isIn
  have sameIno : sinAfter.ino = ino := moves.ino.trans isIno
  have onDisk : SamePointers (.ofWords (after.disk ino)) sinAfter.din := by
    have clean := moves.clean (formatted.consistent.clean ino sin isIn) notDirty
    rwa [sameIno] at clean
  refine ⟨fun _ _ => Iff.rfl, fun _ => id, fun other different => Function.update_of_ne different _ _, moves.disk,
    fun block reserved => moves.holds.owns.framed block (Or.inr reserved), ?_, ?_⟩
  · intro block reserved place named
    refine moves.holds.owns.apart place block ?_ (Or.inr reserved)
    simpa [Mounted.names, Mounted.din, Mounted.put, member, sameIno, names_same onDisk] using named
  · intro other isOther
    simp [Mounted.put] at isOther

/-- A file without links leaves the volume. -/
theorem Moves.removed (moves : Moves (volume.frame ino) volume.fs sin after sinAfter) {last : SfsFs}
    (freed : reclaimFree after sinAfter = some last) :
    Spares volume ino { volume.put ino last none with files := volume.files.erase ino } := by
  have owns := moves.holds.owns
  have isDisk := reclaimFree_disk freed
  have inUse : ∀ block, volume.fs.Reserved block → last.InUse block := by
    intro block reserved
    have used := owns.framed block (Or.inr reserved)
    have unnamed : ∀ place, Volume.names after.disk sinAfter.ino sinAfter.din place ≠ some block :=
      fun place named => owns.apart place block named (Or.inr reserved)
    unfold reclaimFree at freed
    split at freed
    · obtain ⟨middle, freedInode, rest⟩ := Option.bind_eq_some_iff.mp freed
      have notInode : block ≠ sinAfter.ino := fun same => unnamed .inode (congrArg some same.symm)
      have usedMiddle := (sfsBlockFree_cases freedInode).2.inUse block notInode used
      split at rest
      · rename_i nonzero
        have notIndirect : block ≠ sinAfter.din.indirect :=
          fun same => unnamed .indirect (same ▸ pointer_nonzero nonzero)
        exact (sfsBlockFree_cases rest).2.inUse block notIndirect usedMiddle
      · exact Option.some.inj rest ▸ usedMiddle
    · exact Option.some.inj freed ▸ used
  refine ⟨fun other different => Finset.mem_erase.trans (and_iff_right different), Finset.erase_subset _ _,
    fun other different => Function.update_of_ne different _ _, ?_, inUse, ?_, ?_⟩
  · intro block inside
    simp only [Mounted.put, isDisk]
    exact moves.disk block inside
  · intro block _ place named
    simp [Mounted.names] at named
  · intro other isOther
    simp [Mounted.put] at isOther

/-- `sfs_reclaim` spares the reserved blocks, wherever it ends. -/
theorem Formatted.reclaim (formatted : Formatted volume) (isIn : volume.inodes ino = some sin) {refCount : Int}
    (called : sfsReclaim device volume.fs sin refCount = some (ret, after, left)) :
    Spares volume ino { volume.put ino after left with
      files := if left.isNone ∧ sin.din.nlinks = 0 then volume.files.erase ino else volume.files } := by
  have isIno := (formatted.consistent.loaded ino sin isIn).2
  have typed := formatted.typed ino sin isIn
  have counted : Steps (volume.frame ino) volume.fs sin volume.fs { sin with reclaimCount := sin.reclaimCount - 1 } :=
    (formatted.holds isIn).fields rfl rfl rfl (Or.inr rfl)
  unfold sfsReclaim at called
  split at called
  · simp only at called
    split at called
    · obtain ⟨_, rfl, rfl⟩ := called
      simpa [Mounted.put] using formatted.moved isIn counted.moves typed
    · obtain ⟨⟨code, middle, sinMiddle⟩, synced, rest⟩ := Option.bind_eq_some_iff.mp called
      obtain ⟨moves, notDirty⟩ := counted.holds.reclaimSync_moves synced
      have moved := counted.moves.trans moves
      simp only at rest
      split at rest
      · obtain ⟨_, rfl, rfl⟩ := rest
        have typedMiddle := counted.holds.reclaimSync_typed (isIno.symm ▸ typed) synced
        simpa [Mounted.put] using formatted.moved isIn moved (isIno ▸ typedMiddle)
      · rename_i succeeded
        obtain ⟨freed, isFreed, rest⟩ := Option.bind_eq_some_iff.mp rest
        obtain ⟨_, rfl, rfl⟩ := rest
        by_cases unlinked : sin.din.nlinks = 0
        · simpa [unlinked, Mounted.put] using moved.removed isFreed
        · have stays : sinMiddle.din.nlinks ≠ 0 := fun zero => unlinked (moved.nlinks.symm.trans zero)
          simp only [reclaimFree, stays, if_false] at isFreed
          obtain rfl := Option.some.inj isFreed
          simpa [unlinked, Mounted.put] using formatted.dropped isIn moved (notDirty (not_not.mp succeeded))
  · cases called

/-! ## Runs -/

variable (device) in
/-- Inodes are loaded, read, resized, written, synchronized and reclaimed, and no growth fails unmarked. -/
def Persists (volume : Mounted) : VolumeOperation → Prop
  | .bmapLoad ino index => ∀ sin ∈ volume.inodes ino, index = sin.din.blocks → sin.dirty = true ∨ sin.din.Missing index
  | .written _ _ => True
  | operation => Marking device volume operation

instance (volume : Mounted) (operation : VolumeOperation) : Decidable (Persists device volume operation) :=
  match operation with
  | .bmapLoad ino _ => inferInstanceAs (Decidable (∀ sin ∈ volume.inodes ino, _ → _ ∨ _))
  | .written .. => inferInstanceAs (Decidable True)
  | .load ino refCount din node => inferInstanceAs (Decidable (Marking device volume (.load ino refCount din node)))
  | .truncfile ino len => inferInstanceAs (Decidable (Marking device volume (.truncfile ino len)))
  | .tryseek ino pos => inferInstanceAs (Decidable (Marking device volume (.tryseek ino pos)))
  | .fsync ino => inferInstanceAs (Decidable (Marking device volume (.fsync ino)))
  | .reclaim ino refCount => inferInstanceAs (Decidable (Marking device volume (.reclaim ino refCount)))

/-- A block of the file is looked up without a change of the inode, and one behind the file leaves the inode dirty
unless it has a pointer. -/
theorem sfsBmapLoadNolock_dirty {index : Nat} {result : Except Int Nat}
    (marked : index = sin.din.blocks → sin.dirty = true ∨ sin.din.Missing index)
    (called : sfsBmapLoadNolock device fs sin index = some (result, after, sinAfter)) :
    sinAfter.din.type = sin.din.type ∧ (sinAfter = sin ∨ sinAfter.dirty = true) := by
  by_cases last : index = sin.din.blocks
  · subst last
    rcases sfsBmapLoadNolock_next called with ⟨_, rfl⟩ | ⟨_, present, rfl⟩ | ⟨_, _, direct, indirect, rfl⟩
    · exact ⟨rfl, Or.inl rfl⟩
    · exact ⟨rfl, Or.inr ((marked rfl).resolve_right present)⟩
    · exact ⟨rfl, Or.inr rfl⟩
  · unfold sfsBmapLoadNolock at called
    split at called
    · obtain ⟨⟨got, middle, sinMiddle⟩, isGot, rest⟩ := Option.bind_eq_some_iff.mp called
      simp only [last, decide_false, Bool.false_eq_true, if_false] at isGot rest
      have same : sinMiddle = sin := by
        rcases sfsBmapGetNolock_inode isGot with ⟨_, same⟩ | ⟨_, _, same⟩ | ⟨_, ⟨created, _⟩, _⟩
        · exact same
        · exact same
        · cases created
      subst same
      cases got with
      | error code =>
        obtain ⟨_, _, rfl⟩ := rest
        exact ⟨rfl, Or.inl rfl⟩
      | ok block =>
        obtain ⟨_, _, rest⟩ := Option.bind_eq_some_iff.mp rest
        obtain ⟨_, _, rfl⟩ := rest
        exact ⟨rfl, Or.inl rfl⟩
    · cases called

theorem sfsTryseek_type {pos : Int} (called : sfsTryseek device fs sin pos = some (ret, after, sinAfter)) :
    sinAfter.din.type = sin.din.type := by
  unfold sfsTryseek at called
  split at called
  · obtain ⟨_, _, rfl⟩ := called
    rfl
  · split at called
    · exact (sfsTruncfile_size (vopTruncate_file called)).1
    · obtain ⟨_, _, rfl⟩ := called
      rfl

theorem Persists.legal {operation : VolumeOperation} (persists : Persists device volume operation) :
    VolumeLegal volume operation := by
  cases operation with
  | load => exact persists
  | _ => trivial

/-- Clean inodes stay as they are on disk. -/
theorem Formatted.syncedStep (formatted : Formatted volume) {operation : VolumeOperation}
    (persists : Persists device volume operation) (taken : volumeStep device volume operation = some next) : next.Synced := by
  have marking : Marking device volume operation → next.Synced := fun marking =>
    (marking_keeps volume operation next ⟨formatted.consistent, formatted.synced⟩ marking taken).2
  cases operation with
  | bmapLoad ino index =>
    obtain ⟨sin, isIn, rest⟩ := Option.bind_eq_some_iff.mp taken
    obtain ⟨⟨result, after, sinAfter⟩, called, isNext⟩ := Option.bind_eq_some_iff.mp rest
    obtain rfl := Option.some.inj isNext
    have dirty := (sfsBmapLoadNolock_dirty (persists sin isIn) called).2
    exact formatted.synced.resized formatted.consistent isIn ((formatted.consistent.holds isIn).load_steps called) dirty
  | written ino endpos =>
    obtain ⟨sin, isIn, isNext⟩ := Option.bind_eq_some_iff.mp taken
    obtain rfl := Option.some.inj isNext
    unfold extend
    split
    · exact formatted.synced.resized formatted.consistent isIn
        ((formatted.consistent.holds isIn).fields rfl rfl rfl (Or.inl rfl)) (Or.inr rfl)
    · exact formatted.synced.resized formatted.consistent isIn (formatted.consistent.holds isIn).refl (Or.inl rfl)
  | load => exact marking persists
  | fsync => exact marking persists
  | truncfile => exact marking persists
  | tryseek => exact marking persists
  | reclaim => exact marking persists

/-- `sfs_load_inode` spares the reserved blocks. -/
theorem Formatted.load (formatted : Formatted volume) {refCount : Int} {din node : Bool}
    (taken : loadInode device volume ino refCount din node = some next) : Spares volume ino next := by
  have nothing : ∀ calls, Spares volume ino { volume with fs := { volume.fs with calls } } := fun calls =>
    ⟨fun _ _ => Iff.rfl, fun _ => id, fun _ _ => rfl, fun _ _ => rfl, fun block reserved => (formatted.reserved block reserved).1,
      fun block reserved place => (formatted.reserved block reserved).2 ino place, formatted.typed ino⟩
  unfold loadInode at taken
  split at taken
  · rename_i sin isIn
    obtain rfl := Option.some.inj taken
    exact formatted.moved isIn ((formatted.holds isIn).fields rfl rfl rfl (Or.inr rfl)).moves (formatted.typed ino sin isIn)
  · rename_i notIn
    split at taken
    · exact Option.some.inj taken ▸ nothing volume.fs.calls
    · obtain ⟨_, _, rest⟩ := Option.bind_eq_some_iff.mp taken
      obtain ⟨⟨read, fs⟩, isRead, rest⟩ := Option.bind_eq_some_iff.mp rest
      obtain ⟨⟨calls, rfl⟩, words⟩ := sfsRbuf_cases isRead
      cases read with
      | error code => exact Option.some.inj rest ▸ nothing calls
      | ok buf =>
        simp only at rest
        split at rest
        · cases rest
        · split at rest
          · exact Option.some.inj rest ▸ nothing calls
          · split at rest
            · cases rest
            · obtain rfl := Option.some.inj rest
              have isBlock : buf = volume.fs.disk ino := by simpa only [Nat.zero_add] using words buf rfl
              refine ⟨fun _ _ => Iff.rfl, fun _ => id, fun other different => Function.update_of_ne different _ _, fun _ _ => rfl,
                fun block reserved => (formatted.reserved block reserved).1, fun block reserved place named => ?_, ?_⟩
              · apply (formatted.reserved block reserved).2 ino place
                simpa [Mounted.names, Mounted.din, Mounted.put, notIn, isBlock] using named
              · intro sin isOther
                simp only [Mounted.put, Function.update_self] at isOther
                obtain rfl := Option.some.inj isOther
                rw [isBlock]
                exact ⟨rfl, rfl⟩

/-- Every operation on one inode spares the reserved blocks. -/
theorem Formatted.spares (formatted : Formatted volume) {operation : VolumeOperation}
    (persists : Persists device volume operation) (taken : volumeStep device volume operation = some next) :
    ∃ ino, Spares volume ino next := by
  -- an operation whose steps keep the type
  have stepped : ∀ {ino sin after sinAfter}, volume.inodes ino = some sin →
      Steps (volume.frame ino) volume.fs sin after sinAfter → sinAfter.din.type = sin.din.type →
      Spares volume ino (volume.put ino after (some sinAfter)) := by
    intro ino sin after sinAfter isIn steps type
    have isIno := (formatted.consistent.loaded ino sin isIn).2
    have typed := steps.typed (isIno.symm ▸ formatted.typed ino sin isIn) type
    exact formatted.moved isIn steps.moves (isIno ▸ typed)
  cases operation with
  | load ino refCount din node => exact ⟨ino, formatted.load taken⟩
  | fsync ino =>
    obtain ⟨sin, isIn, rest⟩ := Option.bind_eq_some_iff.mp taken
    obtain ⟨⟨ret, after, sinAfter⟩, called, isNext⟩ := Option.bind_eq_some_iff.mp rest
    obtain rfl := Option.some.inj isNext
    have isIno := (formatted.consistent.loaded ino sin isIn).2
    have typed := sfsFsync_typed (isIno.symm ▸ formatted.typed ino sin isIn) called
    exact ⟨ino, formatted.moved isIn ((formatted.holds isIn).fsync_moves called).1 (isIno ▸ typed)⟩
  | truncfile ino len =>
    obtain ⟨sin, isIn, rest⟩ := Option.bind_eq_some_iff.mp taken
    obtain ⟨⟨ret, after, sinAfter⟩, called, isNext⟩ := Option.bind_eq_some_iff.mp rest
    obtain rfl := Option.some.inj isNext
    exact ⟨ino, stepped isIn ((formatted.holds isIn).truncfile_steps called) (sfsTruncfile_size called).1⟩
  | tryseek ino pos =>
    obtain ⟨sin, isIn, rest⟩ := Option.bind_eq_some_iff.mp taken
    obtain ⟨⟨ret, after, sinAfter⟩, called, isNext⟩ := Option.bind_eq_some_iff.mp rest
    obtain rfl := Option.some.inj isNext
    exact ⟨ino, stepped isIn ((formatted.holds isIn).tryseek_steps called) (sfsTryseek_type called)⟩
  | bmapLoad ino index =>
    obtain ⟨sin, isIn, rest⟩ := Option.bind_eq_some_iff.mp taken
    obtain ⟨⟨result, after, sinAfter⟩, called, isNext⟩ := Option.bind_eq_some_iff.mp rest
    obtain rfl := Option.some.inj isNext
    have type := (sfsBmapLoadNolock_dirty (persists sin isIn) called).1
    exact ⟨ino, stepped isIn ((formatted.holds isIn).load_steps called) type⟩
  | written ino endpos =>
    obtain ⟨sin, isIn, isNext⟩ := Option.bind_eq_some_iff.mp taken
    obtain rfl := Option.some.inj isNext
    refine ⟨ino, ?_⟩
    unfold extend
    split
    · exact stepped isIn ((formatted.holds isIn).fields rfl rfl rfl (Or.inl rfl)) rfl
    · exact stepped isIn (formatted.holds isIn).refl rfl
  | reclaim ino refCount =>
    obtain ⟨sin, isIn, rest⟩ := Option.bind_eq_some_iff.mp taken
    obtain ⟨⟨ret, after, left⟩, called, isNext⟩ := Option.bind_eq_some_iff.mp rest
    obtain rfl := Option.some.inj isNext
    exact ⟨ino, formatted.reclaim isIn called⟩

/-- Every operation keeps the form of the volume. -/
theorem persists_keeps (volume : Mounted) (operation : VolumeOperation) (next : Mounted) (formatted : Formatted volume)
    (persists : Persists device volume operation) (taken : volumeStep device volume operation = some next) : Formatted next := by
  obtain ⟨ino, spares⟩ := formatted.spares persists taken
  exact formatted.step (volumeStep_keeps volume operation next formatted.consistent persists.legal taken)
    (formatted.syncedStep persists taken) (volumeStep_marks next taken) spares

end Ucore.Volume
