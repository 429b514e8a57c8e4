import Ucore.Fs.AppendWrites
import Ucore.Fs.UsedOps
import Ucore.Sfs.FileContents

/-!
# What calls on inodes keep

Between calls every slot is free or open, lookups start at directories that are held, and no
directory is open for writing. A call with an inode moves the position of its slot at most; an
open, a duplicate or a close leaves the inodes of all other slots.
-/

namespace Ucore.Vfs

open Tally Volume

variable {F : Type} [DecidableEq F]

/-- A device, or a directory in memory that is held besides the slots. -/
def Begins (others : Node → Nat) (state : VfsState F) (node : Node) : Prop :=
  match node with
  | .device _ => True
  | .sfs ino => 0 < others (.sfs ino) ∧ ∃ sin, state.volume.inodes ino = some sin ∧ sin.din.type = sfsTypeDir

/-- No slot is open for writing to a directory. -/
def DirsReadOnly (live : Finset F) (state : VfsState F) : Prop :=
  ∀ slot ∈ Fs.slots live, ∀ ino sin, (state.files.file slot).status = .opened →
    (state.files.file slot).node = some (.sfs ino) → state.volume.inodes ino = some sin → sin.din.type = sfsTypeDir →
      (state.files.file slot).writable = false

/-- The inodes and slots between two calls. -/
structure NodeInvariant (live : Finset F) (others : Node → Nat) (state : VfsState F) : Prop where
  slots : HeldSlots live others state
  sane : AllSane state.volume
  devices : ∀ index, 0 < others (.device index)
  start : ∀ node, StartNode state node → Begins others state node
  readOnly : DirsReadOnly live state

/-- What a call leaves as it was. -/
structure Carries (live : Finset F) (others : Node → Nat) (state after : VfsState F) : Prop where
  slots : HeldSlots live others after
  sane : AllSane after.volume
  start : ∀ node, StartNode after node → StartNode state node
  keeps : ∀ ino sin, state.volume.inodes ino = some sin → 0 < others (.sfs ino) →
    ∃ sinAfter, after.volume.inodes ino = some sinAfter ∧ sinAfter.din.type = sin.din.type
  readOnly : DirsReadOnly live after

/-- A call with an inode moves the position of a slot at most, and every inode stays what it
is. -/
structure Moves (state : VfsState F) (slot : Fs.Slot F) (after : VfsState F) : Prop where
  files : ∃ pos, after.files = state.files.setFile slot { state.files.file slot with pos }
  present : ∀ ino, (after.volume.inodes ino).isSome = (state.volume.inodes ino).isSome
  types : ∀ ino sin sinAfter, state.volume.inodes ino = some sin → after.volume.inodes ino = some sinAfter →
    sinAfter.din.type = sin.din.type
  sane : AllSane state.volume → AllSane after.volume
  bootfs : after.bootfsNode = state.bootfsNode

variable {disk : Nat → Int} {memory : Nat → Bool} {state middle after : VfsState F} {files : F} {path : Name}
  {openFlags : BitVec 32} {node : Node} {live : Finset F} {others : Node → Nat} {slot : Fs.Slot F} {file : Fs.File Node}
  {ino : Nat} {ret fd : Int} {sin sinAfter : SfsInode}

/-! ## What is done with one inode -/

/-- A slot that is written back is as before. -/
theorem setFile_same (table : Fs.FileState F Node) (slot : Fs.Slot F) : table.setFile slot (table.file slot) = table := by
  simp [Fs.FileState.setFile, Fs.FileState.setFiles, Fs.FileState.file]

theorem Moves.same (files : after.files = state.files) (volume : after.volume = state.volume)
    (bootfs : after.bootfsNode = state.bootfsNode) : Moves state slot after where
  files := ⟨(state.files.file slot).pos, files.trans (setFile_same state.files slot).symm⟩
  present := fun ino => by rw [volume]
  types := by
    intro ino sin sinAfter isIn isAfter
    rw [volume, isIn] at isAfter
    exact congrArg (fun sin : SfsInode => sin.din.type) (Option.some.inj isAfter).symm
  sane := fun sane => volume ▸ sane
  bootfs := bootfs

/-- One inode is stored. -/
theorem Moves.put {fs : SfsFs} (files : ∃ pos, after.files = state.files.setFile slot { state.files.file slot with pos })
    (isIn : state.volume.inodes ino = some sin) (type : sinAfter.din.type = sin.din.type)
    (stays : Sane sin.din → Sane sinAfter.din) (volume : after.volume = state.volume.put ino fs (some sinAfter))
    (bootfs : after.bootfsNode = state.bootfsNode) : Moves state slot after where
  files := files
  present := by
    intro other
    by_cases same : other = ino
    · subst same
      simp [volume, Mounted.put, isIn]
    · simp [volume, Mounted.put, same]
  types := by
    intro other sinOther sinLast isOther isLast
    by_cases same : other = ino
    · subst same
      obtain rfl := Option.some.inj (isIn.symm.trans isOther)
      obtain rfl : sinAfter = sinLast := by simpa [volume, Mounted.put] using isLast
      exact type
    · have isSame : sinOther = sinLast := by simpa [volume, Mounted.put, same, isOther] using isLast
      rw [isSame]
  sane := fun sane => volume ▸ sane.put fs (some sinAfter) fun _ isLeft => Option.some.inj isLeft ▸ stays (sane ino sin isIn)
  bootfs := bootfs

/-- The position moves behind what was copied. -/
theorem Moves.moved (moves : Moves state slot middle) (isOld : middle.files = state.files) (copied : Nat) :
    Moves state slot (moved middle slot copied) := by
  unfold Vfs.moved
  simp only
  split
  · exact ⟨⟨_, by rw [isOld]⟩, moves.present, moves.types, moves.sane, moves.bootfs⟩
  · exact moves

theorem sfsGetOps_file {type : Nat} (isFile : sfsGetOps type = some false) : type = sfsTypeFile := by
  unfold sfsGetOps at isFile
  split at isFile
  · cases isFile
  split at isFile
  · rename_i isType
    exact isType
  · cases isFile

/-- A read or write leaves the type. -/
theorem sfsIoNolock_type {offset : Int} {len copied : Nat} {write : Bool}
    (called : sfsIoNolock sin offset len write = some (ret, copied, sinAfter)) : sinAfter.din.type = sin.din.type := by
  unfold sfsIoNolock extend at called
  simp only at called
  split_ifs at called
  all_goals
    obtain rfl := (Prod.mk.inj (Prod.mk.inj (Option.some.inj called)).2).2
    rfl

theorem ioBody_moves {len : Nat} {write : Bool} {device : Int × Nat}
    (called : ioBody len write device state slot node = some (ret, after)) : Moves state slot after := by
  cases node with
  | device index =>
    obtain ⟨_, _, same⟩ := Option.map_eq_some_iff.mp called
    obtain ⟨_, rfl⟩ := Prod.mk.inj same
    exact (Moves.same rfl rfl rfl).moved rfl _
  | sfs ino =>
    obtain ⟨⟨code, copied, middle⟩, isIo, rest⟩ := Option.bind_eq_some_iff.mp called
    obtain ⟨_, rfl⟩ := Prod.mk.inj (Option.some.inj rest)
    obtain ⟨_, _, rest⟩ := Option.bind_eq_some_iff.mp isIo
    obtain ⟨sin, isIn, rest⟩ := Option.bind_eq_some_iff.mp rest
    split at rest
    · rename_i isFile
      obtain ⟨⟨outcome, amount, sinAfter⟩, io, rest⟩ := Option.bind_eq_some_iff.mp rest
      obtain ⟨_, same⟩ := Prod.mk.inj (Option.some.inj rest)
      obtain ⟨_, rfl⟩ := Prod.mk.inj same
      have type := sfsIoNolock_type io
      have stays : Sane sin.din → Sane sinAfter.din := fun _ => Or.inl (type.trans (sfsGetOps_file isFile))
      have stored : Moves state slot { state with volume := state.volume.put ino state.volume.fs (some sinAfter) } :=
        Moves.put ⟨_, (setFile_same state.files slot).symm⟩ isIn type stays rfl rfl
      exact stored.moved rfl copied
    · cases rest

theorem seekBody_moves {pos whence : Int} (called : seekBody disk pos whence state slot node = some (ret, after)) :
    Moves state slot after := by
  obtain ⟨target, isTarget, rest⟩ := Option.bind_eq_some_iff.mp called
  cases target with
  | error code =>
    have seeks : seekNode disk state slot node (.error code) = some (ret, after) := by
      cases node with
      | device => exact rest
      | sfs => exact rest
    obtain ⟨_, rfl⟩ := Prod.mk.inj (Option.some.inj seeks)
    exact Moves.same rfl rfl rfl
  | ok target =>
    cases node with
    | device index =>
      obtain ⟨_, _, ends⟩ := Option.map_eq_some_iff.mp rest
      simp only at ends
      split at ends
      · obtain ⟨_, rfl⟩ := Prod.mk.inj ends
        have kept : Moves state slot state := Moves.same rfl rfl rfl
        exact ⟨⟨target, rfl⟩, kept.present, kept.types, kept.sane, rfl⟩
      · obtain ⟨_, rfl⟩ := Prod.mk.inj ends
        exact Moves.same rfl rfl rfl
    | sfs ino =>
      obtain ⟨⟨tried, middle⟩, isTried, ends⟩ := Option.bind_eq_some_iff.mp rest
      obtain ⟨_, _, rest⟩ := Option.bind_eq_some_iff.mp isTried
      obtain ⟨sin, isIn, rest⟩ := Option.bind_eq_some_iff.mp rest
      split at rest
      · rename_i isFile
        obtain ⟨⟨number, fs, sinAfter⟩, seeks, rest⟩ := Option.bind_eq_some_iff.mp rest
        obtain ⟨rfl, rfl⟩ := Prod.mk.inj (Option.some.inj rest)
        have type : sinAfter.din.type = sin.din.type := by
          unfold sfsTryseek at seeks
          split at seeks
          · obtain ⟨_, _, rfl⟩ := seeks
            rfl
          split at seeks
          · unfold Volume.vopTruncate at seeks
            split at seeks
            · exact (sfsTruncfile_size seeks).1
            · cases seeks
          · obtain ⟨_, _, rfl⟩ := seeks
            rfl
        have stays : Sane sin.din → Sane sinAfter.din := fun _ => Or.inl (type.trans (sfsGetOps_file isFile))
        simp only at ends
        split at ends
        · obtain ⟨_, rfl⟩ := Prod.mk.inj (Option.some.inj ends)
          exact Moves.put ⟨target, rfl⟩ isIn type stays rfl rfl
        · obtain ⟨_, rfl⟩ := Prod.mk.inj (Option.some.inj ends)
          exact Moves.put ⟨_, (setFile_same state.files slot).symm⟩ isIn type stays rfl rfl
      · cases rest

theorem fsyncBody_moves (called : fsyncBody disk state slot node = some (ret, after)) : Moves state slot after := by
  obtain ⟨_, _, rest⟩ := Option.bind_eq_some_iff.mp called
  cases node with
  | device => cases rest
  | sfs ino =>
    obtain ⟨sin, isIn, rest⟩ := Option.bind_eq_some_iff.mp rest
    obtain ⟨⟨code, fs, sinAfter⟩, synced, rest⟩ := Option.bind_eq_some_iff.mp rest
    obtain ⟨_, rfl⟩ := Prod.mk.inj (Option.some.inj rest)
    have same := sfsFsync_din synced
    exact Moves.put ⟨_, (setFile_same state.files slot).symm⟩ isIn (by rw [same]) (fun sane => same ▸ sane) rfl rfl

theorem fstatBody_moves (called : fstatBody state slot node = some (ret, after)) : Moves state slot after := by
  obtain ⟨_, _, same⟩ := Option.map_eq_some_iff.mp called
  obtain ⟨_, rfl⟩ := Prod.mk.inj same
  exact Moves.same rfl rfl rfl

/-- A look at the entries of a directory leaves its inode. -/
theorem getdirentrySlots_reads {fs fsAfter : SfsFs} {i rounds : Nat} {rank : Int} {result : Except Int DiskEntry}
    (called : getdirentrySlots disk fs sin i rank rounds = some (result, fsAfter, sinAfter)) : sinAfter = sin := by
  induction rounds generalizing fs sin i rank with
  | zero =>
    obtain ⟨_, _, rfl⟩ := called
    rfl
  | succ rounds ih =>
    obtain ⟨⟨read, middle, sinMiddle⟩, isRead, rest⟩ := Option.bind_eq_some_iff.mp called
    obtain ⟨rfl, _⟩ := sfsDirentReadNolock_reads isRead
    cases read with
    | error code =>
      obtain ⟨_, _, rfl⟩ := rest
      rfl
    | ok entry =>
      simp only at rest
      split at rest
      · split at rest
        · obtain ⟨_, _, rfl⟩ := rest
          rfl
        · exact ih rest
      · exact ih rest

theorem direntNext_reads {room : Bool} {fs fsAfter : SfsFs} {dirent direntAfter : Dirent}
    (called : direntNext disk room fs sin dirent = some (ret, direntAfter, fsAfter, sinAfter)) : sinAfter = sin := by
  obtain ⟨⟨code, iob, name, fsNext, sinNext⟩, gets, rest⟩ := Option.bind_eq_some_iff.mp called
  obtain ⟨_, _, _, rfl⟩ := rest
  unfold sfsGetdirentry at gets
  split at gets
  · obtain ⟨_, _, _, _, rfl⟩ := gets
    rfl
  split at gets
  · obtain ⟨_, _, _, _, rfl⟩ := gets
    rfl
  simp only at gets
  split at gets
  · obtain ⟨_, _, _, _, rfl⟩ := gets
    rfl
  obtain ⟨⟨found, fsFound, sinFound⟩, looked, rest⟩ := Option.bind_eq_some_iff.mp gets
  obtain rfl := getdirentrySlots_reads looked
  cases found with
  | error code =>
    obtain ⟨_, _, _, _, rfl⟩ := rest
    rfl
  | ok entry =>
    obtain ⟨_, _, rest⟩ := Option.bind_eq_some_iff.mp rest
    obtain ⟨_, _, _, _, rfl⟩ := rest
    rfl

theorem getdirentryBody_moves {dirent : Dirent}
    (called : getdirentryBody disk memory dirent state slot node = some (ret, after)) : Moves state slot after := by
  obtain ⟨_, _, rest⟩ := Option.bind_eq_some_iff.mp called
  cases node with
  | device => cases rest
  | sfs ino =>
    obtain ⟨sin, isIn, rest⟩ := Option.bind_eq_some_iff.mp rest
    split at rest
    · obtain ⟨⟨code, direntAfter, fs, sinAfter⟩, reads, rest⟩ := Option.bind_eq_some_iff.mp rest
      obtain ⟨_, rfl⟩ := Prod.mk.inj (Option.some.inj rest)
      obtain rfl := direntNext_reads reads
      exact Moves.put ⟨_, (setFile_same state.files slot).symm⟩ isIn rfl id rfl rfl
    · cases rest

/-! ## What a call keeps -/

/-- The current directories are the same. -/
def SamePwd (table next : Fs.FileState F Node) : Prop := ∀ files, (next.files files).pwd = (table.files files).pwd

theorem SamePwd.setFile {table next : Fs.FileState F Node} (same : SamePwd table next) (slot : Fs.Slot F)
    (file : Fs.File Node) : SamePwd table (next.setFile slot file) := by
  intro files
  exact (Fs.FileState.setFile_touches.tables files).1.trans (same files)

omit [DecidableEq F] in
theorem StartNode.before (bootfs : after.bootfsNode = state.bootfsNode) (pwd : SamePwd state.files after.files)
    (starts : StartNode after node) : StartNode state node := by
  rcases starts with isRoot | isBootfs | ⟨files, isPwd⟩
  · exact Or.inl isRoot
  · exact Or.inr (Or.inl (bootfs ▸ isBootfs))
  · exact Or.inr (Or.inr ⟨files, (pwd files).symm.trans isPwd⟩)

omit [DecidableEq F] in
/-- What is held besides the slots has references. -/
theorem HeldSlots.spare (heldSlots : HeldSlots live others state) (more : 0 < others node) :
    0 < (state.counts node).refCount := by
  have refs := heldSlots.refs node
  omega

omit [DecidableEq F] in
theorem NodeInvariant.rooted (invariant : NodeInvariant live others state) : Rooted state where
  sane := invariant.sane
  counted := by
    intro node
    have refs := invariant.slots.refs node
    omega
  devices := fun index => invariant.slots.spare (invariant.devices index)
  start := by
    intro node starts
    have begins := invariant.start node starts
    cases node with
    | device => trivial
    | sfs ino => exact ⟨invariant.slots.spare begins.1, begins.2⟩

omit [DecidableEq F] in
/-- A call that leaves all that as it was keeps the invariant. -/
theorem NodeInvariant.carried (invariant : NodeInvariant live others state) (carries : Carries live others state after) :
    NodeInvariant live others after where
  slots := carries.slots
  sane := carries.sane
  devices := invariant.devices
  start := by
    intro node starts
    have begins := invariant.start node (carries.start node starts)
    cases node with
    | device => trivial
    | sfs ino =>
      obtain ⟨more, sin, isIn, isDir⟩ := begins
      obtain ⟨sinAfter, isAfter, type⟩ := carries.keeps ino sin isIn more
      exact ⟨more, sinAfter, isAfter, type.trans isDir⟩
  readOnly := carries.readOnly

omit [DecidableEq F] in
/-- Nothing changes. -/
theorem NodeInvariant.idle (invariant : NodeInvariant live others state) : Carries live others state state where
  slots := invariant.slots
  sane := invariant.sane
  start := fun _ starts => starts
  keeps := fun _ sin isIn _ => ⟨sin, isIn, rfl⟩
  readOnly := invariant.readOnly

/-! ## Calls on a descriptor -/

/-- An open slot that a descriptor leads to, and its inode. -/
structure LeadsTo (live : Finset F) (state : VfsState F) (files : F) (fd : Int) (permitted : Fs.File Node → Bool)
    (slot : Fs.Slot F) (node : Node) : Prop where
  found : Fs.fd2file state.files (some files) fd = some (.ok slot)
  isPermitted : permitted (state.files.file slot) = true
  member : slot ∈ Fs.slots live
  opened : (state.files.file slot).status = .opened
  isNode : (state.files.file slot).node = some node

/-- The state in which a call uses a slot. -/
def acquired (state : VfsState F) (slot : Fs.Slot F) : VfsState F :=
  { state with files := state.files.setFile slot { state.files.file slot with openCount := 2 } }

/-- A call is refused, or uses its inode and gives the slot up. -/
theorem onSlot_cases {permitted : Fs.File Node → Bool} {body : Body F} (heldSlots : HeldSlots live others state)
    (mine : files ∈ live)
    (called : onSlot disk state (Fs.acquireFd state.files (some files) fd permitted) body = some (ret, after)) :
    after = state ∨ ∃ slot node middle, LeadsTo live state files fd permitted slot node ∧
      body (acquired state slot) slot node = some (ret, middle) ∧ fdArrayRelease disk middle slot = some after := by
  obtain ⟨⟨found, table⟩, begun, rest⟩ := Option.bind_eq_some_iff.mp called
  cases found with
  | error code =>
    obtain rfl : table = state.files := acquireFd_cases begun
    exact Or.inl (Prod.mk.inj (Option.some.inj rest)).2.symm
  | ok slot =>
    obtain ⟨isFound, isPermitted, member, opened, rfl⟩ := acquireFd_held heldSlots mine begun
    obtain ⟨node, isNode, rest⟩ := Option.bind_eq_some_iff.mp rest
    obtain ⟨⟨code, middle⟩, done, rest⟩ := Option.bind_eq_some_iff.mp rest
    obtain ⟨last, released, same⟩ := Option.map_eq_some_iff.mp rest
    obtain ⟨rfl, rfl⟩ := Prod.mk.inj same
    change ((state.files.setFile slot _).file slot).node = some node at isNode
    rw [Fs.FileState.setFile_self] at isNode
    exact Or.inr ⟨slot, node, middle, ⟨isFound, isPermitted, member, opened, isNode⟩, done, released⟩

/-- A call that moves a position at most. -/
theorem Moves.carries (invariant : NodeInvariant live others state) (member : slot ∈ Fs.slots live)
    (opened : (state.files.file slot).status = .opened) (moves : Moves (acquired state slot) slot middle)
    (released : fdArrayRelease disk middle slot = some after) : Carries live others state after := by
  obtain ⟨pos, isFiles⟩ := moves.files
  simp only [acquired, Fs.FileState.setFile_self] at isFiles
  have isFile : middle.files.file slot = { { state.files.file slot with pos } with openCount := 2 } := by
    rw [isFiles, Fs.FileState.setFile_self]
  have isAfter := fdArrayRelease_exact isFile opened released
  obtain ⟨uses, volume⟩ := Uses.of invariant.slots member opened released isFiles
  have present : ∀ ino, (after.volume.inodes ino).isSome = (state.volume.inodes ino).isSome := fun ino => by
    rw [volume]
    exact moves.present ino
  have types : ∀ ino sin sinAfter, state.volume.inodes ino = some sin → after.volume.inodes ino = some sinAfter →
      sinAfter.din.type = sin.din.type := by
    intro ino sin sinAfter isIn isLast
    rw [volume] at isLast
    exact moves.types ino sin sinAfter isIn isLast
  refine ⟨uses.heldSlots invariant.slots member present, ?_, fun node starts => ?_, fun ino sin isIn _ => ?_, ?_⟩
  · rw [volume]
    exact moves.sane invariant.sane
  · refine starts.before ?_ ?_
    · rw [isAfter]
      exact moves.bootfs
    · rw [isAfter, isFiles]
      exact SamePwd.setFile (SamePwd.setFile (SamePwd.setFile (fun _ => rfl) _ _) _ _) _ _
  · have isSome := present ino
    rw [isIn] at isSome
    obtain ⟨sinAfter, isLast⟩ := Option.isSome_iff_exists.mp isSome
    exact ⟨sinAfter, isLast, types ino sin sinAfter isIn isLast⟩
  · intro other otherMember ino sinAfter otherOpened isNode isLast isDir
    have isSome := present ino
    rw [isLast] at isSome
    obtain ⟨sin, isIn⟩ := Option.isSome_iff_exists.mp isSome.symm
    have wasDir := (types ino sin sinAfter isIn isLast).symm.trans isDir
    have isOther := uses.slots other
    split at isOther
    · rename_i isSlot
      rw [isOther] at otherOpened isNode ⊢
      exact invariant.readOnly slot member ino sin opened isNode isIn wasDir
    · rw [isOther] at otherOpened isNode ⊢
      exact invariant.readOnly other otherMember ino sin otherOpened isNode isIn wasDir

theorem onSlot_carries {permitted : Fs.File Node → Bool} {body : Body F} (invariant : NodeInvariant live others state)
    (mine : files ∈ live)
    (moves : ∀ slot node ret middle, body (acquired state slot) slot node = some (ret, middle) →
      Moves (acquired state slot) slot middle)
    (called : onSlot disk state (Fs.acquireFd state.files (some files) fd permitted) body = some (ret, after)) :
    Carries live others state after := by
  rcases onSlot_cases invariant.slots mine called with rfl | ⟨slot, node, middle, leads, done, released⟩
  · exact invariant.idle
  · exact (moves slot node ret middle done).carries invariant leads.member leads.opened released

/-! ## Open, duplicate and close -/

omit [DecidableEq F] in
/-- A directory is opened for reading only. -/
theorem openNode_dir (called : openNode disk state (.sfs ino) openFlags = some (.ok node, after))
    (isIn : after.volume.inodes ino = some sin) (isDir : sin.din.type = sfsTypeDir) :
    openFlags &&& Fs.oAccmode = Fs.oRdonly := by
  obtain ⟨code, opens, rest⟩ := Option.bind_eq_some_iff.mp called
  simp only at rest
  split at rest
  · obtain ⟨_, _, same⟩ := Option.map_eq_some_iff.mp rest
    cases (Prod.mk.inj same).1
  rename_i succeeded
  obtain rfl : code = 0 := not_not.mp succeeded
  obtain ⟨raised, isRaised, rest⟩ := Option.bind_eq_some_iff.mp rest
  have volume : raised.volume = state.volume := by
    unfold vopOpenInc at isRaised
    split at isRaised
    · rw [← Option.some.inj isRaised]
    · cases isRaised
  split at rest
  · obtain ⟨⟨outcome, truncated⟩, isTruncated, rest⟩ := Option.bind_eq_some_iff.mp rest
    simp only at rest
    split at rest
    · obtain ⟨_, _, same⟩ := Option.map_eq_some_iff.mp rest
      cases (Prod.mk.inj same).1
    · obtain ⟨_, rfl⟩ := Prod.mk.inj (Option.some.inj rest)
      obtain ⟨_, _, rest⟩ := Option.bind_eq_some_iff.mp isTruncated
      obtain ⟨before, isBefore, rest⟩ := Option.bind_eq_some_iff.mp rest
      obtain ⟨⟨number, fs, emptied⟩, empties, rest⟩ := Option.bind_eq_some_iff.mp rest
      obtain ⟨_, rfl⟩ := Prod.mk.inj (Option.some.inj rest)
      obtain rfl : emptied = sin := by simpa [Mounted.put] using isIn
      unfold Volume.vopTruncate at empties
      split at empties
      · rename_i isFile
        rw [(sfsTruncfile_size empties).1, isFile] at isDir
        cases isDir
      · cases empties
  · obtain ⟨_, rfl⟩ := Prod.mk.inj (Option.some.inj rest)
    rw [volume] at isIn
    obtain ⟨_, _, rest⟩ := Option.bind_eq_some_iff.mp opens
    obtain ⟨found, isFound, rest⟩ := Option.bind_eq_some_iff.mp rest
    obtain rfl := Option.some.inj (isIn.symm.trans isFound)
    obtain ⟨kind, isKind, rest⟩ := Option.bind_eq_some_iff.mp rest
    rw [sfsGetOps, if_pos isDir] at isKind
    obtain rfl := Option.some.inj isKind
    by_contra writes
    simp [sfsOpendir, writes, eIsdir] at rest

omit [DecidableEq F] in
theorem vfsOpen_dir (called : vfsOpen disk memory state files path openFlags = some (.ok (.sfs ino), after))
    (isIn : after.volume.inodes ino = some sin) (isDir : sin.din.type = sfsTypeDir) :
    openFlags &&& Fs.oAccmode = Fs.oRdonly := by
  unfold vfsOpen at called
  split at called
  · cases (Prod.mk.inj (Option.some.inj called)).1
  obtain ⟨⟨found, looked⟩, isLooked, rest⟩ := Option.bind_eq_some_iff.mp called
  cases found with
  | error code =>
    simp only [openMissing] at rest
    split at rest
    · obtain ⟨⟨parent, begun⟩, _, rest⟩ := Option.bind_eq_some_iff.mp rest
      cases parent with
      | error => cases (Prod.mk.inj (Option.some.inj rest)).1
      | ok => cases rest
    · cases (Prod.mk.inj (Option.some.inj rest)).1
  | ok node =>
    simp only at rest
    split at rest
    · cases (Prod.mk.inj (Option.some.inj rest)).1
    · obtain ⟨isNode, _⟩ := openNode_counts rest
      subst isNode
      exact openNode_dir rest isIn isDir

/-- An open leaves the current directories. -/
theorem fileOpen_pwd {result : Except Int Nat}
    (called : fileOpen disk memory state files path openFlags = some (result, after)) : SamePwd state.files after.files := by
  obtain ⟨⟨allocated, table⟩, begun, rest⟩ := Option.bind_eq_some_iff.mp called
  have cases := fileOpenBegin_cases begun
  cases allocated with
  | error code =>
    obtain rfl : table = state.files := cases
    obtain ⟨_, rfl⟩ := Prod.mk.inj (Option.some.inj rest)
    exact fun _ => rfl
  | ok slot =>
    obtain ⟨_, unused, isTable⟩ := cases
    have taken : SamePwd state.files table := isTable ▸ SamePwd.setFile (fun _ => rfl) _ _
    obtain ⟨⟨opened, looked⟩, isOpened, rest⟩ := Option.bind_eq_some_iff.mp rest
    have tables : looked.files.files = table.files := by
      have counts := vfsOpen_counts isOpened
      cases opened with
      | ok node => exact counts.files
      | error code =>
        rcases counts with ⟨_, same⟩ | ⟨_, _, bumps⟩
        · exact same.files
        · exact bumps.files
    have kept : SamePwd state.files looked.files := fun other => by rw [tables, taken other]
    cases opened with
    | error code =>
      obtain ⟨last, freed, isLast⟩ := Option.map_eq_some_iff.mp rest
      obtain ⟨_, rfl⟩ := Prod.mk.inj isLast
      have isFile : looked.files.file slot = { state.files.file slot with status := .init, node := none } := by
        simp only [Fs.FileState.file, tables]
        rw [isTable]
        exact Fs.FileState.setFile_self
      obtain rfl := fdArrayFree_init isFile rfl unused freed
      exact kept.setFile _ _
    | ok node =>
      obtain ⟨pos, _, rest⟩ := Option.bind_eq_some_iff.mp rest
      obtain ⟨last, filled, rest⟩ := Option.bind_eq_some_iff.mp rest
      obtain ⟨_, rfl⟩ := Prod.mk.inj (Option.some.inj rest)
      simp only [Fs.fdArrayOpen] at filled
      split at filled
      · obtain rfl := Option.some.inj filled
        have counted : SamePwd state.files { looked.files with opened := looked.files.opened + 1 } := kept
        exact (counted.setFile _ _).setFile _ _
      · cases filled

omit [DecidableEq F] in
/-- A slot that a call leaves alone is not open for writing to a directory. -/
theorem NodeInvariant.reads {changed : Node → Prop} (invariant : NodeInvariant live others state)
    (steady : Steady changed state after) (member : slot ∈ Fs.slots live)
    (same : after.files.file slot = state.files.file slot) (opened : (after.files.file slot).status = .opened)
    (isNode : (after.files.file slot).node = some (.sfs ino)) (isIn : after.volume.inodes ino = some sin)
    (isDir : sin.din.type = sfsTypeDir) : (after.files.file slot).writable = false := by
  rw [same] at opened isNode ⊢
  have held := invariant.slots.held member opened isNode
  obtain ⟨before, isBefore⟩ := Option.isSome_iff_exists.mp (present_held held)
  obtain ⟨sinAfter, isAfter, kept⟩ := steady.keeps ino before isBefore held
  obtain rfl := Option.some.inj (isIn.symm.trans isAfter)
  exact invariant.readOnly slot member ino before opened isNode isBefore (kept.type.symm.trans isDir)

omit [DecidableEq F] in
/-- A call that gives back no more references than it takes. -/
theorem Steady.carries {changed : Node → Prop} (invariant : NodeInvariant live others state)
    (steady : Steady changed state after) (slots : HeldSlots live others after) (pwd : SamePwd state.files after.files)
    (readOnly : DirsReadOnly live after) : Carries live others state after where
  slots := slots
  sane := steady.sane invariant.sane
  start := fun _ starts => starts.before steady.bootfs pwd
  keeps := by
    intro ino sin isIn more
    obtain ⟨sinAfter, isAfter, kept⟩ := steady.keeps ino sin isIn (invariant.slots.spare more)
    exact ⟨sinAfter, isAfter, kept.type⟩
  readOnly := readOnly

theorem fileOpen_carries {result : Except Int Nat} (invariant : NodeInvariant live others state) (mine : files ∈ live)
    (called : fileOpen disk memory state files path openFlags = some (result, after)) : Carries live others state after := by
  have slots := fileOpen_heldSlots invariant.slots mine called
  have pwd := fileOpen_pwd called
  cases result with
  | error code =>
    obtain ⟨steady, kept⟩ := fileOpen_error called
    refine steady.carries invariant slots pwd ?_
    intro other member ino sin opened isNode isIn isDir
    have same : after.files.file other = state.files.file other := by
      rcases kept with same | ⟨slot, _, _, _, isSlot⟩
      · exact same other
      · have isOther := isSlot other
        split at isOther
        · rw [isOther] at opened
          cases opened
        · exact isOther
    exact invariant.reads steady member same opened isNode isIn isDir
  | ok number =>
    obtain ⟨steady, slot, node, pos, _, opens⟩ := fileOpen_ok called
    refine steady.carries invariant slots pwd ?_
    intro other member ino sin opened isNode isIn isDir
    obtain ⟨opening, isSlot⟩ := opens.slots
    have isOther := isSlot other
    split at isOther
    · rw [isOther] at isNode ⊢
      obtain rfl : node = .sfs ino := Option.some.inj isNode
      obtain ⟨table, looked, _, isOpened, _, volume⟩ := opens.opened
      rw [volume] at isIn
      have reads := vfsOpen_dir isOpened isIn isDir
      simp only [filledFile, reads]
      decide
    · exact invariant.reads steady member isOther opened isNode isIn isDir

theorem fileDup_bootfs {fd1 fd2 : Int} {result : Except Int Nat}
    (called : fileDup state files fd1 fd2 = some (result, after)) : after.bootfsNode = state.bootfsNode := by
  obtain ⟨⟨_, table⟩, _, rest⟩ := Option.bind_eq_some_iff.mp called
  obtain ⟨_, rfl⟩ := Prod.mk.inj (Option.some.inj rest)
  rfl

/-- A duplicate leaves the current directories. -/
theorem fileDup_pwd {fd1 fd2 : Int} {number : Nat}
    (called : fileDup state files fd1 fd2 = some (.ok number, after)) : SamePwd state.files after.files := by
  obtain ⟨⟨result, table⟩, dups, rest⟩ := Option.bind_eq_some_iff.mp called
  obtain ⟨rfl, rfl⟩ := Prod.mk.inj (Option.some.inj rest)
  obtain ⟨found, _, rest⟩ := Option.bind_eq_some_iff.mp dups
  cases found with
  | error code => cases (Prod.mk.inj (Option.some.inj rest)).1
  | ok source =>
    obtain ⟨⟨allocated, taken⟩, isTaken, rest⟩ := Option.bind_eq_some_iff.mp rest
    have cases := fdArrayAlloc_cases isTaken
    cases allocated with
    | error code => cases (Prod.mk.inj (Option.some.inj rest)).1
    | ok slot =>
      obtain ⟨_, _, _, _, isTable⟩ := cases
      have kept : SamePwd state.files taken := isTable ▸ SamePwd.setFile (fun _ => rfl) _ _
      obtain ⟨last, dup, same⟩ := Option.map_eq_some_iff.mp rest
      obtain ⟨_, rfl⟩ := Prod.mk.inj same
      simp only [Fs.fdArrayDup] at dup
      split at dup
      · obtain ⟨node, _, filled⟩ := Option.bind_eq_some_iff.mp dup
        simp only [Fs.vfsOpen_exact, Fs.fdArrayOpen] at filled
        split at filled
        · obtain rfl := Option.some.inj filled
          have opened : SamePwd state.files (Fs.vfsOpen taken node).2 := by
            rw [Fs.vfsOpen_exact]
            exact kept
          rw [Fs.vfsOpen_exact] at opened
          exact (opened.setFile _ _).setFile _ _
        · cases filled
      · cases dup

theorem fileDup_carries {fd1 fd2 : Int} {result : Except Int Nat} (invariant : NodeInvariant live others state)
    (mine : files ∈ live) (called : fileDup state files fd1 fd2 = some (result, after)) :
    Carries live others state after := by
  have slots := fileDup_heldSlots invariant.slots mine called
  cases result with
  | error code =>
    obtain rfl := fileDup_error called
    exact invariant.idle
  | ok number =>
    obtain ⟨source, slot, node, _, isFound, dups⟩ := fileDup_ok invariant.slots mine called
    obtain ⟨isSource, openedSource, inFiles⟩ := Fs.fd2file_slot isFound
    have sourceMember := mem_live mine (congrArg Prod.fst isSource) (isSource ▸ inFiles)
    have steady : Steady (fun _ => False) state after := by
      refine Steady.same (fun other => ?_) (congrArg Mounted.inodes dups.volume) (fileDup_bootfs called)
      rw [dups.bumps other]
      omega
    refine steady.carries invariant slots (fileDup_pwd called) ?_
    intro other member ino sin opened isOtherNode isIn isDir
    obtain ⟨opening, isSlot⟩ := dups.slots
    have isOther := isSlot other
    split at isOther
    · rw [isOther] at isOtherNode ⊢
      obtain rfl : node = .sfs ino := Option.some.inj isOtherNode
      rw [dups.volume] at isIn
      exact invariant.readOnly source sourceMember ino sin openedSource dups.isNode isIn isDir
    · exact invariant.reads steady member isOther opened isOtherNode isIn isDir

/-- A close leaves files and directories in memory, and the current directories. -/
theorem fileClose_frame (one : ∀ slot, Fs.fd2file state.files (some files) fd = some (.ok slot) →
      (state.files.file slot).openCount = 1)
    (called : fileClose disk state files fd = some (ret, after)) :
    (AllSane state.volume → AllSane after.volume) ∧ after.bootfsNode = state.bootfsNode ∧ SamePwd state.files after.files := by
  obtain ⟨found, isFound, rest⟩ := Option.bind_eq_some_iff.mp called
  cases found with
  | error code =>
    obtain ⟨_, rfl⟩ := Prod.mk.inj (Option.some.inj rest)
    exact ⟨id, rfl, fun _ => rfl⟩
  | ok slot =>
    obtain ⟨last, closed, same⟩ := Option.map_eq_some_iff.mp rest
    obtain ⟨_, rfl⟩ := Prod.mk.inj same
    simp only [fdArrayClose] at closed
    split at closed
    · simp only [dropUser, one slot isFound] at closed
      rw [if_pos (by decide)] at closed
      obtain ⟨node, middle, _, closes, rfl⟩ := fdArrayFree_closed Fs.FileState.setFile_self rfl (by rfl) closed
      have tables := (vfsClose_bumps closes).2
      obtain ⟨lowered, isLowered, ends⟩ := Option.bind_eq_some_iff.mp closes
      obtain ⟨saneFirst, bootfsFirst⟩ := vopOpenDec_sane isLowered
      obtain ⟨saneLast, bootfsLast⟩ := vopRefDec_sane ends
      refine ⟨fun sane => saneLast (saneFirst sane), bootfsLast.trans bootfsFirst, ?_⟩
      have kept : SamePwd state.files middle.files := fun other => by
        rw [tables]
        exact (Fs.FileState.setFile_touches.tables other).1
      exact kept.setFile _ _
    · cases closed

theorem fileClose_carries (invariant : NodeInvariant live others state) (mine : files ∈ live)
    (called : fileClose disk state files fd = some (ret, after)) : Carries live others state after := by
  have one : ∀ slot, Fs.fd2file state.files (some files) fd = some (.ok slot) → (state.files.file slot).openCount = 1 := by
    intro slot isFound
    obtain ⟨isSlot, opened, inFiles⟩ := Fs.fd2file_slot isFound
    exact invariant.slots.one (mem_live mine (congrArg Prod.fst isSlot) (isSlot ▸ inFiles)) opened
  obtain ⟨sane, bootfs, pwd⟩ := fileClose_frame one called
  rcases fileClose_cases invariant.slots mine called with rfl | ⟨slot, node, member, opened, closes⟩
  · exact invariant.idle
  refine ⟨closes.heldSlots invariant.slots member opened, sane invariant.sane, fun _ starts => starts.before bootfs pwd,
    fun ino sin isIn more => ?_, ?_⟩
  · obtain ⟨sinAfter, isAfter, same⟩ := closes.keeps ino sin isIn fun isNode =>
      @HeldSlots.twice F state node live others slot invariant.slots slot member opened closes.isNode
        (Or.inr (isNode ▸ more))
    exact ⟨sinAfter, isAfter, by rw [same]⟩
  · intro other otherMember ino sinAfter otherOpened isNode isLast isDir
    have isOther := closes.slots other
    split at isOther
    · rw [isOther] at otherOpened
      cases otherOpened
    · rename_i different
      rw [isOther] at otherOpened isNode ⊢
      obtain ⟨sin, isIn⟩ := Option.isSome_iff_exists.mp (present_held (invariant.slots.held otherMember otherOpened isNode))
      obtain ⟨sinLast, isSinLast, same⟩ := closes.keeps ino sin isIn fun isClosed =>
        invariant.slots.twice member opened closes.isNode (Or.inl ⟨otherMember, different, otherOpened, isClosed ▸ isNode⟩)
      obtain rfl := Option.some.inj (isLast.symm.trans isSinLast)
      rw [same] at isDir
      exact invariant.readOnly other otherMember ino sin otherOpened isNode isIn isDir

end Ucore.Vfs
