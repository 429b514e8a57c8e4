import Ucore.Fs.NodeMoves

/-!
# Runs of calls on inodes

In every state that calls reach, a call uses operations that are there, unless it is one of
those that ask an inode for what it cannot do. These do not return.
-/

namespace Ucore.Vfs

open Tally Volume Transition

variable {F : Type} [DecidableEq F] {disk : Nat → Int} {memory : Nat → Bool} {state middle after : VfsState F}
  {files : F} {path : Name} {openFlags : BitVec 32} {node : Node} {live : Finset F} {others : Node → Nat}
  {slot : Fs.Slot F} {ino : Nat} {ret fd : Int}

/-! ## What calls ask for -/

/-- The inode is a directory. -/
def VfsState.IsDirectory (state : VfsState F) (node : Node) : Prop :=
  match node with
  | .device _ => False
  | .sfs ino => (state.volume.din ino).type = sfsTypeDir

/-- A descriptor leads to a slot and its inode. -/
def Names (state : VfsState F) (files : F) (fd : Int) (slot : Fs.Slot F) (node : Node) : Prop :=
  Fs.fd2file state.files (some files) fd = some (.ok slot) ∧ (state.files.file slot).node = some node

/-- A call that asks no inode for what it cannot do: no open creates a file or empties a
directory, no directory is read or sought in, no device is synchronized, and only entries of
directories are looked at. -/
def Provided (disk : Nat → Int) (memory : Nat → Bool) (state : VfsState F) (label : NodeLabel F) : Prop :=
  match label.call with
  | .fileOpen path openFlags => OpensPlainly disk memory state label.files path openFlags
  | .fileRead fd _ => ∀ slot node, Names state label.files fd slot node → (state.files.file slot).readable = true →
      ¬ state.IsDirectory node
  | .fileSeek fd _ whence => 0 ≤ whence ∧ whence ≤ lseekEnd →
      ∀ slot node, Names state label.files fd slot node → ¬ state.IsDirectory node
  | .fileFsync fd => ∀ slot node, Names state label.files fd slot node → ∀ index, node ≠ .device index
  | .fileGetdirentry fd _ => ∀ slot node, Names state label.files fd slot node → state.IsDirectory node
  | _ => True

omit [DecidableEq F] in
/-- An inode in memory is a device, a directory or a file. -/
theorem inOps_cases (sane : AllSane state.volume) (present : state.present node) :
    (state.inOps node = devNodeOps ∧ ∃ index, node = .device index) ∨
      (state.inOps node = sfsNodeDirops ∧ state.IsDirectory node) ∨
        (state.inOps node = sfsNodeFileops ∧ ¬ state.IsDirectory node ∧ ∃ ino, node = .sfs ino) := by
  cases node with
  | device index => exact Or.inl ⟨rfl, index, rfl⟩
  | sfs ino =>
    obtain ⟨sin, isIn⟩ := Option.isSome_iff_exists.mp present
    rcases sane ino sin isIn with isFile | ⟨isDir, _⟩
    · refine Or.inr (Or.inr ⟨inOps_file isIn isFile, ?_, ino, rfl⟩)
      simp only [VfsState.IsDirectory, din_of isIn, isFile]
      decide
    · refine Or.inr (Or.inl ⟨inOps_dir isIn isDir, ?_⟩)
      simp only [VfsState.IsDirectory, din_of isIn, isDir]

/-- A call on a slot uses what it asks the inode for; the slot stays open, and its release
uses nothing. -/
theorem onSlotUses_present {permitted : Fs.File Node → Bool} {body : Body F}
    {uses : VfsState F → Fs.Slot F → Node → List VopUse} (heldSlots : HeldSlots live others state) (mine : files ∈ live)
    (moves : ∀ slot node ret middle, body (acquired state slot) slot node = some (ret, middle) →
      Moves (acquired state slot) slot middle)
    (present : ∀ slot node, LeadsTo live state files fd permitted slot node → AllPresent (uses (acquired state slot) slot node)) :
    AllPresent (onSlotUses disk state (Fs.acquireFd state.files (some files) fd permitted) body uses) := by
  refine AllPresent.following fun begun isBegun => ?_
  obtain ⟨found, table⟩ := begun
  cases found with
  | error => exact AllPresent.nil
  | ok slot =>
    obtain ⟨isFound, isPermitted, member, opened, rfl⟩ := acquireFd_held heldSlots mine isBegun
    refine AllPresent.following fun node isNode => ?_
    change ((state.files.setFile slot _).file slot).node = some node at isNode
    rw [Fs.FileState.setFile_self] at isNode
    refine AllPresent.append (present slot node ⟨isFound, isPermitted, member, opened, isNode⟩) ?_
    refine AllPresent.following fun done isDone => ?_
    obtain ⟨pos, isFiles⟩ := (moves slot node done.1 done.2 isDone).files
    have stillOpen : (done.2.files.file slot).status = .opened := by
      rw [isFiles, Fs.FileState.setFile_self]
      simp only [acquired, Fs.FileState.setFile_self, opened]
    simp only [fdArrayReleaseUses]
    rw [if_neg]
    · exact AllPresent.nil
    · rintro ⟨closed, _⟩
      rw [stillOpen] at closed
      cases closed

omit [DecidableEq F] in
/-- The inode that a descriptor leads to is held. -/
theorem LeadsTo.held {permitted : Fs.File Node → Bool} (leads : LeadsTo live state files fd permitted slot node)
    (heldSlots : HeldSlots live others state) : state.present node :=
  present_held (heldSlots.held leads.member leads.opened leads.isNode)

omit [DecidableEq F] in
theorem LeadsTo.names {permitted : Fs.File Node → Bool} (leads : LeadsTo live state files fd permitted slot node) :
    Names state files fd slot node :=
  ⟨leads.found, leads.isNode⟩

/-- A close gives back a reference of which a device has another one. -/
theorem fileCloseUses_present (invariant : NodeInvariant live others state) (mine : files ∈ live)
    (isFound : Fs.fd2file state.files (some files) fd = some (.ok slot)) :
    AllPresent (fdArrayReleaseUses disk { state with
      files := state.files.setFile slot { state.files.file slot with status := .closed } } slot) := by
  obtain ⟨isSlot, opened, inFiles⟩ := Fs.fd2file_slot isFound
  have member : slot ∈ Fs.slots live := mem_live mine (congrArg Prod.fst isSlot) (isSlot ▸ inFiles)
  simp only [fdArrayReleaseUses, Fs.FileState.setFile_self]
  split
  · refine AllPresent.following fun node isNode => vfsCloseUses_present invariant.sane fun index isDevice => ?_
    have same : VfsState.counts { state with
        files := state.files.setFile slot { state.files.file slot with status := .closed } } = state.counts :=
      counts_tables rfl
    rw [same]
    exact @HeldSlots.twice F state node live others slot invariant.slots slot member opened isNode
      (Or.inr (isDevice ▸ invariant.devices index))
  · exact AllPresent.nil

omit [DecidableEq F] in
/-- The operations of a seek in anything but a directory. -/
theorem seekUses_present {pos whence : Int} (sane : AllSane state.volume) (present : state.present node)
    (notDir : 0 ≤ whence ∧ whence ≤ lseekEnd → ¬ state.IsDirectory node) :
    AllPresent (seekUses pos whence state slot node) := by
  refine AllPresent.append ?_ (AllPresent.following fun target isTarget => ?_)
  · split
    · exact vopFstatUses_present sane present
    · exact AllPresent.nil
  cases target with
  | error => exact AllPresent.nil
  | ok target =>
    have inRange : 0 ≤ whence ∧ whence ≤ lseekEnd := by
      by_contra outside
      have unlike : whence ≠ 0 ∧ whence ≠ 1 ∧ whence ≠ 2 := by
        simp only [lseekEnd] at outside
        omega
      have isEnd : whence ≠ lseekEnd := unlike.2.2
      simp only [seekPos, isEnd, Fs.seekTarget, unlike, if_false] at isTarget
      cases isTarget
    simp only
    rcases inOps_cases sane present with ⟨isOps, index, rfl⟩ | ⟨_, isDir⟩ | ⟨isOps, _, ino, rfl⟩
    · refine AllPresent.call ?_ AllPresent.nil
      rw [isOps]
      decide
    · exact absurd isDir (notDir inRange)
    · refine AllPresent.call ?_ ?_
      · rw [isOps]
        decide
      · simp only
        split
        · refine AllPresent.call ?_ AllPresent.nil
          rw [isOps]
          decide
        · exact AllPresent.nil

/-! ## One call -/

variable {label : NodeLabel F}

/-- A call that asks for nothing that is missing uses operations that are there. -/
theorem nodeCallUses_present (invariant : NodeInvariant live others state) (mine : label.files ∈ live)
    (provided : Provided disk memory state label) : AllPresent (nodeCallUses disk memory state label) := by
  obtain ⟨files, call, device⟩ := label
  have slots := invariant.slots
  cases call with
  | fileOpen path openFlags => exact fileOpenUses_present invariant.rooted provided
  | fileRead fd len =>
    refine onSlotUses_present slots mine (fun _ _ _ _ => ioBody_moves) fun slot node leads => ?_
    refine AllPresent.call (show Vop.vopRead ∈ state.inOps node from ?_) AllPresent.nil
    rcases inOps_cases invariant.sane (leads.held slots) with ⟨isOps, _⟩ | ⟨_, isDir⟩ | ⟨isOps, _⟩
    · rw [isOps]
      decide
    · exact absurd isDir (provided slot node leads.names leads.isPermitted)
    · rw [isOps]
      decide
  | fileWrite fd len =>
    refine onSlotUses_present slots mine (fun _ _ _ _ => ioBody_moves) fun slot node leads => ?_
    refine AllPresent.call (show Vop.vopWrite ∈ state.inOps node from ?_) AllPresent.nil
    rcases inOps_cases invariant.sane (leads.held slots) with ⟨isOps, _⟩ | ⟨_, isDir⟩ | ⟨isOps, _⟩
    · rw [isOps]
      decide
    · have present := leads.held slots
      have isNode := leads.isNode
      cases node with
      | device => cases isDir
      | sfs ino =>
        obtain ⟨sin, isIn⟩ := Option.isSome_iff_exists.mp present
        rw [VfsState.IsDirectory, din_of isIn] at isDir
        have reads := invariant.readOnly slot leads.member ino sin leads.opened isNode isIn isDir
        exact absurd (reads.symm.trans leads.isPermitted) Bool.false_ne_true
    · rw [isOps]
      decide
  | fileSeek fd pos whence =>
    refine onSlotUses_present slots mine (fun _ _ _ _ => seekBody_moves) fun slot node leads => ?_
    have sane : AllSane (acquired state slot).volume := invariant.sane
    exact seekUses_present sane (leads.held slots) fun inRange => provided inRange slot node leads.names
  | fileFsync fd =>
    refine onSlotUses_present slots mine (fun _ _ _ _ => fsyncBody_moves) fun slot node leads => ?_
    refine AllPresent.call (show Vop.vopFsync ∈ state.inOps node from ?_) AllPresent.nil
    rcases inOps_cases invariant.sane (leads.held slots) with ⟨_, index, isDevice⟩ | ⟨isOps, _⟩ | ⟨isOps, _⟩
    · exact absurd isDevice (provided slot node leads.names index)
    · rw [isOps]
      decide
    · rw [isOps]
      decide
  | fileFstat fd =>
    change AllPresent (onSlotUses disk state (Fs.acquireFd state.files (some files) fd fun _ => true) fstatBody
      fun state _ => vopFstatUses state)
    refine onSlotUses_present slots mine (fun _ _ _ _ => fstatBody_moves) fun slot node leads => ?_
    have sane : AllSane (acquired state slot).volume := invariant.sane
    exact vopFstatUses_present sane (leads.held slots)
  | fileGetdirentry fd dirent =>
    refine onSlotUses_present slots mine (fun _ _ _ _ => getdirentryBody_moves) fun slot node leads => ?_
    refine AllPresent.call (show Vop.vopGetdirentry ∈ state.inOps node from ?_) AllPresent.nil
    have isDir := provided slot node leads.names
    rcases inOps_cases invariant.sane (leads.held slots) with ⟨_, _, rfl⟩ | ⟨isOps, _⟩ | ⟨_, notDir, _⟩
    · cases isDir
    · rw [isOps]
      decide
    · exact absurd isDir notDir
  | fileDup fd1 fd2 => exact AllPresent.nil
  | fileClose fd =>
    simp only [nodeCallUses]
    split
    · rename_i slot isFound
      exact fileCloseUses_present invariant mine isFound
    · exact AllPresent.nil

/-- Every call that returns keeps the invariant. -/
theorem nodeCall_keeps (invariant : NodeInvariant live others state) (mine : label.files ∈ live)
    (called : nodeCall disk memory state label = some (ret, after)) : NodeInvariant live others after := by
  obtain ⟨files, call, device⟩ := label
  apply invariant.carried
  cases call with
  | fileOpen path openFlags =>
    obtain ⟨⟨result, last⟩, opens, same⟩ := Option.map_eq_some_iff.mp called
    have isLast : last = after := by
      cases result with
      | ok => exact (Prod.mk.inj same).2
      | error => exact (Prod.mk.inj same).2
    exact isLast ▸ fileOpen_carries invariant mine opens
  | fileRead fd len => exact onSlot_carries invariant mine (fun _ _ _ _ => ioBody_moves) called
  | fileWrite fd len => exact onSlot_carries invariant mine (fun _ _ _ _ => ioBody_moves) called
  | fileSeek fd pos whence => exact onSlot_carries invariant mine (fun _ _ _ _ => seekBody_moves) called
  | fileFsync fd => exact onSlot_carries invariant mine (fun _ _ _ _ => fsyncBody_moves) called
  | fileFstat fd => exact onSlot_carries invariant mine (fun _ _ _ _ => fstatBody_moves) called
  | fileGetdirentry fd dirent => exact onSlot_carries invariant mine (fun _ _ _ _ => getdirentryBody_moves) called
  | fileDup fd1 fd2 =>
    obtain ⟨⟨result, last⟩, dup, same⟩ := Option.map_eq_some_iff.mp called
    have isLast : last = after := by
      cases result with
      | ok => exact (Prod.mk.inj same).2
      | error => exact (Prod.mk.inj same).2
    exact isLast ▸ fileDup_carries invariant mine dup
  | fileClose fd => exact fileClose_carries invariant mine called

/-! ## Calls that return -/

/-- A call on a slot that returns has done its work. -/
theorem onSlot_body {permitted : Fs.File Node → Bool} {body : Body F} (heldSlots : HeldSlots live others state)
    (mine : files ∈ live) (names : Names state files fd slot node) (isPermitted : permitted (state.files.file slot) = true)
    (called : onSlot disk state (Fs.acquireFd state.files (some files) fd permitted) body = some (ret, after)) :
    ∃ middle, body (acquired state slot) slot node = some (ret, middle) := by
  obtain ⟨⟨found, table⟩, begun, rest⟩ := Option.bind_eq_some_iff.mp called
  cases found with
  | error code =>
    obtain ⟨again, isAgain, rest⟩ := Option.bind_eq_some_iff.mp begun
    obtain rfl := Option.some.inj (names.1.symm.trans isAgain)
    simp only [isPermitted, if_true] at rest
    obtain ⟨_, _, same⟩ := Option.map_eq_some_iff.mp rest
    cases (Prod.mk.inj same).1
  | ok other =>
    obtain ⟨isFound, _, _, _, rfl⟩ := acquireFd_held heldSlots mine begun
    obtain rfl := Except.ok.inj (Option.some.inj (names.1.symm.trans isFound))
    obtain ⟨found, isNode, rest⟩ := Option.bind_eq_some_iff.mp rest
    obtain ⟨⟨code, middle⟩, done, rest⟩ := Option.bind_eq_some_iff.mp rest
    obtain ⟨last, _, same⟩ := Option.map_eq_some_iff.mp rest
    obtain ⟨rfl, _⟩ := Prod.mk.inj same
    change ((state.files.setFile slot _).file slot).node = some found at isNode
    rw [Fs.FileState.setFile_self] at isNode
    obtain rfl := Option.some.inj (names.2.symm.trans isNode)
    exact ⟨middle, done⟩

omit [DecidableEq F] in
theorem vopTruncate_file {len : Int} (called : vopTruncate disk state (.sfs ino) len = some (ret, after)) :
    (state.volume.din ino).type = sfsTypeFile := by
  obtain ⟨_, _, rest⟩ := Option.bind_eq_some_iff.mp called
  obtain ⟨sin, isIn, rest⟩ := Option.bind_eq_some_iff.mp rest
  obtain ⟨_, empties, _⟩ := Option.bind_eq_some_iff.mp rest
  unfold Volume.vopTruncate at empties
  split at empties
  · rename_i isFile
    rw [din_of isIn, isFile]
  · cases empties

omit [DecidableEq F] in
/-- An open that returns creates no file and empties no directory. -/
theorem vfsOpen_plain {result : Except Int Node}
    (called : vfsOpen disk memory state files path openFlags = some (result, after)) :
    ¬ CreatesFile disk memory state files path openFlags ∧ ¬ EmptiesDirectory disk memory state files path openFlags := by
  constructor
  · rintro ⟨allowed, creat, looked, parent, begun, isLooked, isParent⟩
    rw [vfsOpen, if_neg (by simp [allowed])] at called
    obtain ⟨⟨found, last⟩, isFound, rest⟩ := Option.bind_eq_some_iff.mp called
    obtain ⟨rfl, rfl⟩ := Prod.mk.inj (Option.some.inj (isLooked.symm.trans isFound))
    simp only [openMissing, creat, and_self, if_true] at rest
    obtain ⟨⟨other, more⟩, isOther, rest⟩ := Option.bind_eq_some_iff.mp rest
    obtain ⟨rfl, rfl⟩ := Prod.mk.inj (Option.some.inj (isParent.symm.trans isOther))
    cases rest
  · rintro ⟨allowed, creat, notExclusive, opendir, looked, ino, isLooked, isDir⟩
    rw [vfsOpen, if_neg (by simp [allowed])] at called
    obtain ⟨⟨found, last⟩, isFound, rest⟩ := Option.bind_eq_some_iff.mp called
    obtain ⟨rfl, rfl⟩ := Prod.mk.inj (Option.some.inj (isLooked.symm.trans isFound))
    simp only at rest
    rw [if_neg fun exclusive => notExclusive exclusive.1] at rest
    obtain ⟨code, opens, rest⟩ := Option.bind_eq_some_iff.mp rest
    obtain ⟨_, _, answer⟩ := Option.bind_eq_some_iff.mp opens
    obtain ⟨sin, isIn, answer⟩ := Option.bind_eq_some_iff.mp answer
    obtain ⟨kind, isKind, answer⟩ := Option.bind_eq_some_iff.mp answer
    have isType := isDir
    rw [din_of isIn] at isType
    rw [sfsGetOps, if_pos isType] at isKind
    obtain rfl := Option.some.inj isKind
    rw [if_pos rfl, opendir] at answer
    obtain rfl := Option.some.inj answer
    rw [if_neg (not_not.mpr rfl)] at rest
    obtain ⟨raised, isRaised, rest⟩ := Option.bind_eq_some_iff.mp rest
    rw [if_pos (Or.inr creat)] at rest
    obtain ⟨⟨outcome, truncated⟩, isTruncated, _⟩ := Option.bind_eq_some_iff.mp rest
    have isFile := vopTruncate_file isTruncated
    have volume : raised.volume = looked.volume := by
      unfold vopOpenInc at isRaised
      split at isRaised
      · rw [← Option.some.inj isRaised]
      · cases isRaised
    rw [volume, isDir] at isFile
    cases isFile

/-- A call that returns asks for nothing that is missing: any other one fails an assertion. -/
theorem nodeCall_provided (invariant : NodeInvariant live others state) (mine : label.files ∈ live)
    (called : nodeCall disk memory state label = some (ret, after)) : Provided disk memory state label := by
  obtain ⟨files, call, device⟩ := label
  have slots := invariant.slots
  cases call with
  | fileOpen path openFlags =>
    intro slot table begun
    obtain ⟨⟨result, last⟩, opens, _⟩ := Option.map_eq_some_iff.mp called
    obtain ⟨⟨allocated, taken⟩, isTaken, rest⟩ := Option.bind_eq_some_iff.mp opens
    obtain ⟨rfl, rfl⟩ := Prod.mk.inj (Option.some.inj (begun.symm.trans isTaken))
    obtain ⟨⟨opened, looked⟩, isOpened, _⟩ := Option.bind_eq_some_iff.mp rest
    exact vfsOpen_plain isOpened
  | fileRead fd len =>
    intro slot node names readable isDir
    obtain ⟨middle, done⟩ := onSlot_body slots mine names readable called
    cases node with
    | device => cases isDir
    | sfs ino =>
      obtain ⟨_, isIo, _⟩ := Option.bind_eq_some_iff.mp done
      obtain ⟨_, _, rest⟩ := Option.bind_eq_some_iff.mp isIo
      obtain ⟨sin, isIn, rest⟩ := Option.bind_eq_some_iff.mp rest
      split at rest
      · rename_i isFile
        change state.volume.inodes ino = some sin at isIn
        rw [VfsState.IsDirectory, din_of isIn, sfsGetOps_file isFile] at isDir
        cases isDir
      · cases rest
  | fileWrite => trivial
  | fileSeek fd pos whence =>
    intro inRange slot node names isDir
    obtain ⟨middle, done⟩ := onSlot_body slots mine names rfl called
    obtain ⟨target, isTarget, rest⟩ := Option.bind_eq_some_iff.mp done
    cases node with
    | device => cases isDir
    | sfs ino =>
      cases target with
      | error code =>
        unfold seekPos at isTarget
        split at isTarget
        · rename_i isEnd
          subst isEnd
          obtain ⟨size, _, target⟩ := Option.map_eq_some_iff.mp isTarget
          simp [Fs.seekTarget, lseekEnd, Except.map] at target
        · rename_i notEnd
          simp only [lseekEnd] at inRange notEnd
          have either : whence = 0 ∨ whence = 1 := by omega
          rcases either with rfl | rfl
          · simp [Fs.seekTarget] at isTarget
          · simp [Fs.seekTarget] at isTarget
      | ok target =>
        obtain ⟨_, isTried, _⟩ := Option.bind_eq_some_iff.mp rest
        obtain ⟨_, _, rest⟩ := Option.bind_eq_some_iff.mp isTried
        obtain ⟨sin, isIn, rest⟩ := Option.bind_eq_some_iff.mp rest
        split at rest
        · rename_i isFile
          change state.volume.inodes ino = some sin at isIn
          rw [VfsState.IsDirectory, din_of isIn, sfsGetOps_file isFile] at isDir
          cases isDir
        · cases rest
  | fileFsync fd =>
    rintro slot node names index rfl
    obtain ⟨middle, done⟩ := onSlot_body slots mine names rfl called
    obtain ⟨_, _, rest⟩ := Option.bind_eq_some_iff.mp done
    cases rest
  | fileFstat => trivial
  | fileGetdirentry fd dirent =>
    intro slot node names
    obtain ⟨middle, done⟩ := onSlot_body slots mine names rfl called
    obtain ⟨_, _, rest⟩ := Option.bind_eq_some_iff.mp done
    cases node with
    | device => cases rest
    | sfs ino =>
      obtain ⟨sin, isIn, rest⟩ := Option.bind_eq_some_iff.mp rest
      split at rest
      · rename_i isDir
        change state.volume.inodes ino = some sin at isIn
        rw [VfsState.IsDirectory, din_of isIn]
        unfold sfsGetOps at isDir
        split at isDir
        · rename_i isType
          exact isType
        · split at isDir
          · cases isDir
          · cases isDir
      · cases rest
  | fileDup => trivial
  | fileClose => trivial

/-! ## Runs -/

/-- One call, with the state behind it. -/
def nodeStep (disk : Nat → Int) (memory : Nat → Bool) (state : VfsState F) (label : NodeLabel F) : Option (VfsState F) :=
  (nodeCall disk memory state label).map Prod.snd

/-- In every state that calls reach, a call that asks no inode for what it cannot do uses only
operations that are there, and any other call does not return. -/
theorem calls_use_operations (disk : Nat → Int) (memory : Nat → Bool) (live : Finset F) (others : Node → Nat)
    (start state : VfsState F) (invariant : NodeInvariant live others start)
    (reached : Reaches (nodeStep disk memory) (fun _ label => label.files ∈ live) start state) (label : NodeLabel F)
    (mine : label.files ∈ live) : (Provided disk memory state label → AllPresent (nodeCallUses disk memory state label)) ∧
      (¬ Provided disk memory state label → nodeCall disk memory state label = none) := by
  have kept : NodeInvariant live others state := by
    refine Reaches.invariant invariant ?_ reached
    intro middle taken next held allowed stepped
    obtain ⟨⟨ret, last⟩, called, rfl⟩ := Option.map_eq_some_iff.mp stepped
    exact nodeCall_keeps held allowed called
  refine ⟨nodeCallUses_present kept mine, fun missing => ?_⟩
  cases called : nodeCall disk memory state label with
  | none => rfl
  | some result => exact absurd (nodeCall_provided kept mine called) missing

/-- The small tree, whose devices and root are held. -/
def heldState : VfsState Unit where
  volume := smallState.volume
  files := {
    smallState.files with
    inodes := fun node => match node with
      | .device _ => ⟨1, 0⟩
      | .sfs ino => if ino = 1 then ⟨2, 0⟩ else ⟨0, 0⟩ }
  allocs := 0
  devices := smallState.devices
  vdevList := smallState.vdevList
  bootfsNode := smallState.bootfsNode

/-- The list of devices and the boot file system hold an inode each. -/
def heldOthers : Node → Nat
  | .device _ => 1
  | .sfs ino => if ino = 1 then 1 else 0

theorem heldState_invariant : NodeInvariant {()} heldOthers heldState where
  slots := by
    refine ⟨fun slot _ => ⟨rfl, rfl, rfl, by simp, nofun, by simp [heldState, smallState, Fs.FileState.file, Fs.fdArrayInit]⟩, ?_⟩
    intro node
    have unnamed : ∀ slot, heldState.files.names slot = none := fun _ => rfl
    have none : tally (Fs.slots {()}) heldState.files.names node = 0 := tally_eq_zero.mpr fun slot _ => by simp [unnamed slot]
    rw [none]
    cases node with
    | device index => exact Int.le_refl 1
    | sfs ino =>
      by_cases isRoot : ino = 1
      · subst isRoot
        decide
      · have fewer : heldOthers (.sfs ino) = 0 := if_neg isRoot
        rw [fewer]
        unfold VfsState.counts
        split
        · simp only [heldState, if_neg isRoot]
          decide
        · decide
  sane := by
    intro ino sin isIn
    change (if ino = 1 then _ else none) = some sin at isIn
    split at isIn
    · rw [← Option.some.inj isIn]
      exact Or.inr ⟨rfl, by decide⟩
    · cases isIn
  devices := fun _ => Nat.one_pos
  start := by
    have root : Begins heldOthers heldState (.sfs 1) := ⟨by decide, _, rfl, rfl⟩
    rintro node (rfl | isBootfs | ⟨_, isPwd⟩)
    · exact root
    · exact Option.some.inj isBootfs ▸ root
    · exact Option.some.inj isPwd ▸ root
  readOnly := by
    rintro slot _ ino sin ⟨⟩

/-- A call of the one process; no device is asked. -/
def nodeLabel (call : NodeCall) : NodeLabel Unit where
  files := ()
  call := call
  device := (0, 0)

/-- The root is opened and its status asked for. -/
theorem calls_use_operations_root :
    ∃ state, Reaches (nodeStep (fun _ => 0) (fun _ => true)) (fun _ label => label.files ∈ ({()} : Finset Unit)) heldState state ∧
      (state.files.file ((), 0)).node = some (.sfs 1) ∧
        AllPresent (nodeCallUses (fun _ => 0) (fun _ => true) state (nodeLabel (.fileFstat 0))) := by
  have completes : (nodeStep (fun _ => 0) (fun _ => true) heldState (nodeLabel (.fileOpen [slash] 0))).map
      (fun state => (state.files.file ((), 0)).node) = some (some (.sfs 1)) := by
    decide +kernel
  obtain ⟨state, opens, isNode⟩ := Option.map_eq_some_iff.mp completes
  have reached : Reaches (nodeStep (fun _ => 0) (fun _ => true)) (fun _ label => label.files ∈ ({()} : Finset Unit))
      heldState state := .step .start (Finset.mem_singleton_self ()) opens
  exact ⟨state, reached, isNode, (calls_use_operations _ _ {()} heldOthers heldState state heldState_invariant reached
    (nodeLabel (.fileFstat 0)) (Finset.mem_singleton_self ())).1 trivial⟩

/-- The root is opened for reading and read: directories have no `vop_read`. -/
theorem directory_read_panics :
    ∃ state, Reaches (nodeStep (fun _ => 0) (fun _ => true)) (fun _ label => label.files ∈ ({()} : Finset Unit)) heldState state ∧
      NodeInvariant {()} heldOthers heldState ∧
        ¬ AllPresent (nodeCallUses (fun _ => 0) (fun _ => true) state (nodeLabel (.fileRead 0 1))) ∧
          nodeCall (fun _ => 0) (fun _ => true) state (nodeLabel (.fileRead 0 1)) = none := by
  have completes : (nodeStep (fun _ => 0) (fun _ => true) heldState (nodeLabel (.fileOpen [slash] 0))).map
      (fun state => (decide (∃ vopUse ∈ nodeCallUses (fun _ => 0) (fun _ => true) state (nodeLabel (.fileRead 0 1)),
        ¬ vopUse.Present), (nodeCall (fun _ => 0) (fun _ => true) state (nodeLabel (.fileRead 0 1))).isNone)) =
          some (true, true) := by
    decide +kernel
  obtain ⟨state, opens, results⟩ := Option.map_eq_some_iff.mp completes
  obtain ⟨missing, panics⟩ := Prod.mk.inj results
  obtain ⟨vopUse, member, absent⟩ := of_decide_eq_true missing
  refine ⟨state, .step .start (Finset.mem_singleton_self ()) opens, heldState_invariant, fun present => ?_,
    Option.isNone_iff_eq_none.mp panics⟩
  exact absent (present vopUse member)

end Ucore.Vfs
