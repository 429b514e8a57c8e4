import Ucore.Fs.HeldSlots
import Ucore.Fs.NodeOps

/-!
# Operations that calls use

A program chooses the path, the flags and the calls, and so which operation of which inode is
used. Closes, lookups, writes and questions for the status find theirs. A read or a seek of a
directory does not, nor does the synchronization of a device, a look at the entries of
anything but a directory, or an open with `O_CREAT` that creates a file or finds a directory.
-/

namespace Ucore.Vfs

open Tally Volume Transition

variable {F : Type} [DecidableEq F]

/-- All operations that are used are there. -/
def AllPresent (uses : List VopUse) : Prop := ∀ vopUse ∈ uses, vopUse.Present

/-- Where a lookup can start. -/
def StartNode (state : VfsState F) (node : Node) : Prop :=
  node = .sfs sfsBlknRoot ∨ state.bootfsNode = some node ∨ ∃ files, (state.files.files files).pwd = some node

/-- A device, or a directory in memory that is held. -/
def Looks (state : VfsState F) (node : Node) : Prop :=
  match node with
  | .device _ => True
  | .sfs ino => 0 < (state.counts (.sfs ino)).refCount ∧
      ∃ sin, state.volume.inodes ino = some sin ∧ sin.din.type = sfsTypeDir

/-- The inodes are files and directories, devices are held, and lookups start at directories. -/
structure Rooted (state : VfsState F) : Prop where
  sane : AllSane state.volume
  counted : ∀ node, 0 ≤ (state.counts node).refCount
  devices : ∀ index, 0 < (state.counts (.device index)).refCount
  start : ∀ node, StartNode state node → Looks state node

variable {disk : Nat → Int} {memory : Nat → Bool} {state middle after : VfsState F} {files : F} {path : Name}
  {openFlags : BitVec 32} {node : Node} {live : Finset F} {others : Node → Nat} {slot : Fs.Slot F}
  {ino : Nat} {ret fd : Int} {changed : Node → Prop} {uses : List VopUse} {op : Vop}

/-! ## Lists of operations -/

theorem AllPresent.nil : AllPresent [] := by
  rintro _ ⟨⟩

theorem AllPresent.append {rest : List VopUse} (first : AllPresent uses) (second : AllPresent rest) :
    AllPresent (uses ++ rest) := by
  intro vopUse member
  rcases List.mem_append.mp member with inFirst | inSecond
  · exact first vopUse inFirst
  · exact second vopUse inSecond

theorem AllPresent.following {α : Type} {result : Option α} {next : α → List VopUse}
    (present : ∀ value, result = some value → AllPresent (next value)) : AllPresent (andThen result next) := by
  cases result with
  | none => exact AllPresent.nil
  | some value => exact present value rfl

omit [DecidableEq F] in
theorem AllPresent.call (has : op ∈ state.inOps node) (inner : AllPresent uses) :
    AllPresent (vopCall state node op uses) := by
  intro vopUse member
  rcases List.mem_cons.mp member with rfl | inside
  · exact has
  · split at inside
    · exact inner vopUse inside
    · cases inside

/-! ## Tables of operations -/

omit [DecidableEq F] in
theorem inOps_device (index : Nat) : state.inOps (.device index) = devNodeOps := rfl

omit [DecidableEq F] in
theorem inOps_dir {sin : SfsInode} (isIn : state.volume.inodes ino = some sin) (isDir : sin.din.type = sfsTypeDir) :
    state.inOps (.sfs ino) = sfsNodeDirops := by
  simp [VfsState.inOps, isIn, sfsGetOps, isDir]

omit [DecidableEq F] in
theorem inOps_file {sin : SfsInode} (isIn : state.volume.inodes ino = some sin) (isFile : sin.din.type = sfsTypeFile) :
    state.inOps (.sfs ino) = sfsNodeFileops := by
  simp [VfsState.inOps, isIn, sfsGetOps, isFile, sfsTypeFile, sfsTypeDir]

omit [DecidableEq F] in
/-- An operation that directories and files have. -/
theorem inOps_common (sane : AllSane state.volume) (inDir : op ∈ sfsNodeDirops) (inFile : op ∈ sfsNodeFileops)
    {sin : SfsInode} (isIn : state.volume.inodes ino = some sin) : op ∈ state.inOps (.sfs ino) := by
  rcases sane ino sin isIn with isFile | ⟨isDir, _⟩
  · rwa [inOps_file isIn isFile]
  · rwa [inOps_dir isIn isDir]

omit [DecidableEq F] in
/-- An operation that every inode in memory has. -/
theorem inOps_all (sane : AllSane state.volume) (present : state.present node) (inDir : op ∈ sfsNodeDirops)
    (inFile : op ∈ sfsNodeFileops) (inDevice : op ∈ devNodeOps) : op ∈ state.inOps node := by
  cases node with
  | device => exact inDevice
  | sfs ino =>
    obtain ⟨sin, isIn⟩ := Option.isSome_iff_exists.mp present
    exact inOps_common sane inDir inFile isIn

omit [DecidableEq F] in
/-- An inode that is held is in memory. -/
theorem present_held (held : 0 < (state.counts node).refCount) : state.present node := by
  by_contra absent
  simp [VfsState.counts, absent] at held

/-! ## References and openings -/

omit [DecidableEq F] in
/-- Only a file is emptied in `sfs_reclaim`: a directory has a link. -/
theorem sfsReclaimUses_present (sane : AllSane state.volume) (ino : Nat) : AllPresent (sfsReclaimUses disk state ino) := by
  refine AllPresent.following fun sin isIn => ?_
  split
  · refine AllPresent.append ?_ (AllPresent.following fun truncated _ => ?_)
    · split
      · rename_i unlinked
        refine AllPresent.call ?_ AllPresent.nil
        rcases sane ino sin isIn with isFile | ⟨_, linked⟩
        · rw [inOps_file isIn isFile]
          decide
        · exact absurd unlinked linked
      · exact AllPresent.nil
    · split
      · exact AllPresent.call (inOps_common sane (by decide) (by decide) isIn) AllPresent.nil
      · exact AllPresent.nil
  · exact AllPresent.nil

omit [DecidableEq F] in
/-- The last reference of a device does not go. -/
theorem vopRefDecUses_present (sane : AllSane state.volume)
    (more : ∀ index, node = .device index → 1 < (state.counts node).refCount) :
    AllPresent (vopRefDecUses disk state node) := by
  unfold vopRefDecUses
  split
  · rename_i present
    refine AllPresent.following fun table lowered => ?_
    split
    · rename_i isLast
      cases node with
      | device index =>
        have held := more index rfl
        rw [counts_present present] at held
        simp only [Fs.inodeRefDec] at lowered
        split at lowered
        · rw [← Option.some.inj lowered] at isLast
          simp only [Fs.FileState.setInode, Function.update_self] at isLast
          omega
        · cases lowered
      | sfs ino =>
        obtain ⟨sin, isIn⟩ := Option.isSome_iff_exists.mp present
        have saneTable : AllSane (VfsState.volume { state with files := table }) := sane
        refine AllPresent.call ?_ (sfsReclaimUses_present saneTable ino)
        exact inOps_common saneTable (by decide) (by decide) isIn
    · exact AllPresent.nil
  · exact AllPresent.nil

omit [DecidableEq F] in
theorem vopOpenDecUses_present (sane : AllSane state.volume) : AllPresent (vopOpenDecUses state node) := by
  unfold vopOpenDecUses
  split
  · rename_i present
    refine AllPresent.following fun table _ => ?_
    have saneTable : AllSane (VfsState.volume { state with files := table }) := sane
    split
    · cases node with
      | device =>
        refine AllPresent.call ?_ AllPresent.nil
        rw [inOps_device]
        decide
      | sfs ino =>
        obtain ⟨sin, isIn⟩ := Option.isSome_iff_exists.mp present
        refine AllPresent.call ?_ (AllPresent.call ?_ AllPresent.nil)
        · exact inOps_common saneTable (by decide) (by decide) isIn
        · exact inOps_common saneTable (by decide) (by decide) isIn
    · exact AllPresent.nil
  · exact AllPresent.nil

omit [DecidableEq F] in
theorem vfsCloseUses_present (sane : AllSane state.volume)
    (more : ∀ index, node = .device index → 1 < (state.counts node).refCount) :
    AllPresent (vfsCloseUses disk state node) := by
  refine AllPresent.append (vopOpenDecUses_present sane) (AllPresent.following fun middle lowered => ?_)
  refine vopRefDecUses_present ((vopOpenDec_sane lowered).1 sane) fun index isDevice => ?_
  have held := more index isDevice
  have refs := (vopOpenDec_bumps lowered).refs
  omega

omit [DecidableEq F] in
theorem vopFstatUses_present (sane : AllSane state.volume) (present : state.present node) :
    AllPresent (vopFstatUses state node) :=
  AllPresent.call (inOps_all sane present (by decide) (by decide) (by decide))
    (AllPresent.call (inOps_all sane present (by decide) (by decide) (by decide)) AllPresent.nil)

/-! ## Lookups -/

omit [DecidableEq F] in
/-- Calls that keep what is held keep where lookups start. -/
theorem Rooted.steady (rooted : Rooted state) (steady : Steady changed state after)
    (pwd : ∀ files, (after.files.files files).pwd = (state.files.files files).pwd) : Rooted after where
  sane := steady.sane rooted.sane
  counted := fun node => Int.le_trans (rooted.counted node) (steady.grows node)
  devices := fun index => Int.lt_of_lt_of_le (rooted.devices index) (steady.grows _)
  start := by
    intro node starts
    have before : StartNode state node := by
      simpa only [StartNode, steady.bootfs, pwd] using starts
    have looks := rooted.start node before
    cases node with
    | device => trivial
    | sfs ino =>
      obtain ⟨held, sin, isIn, isDir⟩ := looks
      obtain ⟨sinAfter, isAfter, kept⟩ := steady.keeps ino sin isIn held
      exact ⟨Int.lt_of_lt_of_le held (steady.grows _), sinAfter, isAfter, kept.type.trans isDir⟩

omit [DecidableEq F] in
theorem sfsLoadInode_node {result : Except Int Node} (called : sfsLoadInode disk memory state ino = some (result, after))
    (isOk : result = .ok node) : node = .sfs ino := by
  subst isOk
  unfold sfsLoadInode at called
  split at called
  · exact (Except.ok.inj (Prod.mk.inj (Option.some.inj called)).1).symm
  · simp only at called
    split at called
    · obtain ⟨_, _, rest⟩ := Option.bind_eq_some_iff.mp called
      obtain ⟨⟨read, fs⟩, _, rest⟩ := Option.bind_eq_some_iff.mp rest
      cases read with
      | error => cases (Prod.mk.inj (Option.some.inj rest)).1
      | ok words =>
        simp only [createInode] at rest
        split at rest
        · cases rest
        · split at rest
          · split at rest
            · cases rest
            · exact (Except.ok.inj (Prod.mk.inj (Option.some.inj rest)).1).symm
          · cases (Prod.mk.inj (Option.some.inj rest)).1
    · cases (Prod.mk.inj (Option.some.inj called)).1

omit [DecidableEq F] in
theorem sfsGetRoot_node (called : sfsGetRoot disk memory state = some (node, after)) : node = .sfs sfsBlknRoot := by
  obtain ⟨⟨loaded, middle⟩, isLoaded, rest⟩ := Option.bind_eq_some_iff.mp called
  cases loaded with
  | error => cases rest
  | ok root =>
    obtain ⟨rfl, _⟩ := Prod.mk.inj (Option.some.inj rest)
    exact sfsLoadInode_node isLoaded rfl

omit [DecidableEq F] in
/-- The inode that `get_device` finds. -/
theorem getDevice_start (called : getDevice disk memory state files path = some (.ok node, after)) :
    StartNode state node ∨ ∃ index, node = .device index := by
  simp only [getDevice] at called
  split at called
  · unfold vfsGetCurdir at called
    split at called
    · rename_i isPwd
      obtain ⟨_, _, same⟩ := Option.map_eq_some_iff.mp called
      obtain rfl := Except.ok.inj (Prod.mk.inj same).1
      exact Or.inl (Or.inr (Or.inr ⟨files, isPwd⟩))
    · cases (Prod.mk.inj (Option.some.inj called)).1
  · split at called
    · unfold vfsGetRoot getVdevRoot at called
      split at called
      · split at called
        · obtain ⟨⟨root, last⟩, isRoot, same⟩ := Option.map_eq_some_iff.mp called
          obtain rfl := Except.ok.inj (Prod.mk.inj same).1
          exact Or.inl (Or.inl (sfsGetRoot_node isRoot))
        · split at called
          · obtain ⟨index, _, rest⟩ := Option.bind_eq_some_iff.mp called
            obtain ⟨_, _, same⟩ := Option.map_eq_some_iff.mp rest
            exact Or.inr ⟨index, (Except.ok.inj (Prod.mk.inj same).1).symm⟩
          · cases (Prod.mk.inj (Option.some.inj called)).1
      · cases (Prod.mk.inj (Option.some.inj called)).1
    · split at called
      · unfold vfsGetBootfs at called
        split at called
        · rename_i isBootfs
          obtain ⟨_, _, same⟩ := Option.map_eq_some_iff.mp called
          obtain rfl := Except.ok.inj (Prod.mk.inj same).1
          exact Or.inl (Or.inr (Or.inl isBootfs))
        · cases (Prod.mk.inj (Option.some.inj called)).1
      · obtain ⟨⟨current, middle⟩, _, rest⟩ := Option.bind_eq_some_iff.mp called
        cases current with
        | error => cases (Prod.mk.inj (Option.some.inj rest)).1
        | ok found =>
          cases found with
          | device => cases rest
          | sfs =>
            obtain ⟨⟨root, loaded⟩, isRoot, rest⟩ := Option.bind_eq_some_iff.mp rest
            obtain ⟨_, _, same⟩ := Option.map_eq_some_iff.mp rest
            obtain rfl := Except.ok.inj (Prod.mk.inj same).1
            exact Or.inl (Or.inl (sfsGetRoot_node isRoot))

omit [DecidableEq F] in
theorem getDeviceUses_present (sane : AllSane state.volume) : AllPresent (getDeviceUses disk memory state files path) := by
  simp only [getDeviceUses]
  split
  · exact AllPresent.nil
  · refine AllPresent.following fun current got => ?_
    split
    · exact AllPresent.nil
    · exact AllPresent.nil
    · rename_i found notDevice isFound
      refine AllPresent.following fun root isRoot => ?_
      have first : Steady (fun _ => False) state current.2 := kept_steady got
      have second : Steady (fun _ => False) current.2 root.2 := sfsGetRoot_steady isRoot
      refine vopRefDecUses_present (second.sane (first.sane sane)) fun index isDevice => ?_
      exact absurd isDevice (notDevice index)

omit [DecidableEq F] in
theorem vopLookupUses_present (sane : AllSane state.volume) (looks : Looks state node) :
    AllPresent (vopLookupUses disk memory state node path) := by
  cases node with
  | device index =>
    refine AllPresent.call ?_ AllPresent.nil
    rw [inOps_device]
    decide
  | sfs ino =>
    obtain ⟨_, sin, isIn, isDir⟩ := looks
    refine AllPresent.call ?_ ?_
    · rw [inOps_dir isIn isDir]
      decide
    · simp only [sfsLookupUses]
      split
      · exact AllPresent.nil
      · refine AllPresent.following fun held raised => AllPresent.following fun sin _ => ?_
        have first : Steady (fun _ => False) state held := vopRefInc_steady raised
        split
        · refine vopRefDecUses_present (first.sane sane) ?_
          rintro _ ⟨⟩
        · refine AllPresent.following fun looked isLooked => ?_
          have second : Steady (fun _ => False) held looked.2 := sfsLookupOnce_steady isLooked
          refine vopRefDecUses_present (second.sane (first.sane sane)) ?_
          rintro _ ⟨⟩

omit [DecidableEq F] in
/-- The start of a lookup is a directory or a device, with a reference more. -/
theorem getDevice_rooted (rooted : Rooted state) (called : getDevice disk memory state files path = some (.ok node, after)) :
    Rooted after ∧ Looks after node ∧ ∀ index, node = .device index → 1 < (after.counts node).refCount := by
  have steady : Steady (fun _ => False) state after := getDevice_steady called
  have hands : Bumps state after node 1 0 := getDevice_hands called
  have still := rooted.steady steady fun files => by rw [hands.files]
  refine ⟨still, ?_, ?_⟩
  · rcases getDevice_start called with starts | ⟨index, rfl⟩
    · refine still.start node ?_
      simpa only [StartNode, steady.bootfs, hands.files] using starts
    · trivial
  · rintro index rfl
    have held := rooted.devices index
    have refs := hands.refs
    omega

omit [DecidableEq F] in
theorem vfsLookupUses_present (rooted : Rooted state) : AllPresent (vfsLookupUses disk memory state files path) := by
  refine AllPresent.append (getDeviceUses_present rooted.sane) (AllPresent.following fun start started => ?_)
  obtain ⟨begun, middle⟩ := start
  cases begun with
  | error => exact AllPresent.nil
  | ok node =>
    obtain ⟨still, looks, more⟩ := getDevice_rooted rooted started
    simp only
    split
    · refine AllPresent.append (vopLookupUses_present still.sane looks) (AllPresent.following fun found isFound => ?_)
      have steady : Steady (fun _ => False) middle found.2 := vopLookup_steady isFound
      refine vopRefDecUses_present (steady.sane still.sane) fun index isDevice => ?_
      exact Int.lt_of_lt_of_le (more index isDevice) (steady.grows _)
    · exact AllPresent.nil

/-! ## Opens -/

/-- An open with `O_CREAT` of a path that names nothing comes to the call of `vop_create`. -/
def CreatesFile (disk : Nat → Int) (memory : Nat → Bool) (state : VfsState F) (files : F) (path : Name)
    (openFlags : BitVec 32) : Prop :=
  flagsAllowed openFlags = true ∧ hasFlag openFlags oCreat ∧ ∃ looked parent begun,
    vfsLookup disk memory state files path = some (.error (-eNoent), looked) ∧
      getDevice disk memory looked files (cutPath path) = some (.ok parent, begun)

/-- An open with `O_CREAT` finds a directory, which `sfs_opendir` lets it read, and comes to
the call of `vop_truncate`. -/
def EmptiesDirectory (disk : Nat → Int) (memory : Nat → Bool) (state : VfsState F) (files : F) (path : Name)
    (openFlags : BitVec 32) : Prop :=
  flagsAllowed openFlags = true ∧ hasFlag openFlags oCreat ∧ ¬ hasFlag openFlags oExcl ∧
    sfsOpendir openFlags = 0 ∧ ∃ looked ino, vfsLookup disk memory state files path = some (.ok (.sfs ino), looked) ∧
      (looked.volume.din ino).type = sfsTypeDir

/-- A flag is among others. -/
theorem hasFlag_among {flag flags : BitVec 32} (among : flags &&& flag = flag) (has : hasFlag openFlags flag = true) :
    hasFlag openFlags flags = true := by
  simp only [hasFlag, ne_eq, decide_eq_true_eq] at has ⊢
  intro none
  apply has
  rw [← among, ← BitVec.and_assoc, none, BitVec.zero_and]

/-- A device refuses to be created or emptied. -/
theorem devOpen_refuses {device : Device} (empties : hasFlag openFlags oTrunc ∨ hasFlag openFlags oCreat) :
    devOpen device openFlags ≠ 0 := by
  have has : hasFlag openFlags (oCreat ||| oTrunc ||| oExcl ||| Fs.oAppend) = true := by
    rcases empties with trunc | creat
    · exact hasFlag_among (by decide) trunc
    · exact hasFlag_among (by decide) creat
  rw [devOpen, if_pos has]
  decide

omit [DecidableEq F] in
/-- An open of an inode that has been found. -/
theorem openNodeUses_present (sane : AllSane state.volume) (held : 0 < (state.counts node).refCount)
    (more : ∀ index, node = .device index → 1 < (state.counts node).refCount) (allowed : flagsAllowed openFlags = true)
    (notDir : ∀ ino, node = .sfs ino → hasFlag openFlags oCreat → sfsOpendir openFlags = 0 →
      (state.volume.din ino).type ≠ sfsTypeDir) : AllPresent (openNodeUses disk state node openFlags) := by
  have present := present_held held
  refine AllPresent.append ?_ (AllPresent.following fun ret opens => ?_)
  · exact AllPresent.call (inOps_all sane present (by decide) (by decide) (by decide)) AllPresent.nil
  split
  · exact vopRefDecUses_present sane more
  rename_i succeeded
  obtain rfl : ret = 0 := not_not.mp succeeded
  refine AllPresent.following fun opened raised => ?_
  have first : Steady (fun _ => True) state opened := vopOpenInc_steady raised
  split
  · rename_i empties
    have sameVolume : opened.volume = state.volume := by
      unfold vopOpenInc at raised
      rw [if_pos present] at raised
      rw [← Option.some.inj raised]
    refine AllPresent.append (AllPresent.call ?_ AllPresent.nil) (AllPresent.following fun truncated isTruncated => ?_)
    · obtain ⟨_, _, rest⟩ := Option.bind_eq_some_iff.mp opens
      cases node with
      | device index => exact absurd (Option.some.inj rest) (devOpen_refuses empties)
      | sfs ino =>
        obtain ⟨sin, isIn, rest⟩ := Option.bind_eq_some_iff.mp rest
        obtain ⟨isDir, isKind, rest⟩ := Option.bind_eq_some_iff.mp rest
        rw [← sameVolume] at isIn
        rcases first.sane sane ino sin isIn with isFile | ⟨isDirectory, _⟩
        · rw [inOps_file isIn isFile]
          decide
        · have opendir : sfsOpendir openFlags = 0 := by
            simp only [sfsGetOps, if_pos isDirectory] at isKind
            obtain rfl := Option.some.inj isKind
            exact Option.some.inj rest
          rw [sameVolume] at isIn
          have isType := notDir ino rfl
          rw [din_of isIn] at isType
          rcases empties with trunc | creat
          · have reads : openFlags &&& Fs.oAccmode = Fs.oRdonly := by
              by_contra writes
              simp [sfsOpendir, writes, eIsdir] at opendir
            simp [flagsAllowed, reads, trunc] at allowed
          · exact absurd isDirectory (isType creat opendir)
    · have second : Steady (fun _ => True) opened truncated.2 := vopTruncate_steady isTruncated trivial
      split
      · refine vfsCloseUses_present (second.sane (first.sane sane)) fun index isDevice => ?_
        have least := (first.trans second).grows node
        have two := more index isDevice
        omega
      · exact AllPresent.nil
  · exact AllPresent.nil

omit [DecidableEq F] in
theorem vfsOpenUses_present (rooted : Rooted state) (notNew : ¬ CreatesFile disk memory state files path openFlags)
    (notDir : ¬ EmptiesDirectory disk memory state files path openFlags) :
    AllPresent (vfsOpenUses disk memory state files path openFlags) := by
  unfold vfsOpenUses
  split
  · exact AllPresent.nil
  rename_i isAllowed
  have allowed : flagsAllowed openFlags = true := by simpa using isAllowed
  refine AllPresent.append (vfsLookupUses_present rooted) (AllPresent.following fun looked isLooked => ?_)
  obtain ⟨found, looked⟩ := looked
  have steady : Steady (fun _ => False) state looked := vfsLookup_steady isLooked
  cases found with
  | error code =>
    simp only [openMissingUses]
    split
    · rename_i creates
      obtain ⟨rfl, creat⟩ := creates
      refine AllPresent.append (getDeviceUses_present (steady.sane rooted.sane)) (AllPresent.following fun parent isParent => ?_)
      obtain ⟨parent, begun⟩ := parent
      cases parent with
      | error => exact AllPresent.nil
      | ok node => exact absurd ⟨allowed, creat, looked, node, begun, isLooked, isParent⟩ notNew
    · exact AllPresent.nil
  | ok node =>
    simp only
    split
    · exact AllPresent.nil
    · rename_i notExclusive
      have hands : Bumps state looked node 1 0 := vfsLookup_hands isLooked
      have refs := hands.refs
      refine openNodeUses_present (steady.sane rooted.sane) ?_ ?_ allowed ?_
      · have counted := rooted.counted node
        omega
      · rintro index rfl
        have held := rooted.devices index
        omega
      · rintro ino rfl creat opendir isDir
        exact notDir ⟨allowed, creat, fun excl => notExclusive ⟨excl, creat⟩, opendir, looked, ino, isLooked, isDir⟩

/-- An open that creates no file and empties no directory. -/
def OpensPlainly (disk : Nat → Int) (memory : Nat → Bool) (state : VfsState F) (files : F) (path : Name)
    (openFlags : BitVec 32) : Prop :=
  ∀ slot table, Fs.fileOpenBegin state.files (some files) openFlags = some (.ok slot, table) →
    ¬ CreatesFile disk memory { state with files := table } files path openFlags ∧
      ¬ EmptiesDirectory disk memory { state with files := table } files path openFlags

/-- A slot that is taken changes nothing for lookups. -/
theorem Rooted.setFile (rooted : Rooted state) (slot : Fs.Slot F) (file : Fs.File Node) :
    Rooted { state with files := state.files.setFile slot file } := by
  have same : VfsState.counts { state with files := state.files.setFile slot file } = state.counts := counts_tables rfl
  refine @Rooted.steady F state _ (fun _ => False) rooted (Steady.same (fun node => ?_) rfl rfl) fun files => ?_
  · rw [same]
  · exact (Fs.FileState.setFile_touches.tables files).1

theorem fileOpenUses_present (rooted : Rooted state) (plain : OpensPlainly disk memory state files path openFlags) :
    AllPresent (fileOpenUses disk memory state files path openFlags) := by
  refine AllPresent.following fun begun isBegun => ?_
  obtain ⟨allocated, table⟩ := begun
  cases allocated with
  | error => exact AllPresent.nil
  | ok slot =>
    obtain ⟨notNew, notDir⟩ := plain slot table isBegun
    obtain ⟨_, _, rfl⟩ := fileOpenBegin_cases isBegun
    have taken := rooted.setFile slot { state.files.file slot with status := .init, node := none }
    refine AllPresent.append (vfsOpenUses_present taken notNew notDir) (AllPresent.following fun opened isOpened => ?_)
    obtain ⟨result, looked⟩ := opened
    cases result with
    | error => exact AllPresent.nil
    | ok node =>
      simp only
      split
      · have steady : Steady _ _ looked := vfsOpen_steady isOpened
        have bumps : Bumps _ looked node 1 1 := vfsOpen_counts isOpened
        refine vopFstatUses_present (steady.sane taken.sane) (present_held ?_)
        rw [bumps.refs]
        exact Int.lt_add_one_of_le (taken.counted node)
      · exact AllPresent.nil

end Ucore.Vfs
