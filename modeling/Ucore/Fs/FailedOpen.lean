import Ucore.Fs.FileCounts
import Ucore.Fs.NodeCounts

/-!
# Opens that fail

An open that fails gives back the references, the openings and the slot that it has taken,
wherever it ends. The exception is the exit of `vfs_open` for a file that `O_EXCL` wants
not to exist: the reference that `vfs_lookup` has handed out stays.
-/

namespace Ucore.Vfs

open Volume

variable {F : Type} [DecidableEq F] (disk : Nat → Int) (memory : Nat → Bool) (state : VfsState F) (files : F)

/-- The path exists and has to be created. -/
def ExclusiveExisting (path : Name) (openFlags : BitVec 32) : Prop :=
  flagsAllowed openFlags = true ∧ hasFlag openFlags oExcl = true ∧ hasFlag openFlags oCreat = true ∧
    ∃ node after, vfsLookup disk memory state files path = some (.ok node, after)

/-- There is a free slot, and the path exists and has to be created. -/
def FileExclusiveExisting (path : Name) (openFlags : BitVec 32) : Prop :=
  ∃ slot table, Fs.fileOpenBegin state.files (some files) openFlags = some (.ok slot, table) ∧
    ExclusiveExisting disk memory { state with files := table } files path openFlags

/-- The counts of every inode and the status and the users of every slot are the same. -/
structure NoTrace (state after : VfsState F) : Prop where
  counts : after.counts = state.counts
  status : ∀ slot, (after.files.file slot).status = (state.files.file slot).status
  openCount : ∀ slot, (after.files.file slot).openCount = (state.files.file slot).openCount

variable {disk memory state files} {middle after : VfsState F} {node : Node} {openFlags : BitVec 32} {ret : Int}

omit [DecidableEq F] in
theorem SameCounts.noTrace (same : SameCounts state after) : NoTrace state after := by
  have files : ∀ slot, after.files.file slot = state.files.file slot := by
    intro slot
    simp only [Fs.FileState.file, same.files]
  exact ⟨same.counts, fun slot => by rw [files slot], fun slot => by rw [files slot]⟩

omit [DecidableEq F] in
theorem vfsClose_bumps (called : vfsClose disk state node = some after) :
    after.counts = bump state.counts node (-1) (-1) ∧ after.files.files = state.files.files := by
  obtain ⟨middle, lowered, rest⟩ := Option.bind_eq_some_iff.mp called
  have closed := (vopOpenDec_bumps lowered).trans (vopRefDec_bumps rest)
  simpa using And.intro closed.counts closed.files

omit [DecidableEq F] in
theorem vopTruncate_same {len : Int} (called : vopTruncate disk state node len = some (ret, after)) :
    SameCounts state after := by
  obtain ⟨_, _, rest⟩ := Option.bind_eq_some_iff.mp called
  cases node with
  | device => cases rest
  | sfs ino =>
    obtain ⟨sin, isIn, rest⟩ := Option.bind_eq_some_iff.mp rest
    obtain ⟨⟨code, fs, sinAfter⟩, _, isLast⟩ := Option.bind_eq_some_iff.mp rest
    obtain ⟨_, rfl⟩ := Prod.mk.inj (Option.some.inj isLast)
    apply counts_put
    · exact fun other different => Function.update_of_ne different _ _
    · simp [Mounted.put, isIn]

omit [DecidableEq F] in
/-- `vfs_open` from `vop_open` on takes over a reference: an error gives it back, and
success has opened the inode. -/
theorem openNode_counts {result : Except Int Node} (called : openNode disk state node openFlags = some (result, after)) :
    match result with
    | .ok opened => opened = node ∧ Bumps state after node 0 1
    | .error _ => Bumps state after node (-1) 0 := by
  obtain ⟨ret, _, rest⟩ := Option.bind_eq_some_iff.mp called
  split at rest
  · obtain ⟨last, lowered, same⟩ := Option.map_eq_some_iff.mp rest
    obtain ⟨rfl, rfl⟩ := Prod.mk.inj same
    exact vopRefDec_bumps lowered
  · obtain ⟨opened, raised, rest⟩ := Option.bind_eq_some_iff.mp rest
    have first := vopOpenInc_bumps raised
    split at rest
    · obtain ⟨⟨code, truncated⟩, isTruncated, rest⟩ := Option.bind_eq_some_iff.mp rest
      have same := vopTruncate_same isTruncated
      simp only at rest
      split at rest
      · obtain ⟨last, closed, isLast⟩ := Option.map_eq_some_iff.mp rest
        obtain ⟨rfl, rfl⟩ := Prod.mk.inj isLast
        obtain ⟨counts, tables⟩ := vfsClose_bumps closed
        constructor
        · rw [counts, same.counts, first.counts, bump_bump]
          rfl
        · rw [tables, same.files, first.files]
      · obtain ⟨rfl, rfl⟩ := Prod.mk.inj (Option.some.inj rest)
        exact ⟨rfl, same.counts.trans first.counts, same.files.trans first.files⟩
    · obtain ⟨rfl, rfl⟩ := Prod.mk.inj (Option.some.inj rest)
      exact ⟨rfl, first⟩

omit [DecidableEq F] in
theorem openMissing_same {path : Name} {result : Except Int Node}
    (called : openMissing disk memory state files path openFlags ret = some (result, after)) :
    (∃ code, result = .error code) ∧ SameCounts state after := by
  unfold openMissing at called
  split at called
  · obtain ⟨⟨parent, middle⟩, got, rest⟩ := Option.bind_eq_some_iff.mp called
    have hands := getDevice_hands got
    cases parent with
    | error code =>
      obtain ⟨rfl, rfl⟩ := Prod.mk.inj (Option.some.inj rest)
      exact ⟨⟨code, rfl⟩, hands⟩
    | ok => cases rest
  · obtain ⟨rfl, rfl⟩ := Prod.mk.inj (Option.some.inj called)
    exact ⟨⟨ret, rfl⟩, SameCounts.refl _⟩

omit [DecidableEq F] in
/-- What `vfs_open` does to the counts: a reference and an opening of the inode that it
opens; nothing on an error, unless the path exists and has to be created. -/
theorem vfsOpen_counts {path : Name} {result : Except Int Node}
    (called : vfsOpen disk memory state files path openFlags = some (result, after)) :
    match result with
    | .ok node => Bumps state after node 1 1
    | .error _ => ¬ ExclusiveExisting disk memory state files path openFlags ∧ SameCounts state after ∨
        ExclusiveExisting disk memory state files path openFlags ∧ ∃ node, Bumps state after node 1 0 := by
  unfold vfsOpen at called
  split at called
  · rename_i refused
    obtain ⟨rfl, rfl⟩ := Prod.mk.inj (Option.some.inj called)
    refine Or.inl ⟨?_, SameCounts.refl _⟩
    rintro ⟨allowed, _⟩
    simp [refused] at allowed
  · rename_i allowed
    have isAllowed : flagsAllowed openFlags = true := by simpa using allowed
    obtain ⟨⟨found, looked⟩, isFound, rest⟩ := Option.bind_eq_some_iff.mp called
    have hands := vfsLookup_hands isFound
    cases found with
    | error code =>
      obtain ⟨⟨_, rfl⟩, same⟩ := openMissing_same rest
      refine Or.inl ⟨?_, SameCounts.trans hands same⟩
      rintro ⟨_, _, _, node, _, isOk⟩
      simp [isFound] at isOk
    | ok node =>
      simp only at rest
      split at rest
      · rename_i exclusive
        obtain ⟨rfl, rfl⟩ := Prod.mk.inj (Option.some.inj rest)
        exact Or.inr ⟨⟨isAllowed, exclusive.1, exclusive.2, node, looked, isFound⟩, node, hands⟩
      · rename_i notExclusive
        have counts := openNode_counts rest
        cases result with
        | ok opened =>
          obtain ⟨rfl, bumps⟩ := counts
          exact Bumps.trans hands bumps
        | error code =>
          refine Or.inl ⟨?_, (Bumps.trans hands counts).same⟩
          rintro ⟨_, excl, creat, _⟩
          exact notExclusive ⟨excl, creat⟩

omit [DecidableEq F] in
/-- A failed `vfs_open` leaves no trace if and only if the path did not have to be new. -/
theorem vfsOpen_noTrace {path : Name} (called : vfsOpen disk memory state files path openFlags = some (.error ret, after)) :
    NoTrace state after ↔ ¬ ExclusiveExisting disk memory state files path openFlags := by
  rcases vfsOpen_counts called with ⟨notExclusive, same⟩ | ⟨exclusive, node, bumps⟩
  · exact iff_of_true same.noTrace notExclusive
  · refine iff_of_false (fun noTrace => ?_) (not_not_intro exclusive)
    have changes : (1 : Int) ≠ 0 := by decide
    exact bump_ne state.counts node changes (bumps.counts.symm.trans noTrace.counts)

/-! ## `file_open` -/

/-- `file_open` up to `vfs_open` fails, or takes a free slot. -/
theorem fileOpenBegin_cases {table : Fs.FileState F Node} {result : Except Int (Fs.Slot F)}
    (called : Fs.fileOpenBegin state.files (some files) openFlags = some (result, table)) :
    match result with
    | .error _ => table = state.files
    | .ok slot => (state.files.file slot).status = .none ∧ (state.files.file slot).openCount = 0 ∧
        table = state.files.setFile slot { state.files.file slot with status := .init, node := none } := by
  simp only [Fs.fileOpenBegin] at called
  split at called
  · obtain ⟨live, isLive, rest⟩ := Option.bind_eq_some_iff.mp called
    split at rest
    · obtain ⟨rfl, rfl⟩ := Prod.mk.inj (Option.some.inj rest)
      rfl
    · rename_i fd isFree
      simp only at rest
      split at rest
      · rename_i unused
        obtain ⟨rfl, rfl⟩ := Prod.mk.inj (Option.some.inj rest)
        exact ⟨(Fs.findFree_exact isFree).2, unused, rfl⟩
      · cases rest
  · obtain ⟨rfl, rfl⟩ := Prod.mk.inj (Option.some.inj called)
    rfl

/-- A slot that was taken for an open goes back. -/
theorem fdArrayFree_init {table : Fs.FileState F Node} {slot : Fs.Slot F} {file : Fs.File Node}
    (isFile : state.files.file slot = file) (taken : file.status = .init) (unused : file.openCount = 0)
    (called : Fs.fdArrayFree state.files slot = some table) :
    table = state.files.setFile slot { file with status := .none } := by
  subst isFile
  have asserted : ((state.files.file slot).status = .init ∨ (state.files.file slot).status = .closed) ∧
      (state.files.file slot).openCount = 0 := ⟨Or.inl taken, unused⟩
  have notClosed : (state.files.file slot).status ≠ .closed := by simp [taken]
  simp only [Fs.fdArrayFree, if_pos asserted, if_neg notClosed] at called
  exact (Option.some.inj called).symm

/-- An open that fails behind the slot leaves no trace if and only if `vfs_open` has left
none. -/
theorem slot_noTrace {table last : Fs.FileState F Node} {slot : Fs.Slot F}
    (free : (state.files.file slot).status = .none) (unused : (state.files.file slot).openCount = 0)
    (isTable : table = state.files.setFile slot { state.files.file slot with status := .init, node := none })
    (tables : after.files.files = table.files) (freed : Fs.fdArrayFree after.files slot = some last) :
    NoTrace state { after with files := last } ↔ after.counts = state.counts := by
  have isFile : after.files.file slot = { state.files.file slot with status := .init, node := none } := by
    have same : after.files.file slot = table.file slot := by simp only [Fs.FileState.file, tables]
    rw [same, isTable, Fs.FileState.setFile_self]
  have isLast := fdArrayFree_init isFile rfl unused freed
  have counts : VfsState.counts { after with files := last } = after.counts := by
    subst isLast
    rfl
  have slots : ∀ other, last.file other =
      if other = slot then { state.files.file slot with status := .none, node := none } else state.files.file other := by
    intro other
    rw [isLast, Fs.FileState.setFile_file]
    by_cases same : other = slot
    · simp [same]
    · have stays : after.files.file other = table.file other := by simp only [Fs.FileState.file, tables]
      rw [if_neg same, if_neg same, stays, isTable, Fs.FileState.setFile_file, if_neg same]
  constructor
  · exact fun noTrace => counts.symm.trans noTrace.counts
  · intro same
    refine ⟨counts.trans same, ?_, ?_⟩
    · intro other
      simp only [slots]
      split
      · rename_i isSlot
        rw [isSlot, free]
      · rfl
    · intro other
      simp only [slots]
      split
      · rename_i isSlot
        rw [isSlot]
      · rfl

theorem fillSlot_ok {slot : Fs.Slot F} {result : Except Int Nat}
    (called : fillSlot state slot node openFlags = some (result, after)) : ∃ fd, result = .ok fd := by
  obtain ⟨pos, _, rest⟩ := Option.bind_eq_some_iff.mp called
  obtain ⟨table, _, rest⟩ := Option.bind_eq_some_iff.mp rest
  obtain ⟨rfl, _⟩ := Prod.mk.inj (Option.some.inj rest)
  exact ⟨_, rfl⟩

/-- A failed `file_open` leaves no trace if and only if it had no slot or the path did not
have to be new. -/
theorem fileOpen_noTrace {path : Name}
    (called : fileOpen disk memory state files path openFlags = some (.error ret, after)) :
    NoTrace state after ↔ ¬ FileExclusiveExisting disk memory state files path openFlags := by
  obtain ⟨⟨allocated, table⟩, begun, rest⟩ := Option.bind_eq_some_iff.mp called
  have cases := fileOpenBegin_cases begun
  cases allocated with
  | error code =>
    obtain rfl : table = state.files := cases
    obtain ⟨_, rfl⟩ := Prod.mk.inj (Option.some.inj rest)
    refine iff_of_true (SameCounts.refl state).noTrace ?_
    rintro ⟨slot, table, isOk, _⟩
    simp [begun] at isOk
  | ok slot =>
    obtain ⟨free, unused, isTable⟩ := cases
    obtain ⟨⟨opened, looked⟩, isOpened, rest⟩ := Option.bind_eq_some_iff.mp rest
    have begins : FileExclusiveExisting disk memory state files path openFlags ↔
        ExclusiveExisting disk memory { state with files := table } files path openFlags := by
      constructor
      · rintro ⟨other, otherTable, isOk, exclusive⟩
        obtain ⟨_, rfl⟩ := Prod.mk.inj (Option.some.inj (begun.symm.trans isOk))
        exact exclusive
      · exact fun exclusive => ⟨slot, table, begun, exclusive⟩
    cases opened with
    | ok node =>
      obtain ⟨_, isOk⟩ := fillSlot_ok rest
      cases isOk
    | error code =>
      obtain ⟨last, freed, isLast⟩ := Option.map_eq_some_iff.mp rest
      obtain ⟨_, rfl⟩ := Prod.mk.inj isLast
      have tables : looked.files.files = table.files := by
        rcases vfsOpen_counts isOpened with ⟨_, same⟩ | ⟨_, _, bumps⟩
        · exact same.files
        · exact bumps.files
      have start : VfsState.counts { state with files := table } = state.counts := by
        subst isTable
        rfl
      rw [slot_noTrace free unused isTable tables freed, begins]
      rw [← vfsOpen_noTrace isOpened]
      constructor
      · intro same
        have counts : looked.counts = VfsState.counts { state with files := table } := same.trans start.symm
        exact SameCounts.noTrace ⟨counts, tables⟩
      · exact fun noTrace => noTrace.counts.trans start

/-- When `vfs_open` or `file_open` fails, every count and every slot is as before, if and
only if the path did not exist where `O_EXCL` and `O_CREAT` want it to be new. -/
theorem failed_open_no_trace (disk : Nat → Int) (memory : Nat → Bool) (state : VfsState F) (files : F) (path : Name)
    (openFlags : BitVec 32) :
    (∀ ret after, vfsOpen disk memory state files path openFlags = some (.error ret, after) →
      (NoTrace state after ↔ ¬ ExclusiveExisting disk memory state files path openFlags)) ∧
    ∀ ret after, fileOpen disk memory state files path openFlags = some (.error ret, after) →
      (NoTrace state after ↔ ¬ FileExclusiveExisting disk memory state files path openFlags) :=
  ⟨fun _ _ => vfsOpen_noTrace, fun _ _ => fileOpen_noTrace⟩

/-! ## A small tree -/

/-- A directory with an entry in each of some blocks. -/
def smallDir (blocks : List Nat) : DiskInode where
  size := blocks.length * sfsBlksize
  type := sfsTypeDir
  nlinks := 1
  blocks := blocks.length
  direct := fun index => blocks.getD index 0
  indirect := 0

/-- An empty file. -/
def smallFile : DiskInode :=
  { size := 0, type := sfsTypeFile, nlinks := 1, blocks := 0, direct := fun _ => 0, indirect := 0 }

/-- The block of an entry with a name of one or two bytes. -/
def smallEntry (ino first second : Nat) : Block := fun index =>
  if index = 0 then ino else if index = 1 then first + 256 * second else 0

/-- The root holds the empty file `a` in block 5 and the directory `d` in block 7. -/
def smallDisk : Nat → Block
  | 1 => (smallDir [3, 4, 6, 8]).words
  | 3 => smallEntry 1 46 0
  | 4 => smallEntry 1 46 46
  | 5 => smallFile.words
  | 6 => smallEntry 5 97 0
  | 7 => (smallDir [9, 10]).words
  | 8 => smallEntry 7 100 0
  | 9 => smallEntry 7 46 0
  | 10 => smallEntry 1 46 46
  | _ => fun _ => 0

/-- The tree on a volume of 32 blocks, with its root in memory. -/
def smallTree : Mounted where
  fs := {
    super := { magic := 0x2f8dbe2a, blocks := 32, unusedBlocks := 21, info := fun _ => 0 }
    superDirty := false
    freemap := { nbits := 32, nwords := 1, map := fun _ => 0xFFFFF800#32, covered := oneWord_covers }
    disk := smallDisk
    calls := 0 }
  inodes := fun ino =>
    if ino = 1 then some { din := smallDir [3, 4, 6, 8], ino := 1, dirty := false, reclaimCount := 1 } else none
  files := {1, 5, 7}

/-- The byte `'d'`. -/
def letterD : NameByte := ⟨100, by decide⟩

/-- The device `disk0`, with the tree on it. -/
def smallVdev : VfsDev where
  devname := [letterD, ⟨105, by decide⟩, ⟨115, by decide⟩, ⟨107, by decide⟩, ⟨48, by decide⟩]
  devnode := some 0
  fs := true
  mountable := true

/-- A process whose current directory is the root, which is the root of the boot file
system as well. -/
def smallState : VfsState Unit where
  volume := smallTree
  files := {
    files := fun _ => { pwd := some (.sfs 1), fdArray := Fs.fdArrayInit, filesCount := 1 }
    inodes := fun node => if node = .sfs 1 then ⟨2, 0⟩ else ⟨0, 0⟩
    opened := 0
    ended := [] }
  allocs := 0
  devices := fun _ => { dBlocks := 32, dBlocksize := 4096, dOpen := fun _ => 0 }
  vdevList := [smallVdev]
  bootfsNode := some (.sfs 1)

/-- The name `a`. -/
def nameA : Name := [⟨97, by decide⟩]

/-- The name `b`, which the tree does not have. -/
def nameB : Name := [⟨98, by decide⟩]

/-- The open of a path that does not exist fails without a trace. -/
theorem failed_open_missing :
    ∃ opened left, vfsOpen (fun _ => 0) (fun _ => true) smallState () nameB 0 = some (.error (-eNoent), opened) ∧
      fileOpen (fun _ => 0) (fun _ => true) smallState () nameB 0 = some (.error (-eNoent), left) ∧
      NoTrace smallState opened ∧ NoTrace smallState left := by
  have opens : (vfsOpen (fun _ => 0) (fun _ => true) smallState () nameB 0).map Prod.fst =
      some (.error (-eNoent)) := by
    decide +kernel
  have fileOpens : (fileOpen (fun _ => 0) (fun _ => true) smallState () nameB 0).map Prod.fst =
      some (.error (-eNoent)) := by
    decide +kernel
  obtain ⟨⟨_, opened⟩, isOpened, rfl⟩ := Option.map_eq_some_iff.mp opens
  obtain ⟨⟨_, left⟩, isLeft, rfl⟩ := Option.map_eq_some_iff.mp fileOpens
  obtain ⟨vfs, file⟩ := failed_open_no_trace (fun _ => 0) (fun _ => true) smallState () nameB 0
  refine ⟨opened, left, isOpened, isLeft, (vfs _ _ isOpened).mpr ?_, (file _ _ isLeft).mpr ?_⟩
  · rintro ⟨_, exclusive, _⟩
    simp [hasFlag] at exclusive
  · rintro ⟨_, _, _, _, exclusive, _⟩
    simp [hasFlag] at exclusive

/-- The open of `a`, which exists and has to be new, keeps a reference to it. -/
theorem exclusive_open_leaks :
    ∃ after, vfsOpen (fun _ => 0) (fun _ => true) smallState () nameA (oCreat ||| oExcl) =
        some (.error (-eExists), after) ∧
      (smallState.counts (.sfs 5)).refCount = 0 ∧ (after.counts (.sfs 5)).refCount = 1 ∧
      ¬ NoTrace smallState after := by
  have opens : (vfsOpen (fun _ => 0) (fun _ => true) smallState () nameA (oCreat ||| oExcl)).map
      (fun result => (result.1, (result.2.counts (.sfs 5)).refCount)) = some (.error (-eExists), 1) := by
    decide +kernel
  obtain ⟨⟨_, after⟩, isAfter, results⟩ := Option.map_eq_some_iff.mp opens
  obtain ⟨rfl, refs⟩ := Prod.mk.inj results
  have before : (smallState.counts (.sfs 5)).refCount = 0 := by decide
  refine ⟨after, isAfter, before, refs, fun noTrace => ?_⟩
  rw [noTrace.counts, before] at refs
  cases refs

end Ucore.Vfs
