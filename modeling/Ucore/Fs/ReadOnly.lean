import Ucore.Fs.CallsKeepFiles
import Ucore.Fs.FileCounts
import Ucore.Fs.PathWalk
import Ucore.Library.Transition

/-!
# Descriptors for reading

A process opens files for reading only, and reads, writes, seeks, duplicates and closes its
descriptors. `file_write` refuses them. An open with `O_CREAT` empties a file that is there,
and a seek beyond the end makes a file longer: without these two no file changes.
-/

namespace Ucore.Vfs

open Volume Transition

variable {F : Type} [DecidableEq F]

/-- An open for reading only, or a call on a descriptor. -/
def ReadOnlyCall : FileCall → Prop
  | .fileOpen _ openFlags => openFlags &&& Fs.oAccmode = Fs.oRdonly
  | _ => True

/-- An open that empties a file that is there, or a seek beyond the end of a file. -/
def Resizes (disk : Nat → Int) (memory : Nat → Bool) (files : F) (state : VfsState F) : FileCall → Prop
  | .fileOpen path openFlags => ∃ slot table,
      Fs.fileOpenBegin state.files (some files) openFlags = some (.ok slot, table) ∧ flagsAllowed openFlags = true ∧
        EmptiesNode disk memory { state with files := table } files path openFlags
  | .fileSeek fd pos whence => ∃ slot ino target, Fs.fd2file state.files (some files) fd = some (.ok slot) ∧
      (state.files.file slot).node = some (.sfs ino) ∧
        Fs.seekTarget (state.files.file slot) pos whence (.ok (state.volume.din ino).size) = .ok target ∧
          ((state.volume.din ino).size : Int) < target ∧ target < sfsMaxFileSize
  | _ => False

/-- A call for reading that resizes no file. -/
def KeepsSizes (disk : Nat → Int) (memory : Nat → Bool) (files : F) (state : VfsState F) (call : FileCall) : Prop :=
  ReadOnlyCall call ∧ ¬ Resizes disk memory files state call

/-- No open descriptor of a table is for writing. -/
def NoWriters (files : F) (table : Fs.FileState F Node) : Prop :=
  ∀ fd, (table.file (files, fd)).status = .opened → (table.file (files, fd)).writable = false

variable {disk : Nat → Int} {memory : Nat → Bool} {state after : VfsState F} {files : F}
  {table next : Fs.FileState F Node} {slot : Fs.Slot F} {file : Fs.File Node} {fd ret : Int}

/-! ## Slots -/

omit [DecidableEq F] in
theorem NoWriters.same (noWriters : NoWriters files table) (same : next.files = table.files) :
    NoWriters files next := by
  intro fd
  have isFile : next.file (files, fd) = table.file (files, fd) := by simp only [Fs.FileState.file, same]
  rw [isFile]
  exact noWriters fd

theorem NoWriters.setFile (noWriters : NoWriters files table)
    (here : slot.1 = files → file.status = .opened → file.writable = false) :
    NoWriters files (table.setFile slot file) := by
  intro fd
  rw [Fs.FileState.setFile_file]
  split
  · rename_i same
    exact here (congrArg Prod.fst same).symm
  · exact noWriters fd

/-- A slot that is closed and freed keeps the files. -/
theorem fdArrayFree_keeps (called : fdArrayFree disk state slot = some after) (noWriters : NoWriters files state.files) :
    Stays state.volume after.volume ∧ NoWriters files after.files := by
  unfold fdArrayFree at called
  simp only at called
  split at called
  · obtain ⟨middle, closed, rfl⟩ := Option.map_eq_some_iff.mp called
    have closes : Stays state.volume middle.volume ∧ middle.files.files = state.files.files := by
      unfold closeNode at closed
      split at closed
      · obtain ⟨node, _, rest⟩ := Option.bind_eq_some_iff.mp closed
        exact ⟨vfsClose_stays rest, (vfsClose_bumps rest).2⟩
      · rw [← Option.some.inj closed]
        exact ⟨Stays.refl _, rfl⟩
    refine ⟨closes.1, (noWriters.same closes.2).setFile ?_⟩
    rintro _ ⟨⟩
  · cases called

theorem dropUser_keeps (called : dropUser disk state slot file = some after) (noWriters : NoWriters files state.files)
    (here : slot.1 = files → file.status = .opened → file.writable = false) :
    Stays state.volume after.volume ∧ NoWriters files after.files := by
  unfold dropUser at called
  simp only at called
  have dropped : NoWriters files (state.files.setFile slot { file with openCount := file.openCount - 1 }) :=
    noWriters.setFile here
  split at called
  · have freed := fdArrayFree_keeps called dropped
    exact freed
  · rw [← Option.some.inj called]
    exact ⟨Stays.refl _, dropped⟩

theorem fdArrayRelease_keeps (called : fdArrayRelease disk state slot = some after)
    (noWriters : NoWriters files state.files) : Stays state.volume after.volume ∧ NoWriters files after.files := by
  unfold fdArrayRelease at called
  simp only at called
  split at called
  · apply dropUser_keeps called noWriters
    rintro rfl
    exact noWriters slot.2
  · cases called

theorem fdArrayClose_keeps (called : fdArrayClose disk state slot = some after)
    (noWriters : NoWriters files state.files) : Stays state.volume after.volume ∧ NoWriters files after.files := by
  unfold fdArrayClose at called
  simp only at called
  split at called
  · apply dropUser_keeps called noWriters
    rintro _ ⟨⟩
  · cases called

/-- A call on a descriptor that is refused changes no slot, and another one adds a user. -/
theorem acquireFd_cases {permitted : Fs.File Node → Bool} {acquired : Except Int (Fs.Slot F)}
    (called : Fs.acquireFd table (some files) fd permitted = some (acquired, next)) :
    match acquired with
    | .error _ => next = table
    | .ok slot => Fs.fd2file table (some files) fd = some (.ok slot) ∧ permitted (table.file slot) = true ∧
        next = table.setFile slot { table.file slot with openCount := (table.file slot).openCount + 1 } := by
  obtain ⟨found, isFound, rest⟩ := Option.bind_eq_some_iff.mp called
  cases found with
  | error code =>
    obtain ⟨rfl, rfl⟩ := Prod.mk.inj (Option.some.inj rest)
    rfl
  | ok slot =>
    simp only at rest
    split at rest
    · rename_i isPermitted
      obtain ⟨last, isAcquired, same⟩ := Option.map_eq_some_iff.mp rest
      obtain ⟨rfl, rfl⟩ := Prod.mk.inj same
      refine ⟨isFound, isPermitted, ?_⟩
      unfold Fs.fdArrayAcquire at isAcquired
      simp only at isAcquired
      split at isAcquired
      · exact (Option.some.inj isAcquired).symm
      · cases isAcquired
    · obtain ⟨rfl, rfl⟩ := Prod.mk.inj (Option.some.inj rest)
      rfl

/-- A user more leaves a descriptor for reading. -/
theorem acquireFd_noWriters {permitted : Fs.File Node → Bool} {acquired : Except Int (Fs.Slot F)}
    (called : Fs.acquireFd table (some files) fd permitted = some (acquired, next)) (noWriters : NoWriters files table) :
    NoWriters files next := by
  have cases := acquireFd_cases called
  cases acquired with
  | error code => exact cases ▸ noWriters
  | ok slot =>
    obtain ⟨isFound, _, rfl⟩ := cases
    obtain ⟨rfl, _⟩ := Fs.fd2file_slot isFound
    exact noWriters.setFile fun _ => noWriters fd.toNat

/-! ## Calls -/

theorem fileClose_keeps (called : fileClose disk state files fd = some (ret, after))
    (noWriters : NoWriters files state.files) : Stays state.volume after.volume ∧ NoWriters files after.files := by
  obtain ⟨found, _, rest⟩ := Option.bind_eq_some_iff.mp called
  cases found with
  | error code =>
    obtain ⟨_, rfl⟩ := Prod.mk.inj (Option.some.inj rest)
    exact ⟨Stays.refl _, noWriters⟩
  | ok slot =>
    obtain ⟨last, closed, same⟩ := Option.map_eq_some_iff.mp rest
    obtain ⟨_, rfl⟩ := Prod.mk.inj same
    exact fdArrayClose_keeps closed noWriters

/-- A slot that is taken is not open yet. -/
theorem fdArrayAlloc_noWriters {allocated : Except Int (Fs.Slot F)}
    (called : Fs.fdArrayAlloc table (some files) fd = some (allocated, next)) (noWriters : NoWriters files table) :
    NoWriters files next := by
  obtain ⟨live, _, rest⟩ := Option.bind_eq_some_iff.mp called
  split at rest
  · obtain ⟨_, rfl⟩ := Prod.mk.inj (Option.some.inj rest)
    exact noWriters
  · simp only at rest
    split at rest
    · obtain ⟨_, rfl⟩ := Prod.mk.inj (Option.some.inj rest)
      apply noWriters.setFile
      rintro _ ⟨⟩
    · cases rest

/-- A slot that opens is as writable as it was. -/
theorem fdArrayOpen_noWriters (called : Fs.fdArrayOpen table slot = some next) (noWriters : NoWriters files table)
    (here : slot.1 = files → (table.file slot).writable = false) : NoWriters files next := by
  unfold Fs.fdArrayOpen at called
  simp only at called
  split at called
  · rw [← Option.some.inj called]
    exact noWriters.setFile fun same _ => here same
  · cases called

theorem fileDup_keeps {fd1 fd2 : Int} {result : Except Int Nat}
    (called : fileDup state files fd1 fd2 = some (result, after)) (noWriters : NoWriters files state.files) :
    Stays state.volume after.volume ∧ NoWriters files after.files := by
  obtain ⟨⟨ret, table⟩, dups, rest⟩ := Option.bind_eq_some_iff.mp called
  obtain ⟨_, rfl⟩ := Prod.mk.inj (Option.some.inj rest)
  refine ⟨Stays.refl _, ?_⟩
  obtain ⟨found, isFound, rest⟩ := Option.bind_eq_some_iff.mp dups
  cases found with
  | error code =>
    obtain ⟨_, rfl⟩ := Prod.mk.inj (Option.some.inj rest)
    exact noWriters
  | ok source =>
    obtain ⟨⟨allocated, taken⟩, isTaken, rest⟩ := Option.bind_eq_some_iff.mp rest
    have kept := fdArrayAlloc_noWriters isTaken noWriters
    cases allocated with
    | error code =>
      obtain ⟨_, rfl⟩ := Prod.mk.inj (Option.some.inj rest)
      exact kept
    | ok target =>
      obtain ⟨last, dup, same⟩ := Option.map_eq_some_iff.mp rest
      obtain ⟨_, rfl⟩ := Prod.mk.inj same
      obtain ⟨inProcess, _⟩ := Fs.fd2file_slot isFound
      unfold Fs.fdArrayDup at dup
      simp only at dup
      split at dup
      · rename_i asserted
        obtain ⟨node, _, rest⟩ := Option.bind_eq_some_iff.mp dup
        have reads : (taken.file source).writable = false := by
          subst inProcess
          exact kept fd1.toNat asserted.2
        apply fdArrayOpen_noWriters rest
        · exact (kept.same rfl).setFile fun _ _ => reads
        · intro _
          rw [Fs.FileState.setFile_self]
          exact reads
      · cases dup

/-- A read finds the file as long as it is. -/
theorem sfsIoNolock_reads {sin sinAfter : SfsInode} {offset : Int} {len copied : Nat}
    (called : sfsIoNolock sin offset len false = some (ret, copied, sinAfter)) : sinAfter = sin := by
  unfold sfsIoNolock at called
  simp only [true_and] at called
  split at called
  · cases called
  split at called
  · exact (Prod.mk.inj (Prod.mk.inj (Option.some.inj called)).2).2.symm
  split at called
  · exact (Prod.mk.inj (Prod.mk.inj (Option.some.inj called)).2).2.symm
  split at called
  · exact (Prod.mk.inj (Prod.mk.inj (Option.some.inj called)).2).2.symm
  · rename_i inside
    obtain rfl := (Prod.mk.inj (Prod.mk.inj (Option.some.inj called)).2).2
    unfold extend
    rw [if_neg (by omega)]

omit [DecidableEq F] in
theorem vopIo_reads {node : Node} {offset : Int} {len copied : Nat}
    (called : vopIo state node offset len false = some (ret, copied, after)) :
    Stays state.volume after.volume ∧ after.files = state.files := by
  obtain ⟨_, _, rest⟩ := Option.bind_eq_some_iff.mp called
  cases node with
  | device => cases rest
  | sfs ino =>
    obtain ⟨sin, isIn, rest⟩ := Option.bind_eq_some_iff.mp rest
    split at rest
    · obtain ⟨⟨code, amount, sinAfter⟩, isIo, rest⟩ := Option.bind_eq_some_iff.mp rest
      obtain ⟨_, same⟩ := Prod.mk.inj (Option.some.inj rest)
      obtain ⟨_, rfl⟩ := Prod.mk.inj same
      obtain rfl := sfsIoNolock_reads isIo
      exact ⟨stays_fields isIn rfl rfl rfl, rfl⟩
    · cases rest

theorem moved_keeps (slot : Fs.Slot F) (copied : Nat) (noWriters : NoWriters files state.files) :
    (moved state slot copied).volume = state.volume ∧ NoWriters files (moved state slot copied).files := by
  unfold moved
  simp only
  split
  · refine ⟨rfl, noWriters.setFile ?_⟩
    rintro rfl
    exact noWriters slot.2
  · exact ⟨rfl, noWriters⟩

theorem fileRead_keeps {len copied : Nat} (called : fileRead disk state files fd len = some (ret, copied, after))
    (noWriters : NoWriters files state.files) : Stays state.volume after.volume ∧ NoWriters files after.files := by
  obtain ⟨⟨acquired, table⟩, begun, rest⟩ := Option.bind_eq_some_iff.mp called
  have kept := acquireFd_noWriters begun noWriters
  cases acquired with
  | error code =>
    obtain ⟨_, same⟩ := Prod.mk.inj (Option.some.inj rest)
    obtain ⟨_, rfl⟩ := Prod.mk.inj same
    exact ⟨Stays.refl _, kept⟩
  | ok slot =>
    obtain ⟨node, _, rest⟩ := Option.bind_eq_some_iff.mp rest
    obtain ⟨⟨code, amount, read⟩, isRead, rest⟩ := Option.bind_eq_some_iff.mp rest
    obtain ⟨last, released, same⟩ := Option.map_eq_some_iff.mp rest
    obtain ⟨_, same⟩ := Prod.mk.inj same
    obtain ⟨_, rfl⟩ := Prod.mk.inj same
    obtain ⟨reads, sameTable⟩ := vopIo_reads isRead
    obtain ⟨sameVolume, movedWriters⟩ := moved_keeps slot amount (kept.same (congrArg Fs.FileState.files sameTable))
    obtain ⟨releases, lastWriters⟩ := fdArrayRelease_keeps released movedWriters
    rw [sameVolume] at releases
    exact ⟨Stays.trans reads releases, lastWriters⟩

/-- A descriptor for reading is refused. -/
theorem fileWrite_refused {len copied : Nat} (called : fileWrite disk state files fd len = some (ret, copied, after))
    (noWriters : NoWriters files state.files) : after = state := by
  obtain ⟨⟨acquired, table⟩, begun, rest⟩ := Option.bind_eq_some_iff.mp called
  have cases := acquireFd_cases begun
  cases acquired with
  | error code =>
    obtain ⟨_, same⟩ := Prod.mk.inj (Option.some.inj rest)
    obtain ⟨_, rfl⟩ := Prod.mk.inj same
    obtain rfl : table = state.files := cases
    rfl
  | ok slot =>
    obtain ⟨isFound, writable, _⟩ := cases
    obtain ⟨rfl, isOpen, _⟩ := Fs.fd2file_slot isFound
    have reads : (state.files.file (files, fd.toNat)).writable = false := noWriters fd.toNat isOpen
    rw [reads] at writable
    cases writable

omit [DecidableEq F] in
/-- A seek that ends in the file or is refused keeps it. -/
theorem vopTryseek_stays {ino : Nat} {pos : Int} (called : vopTryseek disk state (.sfs ino) pos = some (ret, after))
    (inside : pos < sfsMaxFileSize → pos ≤ (state.volume.din ino).size) :
    Stays state.volume after.volume ∧ after.files = state.files := by
  obtain ⟨_, _, rest⟩ := Option.bind_eq_some_iff.mp called
  obtain ⟨sin, isIn, rest⟩ := Option.bind_eq_some_iff.mp rest
  split at rest
  · obtain ⟨⟨code, fs, sinAfter⟩, seeks, rest⟩ := Option.bind_eq_some_iff.mp rest
    obtain ⟨_, rfl⟩ := Prod.mk.inj (Option.some.inj rest)
    rw [din_of isIn] at inside
    have same : fs = state.volume.fs ∧ sinAfter = sin := by
      unfold sfsTryseek at seeks
      split at seeks
      · obtain ⟨_, rfl, rfl⟩ := seeks
        exact ⟨rfl, rfl⟩
      · rename_i legal
        rw [if_neg (by omega)] at seeks
        obtain ⟨_, rfl, rfl⟩ := seeks
        exact ⟨rfl, rfl⟩
    obtain ⟨rfl, rfl⟩ := same
    exact ⟨stays_fields isIn rfl rfl rfl, rfl⟩
  · cases rest

omit [DecidableEq F] in
/-- The target of a seek uses the size of the file at most. -/
theorem seekPos_target {file : Fs.File Node} {ino : Nat} {pos whence target : Int}
    (called : seekPos state file (.sfs ino) pos whence = some (.ok target)) :
    Fs.seekTarget file pos whence (.ok (state.volume.din ino).size) = .ok target := by
  unfold seekPos at called
  split at called
  · obtain ⟨size, isSize, same⟩ := Option.map_eq_some_iff.mp called
    obtain ⟨_, _, rest⟩ := Option.bind_eq_some_iff.mp isSize
    obtain ⟨sin, isIn, rfl⟩ := Option.map_eq_some_iff.mp rest
    rw [din_of isIn]
    exact same
  · rename_i notEnd
    have same := Option.some.inj called
    unfold Fs.seekTarget at same ⊢
    have isNotEnd : whence ≠ 2 := notEnd
    simp only [isNotEnd, if_false] at same ⊢
    exact same

theorem fileSeek_keeps {pos whence : Int} (called : fileSeek disk state files fd pos whence = some (ret, after))
    (noWriters : NoWriters files state.files) (harmless : ¬ Resizes disk memory files state (.fileSeek fd pos whence)) :
    Stays state.volume after.volume ∧ NoWriters files after.files := by
  obtain ⟨⟨acquired, table⟩, begun, rest⟩ := Option.bind_eq_some_iff.mp called
  have kept := acquireFd_noWriters begun noWriters
  have cases := acquireFd_cases begun
  cases acquired with
  | error code =>
    obtain ⟨_, rfl⟩ := Prod.mk.inj (Option.some.inj rest)
    exact ⟨Stays.refl _, kept⟩
  | ok slot =>
    obtain ⟨isFound, _, isTable⟩ := cases
    obtain ⟨node, isNode, rest⟩ := Option.bind_eq_some_iff.mp rest
    obtain ⟨target, isTarget, rest⟩ := Option.bind_eq_some_iff.mp rest
    obtain ⟨⟨code, sought⟩, seeks, rest⟩ := Option.bind_eq_some_iff.mp rest
    obtain ⟨last, released, same⟩ := Option.map_eq_some_iff.mp rest
    obtain ⟨_, rfl⟩ := Prod.mk.inj same
    have soughtKeeps : Stays state.volume sought.volume ∧ NoWriters files sought.files := by
      cases target with
      | error refused =>
        obtain ⟨_, rfl⟩ := Prod.mk.inj (Option.some.inj seeks)
        exact ⟨Stays.refl _, kept⟩
      | ok target =>
        obtain ⟨⟨outcome, tried⟩, isTried, ends⟩ := Option.bind_eq_some_iff.mp seeks
        cases node with
        | device =>
          obtain ⟨_, _, rest⟩ := Option.bind_eq_some_iff.mp isTried
          cases rest
        | sfs ino =>
          have sameFile : table.file slot =
              { state.files.file slot with openCount := (state.files.file slot).openCount + 1 } := by
            rw [isTable, Fs.FileState.setFile_self]
          obtain ⟨stays, sameTable⟩ := vopTryseek_stays isTried fun below => by
            by_contra beyond
            apply harmless
            have holds : (table.file slot).node = some (.sfs ino) := isNode
            have used := seekPos_target isTarget
            change Fs.seekTarget (table.file slot) pos whence (.ok (state.volume.din ino).size) = .ok target at used
            rw [sameFile] at holds used
            exact ⟨slot, ino, target, isFound, holds, used, by simpa using beyond, below⟩
          have triedWriters : NoWriters files tried.files := kept.same (congrArg Fs.FileState.files sameTable)
          simp only at ends
          split at ends
          · obtain ⟨_, rfl⟩ := Prod.mk.inj (Option.some.inj ends)
            refine ⟨stays, triedWriters.setFile ?_⟩
            rintro rfl
            exact triedWriters slot.2
          · obtain ⟨_, rfl⟩ := Prod.mk.inj (Option.some.inj ends)
            exact ⟨stays, triedWriters⟩
    obtain ⟨releases, lastWriters⟩ := fdArrayRelease_keeps released soughtKeeps.2
    exact ⟨soughtKeeps.1.trans releases, lastWriters⟩

/-- An open for reading that empties no file fills a slot for reading. -/
theorem fileOpen_keeps {path : Name} {openFlags : BitVec 32} {result : Except Int Nat}
    (called : fileOpen disk memory state files path openFlags = some (result, after))
    (reads : openFlags &&& Fs.oAccmode = Fs.oRdonly) (noWriters : NoWriters files state.files)
    (harmless : ¬ Resizes disk memory files state (.fileOpen path openFlags)) :
    Stays state.volume after.volume ∧ NoWriters files after.files := by
  obtain ⟨⟨allocated, table⟩, begun, rest⟩ := Option.bind_eq_some_iff.mp called
  have cases := fileOpenBegin_cases begun
  cases allocated with
  | error code =>
    obtain rfl : table = state.files := cases
    obtain ⟨_, rfl⟩ := Prod.mk.inj (Option.some.inj rest)
    exact ⟨Stays.refl _, noWriters⟩
  | ok slot =>
    obtain ⟨_, _, isTable⟩ := cases
    have taken : NoWriters files table := by
      rw [isTable]
      apply noWriters.setFile
      rintro _ ⟨⟩
    obtain ⟨⟨opened, looked⟩, isOpened, rest⟩ := Option.bind_eq_some_iff.mp rest
    have opens := vfsOpen_stays isOpened fun allowed empties => harmless ⟨slot, table, begun, allowed, empties⟩
    have tables : looked.files.files = table.files := by
      have counts := vfsOpen_counts isOpened
      cases opened with
      | ok node => exact counts.files
      | error code =>
        rcases counts with ⟨_, same⟩ | ⟨_, _, bumps⟩
        · exact same.files
        · exact bumps.files
    have lookedWriters : NoWriters files looked.files := taken.same tables
    cases opened with
    | error code =>
      obtain ⟨last, freed, same⟩ := Option.map_eq_some_iff.mp rest
      obtain ⟨_, rfl⟩ := Prod.mk.inj same
      have isFile : looked.files.file slot = { state.files.file slot with status := .init, node := none } := by
        have sameFile : looked.files.file slot = table.file slot := by simp only [Fs.FileState.file, tables]
        rw [sameFile, isTable, Fs.FileState.setFile_self]
      obtain ⟨_, unused, _⟩ := fileOpenBegin_cases begun
      rw [fdArrayFree_init isFile rfl unused freed]
      refine ⟨opens, lookedWriters.setFile ?_⟩
      rintro _ ⟨⟩
    | ok node =>
      obtain ⟨pos, _, rest⟩ := Option.bind_eq_some_iff.mp rest
      obtain ⟨last, isOpen, rest⟩ := Option.bind_eq_some_iff.mp rest
      obtain ⟨_, rfl⟩ := Prod.mk.inj (Option.some.inj rest)
      have readsOnly : ∀ opening, (filledFile (looked.files.file slot) node openFlags pos opening).writable = false := by
        intro opening
        simp only [filledFile, reads]
        decide
      refine ⟨opens, fdArrayOpen_noWriters isOpen ((lookedWriters.same rfl).setFile fun _ _ => readsOnly _) ?_⟩
      intro _
      rw [Fs.FileState.setFile_self]
      exact readsOnly _

/-- Every call for reading that resizes no file keeps all of them. -/
theorem fileCall_keeps {call : FileCall} (taken : fileCall disk memory state files call = some after)
    (noWriters : NoWriters files state.files) (keeps : KeepsSizes disk memory files state call) :
    Stays state.volume after.volume ∧ NoWriters files after.files := by
  obtain ⟨reads, harmless⟩ := keeps
  cases call with
  | fileOpen path openFlags =>
    obtain ⟨⟨result, last⟩, called, rfl⟩ := Option.map_eq_some_iff.mp taken
    exact fileOpen_keeps called reads noWriters harmless
  | fileRead fd len =>
    obtain ⟨⟨ret, copied, last⟩, called, rfl⟩ := Option.map_eq_some_iff.mp taken
    exact fileRead_keeps called noWriters
  | fileWrite fd len =>
    obtain ⟨⟨ret, copied, last⟩, called, rfl⟩ := Option.map_eq_some_iff.mp taken
    obtain rfl : last = state := fileWrite_refused called noWriters
    exact ⟨Stays.refl _, noWriters⟩
  | fileSeek fd pos whence =>
    obtain ⟨⟨ret, last⟩, called, rfl⟩ := Option.map_eq_some_iff.mp taken
    exact fileSeek_keeps called noWriters harmless
  | fileDup fd1 fd2 =>
    obtain ⟨⟨ret, last⟩, called, rfl⟩ := Option.map_eq_some_iff.mp taken
    exact fileDup_keeps called noWriters
  | fileClose fd =>
    obtain ⟨⟨ret, last⟩, called, rfl⟩ := Option.map_eq_some_iff.mp taken
    exact fileClose_keeps called noWriters

/-! ## Runs -/

/-- In a run of calls for reading that resizes no file, every file keeps its size, its blocks
and what is in them. -/
theorem read_only_keeps_files (disk : Nat → Int) (memory : Nat → Bool) (files : F) (start state : VfsState F)
    (quiet : Quiet start.volume) (noWriters : NoWriters files start.files)
    (reached : Reaches (fun state call => fileCall disk memory state files call) (KeepsSizes disk memory files) start
      state) :
    ∀ ino ∈ start.volume.files, state.volume.view ino = start.volume.view ino := by
  have kept : Stays start.volume state.volume ∧ NoWriters files state.files := by
    refine @Reaches.invariant _ _ _ _ _
      (fun state => Stays start.volume state.volume ∧ NoWriters files state.files) ?_ ?_ _ reached
    · exact ⟨Stays.refl _, noWriters⟩
    · rintro middle call next ⟨stays, writers⟩ allowed taken
      obtain ⟨more, nextWriters⟩ := fileCall_keeps taken writers allowed
      exact ⟨stays.trans more, nextWriters⟩
  intro ino member
  exact (kept.1 quiet).1.view quiet member

theorem smallTree_quiet : Quiet smallTree where
  held := by
    intro ino sin isIn
    by_cases isRoot : ino = 1
    · subst isRoot
      obtain rfl := Option.some.inj isIn
      exact ⟨rfl, by decide, by simp⟩
    · simp [smallTree, isRoot] at isIn
  synced := by
    intro ino sin isIn notDirty
    by_cases isRoot : ino = 1
    · subst isRoot
      obtain rfl := Option.some.inj isIn
      obtain ⟨_, _, blocks, pointers⟩ := smallTree_cached.synced 1 _ isIn notDirty
      exact ⟨by decide +kernel, blocks, pointers⟩
    · simp [smallTree, isRoot] at isIn
  apart := by
    have isKind : ∀ ino ∈ smallTree.files, (smallTree.din ino).type = sfsTypeDir ∨ (smallTree.din ino).blocks = 0 := by
      decide +kernel
    intro ino member
    rcases isKind ino member with isDir | empty
    · exact smallTree_tree.apart ino member isDir
    · exact ⟨by omega, by omega⟩

theorem smallState_noWriters : NoWriters () smallState.files := by
  rintro fd ⟨⟩

/-- The file `a` is opened for reading and closed. -/
theorem read_only_keeps_files_run :
    ∃ state, Reaches (fun state call => fileCall (fun _ => 0) (fun _ => true) state () call)
        (KeepsSizes (fun _ => 0) (fun _ => true) ()) smallState state ∧
      ∀ ino ∈ smallState.volume.files, state.volume.view ino = smallState.volume.view ino := by
  have completes : ((fileCall (fun _ => 0) (fun _ => true) smallState () (.fileOpen nameA 0)).bind fun state =>
      fileCall (fun _ => 0) (fun _ => true) state () (.fileClose 0)).isSome = true := by
    decide +kernel
  obtain ⟨state, completed⟩ := Option.isSome_iff_exists.mp completes
  obtain ⟨opened, isOpened, isClosed⟩ := Option.bind_eq_some_iff.mp completed
  have opens : KeepsSizes (fun _ => 0) (fun _ => true) () smallState (.fileOpen nameA 0) := by
    refine ⟨by unfold ReadOnlyCall; decide, ?_⟩
    rintro ⟨_, _, _, _, empties, _⟩
    revert empties
    decide
  have closes : KeepsSizes (fun _ => 0) (fun _ => true) () opened (.fileClose 0) := ⟨trivial, not_false⟩
  have reached : Reaches (fun state call => fileCall (fun _ => 0) (fun _ => true) state () call)
      (KeepsSizes (fun _ => 0) (fun _ => true) ()) smallState state :=
    .step (.step .start opens isOpened) closes isClosed
  exact ⟨state, reached, read_only_keeps_files (fun _ => 0) (fun _ => true) () smallState state smallTree_quiet
    smallState_noWriters reached⟩

/-- The empty file `a`, opened for reading only, is one byte long after a seek. -/
theorem read_only_seek_extends :
    ∃ opened state, fileCall (fun _ => 0) (fun _ => true) smallState () (.fileOpen nameA 0) = some opened ∧
      fileCall (fun _ => 0) (fun _ => true) opened () (.fileSeek 0 1 0) = some state ∧
      ReadOnlyCall (.fileOpen nameA 0) ∧ NoWriters () smallState.files ∧ Quiet smallState.volume ∧
      (smallState.volume.view 5).size = 0 ∧ (state.volume.view 5).size = 1 ∧
      state.volume.view 5 ≠ smallState.volume.view 5 := by
  have longer : ((fileCall (fun _ => 0) (fun _ => true) smallState () (.fileOpen nameA 0)).bind fun state =>
      fileCall (fun _ => 0) (fun _ => true) state () (.fileSeek 0 1 0)).map (fun state => (state.volume.view 5).size) =
        some 1 := by
    decide +kernel
  obtain ⟨state, completed, isOne⟩ := Option.map_eq_some_iff.mp longer
  obtain ⟨opened, isOpened, isSought⟩ := Option.bind_eq_some_iff.mp completed
  have before : (smallState.volume.view 5).size = 0 := by decide +kernel
  refine ⟨opened, state, isOpened, isSought, by unfold ReadOnlyCall; decide, smallState_noWriters, smallTree_quiet, before, isOne, ?_⟩
  intro same
  rw [same, before] at isOne
  cases isOne

end Ucore.Vfs
