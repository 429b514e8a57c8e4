import Mathlib.Data.List.Basic
import Mathlib.Logic.Function.Basic

/-!
# Open files

`kern/fs/file.c` keeps the open files of a process in a table of slots. A slot
counts its users: the descriptor itself while it is open, and every call that is
using the file. The last of them frees the slot. `kern/fs/vfs/inode.c` counts the
references to an inode and the slots that have it open.

`vfs_open`, `vop_fstat` and `vfs_close` are single steps; what the operations of the
file systems return is an argument. A call that may sleep in one of them is split
there. The transfer of data, and the contents of an inode, are left out.
-/

namespace Ucore.Fs

def eInval : Int := 3
def eBusy : Int := 15
def eMaxOpen : Int := 22

/-- `FILES_STRUCT_NENTRY`: what fits behind the `files_struct` in a page. -/
def nentry : Nat := 72

def noFd : Int := -0x9527

/-- The status of `struct file`. -/
inductive FdStatus where
  | none
  | init
  | opened
  | closed
deriving DecidableEq

universe u
variable {F N : Type u} [DecidableEq F] [DecidableEq N]

/-- `struct file`. The last field is history: the number of the successful open or
dup that has filled the slot. -/
structure File (N : Type u) where
  status : FdStatus
  readable : Bool
  writable : Bool
  fd : Nat
  pos : Int
  node : Option N
  openCount : Int
  opening : Nat
deriving DecidableEq

/-- `struct files_struct` without its semaphore. -/
structure FilesStruct (N : Type u) where
  pwd : Option N
  fdArray : Nat → File N
  filesCount : Int

/-- The counts of `struct inode`. -/
structure Inode where
  refCount : Int
  openCount : Int
deriving DecidableEq

/-- The tables and the inodes, with the history: how many opens and dups have
succeeded, and those ended by `vfs_close`. -/
structure FileState (F N : Type u) where
  files : F → FilesStruct N
  inodes : N → Inode
  opened : Nat
  ended : List Nat

/-- A `struct file *`: a table and an index. -/
abbrev Slot (F : Type u) := F × Nat

variable (state : FileState F N)

def FileState.file (slot : Slot F) : File N := (state.files slot.1).fdArray slot.2

def FileState.setFiles (files : F) (fields : FilesStruct N) : FileState F N :=
  { state with files := Function.update state.files files fields }

def FileState.setFile (slot : Slot F) (file : File N) : FileState F N :=
  let fields := state.files slot.1
  state.setFiles slot.1 { fields with fdArray := Function.update fields.fdArray slot.2 file }

def FileState.setInode (node : N) (inode : Inode) : FileState F N :=
  { state with inodes := Function.update state.inodes node inode }

/-! ## `kern/fs/vfs/inode.c` -/

def inodeRefInc (node : N) : FileState F N :=
  let inode := state.inodes node
  state.setInode node { inode with refCount := inode.refCount + 1 }

/-- `inode_ref_dec`; the reclaim that follows the last reference belongs to the file
system. `none` is a failed assertion, here and below. -/
def inodeRefDec (node : N) : Option (FileState F N) :=
  let inode := state.inodes node
  if 0 < inode.refCount then some (state.setInode node { inode with refCount := inode.refCount - 1 })
  else none

def inodeOpenInc (node : N) : FileState F N :=
  let inode := state.inodes node
  state.setInode node { inode with openCount := inode.openCount + 1 }

def inodeOpenDec (node : N) : Option (FileState F N) :=
  let inode := state.inodes node
  if 0 < inode.openCount then some (state.setInode node { inode with openCount := inode.openCount - 1 })
  else none

/-! ## `kern/fs/vfs/vfsfile.c` -/

/-- What a successful `vfs_open` leaves: a reference and an open more. The result is
the number of the opening. -/
def vfsOpen (node : N) : Nat × FileState F N :=
  let state := inodeOpenInc (inodeRefInc state node) node
  (state.opened, { state with opened := state.opened + 1 })

def vfsClose (node : N) (opening : Nat) : Option (FileState F N) := do
  let state ← inodeOpenDec state node
  let state ← inodeRefDec state node
  some { state with ended := opening :: state.ended }

/-! ## `kern/fs/file.c` -/

/-- The calling process's table, for its field `filesp`. -/
def getFdArray (filesp : Option F) : Option F :=
  filesp.bind fun files => if 0 < (state.files files).filesCount then some files else none

/-- The table that `files_create` makes. -/
def fdArrayInit (fd : Nat) : File N where
  status := .none
  readable := false
  writable := false
  fd := fd
  pos := 0
  node := none
  openCount := 0
  opening := 0

/-- The search of `fd_array_alloc` for a free slot. -/
def findFree (fdArray : Nat → File N) (fd : Int) : Except Int Nat :=
  if fd = noFd then
    match (List.range nentry).find? fun fd => (fdArray fd).status = .none with
    | some fd => .ok fd
    | none => .error (-eMaxOpen)
  else if 0 ≤ fd ∧ fd < nentry then
    if (fdArray fd.toNat).status = .none then .ok fd.toNat else .error (-eBusy)
  else .error (-eInval)

def fdArrayAlloc (filesp : Option F) (fd : Int) : Option (Except Int (Slot F) × FileState F N) := do
  let files ← getFdArray state filesp
  match findFree (state.files files).fdArray fd with
  | .error ret => some (.error ret, state)
  | .ok fd =>
      let file := state.file (files, fd)
      if file.openCount = 0 then
        some (.ok (files, fd), state.setFile (files, fd) { file with status := .init, node := none })
      else none

def fdArrayFree (slot : Slot F) : Option (FileState F N) :=
  let file := state.file slot
  if (file.status = .init ∨ file.status = .closed) ∧ file.openCount = 0 then
    if file.status = .closed then do
      let node ← file.node
      let state ← vfsClose state node file.opening
      some (state.setFile slot { file with status := .none })
    else some (state.setFile slot { file with status := .none })
  else none

def fdArrayAcquire (slot : Slot F) : Option (FileState F N) :=
  let file := state.file slot
  if file.status = .opened then some (state.setFile slot { file with openCount := file.openCount + 1 })
  else none

/-- The end of `fd_array_release` and `fd_array_close`: the last user frees the slot. -/
def dropUser (slot : Slot F) (file : File N) : Option (FileState F N) :=
  let state := state.setFile slot { file with openCount := file.openCount - 1 }
  if file.openCount - 1 = 0 then fdArrayFree state slot else some state

def fdArrayRelease (slot : Slot F) : Option (FileState F N) :=
  let file := state.file slot
  if (file.status = .opened ∨ file.status = .closed) ∧ 0 < file.openCount then dropUser state slot file
  else none

def fdArrayOpen (slot : Slot F) : Option (FileState F N) :=
  let file := state.file slot
  if file.status = .init ∧ file.node ≠ none then
    some (state.setFile slot { file with status := .opened, openCount := file.openCount + 1 })
  else none

def fdArrayClose (slot : Slot F) : Option (FileState F N) :=
  let file := state.file slot
  if file.status = .opened ∧ 0 < file.openCount then dropUser state slot { file with status := .closed }
  else none

/-- `vop_ref_inc` and `vop_open_inc` of `from`'s inode are what a `vfs_open` leaves. -/
def fdArrayDup (target source : Slot F) : Option (FileState F N) :=
  let targetFile := state.file target
  let file := state.file source
  if targetFile.status = .init ∧ file.status = .opened then do
    let node ← file.node
    let (opening, state) := vfsOpen state node
    let state := state.setFile target
      { targetFile with pos := file.pos, readable := file.readable, writable := file.writable, node, opening }
    fdArrayOpen state target
  else none

def fd2file (filesp : Option F) (fd : Int) : Option (Except Int (Slot F)) :=
  if 0 ≤ fd ∧ fd < nentry then do
    let files ← getFdArray state filesp
    let file := state.file (files, fd.toNat)
    some (if file.status = .opened ∧ (file.fd : Int) = fd then .ok (files, fd.toNat) else .error (-eInval))
  else some (.error (-eInval))

def oAccmode : BitVec 32 := 3#32
def oRdonly : BitVec 32 := 0#32
def oWronly : BitVec 32 := 1#32
def oRdwr : BitVec 32 := 2#32
def oAppend : BitVec 32 := 0x20#32

/-- `file_open` up to `vfs_open`. -/
def fileOpenBegin (filesp : Option F) (openFlags : BitVec 32) : Option (Except Int (Slot F) × FileState F N) :=
  let mode := openFlags &&& oAccmode
  if mode = oRdonly ∨ mode = oWronly ∨ mode = oRdwr then fdArrayAlloc state filesp noFd
  else some (.error (-eInval), state)

/-- `file_open` from `vfs_open` on, with the results of `vfs_open` and `vop_fstat`. -/
def fileOpenEnd (slot : Slot F) (openFlags : BitVec 32) (opened : Except Int N) (fstat : Except Int Int) :
    Option (Except Int Nat × FileState F N) :=
  let mode := openFlags &&& oAccmode
  match opened with
  | .error ret => (fdArrayFree state slot).map fun state => (.error ret, state)
  | .ok node =>
      let (opening, state) := vfsOpen state node
      match if openFlags &&& oAppend ≠ 0 then fstat else .ok 0 with
      | .error ret => do
          let state := state.setFile slot { state.file slot with pos := 0 }
          let state ← vfsClose state node opening
          let state ← fdArrayFree state slot
          some (.error ret, state)
      | .ok pos => do
          let file := state.file slot
          let readable := decide (mode = oRdonly ∨ mode = oRdwr)
          let writable := decide (mode = oWronly ∨ mode = oRdwr)
          let state := state.setFile slot { file with pos, node, readable, writable, opening }
          let state ← fdArrayOpen state slot
          some (.ok file.fd, state)

/-- `file_close` -/
def fileClose (filesp : Option F) (fd : Int) : Option (Int × FileState F N) := do
  match ← fd2file state filesp fd with
  | .error ret => some (ret, state)
  | .ok slot => (fdArrayClose state slot).map fun state => (0, state)

/-- The start of every call that uses an open file: it may refuse the descriptor. -/
def acquireFd (filesp : Option F) (fd : Int) (permitted : File N → Bool) :
    Option (Except Int (Slot F) × FileState F N) := do
  match ← fd2file state filesp fd with
  | .error ret => some (.error ret, state)
  | .ok slot =>
      if permitted (state.file slot) then (fdArrayAcquire state slot).map fun state => (.ok slot, state)
      else some (.error (-eInval), state)

/-- `file_read` up to `vop_read`. -/
def fileReadBegin (filesp : Option F) (fd : Int) : Option (Except Int (Slot F) × FileState F N) :=
  acquireFd state filesp fd File.readable

/-- `file_write` up to `vop_write`. -/
def fileWriteBegin (filesp : Option F) (fd : Int) : Option (Except Int (Slot F) × FileState F N) :=
  acquireFd state filesp fd File.writable

/-- `file_seek` up to the switch. -/
def fileSeekBegin (filesp : Option F) (fd : Int) : Option (Except Int (Slot F) × FileState F N) :=
  acquireFd state filesp fd fun _ => true

/-- `file_fsync` up to `vop_fsync`. -/
def fileFsyncBegin (filesp : Option F) (fd : Int) : Option (Except Int (Slot F) × FileState F N) :=
  acquireFd state filesp fd fun _ => true

/-- The end of `file_read` and `file_write`: the position moves unless the file was
closed meanwhile. -/
def advance (slot : Slot F) (copied : Nat) : Option (FileState F N) :=
  let file := state.file slot
  let state :=
    if file.status = .opened then state.setFile slot { file with pos := file.pos + copied } else state
  fdArrayRelease state slot

def fileReadEnd (slot : Slot F) (copied : Nat) : Option (FileState F N) := advance state slot copied

def fileWriteEnd (slot : Slot F) (copied : Nat) : Option (FileState F N) := advance state slot copied

/-- The switch in `file_seek`, with the result of `vop_fstat`. -/
def seekTarget (file : File N) (pos whence : Int) (fstat : Except Int Int) : Except Int Int :=
  if whence = 0 then .ok pos
  else if whence = 1 then .ok (pos + file.pos)
  else if whence = 2 then fstat.map fun size => pos + size
  else .error (-eInval)

/-- `file_seek` behind the switch, with the result of `vop_tryseek`. -/
def fileSeekEnd (slot : Slot F) (target : Except Int Int) (tryseek : Int) : Option (FileState F N) :=
  match target with
  | .error _ => fdArrayRelease state slot
  | .ok pos =>
      let file := state.file slot
      let state := if tryseek = 0 then state.setFile slot { file with pos } else state
      fdArrayRelease state slot

def fileFsyncEnd (slot : Slot F) : Option (FileState F N) := fdArrayRelease state slot

def fileDup (filesp : Option F) (fd1 fd2 : Int) : Option (Except Int Nat × FileState F N) := do
  match ← fd2file state filesp fd1 with
  | .error ret => some (.error ret, state)
  | .ok source =>
      let (allocated, state) ← fdArrayAlloc state filesp fd2
      match allocated with
      | .error ret => some (.error ret, state)
      | .ok target => (fdArrayDup state target source).map fun state => (.ok (state.file target).fd, state)

/-! ## `kern/fs/fs.c` and the users of tables in `kern/process/proc.c` -/

/-- `files_create` in the memory `files`. -/
def filesCreate (files : F) : FileState F N :=
  state.setFiles files { pwd := none, fdArray := fdArrayInit, filesCount := 0 }

/-- `if (file->status == FD_OPENED) fd_array_close(file)` -/
def closeIfOpened (slot : Slot F) : Option (FileState F N) :=
  if (state.file slot).status = .opened then fdArrayClose state slot else some state

/-- One round of the loop in `files_destroy`. -/
def destroyEntry (files : F) (fd : Nat) : Option (FileState F N) := do
  let state ← closeIfOpened state (files, fd)
  if (state.file (files, fd)).status = .none then some state else none

/-- A reference for a working directory, if there is one. -/
def takePwd (pwd : Option N) : FileState F N :=
  match pwd with
  | some pwd => inodeRefInc state pwd
  | none => state

/-- The reference for a working directory goes. -/
def dropPwd (pwd : Option N) : Option (FileState F N) :=
  match pwd with
  | some pwd => inodeRefDec state pwd
  | none => some state

def filesDestroy (files : F) : Option (FileState F N) :=
  if (state.files files).filesCount = 0 then do
    let state ← dropPwd state (state.files files).pwd
    (List.range nentry).foldlM (fun state fd => destroyEntry state files fd) state
  else none

/-- `vfs_set_curdir` for the caller's table; `ret` is the outcome of the tests on the
type of the directory. -/
def vfsSetCurdir (files : F) (dir : Option N) (ret : Int) : Option (Int × FileState F N) :=
  let old := (state.files files).pwd
  if old = dir then some (0, state)
  else if dir ≠ none ∧ ret ≠ 0 then some (ret, state)
  else
    let state := takePwd state dir
    let state := state.setFiles files { state.files files with pwd := dir }
    (dropPwd state old).map fun state => (0, state)

/-- `files_closeall` skips the two standard descriptors. -/
def filesCloseall (files : F) : Option (FileState F N) :=
  if 0 < (state.files files).filesCount then
    (List.range' 2 (nentry - 2)).foldlM (fun state fd => closeIfOpened state (files, fd)) state
  else none

/-- One round of the loop in `dup_files`. -/
def dupEntry (target source : F) (fd : Nat) : Option (FileState F N) :=
  if (state.file (source, fd)).status = .opened then
    let state := state.setFile (target, fd) { state.file (target, fd) with status := .init }
    fdArrayDup state (target, fd) (source, fd)
  else some state

def dupFiles (target source : F) : Option (FileState F N) :=
  if (state.files target).filesCount = 0 ∧ 0 < (state.files source).filesCount then
    let pwd := (state.files source).pwd
    let state := takePwd (state.setFiles target { state.files target with pwd }) pwd
    (List.range nentry).foldlM (fun state fd => dupEntry state target source fd) state
  else none

def filesCountInc (files : F) : FileState F N :=
  let fields := state.files files
  state.setFiles files { fields with filesCount := fields.filesCount + 1 }

/-- `copy_files` for a process that shares or copies the table `source`; the result is
the new process's table. -/
def copyFiles (source : F) (copy : Option F) : Option (F × FileState F N) :=
  match copy with
  | none => some (source, filesCountInc state source)
  | some files => (dupFiles (filesCreate state files) files source).map fun state =>
      (files, filesCountInc state files)

/-- `put_files`: the last user of a table destroys it. -/
def putFiles (filesp : Option F) : Option (FileState F N) :=
  match filesp with
  | none => some state
  | some files =>
      let fields := state.files files
      let state := state.setFiles files { fields with filesCount := fields.filesCount - 1 }
      if fields.filesCount - 1 = 0 then filesDestroy state files else some state

end Ucore.Fs
