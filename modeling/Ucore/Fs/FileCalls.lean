import Ucore.Fs.VfsFile

/-!
# Calls on open files

The calls of `kern/fs/file.c` on descriptors of a process, with what they do to the inodes
of the file system. A device has its own reads, writes and seeks, which are left out.
-/

namespace Ucore.Vfs

open Volume

variable {F : Type} [DecidableEq F] (disk : Nat → Int) (memory : Nat → Bool) (state : VfsState F) (files : F)

/-! ## Slots -/

/-- `vfs_close` of the inode of a slot that is closed. -/
def closeNode (file : Fs.File Node) : Option (VfsState F) :=
  if file.status = .closed then file.node.bind (vfsClose disk state) else some state

/-- `fd_array_free` -/
def fdArrayFree (slot : Fs.Slot F) : Option (VfsState F) :=
  let file := state.files.file slot
  if (file.status = .init ∨ file.status = .closed) ∧ file.openCount = 0 then
    (closeNode disk state file).map fun state =>
      { state with files := state.files.setFile slot { state.files.file slot with status := .none } }
  else none

/-- The end of `fd_array_release` and `fd_array_close`: the last user frees the slot. -/
def dropUser (slot : Fs.Slot F) (file : Fs.File Node) : Option (VfsState F) :=
  let state := { state with files := state.files.setFile slot { file with openCount := file.openCount - 1 } }
  if file.openCount - 1 = 0 then fdArrayFree disk state slot else some state

/-- `fd_array_release` -/
def fdArrayRelease (slot : Fs.Slot F) : Option (VfsState F) :=
  let file := state.files.file slot
  if (file.status = .opened ∨ file.status = .closed) ∧ 0 < file.openCount then dropUser disk state slot file
  else none

/-- `fd_array_close` -/
def fdArrayClose (slot : Fs.Slot F) : Option (VfsState F) :=
  let file := state.files.file slot
  if file.status = .opened ∧ 0 < file.openCount then dropUser disk state slot { file with status := .closed }
  else none

/-- `file_close` -/
def fileClose (fd : Int) : Option (Int × VfsState F) := do
  match ← Fs.fd2file state.files (some files) fd with
  | .error ret => some (ret, state)
  | .ok slot => (fdArrayClose disk state slot).map fun state => (0, state)

/-- `file_dup`, which takes a reference and an opening more of the inode. -/
def fileDup (fd1 fd2 : Int) : Option (Except Int Nat × VfsState F) := do
  let (ret, table) ← Fs.fileDup state.files (some files) fd1 fd2
  some (ret, { state with files := table })

/-! ## Reads and writes -/

/-- `sfs_io_nolock`, with the number of bytes that it copies. Between its tests and its end
the transfer is still to be written, so that it copies none. -/
def sfsIoNolock (sin : SfsInode) (offset : Int) (len : Nat) (write : Bool) : Option (Int × Nat × SfsInode) :=
  let endpos := (offset + len).bmod (2 ^ 64)
  if sin.din.type = sfsTypeDir then none
  else if offset < 0 ∨ sfsMaxFileSize ≤ offset ∨ endpos < offset then some (-eInval, 0, sin)
  else if offset = endpos then some (0, 0, sin)
  else if write = false ∧ sin.din.size ≤ offset then some (0, 0, sin)
  else some (0, 0, extend sin offset.toNat)

/-- `vop_read` and `vop_write`, which directories do not have. -/
def vopIo (node : Node) (offset : Int) (len : Nat) (write : Bool) : Option (Int × Nat × VfsState F) := do
  inodeCheck state node
  match node with
  | .device _ => none
  | .sfs ino => do
      let sin ← state.volume.inodes ino
      if sfsGetOps sin.din.type = some false then do
        let (ret, copied, sin) ← sfsIoNolock sin offset len write
        some (ret, copied, { state with volume := state.volume.put ino state.volume.fs (some sin) })
      else none

/-- The position of an open file moves behind what was copied. -/
def moved (slot : Fs.Slot F) (copied : Nat) : VfsState F :=
  let file := state.files.file slot
  if file.status = .opened then
    { state with files := state.files.setFile slot { file with pos := file.pos + copied } }
  else state

/-- `file_read` and `file_write` behind the tests of the descriptor. -/
def transfer (begun : Option (Except Int (Fs.Slot F) × Fs.FileState F Node)) (len : Nat) (write : Bool) :
    Option (Int × Nat × VfsState F) := do
  let (acquired, table) ← begun
  let state := { state with files := table }
  match acquired with
  | .error ret => some (ret, 0, state)
  | .ok slot => do
      let node ← (state.files.file slot).node
      let (ret, copied, state) ← vopIo state node (state.files.file slot).pos len write
      (fdArrayRelease disk (moved state slot copied) slot).map fun state => (ret, copied, state)

/-- `file_read`, with the number of bytes that it copies. -/
def fileRead (fd : Int) (len : Nat) : Option (Int × Nat × VfsState F) :=
  transfer disk state (Fs.fileReadBegin state.files (some files) fd) len false

/-- `file_write` -/
def fileWrite (fd : Int) (len : Nat) : Option (Int × Nat × VfsState F) :=
  transfer disk state (Fs.fileWriteBegin state.files (some files) fd) len true

/-! ## Seeks -/

/-- `vop_tryseek`, which directories do not have. -/
def vopTryseek (node : Node) (pos : Int) : Option (Int × VfsState F) := do
  inodeCheck state node
  match node with
  | .device _ => none
  | .sfs ino => do
      let sin ← state.volume.inodes ino
      if sfsGetOps sin.din.type = some false then do
        let (ret, fs, sin) ← sfsTryseek disk state.volume.fs sin pos
        some (ret, { state with volume := state.volume.put ino fs (some sin) })
      else none

/-- `LSEEK_END` -/
def lseekEnd : Int := 2

/-- The switch in `file_seek`; only `LSEEK_END` asks for the size. -/
def seekPos (file : Fs.File Node) (node : Node) (pos whence : Int) : Option (Except Int Int) :=
  if whence = lseekEnd then (vopFstat state node).map fun size : Nat => Fs.seekTarget file pos whence (.ok (size : Int))
  else some (Fs.seekTarget file pos whence (.ok 0))

/-- `file_seek` behind the switch. -/
def seekNode (slot : Fs.Slot F) (node : Node) (target : Except Int Int) : Option (Int × VfsState F) :=
  match target with
  | .error ret => some (ret, state)
  | .ok pos => do
      let (ret, state) ← vopTryseek disk state node pos
      if ret = 0 then
        some (ret, { state with files := state.files.setFile slot { state.files.file slot with pos } })
      else some (ret, state)

/-- `file_seek` -/
def fileSeek (fd pos whence : Int) : Option (Int × VfsState F) := do
  let (acquired, table) ← Fs.fileSeekBegin state.files (some files) fd
  let state := { state with files := table }
  match acquired with
  | .error ret => some (ret, state)
  | .ok slot => do
      let node ← (state.files.file slot).node
      let target ← seekPos state (state.files.file slot) node pos whence
      let (ret, state) ← seekNode disk state slot node target
      (fdArrayRelease disk state slot).map fun state => (ret, state)

/-! ## Runs -/

/-- The calls of a process on its descriptors. -/
inductive FileCall where
  | fileOpen (path : Name) (openFlags : BitVec 32)
  | fileRead (fd : Int) (len : Nat)
  | fileWrite (fd : Int) (len : Nat)
  | fileSeek (fd pos whence : Int)
  | fileDup (fd1 fd2 : Int)
  | fileClose (fd : Int)

/-- One call of the process with the table `files`; `none` is a panic or a failed assertion. -/
def fileCall : FileCall → Option (VfsState F)
  | .fileOpen path openFlags => (fileOpen disk memory state files path openFlags).map Prod.snd
  | .fileRead fd len => (fileRead disk state files fd len).map fun result => result.2.2
  | .fileWrite fd len => (fileWrite disk state files fd len).map fun result => result.2.2
  | .fileSeek fd pos whence => (fileSeek disk state files fd pos whence).map Prod.snd
  | .fileDup fd1 fd2 => (fileDup state files fd1 fd2).map Prod.snd
  | .fileClose fd => (fileClose disk state files fd).map Prod.snd

end Ucore.Vfs
