import Ucore.Fs.Vnode

/-!
# Path names and the opening of files

`kern/fs/vfs/vfslookup.c` takes the device off the front of a path and hands the rest to
the inode where the lookup starts. `kern/fs/vfs/vfsfile.c` opens what a path names, and
`file_open` of `kern/fs/file.c` fills a slot with it. An error gives back what was taken
before it, with an exception in `vfs_open`.
-/

namespace Ucore.Vfs

open Volume

variable {F : Type} [DecidableEq F] (disk : Nat → Int) (memory : Nat → Bool) (state : VfsState F) (files : F)

/-! ## Where a path starts -/

omit [DecidableEq F] in
/-- `sfs_get_root`; an error is a panic. -/
def sfsGetRoot : Option (Node × VfsState F) := do
  let (loaded, state) ← sfsLoadInode disk memory state sfsBlknRoot
  match loaded with
  | .error _ => none
  | .ok node => some (node, state)

/-- The inode that `vfs_get_root` finds for an entry of the list of devices. -/
def getVdevRoot (vdev : VfsDev) : Option (Except Int Node × VfsState F) :=
  if vdev.fs then (sfsGetRoot disk memory state).map fun (node, state) => (.ok node, state)
  else if vdev.mountable = false then do
    let index ← vdev.devnode
    (vopRefInc state (.device index)).map fun state => (.ok (.device index), state)
  else some (.error (-eNaDev), state)

/-- `vfs_get_root` -/
def vfsGetRoot (devname : Name) : Option (Except Int Node × VfsState F) :=
  match state.vdevList.find? fun vdev => vdev.devname = devname with
  | some vdev => getVdevRoot disk memory state vdev
  | none => some (.error (-eNoDev), state)

/-- `vfs_get_bootfs` -/
def vfsGetBootfs : Option (Except Int Node × VfsState F) :=
  match state.bootfsNode with
  | some node => (vopRefInc state node).map fun state => (.ok node, state)
  | none => some (.error (-eNoent), state)

/-- `vfs_get_curdir` for a process with the table `files`. -/
def vfsGetCurdir : Option (Except Int Node × VfsState F) :=
  match (state.files.files files).pwd with
  | some node => (vopRefInc state node).map fun state => (.ok node, state)
  | none => some (.error (-eNoent), state)

/-- The root of the file system that the current directory is in. -/
def currentRoot : Option (Except Int Node × VfsState F) := do
  let (current, state) ← vfsGetCurdir state files
  match current with
  | .error ret => some (.error ret, state)
  | .ok (.device _) => none
  | .ok node => do
      let (root, state) ← sfsGetRoot disk memory state
      (vopRefDec disk state node).map fun state => (.ok root, state)

/-- The loop of `get_device`: the indices of a colon and of a slash, of which it finds the
first. -/
def scanDevice : Name → Int → Int × Int
  | [], _ => (-1, -1)
  | byte :: rest, index =>
      if byte = colon then (index, -1) else if byte = slash then (-1, index) else scanDevice rest (index + 1)

/-- A path behind the slashes in front of it. -/
def skipSlashes (path : Name) : Name := path.dropWhile fun byte => byte = slash

/-- What `get_device` leaves of the path in memory: the name of a device is cut off. -/
def cutPath (path : Name) : Name :=
  let (colon, _) := scanDevice path 0
  if 0 < colon then path.take colon.toNat else path

/-- The path that `get_device` leaves to the lookup. -/
def subpath (path : Name) : Name :=
  let (colon, slash) := scanDevice path 0
  if colon < 0 ∧ slash ≠ 0 then path
  else if 0 < colon then skipSlashes (path.drop (colon.toNat + 1))
  else skipSlashes (path.drop 1)

/-- `get_device`, with the inode it finds; the rest of the path is `subpath`. -/
def getDevice (path : Name) : Option (Except Int Node × VfsState F) :=
  let (colon, slash) := scanDevice path 0
  if colon < 0 ∧ slash ≠ 0 then vfsGetCurdir state files
  else if 0 < colon then vfsGetRoot disk memory state (path.take colon.toNat)
  else if slash = 0 then vfsGetBootfs state
  else currentRoot disk memory state files

/-- `vfs_lookup` -/
def vfsLookup (path : Name) : Option (Except Int Node × VfsState F) := do
  let (start, state) ← getDevice disk memory state files path
  match start with
  | .error ret => some (.error ret, state)
  | .ok node =>
      if subpath path ≠ [] then do
        let (found, state) ← vopLookup disk memory state node (subpath path)
        (vopRefDec disk state node).map fun state => (found, state)
      else some (.ok node, state)

/-! ## Open -/

def oCreat : BitVec 32 := 0x4#32
def oExcl : BitVec 32 := 0x8#32
def oTrunc : BitVec 32 := 0x10#32

/-- Whether a flag is set. -/
def hasFlag (openFlags flag : BitVec 32) : Bool := openFlags &&& flag ≠ 0#32

/-- `sfs_opendir` -/
def sfsOpendir (openFlags : BitVec 32) : Int :=
  if openFlags &&& Fs.oAccmode = Fs.oRdonly then if hasFlag openFlags Fs.oAppend then -eIsdir else 0
  else -eIsdir

/-- `dev_open` -/
def devOpen (device : Device) (openFlags : BitVec 32) : Int :=
  if hasFlag openFlags (oCreat ||| oTrunc ||| oExcl ||| Fs.oAppend) then -eInval else device.dOpen openFlags

/-- `vop_open`; `sfs_openfile` returns 0. -/
def vopOpen (node : Node) (openFlags : BitVec 32) : Option Int := do
  inodeCheck state node
  match node with
  | .device index => some (devOpen (state.devices index) openFlags)
  | .sfs ino => do
      let sin ← state.volume.inodes ino
      let isDir ← sfsGetOps sin.din.type
      some (if isDir then sfsOpendir openFlags else 0)

/-- `vop_truncate`, which only files have. -/
def vopTruncate (node : Node) (len : Int) : Option (Int × VfsState F) := do
  inodeCheck state node
  match node with
  | .device _ => none
  | .sfs ino => do
      let sin ← state.volume.inodes ino
      let (ret, fs, sin) ← Volume.vopTruncate disk state.volume.fs sin len
      some (ret, { state with volume := state.volume.put ino fs (some sin) })

/-- `vop_fstat`, with the size that it stores; a device or a file never returns an error. -/
def vopFstat (node : Node) : Option Nat := do
  inodeCheck state node
  match node with
  | .device index => some ((state.devices index).dBlocks * (state.devices index).dBlocksize)
  | .sfs ino => (state.volume.inodes ino).map fun sin => sin.din.size

/-- `vfs_close` -/
def vfsClose (node : Node) : Option (VfsState F) := do
  let state ← vopOpenDec disk state node
  vopRefDec disk state node

/-- The checks of the flags at the start of `vfs_open`. -/
def flagsAllowed (openFlags : BitVec 32) : Bool :=
  let mode := openFlags &&& Fs.oAccmode
  (mode = Fs.oRdonly ∨ mode = Fs.oWronly ∨ mode = Fs.oRdwr) ∧
    ¬ (hasFlag openFlags oTrunc ∧ mode = Fs.oRdonly)

/-- `vfs_open` from `vop_open` on. -/
def openNode (node : Node) (openFlags : BitVec 32) : Option (Except Int Node × VfsState F) := do
  let ret ← vopOpen state node openFlags
  if ret ≠ 0 then (vopRefDec disk state node).map fun state => (.error ret, state)
  else do
    let state ← vopOpenInc state node
    if hasFlag openFlags oTrunc ∨ hasFlag openFlags oCreat then do
      let (ret, state) ← vopTruncate disk state node 0
      if ret ≠ 0 then (vfsClose disk state node).map fun state => (.error ret, state)
      else some (.ok node, state)
    else some (.ok node, state)

/-- `vfs_open` for a path that names nothing. With `O_CREAT` it goes on with the directory
to create the file in, and no inode has a `vop_create`. -/
def openMissing (path : Name) (openFlags : BitVec 32) (ret : Int) : Option (Except Int Node × VfsState F) :=
  if ret = -eNoent ∧ hasFlag openFlags oCreat then do
    let (parent, state) ← getDevice disk memory state files (cutPath path)
    match parent with
    | .error ret => some (.error ret, state)
    | .ok _ => none
  else some (.error ret, state)

/-- `vfs_open` -/
def vfsOpen (path : Name) (openFlags : BitVec 32) : Option (Except Int Node × VfsState F) :=
  if flagsAllowed openFlags = false then some (.error (-eInval), state)
  else do
    let (found, state) ← vfsLookup disk memory state files path
    match found with
    | .error ret => openMissing disk memory state files path openFlags ret
    | .ok node =>
        if hasFlag openFlags oExcl ∧ hasFlag openFlags oCreat then some (.error (-eExists), state)
        else openNode disk state node openFlags

/-- Where `file_open` starts in the file. -/
def openPos (node : Node) (openFlags : BitVec 32) : Option Nat :=
  if hasFlag openFlags Fs.oAppend then vopFstat state node else some 0

/-- The slot that `file_open` fills. -/
def filledFile (file : Fs.File Node) (node : Node) (openFlags : BitVec 32) (pos opening : Nat) : Fs.File Node :=
  let mode := openFlags &&& Fs.oAccmode
  let readable := decide (mode = Fs.oRdonly ∨ mode = Fs.oRdwr)
  let writable := decide (mode = Fs.oWronly ∨ mode = Fs.oRdwr)
  { file with pos, node, readable, writable, opening }

/-- `file_open` behind `vfs_open`. -/
def fillSlot (slot : Fs.Slot F) (node : Node) (openFlags : BitVec 32) : Option (Except Int Nat × VfsState F) := do
  let pos ← openPos state node openFlags
  let file := filledFile (state.files.file slot) node openFlags pos state.files.opened
  let files ← Fs.fdArrayOpen ({ state.files with opened := state.files.opened + 1 }.setFile slot file) slot
  some (.ok file.fd, { state with files })

/-- `file_open` -/
def fileOpen (path : Name) (openFlags : BitVec 32) : Option (Except Int Nat × VfsState F) := do
  let (allocated, table) ← Fs.fileOpenBegin state.files (some files) openFlags
  let state := { state with files := table }
  match allocated with
  | .error ret => some (.error ret, state)
  | .ok slot => do
      let (opened, state) ← vfsOpen disk memory state files path openFlags
      match opened with
      | .error ret => (Fs.fdArrayFree state.files slot).map fun table => (.error ret, { state with files := table })
      | .ok node => fillSlot state slot node openFlags

end Ucore.Vfs
