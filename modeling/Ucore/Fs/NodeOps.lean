import Ucore.Fs.FileCalls
import Ucore.Sfs.Getdirentry

/-!
# Operations of inodes

`struct inode_ops` of `kern/fs/vfs/inode.h` is a table of functions. A directory, a file and a
device have different tables, with a NULL pointer for what they cannot do, and `__vop_op`
asserts that the operation it is asked for is there. Beside each function stands the list of
the operations that it uses, in order; what a device does with a request is an answer from
outside.
-/

namespace Ucore.Vfs

open Volume

/-- The fields of `struct inode_ops`. -/
inductive Vop where
  | vopOpen
  | vopClose
  | vopRead
  | vopWrite
  | vopFstat
  | vopFsync
  | vopNamefile
  | vopGetdirentry
  | vopReclaim
  | vopGettype
  | vopTryseek
  | vopTruncate
  | vopCreate
  | vopLookup
  | vopIoctl
deriving DecidableEq

/-- `sfs_node_dirops` -/
def sfsNodeDirops : List Vop :=
  [.vopOpen, .vopClose, .vopFstat, .vopFsync, .vopNamefile, .vopGetdirentry, .vopReclaim, .vopGettype, .vopLookup]

/-- `sfs_node_fileops` -/
def sfsNodeFileops : List Vop :=
  [.vopOpen, .vopClose, .vopRead, .vopWrite, .vopFstat, .vopFsync, .vopReclaim, .vopGettype, .vopTryseek, .vopTruncate]

/-- `dev_node_ops` -/
def devNodeOps : List Vop :=
  [.vopOpen, .vopClose, .vopRead, .vopWrite, .vopFstat, .vopIoctl, .vopGettype, .vopTryseek, .vopLookup]

/-- An operation that is asked for, and the ones that the inode has. -/
structure VopUse where
  ops : List Vop
  op : Vop

/-- `in_ops->vop_op` is not NULL. -/
def VopUse.Present (vopUse : VopUse) : Prop := vopUse.op ∈ vopUse.ops

instance (vopUse : VopUse) : Decidable vopUse.Present :=
  inferInstanceAs (Decidable (vopUse.op ∈ vopUse.ops))

/-- The uses in what follows a step, if it returns. -/
def andThen {α : Type} (result : Option α) (uses : α → List VopUse) : List VopUse :=
  match result with
  | some value => uses value
  | none => []

variable {F : Type} [DecidableEq F] (disk : Nat → Int) (memory : Nat → Bool) (state : VfsState F) (files : F)

omit [DecidableEq F] in
/-- `in_ops`, which `sfs_create_inode` sets with `sfs_get_ops`. -/
def VfsState.inOps (node : Node) : List Vop :=
  match node with
  | .device _ => devNodeOps
  | .sfs ino =>
      match (state.volume.inodes ino).bind fun sin => sfsGetOps sin.din.type with
      | some true => sfsNodeDirops
      | some false => sfsNodeFileops
      | none => []

omit [DecidableEq F] in
/-- `__vop_op` and the call of the operation, which has uses of its own. -/
def vopCall (node : Node) (op : Vop) (inner : List VopUse) : List VopUse :=
  ⟨state.inOps node, op⟩ :: if op ∈ state.inOps node ∧ inodeCheck state node = some () then inner else []

/-! ## `kern/fs/vfs/inode.c` -/

omit [DecidableEq F] in
/-- `sfs_reclaim` empties a file without links and writes what is dirty. -/
def sfsReclaimUses (ino : Nat) : List VopUse :=
  andThen (state.volume.inodes ino) fun sin =>
    if sin.reclaimCount = 1 ∧ (state.files.inodes (.sfs ino)).refCount = 0 then
      (if sin.din.nlinks = 0 then vopCall state (.sfs ino) .vopTruncate [] else []) ++
        andThen (reclaimTruncate disk state.volume.fs { sin with reclaimCount := 0 }) fun truncated =>
          if truncated.1 = 0 ∧ truncated.2.2.dirty then vopCall state (.sfs ino) .vopFsync [] else []
    else []

omit [DecidableEq F] in
def vopReclaimUses (node : Node) : List VopUse :=
  vopCall state node .vopReclaim (match node with
    | .device _ => []
    | .sfs ino => sfsReclaimUses disk state ino)

omit [DecidableEq F] in
def vopRefDecUses (node : Node) : List VopUse :=
  if state.present node then
    andThen (Fs.inodeRefDec state.files node) fun files =>
      if (files.inodes node).refCount = 0 then vopReclaimUses disk { state with files } node else []
  else []

omit [DecidableEq F] in
/-- `sfs_close` is `vop_fsync`. -/
def vopCloseUses (node : Node) : List VopUse :=
  vopCall state node .vopClose (match node with
    | .device _ => []
    | .sfs _ => vopCall state node .vopFsync [])

omit [DecidableEq F] in
def vopOpenDecUses (node : Node) : List VopUse :=
  if state.present node then
    andThen (Fs.inodeOpenDec state.files node) fun files =>
      if (files.inodes node).openCount = 0 then vopCloseUses { state with files } node else []
  else []

omit [DecidableEq F] in
def vfsCloseUses (node : Node) : List VopUse :=
  vopOpenDecUses state node ++ andThen (vopOpenDec disk state node) fun state => vopRefDecUses disk state node

omit [DecidableEq F] in
/-- `sfs_fstat` and `dev_fstat` ask for the type. -/
def vopFstatUses (node : Node) : List VopUse := vopCall state node .vopFstat (vopCall state node .vopGettype [])

/-! ## Lookups -/

omit [DecidableEq F] in
def sfsLookupUses (ino : Nat) (path : Name) : List VopUse :=
  if path = [] ∨ path.head? = some slash then []
  else
    andThen (vopRefInc state (.sfs ino)) fun state =>
      andThen (state.volume.inodes ino) fun sin =>
        if sin.din.type ≠ sfsTypeDir then vopRefDecUses disk state (.sfs ino)
        else andThen (sfsLookupOnce disk memory state ino path) fun looked => vopRefDecUses disk looked.2 (.sfs ino)

omit [DecidableEq F] in
def vopLookupUses (node : Node) (path : Name) : List VopUse :=
  vopCall state node .vopLookup (match node with
    | .device _ => []
    | .sfs ino => sfsLookupUses disk memory state ino path)

omit [DecidableEq F] in
/-- The operations used in `get_device`: it gives back the reference to the current directory
when it looks for the root of its file system. -/
def getDeviceUses (path : Name) : List VopUse :=
  let (colon, slash) := scanDevice path 0
  if colon < 0 ∧ slash ≠ 0 ∨ 0 < colon ∨ slash = 0 then []
  else andThen (vfsGetCurdir state files) fun current =>
    match current.1 with
    | .error _ => []
    | .ok (.device _) => []
    | .ok node => andThen (sfsGetRoot disk memory current.2) fun root => vopRefDecUses disk root.2 node

omit [DecidableEq F] in
def vfsLookupUses (path : Name) : List VopUse :=
  getDeviceUses disk memory state files path ++ andThen (getDevice disk memory state files path) fun start =>
    match start.1 with
    | .error _ => []
    | .ok node =>
        if subpath path ≠ [] then
          vopLookupUses disk memory start.2 node (subpath path) ++
            andThen (vopLookup disk memory start.2 node (subpath path)) fun found => vopRefDecUses disk found.2 node
        else []

/-! ## Opens -/

omit [DecidableEq F] in
def openNodeUses (node : Node) (openFlags : BitVec 32) : List VopUse :=
  vopCall state node .vopOpen [] ++ andThen (vopOpen state node openFlags) fun ret =>
    if ret ≠ 0 then vopRefDecUses disk state node
    else andThen (vopOpenInc state node) fun state =>
      if hasFlag openFlags oTrunc ∨ hasFlag openFlags oCreat then
        vopCall state node .vopTruncate [] ++ andThen (vopTruncate disk state node 0) fun truncated =>
          if truncated.1 ≠ 0 then vfsCloseUses disk truncated.2 node else []
      else []

omit [DecidableEq F] in
def openMissingUses (path : Name) (openFlags : BitVec 32) (ret : Int) : List VopUse :=
  if ret = -eNoent ∧ hasFlag openFlags oCreat then
    getDeviceUses disk memory state files (cutPath path) ++
      andThen (getDevice disk memory state files (cutPath path)) fun parent =>
        match parent.1 with
        | .error _ => []
        | .ok node => vopCall parent.2 node .vopCreate []
  else []

omit [DecidableEq F] in
def vfsOpenUses (path : Name) (openFlags : BitVec 32) : List VopUse :=
  if flagsAllowed openFlags = false then []
  else vfsLookupUses disk memory state files path ++ andThen (vfsLookup disk memory state files path) fun looked =>
    match looked.1 with
    | .error ret => openMissingUses disk memory looked.2 files path openFlags ret
    | .ok node =>
        if hasFlag openFlags oExcl ∧ hasFlag openFlags oCreat then []
        else openNodeUses disk looked.2 node openFlags

def fileOpenUses (path : Name) (openFlags : BitVec 32) : List VopUse :=
  andThen (Fs.fileOpenBegin state.files (some files) openFlags) fun begun =>
    match begun.1 with
    | .error _ => []
    | .ok _ =>
        vfsOpenUses disk memory { state with files := begun.2 } files path openFlags ++
          andThen (vfsOpen disk memory { state with files := begun.2 } files path openFlags) fun opened =>
            match opened.1 with
            | .error _ => []
            | .ok node => if hasFlag openFlags Fs.oAppend then vopFstatUses opened.2 node else []

/-! ## Calls on a descriptor -/

/-- What a call does with the inode of a slot, and what it returns. -/
abbrev Body (F : Type) := VfsState F → Fs.Slot F → Node → Option (Int × VfsState F)

/-- A call that uses an open slot: it has one more user until the call is done. -/
def onSlot (begun : Option (Except Int (Fs.Slot F) × Fs.FileState F Node)) (body : Body F) : Option (Int × VfsState F) := do
  let (acquired, table) ← begun
  let state := { state with files := table }
  match acquired with
  | .error ret => some (ret, state)
  | .ok slot => do
      let node ← (state.files.file slot).node
      let (ret, state) ← body state slot node
      (fdArrayRelease disk state slot).map fun state => (ret, state)

/-- The last user of a slot that is closed gives its inode back. -/
def fdArrayReleaseUses (slot : Fs.Slot F) : List VopUse :=
  let file := state.files.file slot
  if file.status = .closed ∧ file.openCount = 1 then andThen file.node (vfsCloseUses disk state) else []

/-- The operations that a call on a slot uses. -/
def onSlotUses (begun : Option (Except Int (Fs.Slot F) × Fs.FileState F Node)) (body : Body F)
    (uses : VfsState F → Fs.Slot F → Node → List VopUse) : List VopUse :=
  andThen begun fun begun =>
    match begun.1 with
    | .error _ => []
    | .ok slot =>
        let state := { state with files := begun.2 }
        andThen (state.files.file slot).node fun node =>
          uses state slot node ++ andThen (body state slot node) fun done => fdArrayReleaseUses disk done.2 slot

/-- `vop_read` or `vop_write`, and the position behind it. A device returns what it likes. -/
def ioBody (len : Nat) (write : Bool) (device : Int × Nat) : Body F := fun state slot node =>
  match node with
  | .device _ => (inodeCheck state node).map fun _ => (device.1, moved state slot device.2)
  | .sfs _ => do
      let (ret, copied, state) ← vopIo state node (state.files.file slot).pos len write
      some (ret, moved state slot copied)

/-- `dev_tryseek` -/
def devTryseek (device : Device) (pos : Int) : Int :=
  if 0 < device.dBlocks ∧ pos % device.dBlocksize = 0 ∧ 0 ≤ pos ∧ pos < device.dBlocks * device.dBlocksize then 0
  else -eInval

/-- `vop_tryseek` of a file or device, and the position behind it. -/
def seekBody (pos whence : Int) : Body F := fun state slot node => do
  let target ← seekPos state (state.files.file slot) node pos whence
  match node, target with
  | .device index, .ok pos => (inodeCheck state node).map fun _ =>
      let ret := devTryseek (state.devices index) pos
      if ret = 0 then (ret, { state with files := state.files.setFile slot { state.files.file slot with pos } })
      else (ret, state)
  | _, _ => seekNode disk state slot node target

/-- The operations used in `file_seek`; `sfs_tryseek` makes a file longer with `vop_truncate`. -/
def seekUses (pos whence : Int) (state : VfsState F) (slot : Fs.Slot F) (node : Node) : List VopUse :=
  (if whence = lseekEnd then vopFstatUses state node else []) ++
    andThen (seekPos state (state.files.file slot) node pos whence) fun target =>
      match target with
      | .error _ => []
      | .ok target => vopCall state node .vopTryseek (match node with
          | .device _ => []
          | .sfs ino =>
              if 0 ≤ target ∧ target < sfsMaxFileSize ∧ (state.volume.din ino).size < target then
                vopCall state node .vopTruncate []
              else [])

/-- `vop_fsync`, which devices do not have. -/
def fsyncBody : Body F := fun state _ node => do
  inodeCheck state node
  match node with
  | .device _ => none
  | .sfs ino => do
      let sin ← state.volume.inodes ino
      let (ret, fs, sin) ← sfsFsync disk state.volume.fs sin
      some (ret, { state with volume := state.volume.put ino fs (some sin) })

/-- `vop_fstat` -/
def fstatBody : Body F := fun state _ node => (vopFstat state node).map fun _ => (0, state)

/-- `vop_getdirentry`, which only directories have, for a buffer of the caller. -/
def getdirentryBody (dirent : Dirent) : Body F := fun state _ node => do
  inodeCheck state node
  match node with
  | .device _ => none
  | .sfs ino => do
      let sin ← state.volume.inodes ino
      if sfsGetOps sin.din.type = some true then do
        let (ret, _, fs, sin) ← direntNext disk (memory state.allocs) state.volume.fs sin dirent
        some (ret, { state with allocs := state.allocs + 1, volume := state.volume.put ino fs (some sin) })
      else none

/-- The uses of a call that asks an inode for one operation. -/
def oneUse (op : Vop) (state : VfsState F) (_ : Fs.Slot F) (node : Node) : List VopUse := vopCall state node op []

/-! ## System calls on files -/

/-- The start of `file_fstat` and `file_getdirentry`. -/
def fileUseBegin (fd : Int) : Option (Except Int (Fs.Slot F) × Fs.FileState F Node) :=
  Fs.acquireFd state.files (some files) fd fun _ => true

/-- The calls of `file.c` on a path or a descriptor. -/
inductive NodeCall where
  | fileOpen (path : Name) (openFlags : BitVec 32)
  | fileRead (fd : Int) (len : Nat)
  | fileWrite (fd : Int) (len : Nat)
  | fileSeek (fd pos whence : Int)
  | fileFsync (fd : Int)
  | fileFstat (fd : Int)
  | fileGetdirentry (fd : Int) (dirent : Dirent)
  | fileDup (fd1 fd2 : Int)
  | fileClose (fd : Int)

/-- A call of the process with the table `files`, and what a device would return to it. -/
structure NodeLabel (F : Type) where
  files : F
  call : NodeCall
  device : Int × Nat

/-- What a call that gives a descriptor returns. -/
def descriptor (result : Except Int Nat × VfsState F) : Int × VfsState F :=
  match result.1 with
  | .ok fd => (fd, result.2)
  | .error ret => (ret, result.2)

/-- One call; `none` is a panic or a failed assertion. -/
def nodeCall (label : NodeLabel F) : Option (Int × VfsState F) :=
  match label.call with
  | .fileOpen path openFlags => (fileOpen disk memory state label.files path openFlags).map descriptor
  | .fileRead fd len =>
      onSlot disk state (Fs.fileReadBegin state.files (some label.files) fd) (ioBody len false label.device)
  | .fileWrite fd len =>
      onSlot disk state (Fs.fileWriteBegin state.files (some label.files) fd) (ioBody len true label.device)
  | .fileSeek fd pos whence =>
      onSlot disk state (Fs.fileSeekBegin state.files (some label.files) fd) (seekBody disk pos whence)
  | .fileFsync fd => onSlot disk state (Fs.fileFsyncBegin state.files (some label.files) fd) (fsyncBody disk)
  | .fileFstat fd => onSlot disk state (fileUseBegin state label.files fd) fstatBody
  | .fileGetdirentry fd dirent =>
      onSlot disk state (fileUseBegin state label.files fd) (getdirentryBody disk memory dirent)
  | .fileDup fd1 fd2 => (fileDup state label.files fd1 fd2).map descriptor
  | .fileClose fd => fileClose disk state label.files fd

/-- The operations that a call uses, in order. -/
def nodeCallUses (label : NodeLabel F) : List VopUse :=
  match label.call with
  | .fileOpen path openFlags => fileOpenUses disk memory state label.files path openFlags
  | .fileRead fd len =>
      onSlotUses disk state (Fs.fileReadBegin state.files (some label.files) fd) (ioBody len false label.device)
        (oneUse .vopRead)
  | .fileWrite fd len =>
      onSlotUses disk state (Fs.fileWriteBegin state.files (some label.files) fd) (ioBody len true label.device)
        (oneUse .vopWrite)
  | .fileSeek fd pos whence =>
      onSlotUses disk state (Fs.fileSeekBegin state.files (some label.files) fd) (seekBody disk pos whence)
        (seekUses pos whence)
  | .fileFsync fd =>
      onSlotUses disk state (Fs.fileFsyncBegin state.files (some label.files) fd) (fsyncBody disk) (oneUse .vopFsync)
  | .fileFstat fd =>
      onSlotUses disk state (fileUseBegin state label.files fd) fstatBody fun state _ =>
        vopFstatUses state
  | .fileGetdirentry fd dirent =>
      onSlotUses disk state (fileUseBegin state label.files fd) (getdirentryBody disk memory dirent)
        (oneUse .vopGetdirentry)
  | .fileDup _ _ => []
  | .fileClose fd =>
      match Fs.fd2file state.files (some label.files) fd with
      | some (.ok slot) =>
          fdArrayReleaseUses disk { state with
            files := state.files.setFile slot { state.files.file slot with status := .closed } } slot
      | _ => []

end Ucore.Vfs
