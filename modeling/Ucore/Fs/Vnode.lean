import Ucore.Fs.File
import Ucore.Sfs.Dirent
import Ucore.Sfs.VolumeRuns

/-!
# Inodes of the virtual file system

`kern/fs/vfs/inode.c` counts the references to an inode and its openings, and calls the
file system when a count goes to 0. An inode belongs to the mounted file system or to a
device. The functions of `sfs_inode.c` that look a name up in a directory and load the
inode it names hand out references to it.

The device may fail at any call and there may be no memory at any call of `kmalloc`.
-/

namespace Ucore.Vfs

open Volume

def eNoDev : Int := 13
def eNaDev : Int := 14
def eIsdir : Int := 17
def eNotdir : Int := 18
def eExists : Int := 23

/-- `MAX_INODE_COUNT` -/
def maxInodeCount : Int := 0x10000

/-- `SFS_BLKN_ROOT` -/
def sfsBlknRoot : Nat := 1

/-- A `struct inode *`: an inode of the mounted file system, by its number, or the inode of
a device. -/
inductive Node where
  | sfs (ino : Nat)
  | device (index : Nat)
deriving DecidableEq

/-- `struct device` as far as it is used on an open. -/
structure Device where
  dBlocks : Nat
  dBlocksize : Nat
  dOpen : BitVec 32 → Int

/-- `vfs_dev_t`; `fs` tells whether the file system is mounted on it. -/
structure VfsDev where
  devname : Name
  devnode : Option Nat
  fs : Bool
  mountable : Bool

variable {F : Type}

/-- The file system with its inodes, the tables of open files with the counts of all
inodes, the devices, and the number of calls `kmalloc` has had. -/
structure VfsState (F : Type) where
  volume : Mounted
  files : Fs.FileState F Node
  allocs : Nat
  devices : Nat → Device
  vdevList : List VfsDev
  bootfsNode : Option Node

-- The result of each call of the disk, and whether each call of `kmalloc` finds memory.
variable (disk : Nat → Int) (memory : Nat → Bool) (state : VfsState F)

/-- Whether there is an inode behind a pointer. -/
def VfsState.present (node : Node) : Prop :=
  match node with
  | .sfs ino => (state.volume.inodes ino).isSome
  | .device _ => True

instance (node : Node) : Decidable (state.present node) :=
  match node with
  | .sfs ino => inferInstanceAs (Decidable ((state.volume.inodes ino).isSome = true))
  | .device _ => inferInstanceAs (Decidable True)

/-- The counts of every inode; one that is not in memory has none. -/
def VfsState.counts (node : Node) : Fs.Inode :=
  if state.present node then state.files.inodes node else { refCount := 0, openCount := 0 }

/-! ## `kern/fs/vfs/inode.c` -/

/-- `inode_check` before a call of an operation; `none` is a panic, a failed assertion or a
pointer without an inode, here and below. -/
def inodeCheck (node : Node) : Option Unit :=
  let inode := state.files.inodes node
  if state.present node ∧ inode.openCount ≤ inode.refCount ∧ 0 ≤ inode.openCount ∧
      inode.refCount < maxInodeCount ∧ inode.openCount < maxInodeCount then some ()
  else none

/-- `inode_ref_inc` -/
def vopRefInc (node : Node) : Option (VfsState F) :=
  if state.present node then some { state with files := Fs.inodeRefInc state.files node } else none

/-- `inode_open_inc` -/
def vopOpenInc (node : Node) : Option (VfsState F) :=
  if state.present node then some { state with files := Fs.inodeOpenInc state.files node } else none

/-- `vop_reclaim`, which devices do not have. `inode_kill` asserts that the inode is not
open when it goes. -/
def vopReclaim (node : Node) : Option (VfsState F) := do
  inodeCheck state node
  match node with
  | .device _ => none
  | .sfs ino => do
      let volume ← volumeStep disk state.volume (.reclaim ino (state.files.inodes node).refCount)
      if (volume.inodes ino).isNone ∧ (state.files.inodes node).openCount ≠ 0 then none
      else some { state with volume }

/-- `inode_ref_dec` -/
def vopRefDec (node : Node) : Option (VfsState F) :=
  if state.present node then do
    let files ← Fs.inodeRefDec state.files node
    let state := { state with files }
    if (files.inodes node).refCount = 0 then vopReclaim disk state node else some state
  else none

/-- `vop_close`: a file or directory is synchronized, and a device has nothing to do. -/
def vopClose (node : Node) : Option (VfsState F) := do
  inodeCheck state node
  match node with
  | .device _ => some state
  | .sfs ino => (volumeStep disk state.volume (.fsync ino)).map fun volume => { state with volume }

/-- `inode_open_dec` -/
def vopOpenDec (node : Node) : Option (VfsState F) :=
  if state.present node then do
    let files ← Fs.inodeOpenDec state.files node
    let state := { state with files }
    if (files.inodes node).openCount = 0 then vopClose disk state node else some state
  else none

/-! ## Directories of `kern/fs/sfs/sfs_inode.c` -/

/-- The end of `sfs_load_inode` for an inode that is not in memory: `sfs_create_inode`. -/
def createInode (fs : SfsFs) (ino : Nat) (din : DiskInode) : Option (Except Int Node × VfsState F) :=
  let created := { state with allocs := state.allocs + 1, volume := { state.volume with fs } }
  if memory state.allocs then
    if sfsGetOps din.type = none then none
    else
      let sin := { din, ino, dirty := false, reclaimCount := 1 }
      let files := created.files.setInode (.sfs ino) { refCount := 1, openCount := 0 }
      some (.ok (.sfs ino), { created with files, volume := state.volume.put ino fs (some sin) })
  else some (.error (-eNoMem), created)

/-- `sfs_load_inode` behind the `kmalloc` of the disk inode. -/
def readInode (ino : Nat) : Option (Except Int Node × VfsState F) := do
  assertInuse state.volume.fs ino
  let (read, fs) ← sfsRbuf disk state.volume.fs diskInodeWords ino 0
  match read with
  | .error ret => some (.error ret, { state with volume := { state.volume with fs } })
  | .ok words =>
      let din := DiskInode.ofWords words
      if din.nlinks = 0 then none else createInode memory state fs ino din

/-- `sfs_load_inode` -/
def sfsLoadInode (ino : Nat) : Option (Except Int Node × VfsState F) :=
  match state.volume.inodes ino with
  | some sin =>
      let files := Fs.inodeRefInc state.files (.sfs ino)
      let first := (files.inodes (.sfs ino)).refCount = 1
      let reclaimCount := if first then sin.reclaimCount + 1 else sin.reclaimCount
      let volume := state.volume.put ino state.volume.fs (some { sin with reclaimCount })
      some (.ok (.sfs ino), { state with files, volume })
  | none =>
      let reading := { state with allocs := state.allocs + 1 }
      if memory state.allocs then readInode disk memory reading ino else some (.error (-eNoMem), reading)

/-- `sfs_lookup_once` in the directory `ino`. -/
def sfsLookupOnce (ino : Nat) (name : Name) : Option (Except Int Node × VfsState F) := do
  let sin ← state.volume.inodes ino
  let (found, _, fs, sin) ← sfsDirentSearchNolock disk (memory state.allocs) state.volume.fs sin name
  let searched := { state with allocs := state.allocs + 1, volume := state.volume.put ino fs (some sin) }
  match found with
  | .error ret => some (.error ret, searched)
  | .ok (_, ino) => sfsLoadInode disk memory searched ino

/-- The byte `'/'`. -/
def slash : NameByte := ⟨47, by decide⟩

/-- The byte `':'`. -/
def colon : NameByte := ⟨58, by decide⟩

theorem dot_nonzero : (46 : Fin 256) ≠ 0 := by decide

/-- The byte `'.'`. -/
def dot : NameByte := ⟨46, dot_nonzero⟩

/-- `sfs_lookup` -/
def sfsLookup (ino : Nat) (path : Name) : Option (Except Int Node × VfsState F) :=
  if path = [] ∨ path.head? = some slash then none
  else do
    let state ← vopRefInc state (.sfs ino)
    let sin ← state.volume.inodes ino
    if sin.din.type ≠ sfsTypeDir then
      (vopRefDec disk state (.sfs ino)).map fun state => (.error (-eNotdir), state)
    else do
      let (found, state) ← sfsLookupOnce disk memory state ino path
      (vopRefDec disk state (.sfs ino)).map fun state => (found, state)

/-- `dev_lookup` -/
def devLookup (index : Nat) (path : Name) : Option (Except Int Node × VfsState F) :=
  if path ≠ [] then some (.error (-eNoent), state)
  else (vopRefInc state (.device index)).map fun state => (.ok (.device index), state)

/-- `vop_lookup`, which files do not have. -/
def vopLookup (node : Node) (path : Name) : Option (Except Int Node × VfsState F) := do
  inodeCheck state node
  match node with
  | .device index => devLookup state index path
  | .sfs ino => do
      let sin ← state.volume.inodes ino
      if sfsGetOps sin.din.type = some true then sfsLookup disk memory state ino path else none

end Ucore.Vfs
