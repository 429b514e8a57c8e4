import Ucore.Libs.EmbeddedList
import Ucore.Libs.CString
import Ucore.Libs.Error
import Mathlib.Data.Finset.Basic

/-!
# The list of devices

`kern/fs/vfs/vfsdev.c` keeps a circular list of `vfs_dev_t`, each in a block of `kmalloc`
with its name in another one. A device is raw or is one to mount a file system on, and
an entry may be a file system without a device.

All functions but `vfs_get_devname` hold the lock of the list, so each call is one step.
Inodes and file systems are arbitrary, with the results of their operations; `kmalloc`
returns the block given, or none. A null pointer, a failed assertion, the use of a block
that is not held and a loop out of fuel are `none`.
-/

namespace Ucore.DevList

open CircularList EmbeddedList

def eTooBig : Int := 12
def eNoDev : Int := 13
def eNaDev : Int := 14
def eExists : Int := 23

/-- `FS_MAX_DNAME_LEN` -/
def fsMaxDnameLen : Nat := 31

variable {N S : Type}

/-- `vfs_dev_t`; the name is a pointer. -/
structure VfsDev (N S : Type) where
  devname : Nat
  devnode : Option N
  fs : Option S
  mountable : Bool

/-- The links of `vdev_list`, the entries and the names in the blocks of `kmalloc`, and the
blocks that are held. -/
structure DevMemory (N S : Type) where
  links : Links (Entry Nat)
  vdev : Nat → VfsDev N S
  text : Nat → Name
  held : Finset Nat

/-! ## Blocks of memory -/

/-- `kmalloc`, which returns a block that is not held. -/
def kmalloc (memory : DevMemory N S) (block : Nat) : Option (DevMemory N S) :=
  if block ∈ memory.held then none else some { memory with held := insert block memory.held }

def kfree (memory : DevMemory N S) (block : Nat) : Option (DevMemory N S) :=
  if block ∈ memory.held then some { memory with held := memory.held.erase block } else none

/-- `strdup`, in the block given. -/
def strdup (memory : DevMemory N S) (src : Name) (block : Nat) : Option (DevMemory N S) :=
  (kmalloc memory block).map fun memory => { memory with text := Function.update memory.text block src }

/-- The entry at an address. -/
def readVdev (memory : DevMemory N S) (vdev : Nat) : Option (VfsDev N S) :=
  if vdev ∈ memory.held then some (memory.vdev vdev) else none

/-- A write to an entry. -/
def writeVdev (memory : DevMemory N S) (vdev : Nat) (fields : VfsDev N S) : Option (DevMemory N S) :=
  if vdev ∈ memory.held then some { memory with vdev := Function.update memory.vdev vdev fields } else none

/-- The name of an entry. -/
def readName (memory : DevMemory N S) (fields : VfsDev N S) : Option Name :=
  if fields.devname ∈ memory.held then some (memory.text fields.devname) else none

/-! ## Walks -/

/-- The loop of the functions that look for an entry: the first one that passes the test. -/
def findVdev (memory : DevMemory N S) (test : VfsDev N S → Option Bool) : Nat → Entry Nat → Option (Option Nat)
  | 0, _ => none
  | _ + 1, .head => some none
  | fuel + 1, .link vdev => do
      let fields ← readVdev memory vdev
      if ← test fields then some (some vdev)
      else findVdev memory test fuel (listNext memory.links (.link vdev))

/-- `strcmp(vdev->devname, devname) == 0` -/
def isNamed (memory : DevMemory N S) (devname : Name) (fields : VfsDev N S) : Option Bool :=
  (readName memory fields).map fun name => decide (name = devname)

variable (fuel : Nat) (memory : DevMemory N S)

/-- `check_devname_conflict`: whether the name is free. -/
def checkDevnameConflict (devname : Name) : Option Bool :=
  (findVdev memory (isNamed memory devname) fuel (listNext memory.links .head)).map Option.isNone

/-- `find_mount` -/
def findMount (devname : Name) : Option (Except Int Nat) := do
  let found ← findVdev memory (fun fields => if fields.mountable then isNamed memory devname fields else some false)
    fuel (listNext memory.links .head)
  match found with
  | some vdev => some (.ok vdev)
  | none => some (.error (-eNoDev))

/-- What `vfs_get_root` finds: the root of a file system, by `fsop_get_root`, or the inode of a
device, with a reference taken. -/
inductive Root (N S : Type) where
  | fs (fs : S)
  | devnode (node : N)

/-- `vfs_get_root` -/
def vfsGetRoot (devname : Name) : Option (Except Int (Root N S)) :=
  if listEmpty memory.links .head then some (.error (-eNoDev))
  else do
    let found ← findVdev memory (isNamed memory devname) fuel (listNext memory.links .head)
    match found with
    | none => some (.error (-eNoDev))
    | some vdev => do
        let fields ← readVdev memory vdev
        match fields.fs, fields.mountable with
        | some fs, _ => some (.ok (.fs fs))
        | none, true => some (.error (-eNaDev))
        | none, false => fields.devnode.map fun node => .ok (.devnode node)

/-- `vfs_get_devname` -/
def vfsGetDevname [DecidableEq S] (fs : S) : Option (Option Name) := do
  let found ← findVdev memory (fun fields => some (decide (fields.fs = some fs))) fuel (listNext memory.links .head)
  match found with
  | none => some none
  | some vdev => do
      let fields ← readVdev memory vdev
      (readName memory fields).map some

/-! ## Changes -/

/-- `vfs_do_add`, with the results of the two calls of `kmalloc`. -/
def vfsDoAdd (devname : Name) (devnode : Option N) (fs : Option S) (mountable : Bool) (first second : Option Nat) :
    Option (Int × DevMemory N S) :=
  if devnode.isNone ∧ mountable then none
  else if devname.length > fsMaxDnameLen then some (-eTooBig, memory)
  else
    match first with
    | none => some (-eNoMem, memory)
    | some sDevname => do
        let memory ← strdup memory devname sDevname
        match second with
        | none => do
            let memory ← kfree memory sDevname
            some (-eNoMem, memory)
        | some vdev => do
            let memory ← kmalloc memory vdev
            if ← checkDevnameConflict fuel memory devname then do
              let memory ← writeVdev memory vdev { devname := sDevname, devnode, fs, mountable }
              some (0, { memory with links := listAdd memory.links .head (.link vdev) })
            else do
              let memory ← kfree memory vdev
              let memory ← kfree memory sDevname
              some (-eExists, memory)

/-- `vfs_add_fs` -/
def vfsAddFs (devname : Name) (fs : S) (first second : Option Nat) : Option (Int × DevMemory N S) :=
  vfsDoAdd fuel memory devname none (some fs) false first second

/-- `vfs_add_dev` -/
def vfsAddDev (devname : Name) (devnode : N) (mountable : Bool) (first second : Option Nat) :
    Option (Int × DevMemory N S) :=
  vfsDoAdd fuel memory devname (some devnode) none mountable first second

/-- `vfs_mount`, with the result of `mountfunc` and the file system that it stores. -/
def vfsMount (devname : Name) (result : Int) (stored : Option S) : Option (Int × DevMemory N S) := do
  match ← findMount fuel memory devname with
  | .error ret => some (ret, memory)
  | .ok vdev => do
      let fields ← readVdev memory vdev
      if fields.fs.isSome then some (-eBusy, memory)
      else if fields.mountable = false ∨ fields.devnode.isNone then none
      else do
        let memory ← writeVdev memory vdev { fields with fs := stored }
        if result = 0 ∧ stored.isNone then none else some (result, memory)

/-- `vfs_unmount`, with the results of `fsop_sync` and `fsop_unmount`. -/
def vfsUnmount (devname : Name) (synced unmounted : Int) : Option (Int × DevMemory N S) := do
  match ← findMount fuel memory devname with
  | .error ret => some (ret, memory)
  | .ok vdev => do
      let fields ← readVdev memory vdev
      if fields.fs.isNone then some (-eInval, memory)
      else if fields.mountable = false then none
      else if synced ≠ 0 then some (synced, memory)
      else if unmounted ≠ 0 then some (unmounted, memory)
      else do
        let memory ← writeVdev memory vdev { fields with fs := none }
        some (0, memory)

/-- The loop of `vfs_unmount_all`; `results` are those of `fsop_sync` and `fsop_unmount`. -/
def unmountLoop (results : S → Int × Int) : Nat → Entry Nat → DevMemory N S → Option (DevMemory N S)
  | 0, _, _ => none
  | _ + 1, .head, memory => some memory
  | fuel + 1, .link vdev, memory => do
      let fields ← readVdev memory vdev
      let next := listNext memory.links (.link vdev)
      match fields.fs with
      | none => unmountLoop results fuel next memory
      | some fs =>
          if fields.mountable = false ∨ (results fs).1 ≠ 0 ∨ (results fs).2 ≠ 0 then unmountLoop results fuel next memory
          else do
            let memory ← writeVdev memory vdev { fields with fs := none }
            unmountLoop results fuel next memory

/-- `vfs_unmount_all` -/
def vfsUnmountAll (results : S → Int × Int) : Option (Int × DevMemory N S) :=
  if listEmpty memory.links .head then some (0, memory)
  else (unmountLoop results fuel (listNext memory.links .head) memory).map fun memory => (0, memory)

/-- `vfs_devlist_init` -/
def vfsDevlistInit : DevMemory N S := { memory with links := listInit memory.links .head }

end Ucore.DevList
