import Ucore.Libs.CString
import Ucore.Sfs.BlockMap

/-!
# Directory entries

A directory of `kern/fs/sfs/sfs_inode.c` has one entry in each of its blocks: an inode
number and a name. An entry without an inode number is empty. A lookup compares the names
one after the other.
-/

namespace Ucore.Volume

/-- `SFS_MAX_FNAME_LEN` -/
def sfsMaxFnameLen : Nat := 255

/-- `struct sfs_disk_entry` -/
structure DiskEntry where
  ino : Nat
  name : Nat → Fin 256

/-- `sizeof(struct sfs_disk_entry)` in words. -/
def diskEntryWords : Nat := 65

/-- A byte of a word, the lowest one first. -/
def byteOf (word index : Nat) : Fin 256 := Fin.ofNat 256 (word / 256 ^ index)

/-- The entry in a block; `sfs_dirent_read_nolock` ends its name. -/
def DiskEntry.ofWords (words : Block) : DiskEntry where
  ino := words 0
  name := fun index => if index = sfsMaxFnameLen then 0 else byteOf (words (index / 4 + 1)) (index % 4)

variable (device : Nat → Int)

/-- `sfs_dirent_read_nolock`; `none` is a panic or a failed assertion, here and below. -/
def sfsDirentReadNolock (fs : SfsFs) (sin : SfsInode) (slot : Nat) :
    Option (Except Int DiskEntry × SfsFs × SfsInode) :=
  if sin.din.type = sfsTypeDir ∧ slot < sin.din.blocks then do
    let (loaded, fs, sin) ← sfsBmapLoadNolock device fs sin slot
    match loaded with
    | .error ret => some (.error ret, fs, sin)
    | .ok ino => do
        assertInuse fs ino
        let (read, fs) ← sfsRbuf device fs diskEntryWords ino 0
        some (read.map DiskEntry.ofWords, fs, sin)
  else none

/-- The loop of `sfs_dirent_search_nolock`, from a slot on, with the slot and the inode
number that it finds, and the empty slot that it stores. -/
def searchSlots (fs : SfsFs) (sin : SfsInode) (name : Name) (slot emptySlot : Nat) :
    Nat → Option (Except Int (Nat × Nat) × Option Nat × SfsFs × SfsInode)
  | 0 => some (.error (-eNoent), some emptySlot, fs, sin)
  | rounds + 1 => do
      let (read, fs, sin) ← sfsDirentReadNolock device fs sin slot
      match read with
      | .error ret => some (.error ret, some emptySlot, fs, sin)
      | .ok entry =>
          if entry.ino = 0 then searchSlots fs sin name (slot + 1) slot rounds
          else if strcmp name entry.name = 0 then some (.ok (slot, entry.ino), some emptySlot, fs, sin)
          else searchSlots fs sin name (slot + 1) emptySlot rounds

/-- `sfs_dirent_search_nolock`, which may find no memory. -/
def sfsDirentSearchNolock (memory : Bool) (fs : SfsFs) (sin : SfsInode) (name : Name) :
    Option (Except Int (Nat × Nat) × Option Nat × SfsFs × SfsInode) :=
  if name.length ≤ sfsMaxFnameLen then
    if memory = false then some (.error (-eNoMem), none, fs, sin)
    else searchSlots device fs sin name 0 sin.din.blocks sin.din.blocks
  else none

end Ucore.Volume
