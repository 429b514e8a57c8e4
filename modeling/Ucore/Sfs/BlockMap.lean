import Ucore.Sfs.BlockIo

/-!
# The blocks of an inode

`kern/fs/sfs/sfs_inode.c` maps the blocks of a file through twelve direct pointers and
the entries of one indirect block. Growing a file allocates blocks, and shrinking it
frees them; `sfs_reclaim` frees the rest. An operation may fail at any call of the
device and then undoes what it can.
-/

namespace Ucore.Volume

/-- `SFS_MAX_FILE_SIZE` -/
def sfsMaxFileSize : Nat := 1024 * 1024 * 128

/-- `SFS_BLKSIZE` in bytes. -/
def sfsBlksize : Nat := 4096

def sfsTypeFile : Nat := 1
def sfsTypeDir : Nat := 2
def sfsTypeLink : Nat := 3

/-- `struct sfs_inode` without its lock and its links. -/
structure SfsInode where
  din : DiskInode
  ino : Nat
  dirty : Bool
  reclaimCount : Int

/-- A change of the disk inode that is not yet on disk. -/
def SfsInode.modify (sin : SfsInode) (din : DiskInode) : SfsInode := { sin with din, dirty := true }

variable (device : Nat → Int)

/-- `sfs_block_inuse`; `none` is a panic or a failed assertion, here and below. -/
def sfsBlockInuse (fs : SfsFs) (ino : Nat) : Option Bool :=
  if ino ≠ 0 ∧ ino < fs.super.blocks then (bitmapTest fs.freemap ino).map not else none

/-- `assert(sfs_block_inuse(sfs, ino))` -/
def assertInuse (fs : SfsFs) (ino : Nat) : Option Unit :=
  if sfsBlockInuse fs ino = some true then some () else none

/-- `sfs_block_alloc` behind `bitmap_alloc`. -/
def takeBlock (fs : SfsFs) (freemap : Bitmap) (ino : Nat) : Option (Except Int Nat × SfsFs) :=
  if 0 < fs.super.unusedBlocks then do
    let super := { fs.super with unusedBlocks := fs.super.unusedBlocks - 1 }
    let taken := { fs with super, freemap, superDirty := true }
    assertInuse taken ino
    let (ret, cleared) ← sfsClearBlock device taken ino 1
    some (if ret = 0 then .ok ino else .error ret, cleared)
  else none

/-- `sfs_block_alloc` -/
def sfsBlockAlloc (fs : SfsFs) : Option (Except Int Nat × SfsFs) := do
  let (found, freemap) ← bitmapAlloc fs.freemap
  match found with
  | .error ret => some (.error ret, fs)
  | .ok ino => takeBlock device fs freemap ino

/-- `sfs_block_free` -/
def sfsBlockFree (fs : SfsFs) (ino : Nat) : Option SfsFs := do
  assertInuse fs ino
  let freemap ← bitmapFree fs.freemap ino
  let super := { fs.super with unusedBlocks := fs.super.unusedBlocks + 1 }
  some { fs with super, freemap, superDirty := true }

/-- `failed_cleanup` of `sfs_bmap_get_sub_nolock`: a new entry block is freed. -/
def failedCleanup (fs : SfsFs) (entp ent : Nat) (ret : Int) : Option (Except Int (Nat × Nat) × SfsFs) :=
  if ent ≠ entp then (sfsBlockFree fs ent).map fun fs => (.error ret, fs) else some (.error ret, fs)

/-- The end of `sfs_bmap_get_sub_nolock`: a new block for an entry of the block `ent`. -/
def newEntry (fs : SfsFs) (entp ent index : Nat) : Option (Except Int (Nat × Nat) × SfsFs) := do
  let (allocated, fs) ← sfsBlockAlloc device fs
  match allocated with
  | .error ret => failedCleanup fs entp ent ret
  | .ok ino => do
      let (ret, fs) ← sfsWbuf device fs (fun _ => ino) 1 ent index
      if ret ≠ 0 then do
        let fs ← sfsBlockFree fs ino
        failedCleanup fs entp ent ret
      else some (.ok (ent, ino), fs)

/-- `sfs_bmap_get_sub_nolock`, with the entry block and the block it finds. -/
def sfsBmapGetSubNolock (fs : SfsFs) (entp index : Nat) (create : Bool) :
    Option (Except Int (Nat × Nat) × SfsFs) :=
  if index < sfsBlkNentry then
    if entp ≠ 0 then do
      let (read, fs) ← sfsRbuf device fs 1 entp index
      match read with
      | .error ret => some (.error ret, fs)
      | .ok words =>
          if words 0 ≠ 0 ∨ create = false then some (.ok (entp, words 0), fs)
          else newEntry device fs entp entp index
    else if create = false then some (.ok (entp, 0), fs)
    else do
      let (allocated, fs) ← sfsBlockAlloc device fs
      match allocated with
      | .error ret => some (.error ret, fs)
      | .ok ent => newEntry device fs entp ent index
  else none

/-- The end of `sfs_bmap_get_nolock`. -/
def found (fs : SfsFs) (sin : SfsInode) (ino : Nat) : Option (Except Int Nat × SfsFs × SfsInode) :=
  if ino = 0 then some (.ok ino, fs, sin) else do
    assertInuse fs ino
    some (.ok ino, fs, sin)

/-- `sfs_bmap_get_nolock` below `SFS_NDIRECT`. -/
def getDirect (fs : SfsFs) (sin : SfsInode) (index : Nat) (create : Bool) :
    Option (Except Int Nat × SfsFs × SfsInode) :=
  if sin.din.direct index = 0 ∧ create = true then do
    let (allocated, fs) ← sfsBlockAlloc device fs
    match allocated with
    | .error ret => some (.error ret, fs, sin)
    | .ok ino =>
        let direct := Function.update sin.din.direct index ino
        found fs (sin.modify { sin.din with direct }) ino
  else found fs sin (sin.din.direct index)

/-- `sfs_bmap_get_nolock` behind the direct pointers. -/
def getIndirect (fs : SfsFs) (sin : SfsInode) (index : Nat) (create : Bool) :
    Option (Except Int Nat × SfsFs × SfsInode) := do
  let (result, fs) ← sfsBmapGetSubNolock device fs sin.din.indirect index create
  match result with
  | .error ret => some (.error ret, fs, sin)
  | .ok (ent, ino) =>
      if ent = sin.din.indirect then found fs sin ino
      else if sin.din.indirect = 0 then found fs (sin.modify { sin.din with indirect := ent }) ino
      else none

/-- `sfs_bmap_get_nolock`; an index behind the indirect entries is a panic. -/
def sfsBmapGetNolock (fs : SfsFs) (sin : SfsInode) (index : Nat) (create : Bool) :
    Option (Except Int Nat × SfsFs × SfsInode) :=
  if index < sfsNdirect then getDirect device fs sin index create
  else if index - sfsNdirect < sfsBlkNentry then getIndirect device fs sin (index - sfsNdirect) create
  else none

/-- `sfs_bmap_free_sub_nolock` -/
def sfsBmapFreeSubNolock (fs : SfsFs) (ent index : Nat) : Option (Int × SfsFs) := do
  assertInuse fs ent
  let (read, fs) ← sfsRbuf device fs 1 ent index
  match read with
  | .error ret => some (ret, fs)
  | .ok words =>
      if words 0 = 0 then some (0, fs)
      else do
        let (ret, fs) ← sfsWbuf device fs (fun _ => 0) 1 ent index
        if ret ≠ 0 then some (ret, fs) else (sfsBlockFree fs (words 0)).map fun fs => (0, fs)

/-- `sfs_bmap_free_nolock` -/
def sfsBmapFreeNolock (fs : SfsFs) (sin : SfsInode) (index : Nat) : Option (Int × SfsFs × SfsInode) :=
  if index < sfsNdirect then
    if sin.din.direct index ≠ 0 then do
      let fs ← sfsBlockFree fs (sin.din.direct index)
      let direct := Function.update sin.din.direct index 0
      some (0, fs, sin.modify { sin.din with direct })
    else some (0, fs, sin)
  else if index - sfsNdirect < sfsBlkNentry ∧ sin.din.indirect ≠ 0 then
    (sfsBmapFreeSubNolock device fs sin.din.indirect (index - sfsNdirect)).map fun (ret, fs) => (ret, fs, sin)
  else some (0, fs, sin)

/-- `sfs_bmap_load_nolock` -/
def sfsBmapLoadNolock (fs : SfsFs) (sin : SfsInode) (index : Nat) : Option (Except Int Nat × SfsFs × SfsInode) :=
  if index ≤ sin.din.blocks then do
    let create := decide (index = sin.din.blocks)
    let (result, fs, sin) ← sfsBmapGetNolock device fs sin index create
    match result with
    | .error ret => some (.error ret, fs, sin)
    | .ok ino => do
        assertInuse fs ino
        let blocks := if create then sin.din.blocks + 1 else sin.din.blocks
        some (.ok ino, fs, { sin with din := { sin.din with blocks } })
  else none

/-- `sfs_bmap_truncate_nolock` -/
def sfsBmapTruncateNolock (fs : SfsFs) (sin : SfsInode) : Option (Int × SfsFs × SfsInode) :=
  if sin.din.blocks ≠ 0 then do
    let (ret, fs, sin) ← sfsBmapFreeNolock device fs sin (sin.din.blocks - 1)
    if ret ≠ 0 then some (ret, fs, sin)
    else some (0, fs, sin.modify { sin.din with blocks := sin.din.blocks - 1 })
  else none

/-- The loop of `sfs_truncfile` that enlarges the file. -/
def growBlocks (fs : SfsFs) (sin : SfsInode) (nblks : Nat) : Nat → Option (Int × SfsFs × SfsInode)
  | 0 => some (0, fs, sin)
  | rounds + 1 => do
      let (result, fs, sin) ← sfsBmapLoadNolock device fs sin nblks
      match result with
      | .error ret => some (ret, fs, sin)
      | .ok _ => growBlocks fs sin (nblks + 1) rounds

/-- The loop of `sfs_truncfile` that reduces the file. -/
def shrinkBlocks (fs : SfsFs) (sin : SfsInode) : Nat → Option (Int × SfsFs × SfsInode)
  | 0 => some (0, fs, sin)
  | rounds + 1 => do
      let (ret, fs, sin) ← sfsBmapTruncateNolock device fs sin
      if ret ≠ 0 then some (ret, fs, sin) else shrinkBlocks fs sin rounds

/-- `sfs_truncfile` between its locks. -/
def resize (fs : SfsFs) (sin : SfsInode) (tblks : Nat) : Option (Int × SfsFs × SfsInode) :=
  if sin.din.blocks < tblks then growBlocks device fs sin sin.din.blocks (tblks - sin.din.blocks)
  else shrinkBlocks device fs sin (sin.din.blocks - tblks)

/-- `sfs_truncfile` -/
def sfsTruncfile (fs : SfsFs) (sin : SfsInode) (len : Int) : Option (Int × SfsFs × SfsInode) :=
  if len < 0 ∨ sfsMaxFileSize < len then some (-eInval, fs, sin)
  else
    let tblks := (len.toNat + sfsBlksize - 1) / sfsBlksize
    if sin.din.size = len then
      if tblks = sin.din.blocks then some (0, fs, sin) else none
    else do
      let (ret, fs, sin) ← resize device fs sin tblks
      if ret ≠ 0 then some (ret, fs, sin)
      else if sin.din.blocks = tblks then some (0, fs, sin.modify { sin.din with size := len.toNat })
      else none

/-- `vop_truncate`, which directories do not have. -/
def vopTruncate (fs : SfsFs) (sin : SfsInode) (len : Int) : Option (Int × SfsFs × SfsInode) :=
  if sin.din.type = sfsTypeFile then sfsTruncfile device fs sin len else none

/-- `sfs_tryseek` -/
def sfsTryseek (fs : SfsFs) (sin : SfsInode) (pos : Int) : Option (Int × SfsFs × SfsInode) :=
  if pos < 0 ∨ sfsMaxFileSize ≤ pos then some (-eInval, fs, sin)
  else if sin.din.size < pos then vopTruncate device fs sin pos
  else some (0, fs, sin)

/-- `sfs_fsync` -/
def sfsFsync (fs : SfsFs) (sin : SfsInode) : Option (Int × SfsFs × SfsInode) :=
  if sin.dirty then do
    let (ret, fs) ← sfsWbuf device fs sin.din.words diskInodeWords sin.ino 0
    some (ret, fs, { sin with dirty := decide (ret ≠ 0) })
  else some (0, fs, sin)

/-- `sfs_reclaim` frees the blocks of a file without links. -/
def reclaimTruncate (fs : SfsFs) (sin : SfsInode) : Option (Int × SfsFs × SfsInode) :=
  if sin.din.nlinks = 0 then vopTruncate device fs sin 0 else some (0, fs, sin)

/-- `sfs_reclaim` up to `sfs_remove_links`: what is dirty is written. -/
def reclaimSync (fs : SfsFs) (sin : SfsInode) : Option (Int × SfsFs × SfsInode) := do
  let (ret, fs, sin) ← reclaimTruncate device fs sin
  if ret ≠ 0 then some (ret, fs, sin) else if sin.dirty then sfsFsync device fs sin else some (0, fs, sin)

/-- `sfs_reclaim` behind `sfs_remove_links`. -/
def reclaimFree (fs : SfsFs) (sin : SfsInode) : Option SfsFs :=
  if sin.din.nlinks = 0 then do
    let fs ← sfsBlockFree fs sin.ino
    if sin.din.indirect ≠ 0 then sfsBlockFree fs sin.din.indirect else some fs
  else some fs

/-- `sfs_reclaim`; the inode stays in memory unless the result is 0. -/
def sfsReclaim (fs : SfsFs) (sin : SfsInode) (refCount : Int) : Option (Int × SfsFs × Option SfsInode) :=
  if 0 < sin.reclaimCount then
    let sin := { sin with reclaimCount := sin.reclaimCount - 1 }
    if sin.reclaimCount ≠ 0 ∨ refCount ≠ 0 then some (-eBusy, fs, some sin)
    else do
      let (ret, fs, sin) ← reclaimSync device fs sin
      if ret ≠ 0 then some (ret, fs, some sin)
      else do
        let fs ← reclaimFree fs sin
        some (0, fs, none)
  else none

end Ucore.Volume
