import Mathlib.Data.List.Basic
import Mathlib.Logic.Function.Basic

/-!
# The inode cache of SFS

`kern/fs/sfs/sfs_inode.c` keeps one in-memory inode for each disk inode in use. An
inode is found through a hash list by its number; its `ref_count` counts the
references handed out, and its `reclaim_count` the reasons to keep it in memory.

`sfs_load_inode` and `sfs_reclaim` run under `fs_sem` and may sleep in a disk
operation, so each is split there. What the disk operations return is an argument.
Left out are the contents of the disk inode, its semaphore and the freemap.
-/

namespace Ucore.Sfs

def eNoMem : Int := 4
def eBusy : Int := 15

/-- `hash32` -/
def hash32 (value : BitVec 32) (bits : Nat) : BitVec 32 := (value * 0x9e370001#32) >>> (32 - bits)

/-- `sin_hashfn`, with `SFS_HLIST_SHIFT` bits. -/
def sinHashfn (ino : BitVec 32) : BitVec 32 := hash32 ino 10

/-- The fields of `struct inode`, of its `struct sfs_inode` and of the disk inode
that decide about its life. -/
structure SfsInode where
  refCount : Int
  ino : BitVec 32
  dirty : Bool
  reclaimCount : Int
  nlinks : BitVec 16
deriving DecidableEq

universe u
variable {N : Type u} [DecidableEq N]

/-- `inode_list`, `hash_list` and the inodes in memory. -/
structure SfsCache (N : Type u) where
  nodes : N → SfsInode
  inodeList : List N
  hashList : BitVec 32 → List N

def SfsCache.setNode (cache : SfsCache N) (node : N) (sin : SfsInode) : SfsCache N :=
  { cache with nodes := Function.update cache.nodes node sin }

@[simp] theorem SfsCache.setNode_inodeList (cache : SfsCache N) (node : N) (sin : SfsInode) :
    (cache.setNode node sin).inodeList = cache.inodeList := rfl

@[simp] theorem SfsCache.setNode_hashList (cache : SfsCache N) (node : N) (sin : SfsInode) :
    (cache.setNode node sin).hashList = cache.hashList := rfl

theorem SfsCache.setNode_nodes (cache : SfsCache N) (node other : N) (sin : SfsInode) :
    (cache.setNode node sin).nodes other = if other = node then sin else cache.nodes other :=
  Function.update_apply _ _ _ _

/-- `list_add` to both lists. -/
def sfsSetLinks (cache : SfsCache N) (node : N) : SfsCache N :=
  let bucket := sinHashfn (cache.nodes node).ino
  { cache with
    inodeList := node :: cache.inodeList
    hashList := Function.update cache.hashList bucket (node :: cache.hashList bucket) }

/-- `list_del` from both lists. -/
def sfsRemoveLinks (cache : SfsCache N) (node : N) : SfsCache N :=
  let bucket := sinHashfn (cache.nodes node).ino
  { cache with
    inodeList := cache.inodeList.erase node
    hashList := Function.update cache.hashList bucket ((cache.hashList bucket).erase node) }

def inodeRefInc (cache : SfsCache N) (node : N) : Int × SfsCache N :=
  let sin := cache.nodes node
  (sin.refCount + 1, cache.setNode node { sin with refCount := sin.refCount + 1 })

/-- `inode_ref_dec` before its call of `vop_reclaim`, which is due when the result
is 0; `none` is the failed assertion on the count. -/
def inodeRefDec (cache : SfsCache N) (node : N) : Option (Int × SfsCache N) :=
  let sin := cache.nodes node
  if 0 < sin.refCount then
    some (sin.refCount - 1, cache.setNode node { sin with refCount := sin.refCount - 1 })
  else none

/-- `vop_init` sets the reference count to 0 and takes the first reference. -/
def sfsCreateInode (cache : SfsCache N) (node : N) (ino : BitVec 32) (nlinks : BitVec 16) : SfsCache N :=
  cache.setNode node { refCount := 1, ino, dirty := false, reclaimCount := 1, nlinks }

def lookupSfsNolock (cache : SfsCache N) (ino : BitVec 32) : Option N × SfsCache N :=
  match (cache.hashList (sinHashfn ino)).find? fun node => (cache.nodes node).ino = ino with
  | some node =>
      let (refCount, cache) := inodeRefInc cache node
      if refCount = 1 then
        let sin := cache.nodes node
        (some node, cache.setNode node { sin with reclaimCount := sin.reclaimCount + 1 })
      else (some node, cache)
  | none => (none, cache)

/-- `sfs_load_inode` returns, or goes on to read the disk inode. -/
inductive LoadResult (N : Type u) where
  | returned (ret : Except Int N)
  | reading

/-- `sfs_load_inode` up to the read of the disk inode; `din` tells whether there is
memory for it. -/
def sfsLoadInodeEnter (cache : SfsCache N) (ino : BitVec 32) (din : Bool) : LoadResult N × SfsCache N :=
  match lookupSfsNolock cache ino with
  | (some node, cache) => (.returned (.ok node), cache)
  | (none, cache) => if din then (.reading, cache) else (.returned (.error (-eNoMem)), cache)

/-- `sfs_load_inode` from there on. The read fails or gives the link count; `node` is
what `alloc_inode` returns. A disk inode without links fails an assertion. -/
def sfsLoadInodeFinish (cache : SfsCache N) (ino : BitVec 32) (read : Except Int (BitVec 16))
    (node : Option N) : Option (Except Int N × SfsCache N) :=
  match read with
  | .error ret => some (.error ret, cache)
  | .ok nlinks =>
      if nlinks = 0 then none
      else
        match node with
        | none => some (.error (-eNoMem), cache)
        | some node => some (.ok node, sfsSetLinks (sfsCreateInode cache node ino nlinks) node)

/-- The head of the critical section of `sfs_reclaim`: whether this call is the one
that frees the inode, or else its result. -/
def sfsReclaimEnter (cache : SfsCache N) (node : N) : Option (Option Int × SfsCache N) :=
  let sin := cache.nodes node
  if 0 < sin.reclaimCount then
    let sin := { sin with reclaimCount := sin.reclaimCount - 1 }
    let cache := cache.setNode node sin
    if sin.reclaimCount ≠ 0 ∨ sin.refCount ≠ 0 then some (some (-eBusy), cache) else some (none, cache)
  else none

/-- The result of `vop_truncate` to length 0 and the dirty flag it leaves; the result
of `vop_fsync`. -/
structure ReclaimIo where
  truncate : Int
  truncateDirty : Bool
  fsync : Int
deriving DecidableEq

/-- The rest of `sfs_reclaim`. A failure leaves the inode in the cache with both
counts 0; `none` is the assertion of `inode_kill`. -/
def sfsReclaimFinish (cache : SfsCache N) (node : N) (io : ReclaimIo) : Option (Int × SfsCache N) :=
  let sin := cache.nodes node
  let truncated := if sin.nlinks = 0 then (io.truncate, io.truncateDirty) else (0, sin.dirty)
  if truncated.1 ≠ 0 then some (truncated.1, cache.setNode node { sin with dirty := truncated.2 })
  else
    let synced := if truncated.2 then (io.fsync, decide (io.fsync ≠ 0)) else (0, false)
    let cache := cache.setNode node { sin with dirty := synced.2 }
    if synced.1 ≠ 0 then some (synced.1, cache)
    else
      let cache := sfsRemoveLinks cache node
      if (cache.nodes node).refCount = 0 then some (0, cache) else none

end Ucore.Sfs
