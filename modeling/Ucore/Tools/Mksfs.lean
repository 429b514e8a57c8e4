import Mathlib.Data.List.Basic
import Ucore.Libs.CString
import Ucore.Sfs.BlockIo

/-!
# The image builder

`tools/mksfs.c` writes a directory of the host into an image. Blocks are handed out in
order. Data blocks are written at once, inodes and the blocks of pointers when the image
is closed, and then also the freemap and the superblock.

A pointer to a cached block or inode is modelled by its block number. The files of the
host are given by what the system calls return.
-/

namespace Ucore.Mksfs

open Volume

def sfsMagic : Nat := 0x2f8dbe2a
def sfsMaxNblks : Nat := 1024 * 512
def sfsMaxFnameLen : Nat := 255
def sfsBlknRoot : Nat := 1

/-- `SFS_L1_NBLKS` -/
def sfsL1Nblks : Nat := sfsBlkNentry + sfsNdirect

/-- `SFS_L2_NBLKS` -/
def sfsL2Nblks : Nat := sfsBlkNentry * sfsBlkNentry + sfsL1Nblks

/-- `SFS_LN_NBLKS`, the blocks of a file of `SFS_MAX_FILE_SIZE`. -/
def sfsLnNblks : Nat := 32768

/-- `SFS_TYPE_FILE`, `SFS_TYPE_DIR` and `SFS_TYPE_LINK`. -/
def typeFile : Nat := 1
def typeDir : Nat := 2
def typeLink : Nat := 3

/-- `struct cache_inode`. The last two fields are history: the blocks appended, and the
names added with their inode numbers. -/
structure CacheInode where
  din : DiskInode
  dbIndirect : Nat
  real : Nat
  ino : Nat
  nblks : Nat
  l1 : Option Nat
  l2 : Option Nat
  appended : List Nat
  added : List (Name × Nat)

/-- The words of `struct inode`, which has one pointer more than that of the kernel. -/
def CacheInode.words (file : CacheInode) : Block := fun index =>
  if index < diskInodeWords then file.din.words index else if index = diskInodeWords then file.dbIndirect else 0

/-- `struct sfs_fs` of the builder, with the image and the static buffer of `add_entry`. The
last field is history: the blocks that `sfs_alloc_ino` returned. -/
structure Image where
  super : Super
  disk : Nat → Block
  ninos : Nat
  nextIno : Nat
  cache : Nat → Block
  blocks : BitVec 32 → List Nat
  files : Nat → CacheInode
  inodes : BitVec 32 → List Nat
  entryName : Nat → Fin 256
  allocated : List Nat

def Image.setFile (sfs : Image) (file : Nat) (fields : CacheInode) : Image :=
  { sfs with files := Function.update sfs.files file fields }

/-- A word of a cached block. -/
def Image.setCache (sfs : Image) (block index word : Nat) : Image :=
  { sfs with cache := Function.update sfs.cache block (Function.update (sfs.cache block) index word) }

/-- `hash32`, and `hash64` of the low bits. -/
def hash32 (value : Nat) : BitVec 32 := (BitVec.ofNat 32 value * 0x9e370001#32) >>> 22

/-- `sfs_alloc_ino`; `none` is a failed assertion or an error that ends the program, here
and below. -/
def sfsAllocIno (sfs : Image) : Option (Nat × Image) :=
  if sfs.nextIno < sfs.ninos then
    some (sfs.nextIno, { sfs with
      nextIno := sfs.nextIno + 1
      super := { sfs.super with unusedBlocks := sfs.super.unusedBlocks - 1 }
      allocated := sfs.allocated ++ [sfs.nextIno] })
  else none

/-- A new cached block, in the bucket of the number that the caller gave. -/
def cacheBlock (sfs : Image) (ino block : Nat) : Image :=
  { sfs with
    cache := Function.update sfs.cache block fun _ => 0
    blocks := Function.update sfs.blocks (hash32 ino) (block :: sfs.blocks (hash32 ino)) }

/-- `alloc_cache_block` -/
def allocCacheBlock (sfs : Image) (ino : Nat) : Option (Nat × Image) :=
  if ino ≠ 0 then some (ino, cacheBlock sfs ino ino)
  else (sfsAllocIno sfs).map fun (block, sfs) => (block, cacheBlock sfs ino block)

/-- `search_cache_block` -/
def searchCacheBlock (sfs : Image) (ino : Nat) : Option Nat :=
  (sfs.blocks (hash32 ino)).find? fun block => block = ino

/-- A new cached inode. -/
def cacheInode (sfs : Image) (real ino type : Nat) : Image :=
  { sfs with
    files := Function.update sfs.files ino {
      din := { size := 0, type, nlinks := 0, blocks := 0, direct := fun _ => 0, indirect := 0 }
      dbIndirect := 0
      real
      ino
      nblks := 0
      l1 := none
      l2 := none
      appended := []
      added := [] }
    inodes := Function.update sfs.inodes (hash32 real) (ino :: sfs.inodes (hash32 real)) }

/-- `alloc_cache_inode` -/
def allocCacheInode (sfs : Image) (real ino type : Nat) : Option (Nat × Image) :=
  if ino ≠ 0 then some (ino, cacheInode sfs real ino type)
  else (sfsAllocIno sfs).map fun (block, sfs) => (block, cacheInode sfs real block type)

/-- `search_cache_inode` -/
def searchCacheInode (sfs : Image) (real : Nat) : Option Nat :=
  (sfs.inodes (hash32 real)).find? fun ino => (sfs.files ino).real = real

/-- `write_block`, with the words of the block it fills up. -/
def writeBlock (sfs : Image) (words : Block) (ino : Nat) : Option Image :=
  if ino < sfs.ninos then some { sfs with disk := Function.update sfs.disk ino words } else none

/-- `update_cache`, with the block that the pointer and the cache name in the end. -/
def updateCache (sfs : Image) (cached : Option Nat) (ino : Nat) : Option (Nat × Image) :=
  if ino = 0 then allocCacheBlock sfs 0
  else if cached = some ino then some (ino, sfs)
  else (searchCacheBlock sfs ino).map fun block => (block, sfs)

/-- `update_cache` of `l1` and `indirect`. -/
def Image.linkIndirect (sfs : Image) (file block : Nat) : Image :=
  let fields := sfs.files file
  sfs.setFile file { fields with l1 := some block, din := { fields.din with indirect := block } }

/-- `update_cache` of `l2` and `db_indirect`. -/
def Image.linkDouble (sfs : Image) (file block : Nat) : Image :=
  sfs.setFile file { sfs.files file with l2 := some block, dbIndirect := block }

/-- `update_cache` of `l1` and an entry of the block `l2`. -/
def Image.linkTable (sfs : Image) (file l2 index block : Nat) : Image :=
  (sfs.setFile file { sfs.files file with l1 := some block }).setCache l2 index block

/-- The pointer of `append_block` behind the direct ones. -/
def appendIndirect (sfs : Image) (file index ino : Nat) : Option Image := do
  let (l1, sfs) ← updateCache sfs (sfs.files file).l1 (sfs.files file).din.indirect
  some ((sfs.linkIndirect file l1).setCache l1 index ino)

/-- The pointer of `append_block` in a block named by the double indirect block. -/
def appendDouble (sfs : Image) (file index ino : Nat) : Option Image := do
  let (l2, sfs) ← updateCache sfs (sfs.files file).l2 (sfs.files file).dbIndirect
  let sfs := sfs.linkDouble file l2
  let (l1, sfs) ← updateCache sfs (sfs.files file).l1 (sfs.cache l2 (index / sfsBlkNentry))
  let sfs := sfs.linkTable file l2 (index / sfsBlkNentry) l1
  some (sfs.setCache l1 (index % sfsBlkNentry) ino)

/-- The pointer that `append_block` stores. -/
def appendPointer (sfs : Image) (file nblks ino : Nat) : Option Image :=
  if nblks < sfsNdirect then
    let fields := sfs.files file
    some (sfs.setFile file
      { fields with din := { fields.din with direct := Function.update fields.din.direct nblks ino } })
  else if nblks < sfsL1Nblks then appendIndirect sfs file (nblks - sfsNdirect) ino
  else if nblks < sfsL2Nblks then appendDouble sfs file (nblks - sfsL1Nblks) ino
  else some sfs

/-- The end of `append_block`. -/
def CacheInode.append (file : CacheInode) (size ino : Nat) : CacheInode :=
  { file with
    din := { file.din with size := file.din.size + size, blocks := file.din.blocks + 1 }
    nblks := file.nblks + 1
    appended := file.appended ++ [ino] }

/-- `append_block` -/
def appendBlock (sfs : Image) (file size ino : Nat) : Option Image :=
  if size ≤ 4096 ∧ (sfs.files file).nblks < sfsLnNblks then do
    let sfs ← appendPointer sfs file (sfs.files file).nblks ino
    some (sfs.setFile file ((sfs.files file).append size ino))
  else none

/-- A new block with its words in a file: the body of the loop in `open_file`, the end of
`open_link`, and the middle of `add_entry`. -/
def appendData (sfs : Image) (file : Nat) (words : Block) (size : Nat) : Option Image := do
  let (ino, sfs) ← sfsAllocIno sfs
  let sfs ← writeBlock sfs words ino
  appendBlock sfs file size ino

/-- `strcpy` into the static buffer. -/
def copyName (buffer : Nat → Fin 256) (name : Name) : Nat → Fin 256 := fun index =>
  match name[index]? with
  | some byte => byte.val
  | none => if index = name.length then 0 else buffer index

/-- The words of `struct sfs_entry`. -/
def entryWords (ino : Nat) (name : Nat → Fin 256) : Block
  | 0 => ino
  | word + 1 => (name (4 * word)).val + 256 * (name (4 * word + 1)).val + 65536 * (name (4 * word + 2)).val +
      16777216 * (name (4 * word + 3)).val

/-- `write_block` of the first bytes of an entry: as many as the name has. -/
def entryBlock (ino : Nat) (name : Nat → Fin 256) : Block := fun word =>
  if word < (sfsMaxFnameLen + 1) / 4 then entryWords ino name word else 0

/-- The end of `add_entry`. -/
def Image.link (sfs : Image) (file : Nat) : Image :=
  let fields := sfs.files file
  sfs.setFile file { fields with din := { fields.din with nlinks := (fields.din.nlinks + 1) % 65536 } }

/-- `add_entry` -/
def addEntry (sfs : Image) (current file : Nat) (name : Name) : Option Image :=
  if (sfs.files current).din.type = typeDir ∧ name.length ≤ sfsMaxFnameLen then do
    let buffer := copyName sfs.entryName name
    let number := (sfs.files file).ino
    let sfs ← appendData { sfs with entryName := buffer } current (entryBlock number buffer) (sfsMaxFnameLen + 1)
    let sfs := sfs.setFile current { sfs.files current with added := (sfs.files current).added ++ [(name, number)] }
    some (sfs.link file)
  else none

/-! ## The files of the host -/

mutual

/-- A file of the host, with its inode number and what its system calls return: the
blocks that `read` gives, with their sizes, the target of a link, the entries in the
order of `readdir`. -/
inductive HostNode where
  | file (real : Nat) (blocks : List (Block × Nat))
  | link (real : Nat) (target : Block × Nat)
  | dir (real : Nat) (entries : HostEntries)

inductive HostEntries where
  | nil
  | cons (name : Name) (node : HostNode) (rest : HostEntries)

end

/-- The entries as a list. -/
def HostEntries.toList : HostEntries → List (Name × HostNode)
  | .nil => []
  | .cons name node rest => (name, node) :: rest.toList

/-- `open_file`; only the last block may be short. -/
def openFile (sfs : Image) (file last : Nat) : List (Block × Nat) → Option Image
  | [] => some sfs
  | (words, size) :: rest =>
      if last = 4096 then (appendData sfs file words size).bind fun sfs => openFile sfs file size rest else none

/-- `add_file` up to `add_entry`: the inode of a regular file, which has been stored if
another entry names it. -/
def storeFile (sfs : Image) (real : Nat) (blocks : List (Block × Nat)) : Option (Nat × Image) :=
  match searchCacheInode sfs real with
  | some file => some (file, sfs)
  | none => do
      let (file, sfs) ← allocCacheInode sfs real 0 typeFile
      let sfs ← openFile sfs file 4096 blocks
      some (file, sfs)

/-- `add_link` up to `add_entry`. -/
def storeLink (sfs : Image) (real : Nat) (target : Block × Nat) : Option (Nat × Image) :=
  if target.2 < 4096 then do
    let (file, sfs) ← allocCacheInode sfs real 0 typeLink
    let sfs ← appendData sfs file target.1 target.2
    some (file, sfs)
  else none

/-- What has been stored for a directory of the host: its inode number and that of its
parent, and the entries that were added with their inode numbers. -/
structure Stored where
  ino : Nat
  parent : Nat
  host : HostEntries
  entries : List (Name × HostNode × Nat)

/-- The character that hides an entry. -/
def dot : NameByte := ⟨46, by decide⟩

/-- The entries that `open_dir` gives itself. -/
def addDots (sfs : Image) (current parent : Nat) : Option Image := do
  let sfs ← addEntry sfs current current [dot]
  addEntry sfs current parent [dot, dot]

mutual

/-- The loop of `open_dir` over the entries of the host, with the entries added and the
directories stored below. Names that begin with a dot are left out. -/
def openEntries (sfs : Image) (current : Nat) :
    HostEntries → Option (List (Name × HostNode × Nat) × List Stored × Image)
  | .nil => some ([], [], sfs)
  | .cons name node rest =>
      if name.head? = some dot then openEntries sfs current rest
      else if name.length ≤ sfsMaxFnameLen then do
        let (file, below, sfs) ← openNode sfs current node
        let sfs ← addEntry sfs current file name
        let (entries, others, sfs) ← openEntries sfs current rest
        some ((name, node, file) :: entries, below ++ others, sfs)
      else none

/-- `add_dir`, `add_file` and `add_link` up to `add_entry`, with `open_dir`. -/
def openNode (sfs : Image) (parent : Nat) : HostNode → Option (Nat × List Stored × Image)
  | .file real blocks => (storeFile sfs real blocks).map fun (file, sfs) => (file, [], sfs)
  | .link real target => (storeLink sfs real target).map fun (file, sfs) => (file, [], sfs)
  | .dir real entries =>
      if searchCacheInode sfs real = none then do
        let (current, sfs) ← allocCacheInode sfs real 0 typeDir
        let sfs ← addDots sfs current parent
        let (added, below, sfs) ← openEntries sfs current entries
        some (current, { ino := current, parent, host := entries, entries := added } :: below, sfs)
      else none

end

/-- `ninos` of `create_sfs`, for the size of the image file. -/
def createNinos (size : Nat) : Nat :=
  if sfsMaxNblks < size / 4096 % 2 ^ 32 then sfsMaxNblks else size / 4096 % 2 ^ 32

/-- An inode that nobody uses. -/
def CacheInode.unused : CacheInode where
  din := { size := 0, type := 0, nlinks := 0, blocks := 0, direct := fun _ => 0, indirect := 0 }
  dbIndirect := 0
  real := 0
  ino := 0
  nblks := 0
  l1 := none
  l2 := none
  appended := []
  added := []

/-- `create_sfs`, for the size of the image file and the text of the superblock. -/
def createSfs (size : Nat) (info : Nat → Nat) (disk : Nat → Block) : Option Image :=
  let ninos := createNinos size
  let nextIno := sfsBlknFreemap + (ninos + sfsBlkbits - 1) / sfsBlkbits
  if nextIno < ninos then
    some (cacheInode {
      super := { magic := sfsMagic, blocks := ninos, unusedBlocks := ninos - nextIno, info }
      disk
      ninos
      nextIno
      cache := fun _ _ => 0
      blocks := fun _ => []
      files := fun _ => CacheInode.unused
      inodes := fun _ => []
      entryName := fun _ => 0
      allocated := [] } 0 sfsBlknRoot typeDir)
  else none

/-- The inner loop of `close_sfs`: the bits from `start` on are set. -/
def setBitsFrom (start rounds : Nat) : Nat → BitVec 32 :=
  (List.range' start rounds).foldl
    (fun data j => Function.update data (j / 32) (data (j / 32) ||| 1#32 <<< (j % 32))) fun _ => 0#32

/-- The words of the freemap block for the blocks from `i` on. -/
def freemapWords (ninos nextIno i : Nat) : Nat → BitVec 32 :=
  if i + sfsBlkbits > nextIno then
    let start := if i < nextIno then nextIno - i else 0
    let stop := if i + sfsBlkbits > ninos then ninos - i else sfsBlkbits
    setBitsFrom start (stop - start)
  else fun _ => 0#32

/-- The outer loop of `close_sfs` over the freemap, from its block `block` on. -/
def writeFreemap (sfs : Image) (block : Nat) : Nat → Option Image
  | 0 => some sfs
  | rounds + 1 => do
      let words := freemapWords sfs.ninos sfs.nextIno (block * sfsBlkbits)
      let sfs ← writeBlock sfs (fun index => (words index).toNat) (sfsBlknFreemap + block)
      writeFreemap sfs (block + 1) rounds

/-- The blocks of a bucket, `flush_cache_block` and `flush_cache_inode`. -/
def flush (sfs : Image) (words : Nat → Block) : List Nat → Option Image
  | [] => some sfs
  | block :: rest => (writeBlock sfs (words block) block).bind fun sfs => flush sfs words rest

/-- The last loop of `close_sfs`, over the buckets. -/
def flushBuckets (sfs : Image) : List Nat → Option Image
  | [] => some sfs
  | bucket :: rest => do
      let sfs ← flush sfs sfs.cache (sfs.blocks (BitVec.ofNat 32 bucket))
      let sfs ← flush sfs (fun ino => (sfs.files ino).words) (sfs.inodes (BitVec.ofNat 32 bucket))
      flushBuckets sfs rest

/-- `close_sfs` -/
def closeSfs (sfs : Image) : Option Image := do
  let sfs ← writeFreemap sfs 0 ((sfs.ninos + sfsBlkbits - 1) / sfsBlkbits)
  let sfs ← writeBlock sfs sfs.super.words sfsBlknSuper
  flushBuckets sfs (List.range 1024)

/-- `create_img`, with the directories stored, that of `home` first. -/
def createImg (sfs : Image) (home : HostEntries) : Option (List Stored × Image) := do
  let opened ← addDots sfs sfsBlknRoot sfsBlknRoot
  let (added, below, filled) ← openEntries opened sfsBlknRoot home
  let closed ← closeSfs filled
  some ({ ino := sfsBlknRoot, parent := sfsBlknRoot, host := home, entries := added } :: below, closed)

end Ucore.Mksfs
