import Ucore.Tools.MountImage

/-!
# The blocks of a file on an image

The kernel maps the blocks of a file as the builder recorded them, through the direct
pointers and the indirect block. It has no double indirect block.
-/

namespace Ucore.Mksfs

open Ownership Transition Volume

variable {sfs start : Image} {ninos size ino index block : Nat} {info : Nat → Nat} {disk : Nat → Block}
variable {device : Nat → Int} {fs : SfsFs}

/-- The inode that `sfs_load_inode` makes of a block. -/
def readInode (disk : Nat → Block) (ino : Nat) : SfsInode where
  din := DiskInode.ofWords (disk ino)
  ino := ino
  dirty := false
  reclaimCount := 1

/-- The kernel finds the recorded block at an index, with either value of `create`, and
loads it, whatever the state of the mounted volume that has this disk. -/
def BlockAgrees (sfs : Image) (disk : Nat → Block) (ino index : Nat) : Prop :=
  ∀ device fs, (∀ call, device call = 0) → MountedFrom disk fs →
    ∃ block, (sfs.files ino).appended[index]? = some block ∧
      (∀ create, ∃ after, sfsBmapGetNolock device fs (readInode disk ino) index create =
        some (.ok block, after, readInode disk ino)) ∧
      ∃ after, sfsBmapLoadNolock device fs (readInode disk ino) index = some (.ok block, after, readInode disk ino)

/-- The kernel reads the inode that the builder wrote. -/
theorem readInode_exact (written : Written sfs disk) (laid : Laid ninos sfs) (isFile : sfs.IsFile ino) :
    (readInode disk ino).din.blocks = (sfs.files ino).din.blocks ∧
      (readInode disk ino).din.indirect = (sfs.files ino).din.indirect ∧
      (∀ index < sfsNdirect, (readInode disk ino).din.direct index = (sfs.files ino).din.direct index) ∧
      (readInode disk ino).din.type = (sfs.files ino).din.type ∧
      (readInode disk ino).din.nlinks = (sfs.files ino).din.nlinks := by
  have isWords : disk ino = (sfs.files ino).words := written.file ino isFile
  have small : (sfs.files ino).din.type < 65536 := by
    rcases laid.type ino isFile with isType | isType | isType <;> rw [isType] <;> decide
  refine ⟨?_, ?_, ?_, ?_, ?_⟩
  · simp [readInode, isWords, DiskInode.ofWords, CacheInode.words, diskInodeWords, DiskInode.words]
  · simp [readInode, isWords, DiskInode.ofWords, CacheInode.words, diskInodeWords, DiskInode.words, sfsNdirect]
  · intro index direct
    have inside : index + 3 < 16 := by
      simp only [sfsNdirect] at direct
      omega
    simp [readInode, isWords, DiskInode.ofWords, CacheInode.words, diskInodeWords, DiskInode.words, inside, direct]
  · simp only [readInode, isWords, DiskInode.ofWords, CacheInode.words, diskInodeWords, DiskInode.words]
    simp only [Nat.reduceLT, if_true]
    omega
  · simp only [readInode, isWords, DiskInode.ofWords, CacheInode.words, diskInodeWords, DiskInode.words]
    simp only [Nat.reduceLT, if_true]
    omega

/-- A block that an inode names is in use for the kernel. -/
theorem assertInuse_exact {place : MkPlace} (written : Written sfs disk) (laid : Laid ninos sfs)
    (mounted : MountedFrom disk fs) (names : sfs.places ino place = some block) :
    block ≠ 0 ∧ block < fs.super.blocks ∧ assertInuse fs block = some () := by
  obtain ⟨isNinos, isBlocks, _⟩ := laid.size
  obtain ⟨_, sameBlocks, _⟩ := written.super_eq
  have nonzero : block ≠ 0 := by
    rcases laid.range ino place block names with isRoot | behind
    · rw [isRoot]
      decide
    · have positive : 0 < firstBlock ninos :=
        Nat.lt_of_lt_of_le (by decide : 0 < sfsBlknFreemap) (Nat.le_add_right _ _)
      omega
  have isSize : fs.super.blocks = sfs.ninos := by
    rw [mounted.super, sameBlocks, isBlocks, isNinos]
  have small : block < fs.super.blocks := isSize ▸ laid.small names
  have inBits : block < (sfs.ninos + sfsBlkbits - 1) / sfsBlkbits * sfsBlkbits := by
    simp only [isSize, sfsBlkbits] at small ⊢
    omega
  have inMap : block < fs.freemap.nbits := by
    rw [mounted.nbits, sfsFreemapBits, isSize]
    exact inBits
  have isClear : fs.freemap.bit block = false := by
    have inUse : ¬ sfs.nextIno ≤ block := Nat.not_le.mpr ((laid.owned ino).inUse place block names)
    rw [mounted.bits block inMap, written.bit inBits]
    simp [inUse]
  refine ⟨nonzero, small, ?_⟩
  simp [assertInuse, sfsBlockInuse, nonzero, small, bitmapTest_exact inMap, isClear]

/-- The end of `sfs_bmap_get_nolock` gives a block in use. -/
theorem found_exact {sin : SfsInode} (inUse : assertInuse fs block = some ()) :
    found fs sin block = some (.ok block, fs, sin) := by
  unfold found
  split
  · rfl
  · rw [inUse]
    rfl

/-- Another call of the device does not matter for a block in use. -/
theorem assertInuse_calls {calls : Nat} : assertInuse { fs with calls } block = assertInuse fs block := rfl

/-- An entry of a block of pointers is read. -/
theorem getSub_exact {ent : Nat} {create : Bool} (works : ∀ call, device call = 0) (entry : index < sfsBlkNentry)
    (isBlock : ent ≠ 0 ∧ ent < fs.super.blocks) (recorded : fs.disk ent index = block) (nonzero : block ≠ 0) :
    sfsBmapGetSubNolock device fs ent index create = some (.ok (ent, block), { fs with calls := fs.calls + 1 }) := by
  have read : sfsRbuf device fs 1 ent index = _ := sfsRbuf_works works ⟨entry, entry⟩ isBlock
  simp only [sfsBmapGetSubNolock, if_pos entry, if_pos isBlock.1, read, Option.bind_eq_bind, Option.bind_some,
    Nat.add_zero, recorded]
  rw [if_pos (Or.inl nonzero)]

/-- The kernel finds a block among the direct pointers and those of the indirect block. -/
theorem get_exact (written : Written sfs disk) (laid : Laid ninos sfs) (isFile : sfs.IsFile ino)
    (appended : (sfs.files ino).appended[index]? = some block) (inside : index < sfsL1Nblks)
    (works : ∀ call, device call = 0) (mounted : MountedFrom disk fs) (create : Bool) :
    ∃ calls, sfsBmapGetNolock device fs (readInode disk ino) index create =
      some (.ok block, { fs with calls }, readInode disk ino) := by
  have names : sfs.places ino (.data index) = some block := by
    rw [places_isFile isFile]
    exact appended
  obtain ⟨nonzero, _, inUse⟩ := assertInuse_exact written laid mounted names
  obtain ⟨_, isIndirect, isDirect, _⟩ := readInode_exact written laid isFile
  have recorded : firstPointers sfs.cache (sfs.files ino) index = block := by
    rw [(laid.file ino isFile).pointers index inside, List.getD_eq_getElem?_getD, appended]
    rfl
  unfold sfsBmapGetNolock
  by_cases direct : index < sfsNdirect
  · have isBlock : (readInode disk ino).din.direct index = block := by
      rw [isDirect index direct, ← recorded, firstPointers, if_pos direct]
    have noCreate : ¬ (block = 0 ∧ create = true) := fun both => nonzero both.1
    rw [if_pos direct, getDirect, isBlock, if_neg noCreate]
    exact ⟨fs.calls, found_exact inUse⟩
  · have entry : index - sfsNdirect < sfsBlkNentry := by
      simp only [sfsL1Nblks] at inside
      omega
    rw [firstPointers, if_neg direct] at recorded
    have isPointer : (sfs.files ino).din.indirect ≠ 0 := by
      intro none
      rw [if_pos none] at recorded
      exact nonzero recorded.symm
    rw [if_neg isPointer] at recorded
    have namesIndirect : sfs.places ino .indirect = some (sfs.files ino).din.indirect := by
      rw [places_isFile isFile]
      exact pointer_nonzero isPointer
    have sameCache := written.cached _ ((laid.cached _).mpr ⟨ino, .indirect, trivial, namesIndirect⟩)
    obtain ⟨_, smallIndirect, _⟩ := assertInuse_exact written laid mounted namesIndirect
    have isEntry : fs.disk (sfs.files ino).din.indirect (index - sfsNdirect) = block := by
      rw [mounted.sameDisk, sameCache, recorded]
    rw [if_neg direct, if_pos entry, getIndirect, isIndirect,
      getSub_exact works entry ⟨isPointer, smallIndirect⟩ isEntry nonzero]
    simp only [Option.bind_eq_bind, Option.bind_some, if_true]
    exact ⟨_, found_exact (assertInuse_calls.trans inUse)⟩

/-- And loads it. -/
theorem load_exact (written : Written sfs disk) (laid : Laid ninos sfs) (isFile : sfs.IsFile ino)
    (appended : (sfs.files ino).appended[index]? = some block) (inside : index < sfsL1Nblks)
    (works : ∀ call, device call = 0) (mounted : MountedFrom disk fs) :
    ∃ calls, sfsBmapLoadNolock device fs (readInode disk ino) index =
      some (.ok block, { fs with calls }, readInode disk ino) := by
  have names : sfs.places ino (.data index) = some block := by
    rw [places_isFile isFile]
    exact appended
  obtain ⟨_, _, inUse⟩ := assertInuse_exact written laid mounted names
  obtain ⟨isBlocks, _⟩ := readInode_exact written laid isFile
  have small : index < (readInode disk ino).din.blocks := by
    rw [isBlocks, (laid.file ino isFile).blocks]
    exact (List.getElem?_eq_some_iff.mp appended).1
  have noCreate : decide (index = (readInode disk ino).din.blocks) = false := decide_eq_false (Nat.ne_of_lt small)
  obtain ⟨calls, got⟩ := get_exact written laid isFile appended inside works mounted false
  refine ⟨calls, ?_⟩
  rw [sfsBmapLoadNolock, if_pos (Nat.le_of_lt small)]
  simp only [noCreate, got, Option.bind_eq_bind, Option.bind_some, assertInuse_calls, inUse]
  rfl

/-- There is no block behind those. -/
theorem get_panics {sin : SfsInode} {create : Bool} (outside : sfsNdirect + sfsBlkNentry ≤ index) :
    sfsBmapGetNolock device fs sin index create = none := by
  have notDirect : ¬ index < sfsNdirect := by omega
  have notEntry : ¬ index - sfsNdirect < sfsBlkNentry := by omega
  rw [sfsBmapGetNolock, if_neg notDirect, if_neg notEntry]

/-- On a mounted image the kernel finds no block behind those. -/
theorem block_agrees_inside (laid : Laid ninos sfs) (small : ninos ≤ sfsMaxNblks) (written : Written sfs disk)
    (agrees : BlockAgrees sfs disk ino index) : index < sfsNdirect + sfsBlkNentry := by
  obtain ⟨fs, mounted⟩ := closed_mounted laid small written
  obtain ⟨_, _, got, _⟩ := agrees (fun _ => 0) fs (fun _ => rfl) mounted
  obtain ⟨after, got⟩ := got false
  by_contra outside
  rw [get_panics (Nat.not_lt.mp outside)] at got
  cases got

theorem closeSfs_disk {closed : Image} (laid : Laid ninos sfs) (isClosed : closeSfs sfs = some closed) :
    Written sfs closed.disk := by
  rw [closeSfs_exact laid] at isClosed
  exact Option.some.inj isClosed ▸ closedDisk_written laid

/-- The kernel finds a recorded block exactly when it is one of the direct ones or in the
indirect block; it panics on the others. -/
theorem block_agrees {closed : Image} (created : createSfs size info disk = some start)
    (reached : Reaches imageStep ImageLegal start sfs) (isClosed : closeSfs sfs = some closed)
    (isFile : sfs.IsFile ino) (stored : index < (sfs.files ino).din.blocks) :
    BlockAgrees sfs closed.disk ino index ↔ index < sfsNdirect + sfsBlkNentry := by
  have laid := (built_reached created reached).toLaid
  have written := closeSfs_disk laid isClosed
  have inside : index < (sfs.files ino).appended.length := (laid.file ino isFile).blocks ▸ stored
  have appended := List.getElem?_eq_getElem inside
  constructor
  · exact block_agrees_inside laid (createNinos_le size) written
  · intro small device fs works mounted
    have inL1 : index < sfsL1Nblks := by
      rwa [sfsL1Nblks, Nat.add_comm]
    refine ⟨_, appended, fun create => ?_, ?_⟩
    · obtain ⟨calls, got⟩ := get_exact written laid isFile appended inL1 works mounted create
      exact ⟨_, got⟩
    · obtain ⟨calls, loaded⟩ := load_exact written laid isFile appended inL1 works mounted
      exact ⟨_, loaded⟩

/-- The only block of a file. -/
theorem block_agrees_first : ∃ start made sfs closed,
    createSfs 40960 (fun _ => 0) (fun _ _ => 0) = some start ∧ imageStep start (.newFile 7 typeFile) = some made ∧
    imageStep made (.data 3 (fun _ => 1) 100) = some sfs ∧ closeSfs sfs = some closed ∧
    BlockAgrees sfs closed.disk 3 0 := by
  obtain ⟨start, made, sfs, created, making, stepped, added, isOne⟩ : ∃ start made sfs,
      createSfs 40960 (fun _ => 0) (fun _ _ => 0) = some start ∧
      allocCacheInode start 7 0 typeFile = some (3, made) ∧ imageStep start (.newFile 7 typeFile) = some made ∧
      imageStep made (.data 3 (fun _ => 1) 100) = some sfs ∧ (sfs.files 3).din.blocks = 1 :=
    ⟨_, _, _, rfl, rfl, rfl, rfl, rfl⟩
  have makes := allocCacheInode_makes making
  have isFile : made.IsFile 3 := (makes.isFile 3).mpr (Or.inr rfl)
  have notDir : (made.files 3).din.type ≠ typeDir := by
    rw [makes.here]
    decide
  have legal : ImageLegal start (.newFile 7 typeFile) := Or.inl rfl
  have legal' : ImageLegal made (.data 3 (fun _ => 1) 100) := ⟨isFile, notDir⟩
  have reached : Reaches imageStep ImageLegal start made := .step .start legal stepped
  have built := built_reached created reached
  have isFile' : sfs.IsFile 3 := by
    rw [Image.IsFile, (built.data isFile notDir added).2.fixed.1]
    exact isFile
  have after := built_reached created (reached.step legal' added)
  refine ⟨start, made, sfs, _, created, stepped, added, closeSfs_exact after.toLaid, ?_⟩
  refine (block_agrees created (reached.step legal' added) (closeSfs_exact after.toLaid) isFile' ?_).mpr (by decide)
  rw [isOne]
  decide

/-! ## A file that reaches the double indirect block -/

/-- The cache need not be searched for a block that is new or was used last. -/
theorem updateCache_succeeds {cached : Option Nat} (known : ino = 0 ∨ cached = some ino)
    (room : sfs.nextIno < sfs.ninos) (positive : sfs.nextIno ≠ 0) :
    ∃ block next, updateCache sfs cached ino = some (block, next) ∧ block ≠ 0 ∧ next.files = sfs.files ∧
      next.ninos = sfs.ninos ∧ next.nextIno = sfs.nextIno + (if ino = 0 then 1 else 0) ∧
      (ino = 0 → next.cache block = fun _ => 0) := by
  by_cases none : ino = 0
  · obtain ⟨allocated, alloc⟩ : ∃ allocated, sfsAllocIno sfs = some (sfs.nextIno, allocated) := ⟨_, if_pos room⟩
    obtain ⟨_, _, isAllocated⟩ := sfsAllocIno_cases alloc
    refine ⟨sfs.nextIno, cacheBlock allocated 0 sfs.nextIno, ?_, positive, ?_, ?_, ?_, fun _ => ?_⟩
    · rw [updateCache, if_pos none, allocCacheBlock, if_neg (not_not_intro rfl), alloc]
      rfl
    · rw [isAllocated]
      rfl
    · rw [isAllocated]
      rfl
    · rw [isAllocated, if_pos none]
      rfl
    · simp [cacheBlock]
  · refine ⟨ino, sfs, ?_, none, rfl, rfl, by simp [none], fun zero => absurd zero none⟩
    rw [updateCache, if_neg none, if_pos (known.resolve_left none)]

/-- Whether the indirect block is still to be allocated. -/
def missing (file : CacheInode) : Nat := if file.din.indirect = 0 then 1 else 0

/-- The pointer of a block of the first two levels is stored. -/
theorem appendPointer_succeeds {file n : Nat} (small : n < sfsL1Nblks)
    (cached : (sfs.files file).din.indirect = 0 ∨ (sfs.files file).l1 = some (sfs.files file).din.indirect)
    (room : sfs.nextIno < sfs.ninos) (positive : sfs.nextIno ≠ 0) :
    ∃ next, appendPointer sfs file n ino = some next ∧
      (next.files file).dbIndirect = (sfs.files file).dbIndirect ∧
      ((next.files file).din.indirect = 0 ∨ (next.files file).l1 = some (next.files file).din.indirect) ∧
      next.nextIno + missing (next.files file) ≤ sfs.nextIno + missing (sfs.files file) := by
  unfold appendPointer
  by_cases direct : n < sfsNdirect
  · rw [if_pos direct]
    refine ⟨_, rfl, ?_, ?_, ?_⟩
    · simp [Image.setFile]
    · simpa [Image.setFile] using cached
    · simp [Image.setFile, missing]
  · obtain ⟨l1, middle, updated, nonzero, sameFiles, _, isNext, _⟩ := updateCache_succeeds cached room positive
    rw [if_neg direct, if_pos small, appendIndirect, updated]
    refine ⟨_, rfl, ?_, Or.inr ?_, ?_⟩
    · simp [Image.setCache, Image.linkIndirect, Image.setFile, sameFiles]
    · simp [Image.setCache, Image.linkIndirect, Image.setFile]
    · simp [Image.setCache, Image.linkIndirect, Image.setFile, missing, isNext, nonzero]

/-- A file of `n` blocks of the first two levels, in an image with room. -/
structure Growing (ninos file n : Nat) (sfs : Image) : Prop where
  built : Built ninos sfs
  isFile : sfs.IsFile file
  type : (sfs.files file).din.type = typeFile
  length : (sfs.files file).appended.length = n
  double : (sfs.files file).dbIndirect = 0
  cached : (sfs.files file).din.indirect = 0 ∨ (sfs.files file).l1 = some (sfs.files file).din.indirect
  room : sfs.nextIno + missing (sfs.files file) ≤ firstBlock ninos + 2 + n

/-- When its pointer is stored, a block is appended. -/
theorem appendData_pointed {middle : Image} {file : Nat} (words : Block) (room : sfs.nextIno < sfs.ninos)
    (small : (sfs.files file).nblks < sfsLnNblks)
    (pointed : appendPointer (sfs.take words) file (sfs.files file).nblks sfs.nextIno = some middle) :
    appendData sfs file words 4096 =
      some (middle.setFile file ((middle.files file).append 4096 sfs.nextIno)) := by
  obtain ⟨allocated, alloc⟩ : ∃ allocated, sfsAllocIno sfs = some (sfs.nextIno, allocated) := ⟨_, if_pos room⟩
  obtain ⟨_, _, isAllocated⟩ := sfsAllocIno_cases alloc
  have wrote : writeBlock allocated words sfs.nextIno = some (sfs.take words) := by
    rw [isAllocated]
    exact if_pos room
  have appended : appendBlock (sfs.take words) file 4096 sfs.nextIno =
      some (middle.setFile file ((middle.files file).append 4096 sfs.nextIno)) := by
    refine (if_pos ⟨Nat.le_refl _, small⟩).trans ?_
    exact Option.bind_eq_some_iff.mpr ⟨middle, pointed, rfl⟩
  rw [appendData, alloc]
  simp only [Option.bind_eq_bind, Option.bind_some, wrote, appended]

/-- A block is appended to it. -/
theorem Growing.append {file n : Nat} (growing : Growing ninos file n sfs) (small : n < sfsL1Nblks)
    (room : firstBlock ninos + 3 + n < ninos) (words : Block) :
    ∃ next, appendData sfs file words 4096 = some next ∧ Growing ninos file (n + 1) next := by
  have laid := growing.built.toLaid
  obtain ⟨isNinos, _⟩ := laid.size
  have ok := laid.file file growing.isFile
  have isLength : (sfs.files file).nblks = n := ok.nblks.trans growing.length
  have below : sfs.nextIno + 1 < sfs.ninos := by
    have used := growing.room
    omega
  have isSmall : (sfs.files file).nblks < sfsLnNblks := by
    rw [isLength]
    exact Nat.lt_of_lt_of_le small (by decide)
  obtain ⟨middle, pointed, double, cached, used⟩ :=
    @appendPointer_succeeds (sfs.take words) sfs.nextIno file (sfs.files file).nblks (isLength ▸ small)
      growing.cached below (Nat.succ_ne_zero _)
  have appended := appendData_pointed words (Nat.lt_of_succ_lt below) isSmall pointed
  have notDir : (sfs.files file).din.type ≠ typeDir := by
    rw [growing.type]
    decide
  obtain ⟨built, appends⟩ := growing.built.data growing.isFile notDir appended
  have here : (middle.setFile file ((middle.files file).append 4096 sfs.nextIno)).files file =
      (middle.files file).append 4096 sfs.nextIno := Function.update_self ..
  refine ⟨_, appended, built, ?_, appends.type.trans growing.type, ?_, ?_, ?_, ?_⟩
  · rw [Image.IsFile, appends.fixed.1]
    exact growing.isFile
  · rw [appends.appended, List.length_append, growing.length]
    rfl
  · rw [here]
    exact double.trans growing.double
  · rw [here]
    exact cached
  · rw [here]
    have before := growing.room
    have sameMissing : missing ((middle.files file).append 4096 sfs.nextIno) = missing (middle.files file) := rfl
    have budget : middle.nextIno + missing (middle.files file) ≤ sfs.nextIno + 1 + missing (sfs.files file) := used
    rw [sameMissing]
    exact budget.trans (by omega)

/-- The next one needs the double indirect block, which is new, and a table, which is new. -/
theorem Growing.double_succeeds {file : Nat} (growing : Growing ninos file sfsL1Nblks sfs)
    (room : firstBlock ninos + 5 + sfsL1Nblks < ninos) (words : Block) :
    ∃ next, appendData sfs file words 4096 = some next := by
  have laid := growing.built.toLaid
  obtain ⟨isNinos, _⟩ := laid.size
  have isLength : (sfs.files file).nblks = sfsL1Nblks := (laid.file file growing.isFile).nblks.trans growing.length
  have below : sfs.nextIno + 2 < sfs.ninos := by
    have used := growing.room
    omega
  obtain ⟨l2, first, updated, _, sameFiles, sameNinos, isNext, empty⟩ :=
    @updateCache_succeeds (sfs.take words) _ (sfs.files file).l2 (Or.inl growing.double)
      (Nat.lt_of_succ_lt below) (Nat.succ_ne_zero _)
  have isNext' : first.nextIno = sfs.nextIno + 1 + 1 := by
    rw [isNext, if_pos growing.double]
    rfl
  have noTable : (first.linkDouble file l2).cache l2 (0 / sfsBlkNentry) = 0 := congrFun (empty growing.double) _
  have below' : (first.linkDouble file l2).nextIno < (first.linkDouble file l2).ninos := by
    simp only [Image.linkDouble, Image.setFile, isNext', sameNinos]
    exact below
  obtain ⟨l1, second, updated', _⟩ :=
    @updateCache_succeeds (first.linkDouble file l2) _ ((first.linkDouble file l2).files file).l1
      (Or.inl noTable) below' (by simp [Image.linkDouble, Image.setFile, isNext'])
  have pointed : appendPointer (sfs.take words) file (sfs.files file).nblks sfs.nextIno =
      some ((second.linkTable file l2 (0 / sfsBlkNentry) l1).setCache l1 (0 % sfsBlkNentry) sfs.nextIno) := by
    rw [appendPointer, isLength, if_neg (by decide), if_neg (Nat.lt_irrefl _), if_pos (by decide), Nat.sub_self,
      appendDouble]
    exact Option.bind_eq_some_iff.mpr ⟨_, updated, Option.bind_eq_some_iff.mpr ⟨_, updated', rfl⟩⟩
  refine ⟨_, appendData_pointed words (by omega) ?_ pointed⟩
  rw [isLength]
  decide

/-- Blocks are appended one after the other. -/
theorem Growing.many {file n : Nat} (growing : Growing ninos file n sfs) (words : Block) (rounds : Nat)
    (small : n + rounds ≤ sfsL1Nblks) (room : firstBlock ninos + 3 + (n + rounds) < ninos) :
    ∃ next, run imageStep (List.replicate rounds (.data file words 4096)) sfs = some next ∧
      Reaches imageStep ImageLegal sfs next ∧ Growing ninos file (n + rounds) next := by
  induction rounds generalizing sfs n with
  | zero => exact ⟨sfs, rfl, .start, growing⟩
  | succ rounds ih =>
    obtain ⟨middle, appended, more⟩ := growing.append (by omega) (by omega) words
    obtain ⟨next, ran, reached, grown⟩ := ih more (by omega) (by omega)
    have legal : ImageLegal sfs (.data file words 4096) := by
      refine ⟨growing.isFile, ?_⟩
      rw [growing.type]
      decide
    have sum : n + 1 + rounds = n + (rounds + 1) := by omega
    refine ⟨next, ?_, (Reaches.step .start legal appended).trans reached, sum ▸ grown⟩
    rw [List.replicate_succ, run]
    exact Option.bind_eq_some_iff.mpr ⟨middle, appended, ran⟩

/-- The kernel panics on the last block of a file of 1037 blocks. -/
theorem block_1036_panics : ∃ start sfs closed, createSfs 8192000 (fun _ => 0) (fun _ _ => 0) = some start ∧
    run imageStep (.newFile 7 typeFile :: List.replicate 1037 (.data 3 (fun _ => 0) 4096)) start = some sfs ∧
    Reaches imageStep ImageLegal start sfs ∧ closeSfs sfs = some closed ∧ sfs.IsFile 3 ∧
    (sfs.files 3).din.type = typeFile ∧ 1036 < (sfs.files 3).din.blocks ∧ ¬ BlockAgrees sfs closed.disk 3 1036 := by
  obtain ⟨start, made, created, making⟩ : ∃ start made,
      createSfs 8192000 (fun _ => 0) (fun _ _ => 0) = some start ∧
      allocCacheInode start 7 0 typeFile = some (3, made) := ⟨_, _, rfl, rfl⟩
  have makes := allocCacheInode_makes making
  have built : Built 2000 start := built_reached created .start
  have isNext : start.nextIno = 3 := makes.isNew.symm
  have growing : Growing 2000 3 0 made := by
    refine ⟨built.newFile (Or.inl rfl) makes, (makes.isFile 3).mpr (Or.inr rfl), ?_, ?_, ?_, ?_, ?_⟩
    · rw [makes.here]
    · rw [makes.here]
      rfl
    · rw [makes.here]
    · rw [makes.here]
      exact Or.inl rfl
    · rw [makes.here, makes.counts.nextIno, isNext]
      decide
  obtain ⟨full, ran, reached, grown⟩ := growing.many (fun _ => 0) 1036 (by decide) (by decide)
  rw [Nat.zero_add] at grown
  obtain ⟨sfs, last⟩ := grown.double_succeeds (by decide) (fun _ => 0)
  have isFile := grown.isFile
  have notDir : (full.files 3).din.type ≠ typeDir := by
    rw [grown.type]
    decide
  obtain ⟨after, appends⟩ := grown.built.data isFile notDir last
  have isFile' : sfs.IsFile 3 := by
    rw [Image.IsFile, appends.fixed.1]
    exact isFile
  have stepped : imageStep start (.newFile 7 typeFile) = some made := by
    rw [imageStep, making]
    rfl
  have legal : ImageLegal start (.newFile 7 typeFile) := Or.inl rfl
  have legal' : ImageLegal full (.data 3 (fun _ => 0) 4096) := ⟨isFile, notDir⟩
  have isLong : 1036 < (sfs.files 3).din.blocks := by
    rw [(after.file 3 isFile').blocks, appends.appended, List.length_append, grown.length]
    exact Nat.lt_succ_self _
  refine ⟨start, sfs, _, created, ?_, ?_, closeSfs_exact after.toLaid, isFile', appends.type.trans grown.type,
    isLong, ?_⟩
  · rw [run, stepped, Option.bind_some, List.replicate_succ', run_append, ran, Option.bind_some, run]
    exact Option.bind_eq_some_iff.mpr ⟨sfs, last, rfl⟩
  · exact .step ((Reaches.step .start legal stepped).trans reached) legal' last
  · intro agrees
    have inside := block_agrees_inside after.toLaid (by decide) (closedDisk_written after.toLaid) agrees
    exact absurd inside (by decide)

end Ucore.Mksfs
