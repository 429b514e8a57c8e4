import Ucore.Tools.ImageRuns

/-!
# The image written

A run of the builder begins with the root directory. Closing the image writes the
freemap, the superblock, the blocks of pointers and the inodes; the blocks of data are on
disk before.
-/

namespace Ucore.Mksfs

open Ownership Transition Volume

variable {sfs next : Image} {ninos file block ino size : Nat} {info : Nat → Nat} {disk : Nat → Block} {words : Nat → Block}

/-! ## The start -/

/-- A new image: the root directory is the only inode, and no block is cached. -/
structure IsNew (sfs : Image) : Prop where
  isFile : ∀ ino, sfs.IsFile ino ↔ ino = sfsBlknRoot
  isCached : ∀ block, ¬ sfs.IsCached block
  links : ∀ ino, (sfs.files ino).din.nlinks = 0
  root : sfs.files sfsBlknRoot =
    { CacheInode.unused with ino := sfsBlknRoot, din := { CacheInode.unused.din with type := typeDir } }
  super : sfs.super.blocks = sfs.ninos ∧ sfs.super.magic = sfsMagic ∧
    sfs.super.unusedBlocks = sfs.ninos - sfs.nextIno
  nextIno : sfs.nextIno = firstBlock sfs.ninos
  allocated : sfs.allocated = []
  fits : sfs.nextIno < sfs.ninos

theorem createSfs_isNew (created : createSfs size info disk = some sfs) :
    IsNew sfs ∧ sfs.ninos = createNinos size := by
  simp only [createSfs] at created
  split at created
  · rename_i fits
    cases created
    refine ⟨⟨?_, ?_, ?_, ?_, ⟨rfl, rfl, rfl⟩, rfl, rfl, fits⟩, rfl⟩
    · intro ino
      refine (inBuckets_cons (fun _ => []) 0).trans ?_
      simp [InBuckets]
    · rintro block ⟨bucket, _, member⟩
      cases member
    · intro ino
      by_cases isRoot : ino = sfsBlknRoot
      · simp [cacheInode, isRoot]
      · simp [cacheInode, CacheInode.unused, isRoot]
    · simp [cacheInode, CacheInode.unused]
  · cases created

/-- A new image is built. -/
theorem IsNew.built (isNew : IsNew sfs) : Built sfs.ninos sfs := by
  have names : ∀ ino place block, sfs.places ino place = some block →
      ino = sfsBlknRoot ∧ place = .inode ∧ block = sfsBlknRoot := by
    intro ino place block names
    have isRoot := (isNew.isFile ino).mp (isFile_of_places names)
    rw [places_isFile (isFile_of_places names), isRoot, isNew.root] at names
    cases place <;> simp [Mksfs.places, pointer, CacheInode.unused] at names
    exact ⟨isRoot, rfl, names.symm⟩
  have isFirst := isNew.nextIno
  have fits := isNew.fits
  have behind : sfsBlknRoot < sfs.nextIno := by
    rw [isFirst]
    exact Nat.lt_of_lt_of_le (by decide) (Nat.le_add_right _ _)
  refine ⟨?_, ?_, ?_, ?_⟩
  · constructor
    case owned =>
      intro owner
      refine ⟨?_, ?_, ?_, ?_⟩
      · intro place block named
        obtain ⟨_, _, rfl⟩ := names owner place block named
        exact behind
      · intro place other block named another
        exact (names owner place block named).2.1.trans (names owner other block another).2.1.symm
      · rintro place block named ⟨other, different, place', named'⟩
        exact different ((names other place' block named').1.trans (names owner place block named).1.symm)
      · rintro block ⟨other, _, place, named⟩
        obtain ⟨_, _, rfl⟩ := names other place block named
        exact behind
    case file =>
      intro ino isIno
      rw [(isNew.isFile ino).mp isIno, isNew.root]
      refine ⟨rfl, rfl, Nat.zero_le _, ?_⟩
      intro index _
      simp [firstPointers, CacheInode.unused]
    case ino =>
      intro ino isIno
      rw [(isNew.isFile ino).mp isIno, isNew.root]
    case type =>
      intro ino isIno
      rw [(isNew.isFile ino).mp isIno, isNew.root]
      exact Or.inr (Or.inl rfl)
    case cached =>
      intro block
      constructor
      · exact fun cached => absurd cached (isNew.isCached block)
      · rintro ⟨ino, place, pointers, named⟩
        rw [(names ino place block named).2.1] at pointers
        exact pointers.elim
    case range => exact fun ino place block named => Or.inl (names ino place block named).2.2
    case root => exact (isNew.isFile _).mpr rfl
    case size => exact ⟨rfl, isNew.super.1, isNew.super.2.1⟩
    case counts =>
      rw [isNew.super.2.2]
      omega
    case allocated =>
      rw [isNew.allocated, isFirst, Nat.sub_self]
      rfl
  · intro ino isIno _
    rw [(isNew.isFile ino).mp isIno, isNew.root]
    exact ⟨rfl, fun index name number entry => by simp [CacheInode.unused] at entry⟩
  · intro ino isIno name number added
    rw [(isNew.isFile ino).mp isIno, isNew.root] at added
    cases added
  · intro ino
    rw [isNew.links]
    exact ⟨by decide, fun _ => rfl⟩

/-- Every run of the builder keeps the image built. -/
theorem built_reached (created : createSfs size info disk = some sfs)
    (reached : Reaches imageStep ImageLegal sfs next) : Built (createNinos size) next := by
  obtain ⟨isNew, isNinos⟩ := createSfs_isNew created
  rw [← isNinos]
  exact reached.invariant isNew.built fun state operation after built legal called =>
    built_step operation built legal called

/-! ## The blocks written at the end -/

theorem writeBlock_exact (sfs : Image) (words : Block) (inside : block < sfs.ninos) :
    writeBlock sfs words block = some { sfs with disk := Function.update sfs.disk block words } := if_pos inside

/-- Every block of a bucket is written. -/
theorem flush_exact (words : Nat → Block) (blocks : List Nat) (sfs : Image)
    (inside : ∀ block ∈ blocks, block < sfs.ninos) : flush sfs words blocks =
      some { sfs with disk := fun block => if block ∈ blocks then words block else sfs.disk block } := by
  induction blocks generalizing sfs with
  | nil => simp [flush]
  | cons head rest ih =>
    have written := writeBlock_exact sfs (words head) (inside head List.mem_cons_self)
    rw [flush, written, Option.bind_some, ih]
    · congr 2
      funext block
      by_cases later : block ∈ rest
      · simp [later]
      · by_cases here : block = head
        · simp [here]
        · simp [later, here]
    · exact fun block member => inside block (List.mem_cons_of_mem _ member)

/-- A block in some of the buckets. -/
def InSome (table : BitVec 32 → List Nat) (buckets : List Nat) (block : Nat) : Prop :=
  ∃ bucket ∈ buckets, block ∈ table (BitVec.ofNat 32 bucket)

theorem inSome_all {table : BitVec 32 → List Nat} : InSome table (List.range 1024) block ↔ InBuckets table block := by
  simp only [InSome, InBuckets, List.mem_range]

theorem inSome_cons {table : BitVec 32 → List Nat} {bucket : Nat} {rest : List Nat} :
    InSome table (bucket :: rest) block ↔ block ∈ table (BitVec.ofNat 32 bucket) ∨ InSome table rest block := by
  simp only [InSome, List.mem_cons, exists_eq_or_imp]

open Classical in
/-- Every inode and every cached block is written. -/
theorem flushBuckets_exact (buckets : List Nat) (sfs : Image)
    (inside : ∀ block, InSome sfs.blocks buckets block ∨ InSome sfs.inodes buckets block → block < sfs.ninos)
    (apart : ∀ block, InSome sfs.blocks buckets block → ¬ InSome sfs.inodes buckets block) :
    flushBuckets sfs buckets = some { sfs with
      disk := fun block =>
        if InSome sfs.inodes buckets block then (sfs.files block).words
        else if InSome sfs.blocks buckets block then sfs.cache block
        else sfs.disk block } := by
  induction buckets generalizing sfs with
  | nil => simp [flushBuckets, InSome]
  | cons bucket rest ih =>
    have insideBlocks : ∀ block ∈ sfs.blocks (BitVec.ofNat 32 bucket), block < sfs.ninos := fun block member =>
      inside block (Or.inl (inSome_cons.mpr (Or.inl member)))
    have insideInodes : ∀ block ∈ sfs.inodes (BitVec.ofNat 32 bucket), block < sfs.ninos := fun block member =>
      inside block (Or.inr (inSome_cons.mpr (Or.inl member)))
    have flushed := flush_exact (fun ino => (sfs.files ino).words) _ { sfs with
      disk := fun block =>
        if block ∈ sfs.blocks (BitVec.ofNat 32 bucket) then sfs.cache block else sfs.disk block } insideInodes
    simp only [flushBuckets, flush_exact _ _ _ insideBlocks, Option.bind_eq_bind, Option.bind_some]
    rw [flushed, Option.bind_some, ih]
    · congr 2
      funext block
      have separate := apart block
      simp only [inSome_cons] at separate ⊢
      by_cases file : InSome sfs.inodes rest block
      · simp [file]
      · by_cases cached : InSome sfs.blocks rest block
        · have notHere : block ∉ sfs.inodes (BitVec.ofNat 32 bucket) := fun member =>
            separate (Or.inr cached) (Or.inl member)
          simp [file, cached, notHere]
        · simp [file, cached]
    · rintro block (cached | file)
      · exact inside block (Or.inl (inSome_cons.mpr (Or.inr cached)))
      · exact inside block (Or.inr (inSome_cons.mpr (Or.inr file)))
    · exact fun block cached file => apart block (inSome_cons.mpr (Or.inr cached)) (inSome_cons.mpr (Or.inr file))

/-- The words of a block of the freemap. -/
def freemapBlock (ninos nextIno block : Nat) : Block := fun index =>
  (freemapWords ninos nextIno (block * sfsBlkbits) index).toNat

/-- Every block of the freemap is written. -/
theorem writeFreemap_exact (rounds first : Nat) (sfs : Image)
    (inside : sfsBlknFreemap + first + rounds ≤ sfs.ninos) :
    writeFreemap sfs first rounds = some { sfs with
      disk := fun block =>
        if sfsBlknFreemap + first ≤ block ∧ block < sfsBlknFreemap + first + rounds then
          freemapBlock sfs.ninos sfs.nextIno (block - sfsBlknFreemap)
        else sfs.disk block } := by
  induction rounds generalizing first sfs with
  | zero =>
    have none : ∀ block, ¬ (sfsBlknFreemap + first ≤ block ∧ block < sfsBlknFreemap + first + 0) := by omega
    simp only [writeFreemap, none, if_false]
  | succ rounds ih =>
    have here : sfsBlknFreemap + first < sfs.ninos := by omega
    simp only [writeFreemap, writeBlock_exact sfs _ here, Option.bind_eq_bind, Option.bind_some]
    rw [ih]
    · congr 2
      funext block
      by_cases isFirst : block = sfsBlknFreemap + first
      · subst isFirst
        have notLater : ¬ (sfsBlknFreemap + (first + 1) ≤ sfsBlknFreemap + first) := by omega
        simp only [notLater, false_and, if_false, Function.update_self]
        rw [if_pos ⟨Nat.le_refl _, by omega⟩, Nat.add_sub_cancel_left]
        rfl
      · have later : (sfsBlknFreemap + (first + 1) ≤ block ∧ block < sfsBlknFreemap + (first + 1) + rounds) ↔
            (sfsBlknFreemap + first ≤ block ∧ block < sfsBlknFreemap + first + (rounds + 1)) := by omega
        simp only [later, Function.update_of_ne isFirst]
    · simp only
      omega

/-! ## The freemap -/

/-- A bit is set in the words. -/
theorem setBit_words (data : Nat → BitVec 32) (bit index : Nat) :
    (Function.update data (bit / 32) (data (bit / 32) ||| 1#32 <<< (bit % 32)) (index / 32)).getLsbD (index % 32) =
      (decide (index = bit) || (data (index / 32)).getLsbD (index % 32)) := by
  have small : index % 32 < 32 := Nat.mod_lt _ (by decide)
  by_cases sameWord : index / 32 = bit / 32
  · have mask := bitmapMask_bit (bit % 32) (index % 32) small
    rw [bitmapMask] at mask
    have same : index % 32 = bit % 32 ↔ index = bit := by omega
    rw [sameWord, Function.update_self, BitVec.getLsbD_or, mask, Bool.or_comm]
    simp only [same]
  · have different : index ≠ bit := fun same => sameWord (same ▸ rfl)
    rw [Function.update_of_ne sameWord]
    simp [different]

/-- The bits set are those of the range. -/
theorem setBitsFrom_exact (start rounds index : Nat) :
    (setBitsFrom start rounds (index / 32)).getLsbD (index % 32) =
      decide (start ≤ index ∧ index < start + rounds) := by
  have folded : ∀ (bits : List Nat) (data : Nat → BitVec 32),
      (bits.foldl (fun data j => Function.update data (j / 32) (data (j / 32) ||| 1#32 <<< (j % 32))) data
        (index / 32)).getLsbD (index % 32) =
        (decide (index ∈ bits) || (data (index / 32)).getLsbD (index % 32)) := by
    intro bits
    induction bits with
    | nil => intro data; simp
    | cons bit rest ih =>
      intro data
      rw [List.foldl_cons, ih, setBit_words, ← Bool.or_assoc]
      congr 1
      by_cases here : index = bit
      · simp [here]
      · simp [here]
  rw [setBitsFrom, folded]
  simp [List.mem_range'_1]

/-- The freemap has a bit set for every block not handed out. -/
theorem freemapWords_exact (ninos nextIno i index : Nat) (small : index < sfsBlkbits) :
    (freemapWords ninos nextIno i (index / 32)).getLsbD (index % 32) =
      decide (nextIno ≤ i + index ∧ i + index < ninos) := by
  unfold freemapWords
  split
  · rw [setBitsFrom_exact]
    congr 1
    apply propext
    split <;> split <;> omega
  · have below : ¬ (nextIno ≤ i + index ∧ i + index < ninos) := by omega
    simp [below]

/-! ## The whole image -/

open Classical in
/-- The disk when the image is closed. -/
noncomputable def closedDisk (sfs : Image) (block : Nat) : Block :=
  if sfs.IsFile block then (sfs.files block).words
  else if sfs.IsCached block then sfs.cache block
  else if block = sfsBlknSuper then sfs.super.words
  else if sfsBlknFreemap ≤ block ∧ block < firstBlock sfs.ninos then
    freemapBlock sfs.ninos sfs.nextIno (block - sfsBlknFreemap)
  else sfs.disk block

/-- No block is an inode and a block of pointers. -/
theorem Laid.apart (laid : Laid ninos sfs) (cached : sfs.IsCached block) : ¬ sfs.IsFile block := by
  intro isFile
  obtain ⟨ino, place, pointers, names⟩ := (laid.cached block).mp cached
  have isInode : sfs.places block .inode = some block := by
    rw [places_isFile isFile]
    exact congrArg some (laid.ino block isFile)
  obtain ⟨_, rfl⟩ := laid.owned.once names isInode
  exact pointers

/-- An appended block is data: it is neither an inode nor a block of pointers. -/
theorem Laid.data_apart {index : Nat} (laid : Laid ninos sfs) (isFile : sfs.IsFile ino)
    (appended : (sfs.files ino).appended[index]? = some block) : ¬ sfs.IsFile block ∧ ¬ sfs.IsCached block := by
  have isData : sfs.places ino (.data index) = some block := by
    rw [places_isFile isFile]
    exact appended
  constructor
  · intro isBlock
    have isInode : sfs.places block .inode = some block := by
      rw [places_isFile isBlock]
      exact congrArg some (laid.ino block isBlock)
    cases (laid.owned.once isData isInode).2
  · intro cached
    obtain ⟨other, place, pointers, names⟩ := (laid.cached block).mp cached
    obtain ⟨_, rfl⟩ := laid.owned.once names isData
    exact pointers

theorem Laid.small (laid : Laid ninos sfs) {place : MkPlace} (names : sfs.places ino place = some block) :
    block < sfs.ninos := by
  obtain ⟨isNinos, _⟩ := laid.size
  obtain ⟨_, sum⟩ := laid.counts
  have inUse := (laid.owned ino).inUse place block names
  omega

/-- The superblock and the freemap belong to no inode. -/
theorem Laid.reserved (laid : Laid ninos sfs) (small : block < firstBlock ninos) (notRoot : block ≠ sfsBlknRoot) :
    ¬ sfs.IsFile block ∧ ¬ sfs.IsCached block := by
  have unnamed : ∀ ino place, sfs.places ino place ≠ some block := by
    intro ino place names
    rcases laid.range ino place block names with isRoot | behind
    · exact notRoot isRoot
    · exact absurd small (Nat.not_lt.mpr behind)
  constructor
  · intro isFile
    refine unnamed block .inode ?_
    rw [places_isFile isFile]
    exact congrArg some (laid.ino block isFile)
  · intro cached
    obtain ⟨ino, place, _, names⟩ := (laid.cached block).mp cached
    exact unnamed ino place names

/-- Closing the image succeeds. -/
theorem closeSfs_exact (laid : Laid ninos sfs) : closeSfs sfs = some { sfs with disk := closedDisk sfs } := by
  classical
  obtain ⟨isNinos, _⟩ := laid.size
  obtain ⟨first, sum⟩ := laid.counts
  have fits : firstBlock sfs.ninos ≤ sfs.ninos := by
    rw [isNinos]
    omega
  have superInside : sfsBlknSuper < sfs.ninos :=
    Nat.lt_of_lt_of_le (Nat.lt_of_lt_of_le (by decide : 0 < sfsBlknFreemap) (Nat.le_add_right _ _)) fits
  obtain ⟨mapped, isMapped, sameMapped⟩ : ∃ mapped, writeFreemap sfs 0 ((sfs.ninos + sfsBlkbits - 1) / sfsBlkbits) =
      some { sfs with disk := mapped } ∧ ∀ block, mapped block =
        if sfsBlknFreemap ≤ block ∧ block < firstBlock sfs.ninos then
          freemapBlock sfs.ninos sfs.nextIno (block - sfsBlknFreemap)
        else sfs.disk block := ⟨_, writeFreemap_exact _ 0 sfs fits, fun _ => rfl⟩
  have wrote := writeBlock_exact { sfs with disk := mapped } sfs.super.words superInside
  have flushed := flushBuckets_exact (List.range 1024)
    { sfs with disk := Function.update mapped sfsBlknSuper sfs.super.words } ?_ ?_
  · simp only [closeSfs, Option.bind_eq_bind, Option.bind_eq_some_iff]
    refine ⟨_, isMapped, _, wrote, flushed.trans ?_⟩
    refine congrArg (fun disk => some { sfs with disk }) ?_
    funext block
    have isFile : InSome sfs.inodes (List.range 1024) block ↔ sfs.IsFile block := inSome_all
    have isCached : InSome sfs.blocks (List.range 1024) block ↔ sfs.IsCached block := inSome_all
    by_cases file : sfs.IsFile block
    · rw [if_pos (isFile.mpr file), closedDisk, if_pos file]
    · rw [if_neg (mt isFile.mp file), closedDisk, if_neg file]
      by_cases cached : sfs.IsCached block
      · rw [if_pos (isCached.mpr cached), if_pos cached]
      · rw [if_neg (mt isCached.mp cached), if_neg cached]
        by_cases isSuper : block = sfsBlknSuper
        · rw [if_pos isSuper, isSuper]
          exact Function.update_self sfsBlknSuper sfs.super.words mapped
        · rw [if_neg isSuper, ← sameMapped]
          exact Function.update_of_ne isSuper sfs.super.words mapped
  · rintro block (cached | file)
    · obtain ⟨ino, place, _, names⟩ := (laid.cached block).mp (inSome_all.mp cached)
      exact laid.small names
    · have isFile : sfs.IsFile block := inSome_all.mp file
      have names : sfs.places block .inode = some block := by
        rw [places_isFile isFile]
        exact congrArg some (laid.ino block isFile)
      exact laid.small names
  · exact fun block cached file => laid.apart (inSome_all.mp cached) (inSome_all.mp file)

/-- What is read from a closed image. -/
structure Written (sfs : Image) (disk : Nat → Block) : Prop where
  file : ∀ ino, sfs.IsFile ino → disk ino = (sfs.files ino).words
  cached : ∀ block, sfs.IsCached block → disk block = sfs.cache block
  data : ∀ (ino index : Nat) block, sfs.IsFile ino → (sfs.files ino).appended[index]? = some block →
    disk block = sfs.disk block
  super : disk sfsBlknSuper = sfs.super.words
  freemap : ∀ block < (sfs.ninos + sfsBlkbits - 1) / sfsBlkbits,
    disk (sfsBlknFreemap + block) = freemapBlock sfs.ninos sfs.nextIno block

theorem closedDisk_written (laid : Laid ninos sfs) : Written sfs (closedDisk sfs) := by
  obtain ⟨isNinos, _⟩ := laid.size
  constructor
  case file => exact fun ino isFile => if_pos isFile
  case cached =>
    intro block cached
    rw [closedDisk, if_neg (laid.apart cached), if_pos cached]
  case data =>
    intro ino index block isFile appended
    obtain ⟨notFile, notCached⟩ := laid.data_apart isFile appended
    have notReserved : ¬ (block = sfsBlknSuper) ∧ ¬ (sfsBlknFreemap ≤ block ∧ block < firstBlock sfs.ninos) := by
      have names : sfs.places ino (.data index) = some block := by
        rw [places_isFile isFile]
        exact appended
      have positive : 0 < firstBlock ninos := Nat.lt_of_lt_of_le (by decide : 0 < sfsBlknFreemap) (Nat.le_add_right _ _)
      rw [isNinos]
      rcases laid.range ino _ block names with isRoot | behind
      · simp only [isRoot, sfsBlknRoot, sfsBlknSuper, sfsBlknFreemap]
        omega
      · simp only [sfsBlknSuper]
        omega
    rw [closedDisk, if_neg notFile, if_neg notCached, if_neg notReserved.1, if_neg notReserved.2]
  case super =>
    have small : sfsBlknSuper < firstBlock ninos :=
      Nat.lt_of_lt_of_le (by decide : sfsBlknSuper < sfsBlknFreemap) (Nat.le_add_right _ _)
    obtain ⟨notFile, notCached⟩ := laid.reserved small (by decide)
    rw [closedDisk, if_neg notFile, if_neg notCached, if_pos rfl]
  case freemap =>
    intro block inside
    have small : sfsBlknFreemap + block < firstBlock ninos := by
      rw [isNinos] at inside
      exact Nat.add_lt_add_left inside _
    have notSmall : 1 < sfsBlknFreemap + block := Nat.lt_of_lt_of_le (by decide : 1 < sfsBlknFreemap) (Nat.le_add_right _ _)
    have notSuper : sfsBlknFreemap + block ≠ sfsBlknSuper := Nat.ne_of_gt (Nat.lt_of_succ_lt notSmall)
    obtain ⟨notFile, notCached⟩ := laid.reserved small (Nat.ne_of_gt notSmall)
    rw [closedDisk, if_neg notFile, if_neg notCached, if_neg notSuper,
      if_pos ⟨Nat.le_add_right _ _, isNinos ▸ small⟩, Nat.add_sub_cancel_left]

end Ucore.Mksfs
