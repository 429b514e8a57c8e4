import Ucore.Sfs.BlockMap

/-!
# Mounting

`sfs_do_mount` of `kern/fs/sfs/sfs_fs.c` reads the superblock and the freemap, and counts
the set bits of the freemap. The device may fail at any read, and each allocation of
memory may fail.
-/

namespace Ucore.Volume

/-- `SFS_MAGIC` -/
def sfsMagic : Nat := 0x2f8dbe2a

def eNaDev : Int := 14

/-- The superblock in a block; `sfs_do_mount` ends its text. -/
def Super.ofWords (words : Block) : Super where
  magic := words 0
  blocks := words 1
  unusedBlocks := words 2
  info := fun index => if index = 7 then words 10 % 16777216 else words (index + 3)

/-- `sfs_freemap_bits` before its conversion to 32 bits. -/
def sfsFreemapBits (super : Super) : Nat := (super.blocks + sfsBlkbits - 1) / sfsBlkbits * sfsBlkbits

-- The result of each call of the device, and of each allocation.
variable (device : Nat → Int) (memory : Nat → Bool)

/-- The loop of `sfs_init_freemap`: the words from `data` on come from the blocks from
`blkno` on. -/
def readFreemap (disk : Nat → Block) (map : Nat → BitVec 32) (calls blkno data : Nat) :
    Nat → Except Int (Nat → BitVec 32)
  | 0 => .ok map
  | nblks + 1 =>
      if device calls ≠ 0 then .error (device calls)
      else
        let read := fun index =>
          if data ≤ index ∧ index < data + sfsBlkNentry then BitVec.ofNat 32 (disk blkno (index - data)) else map index
        readFreemap disk read (calls + 1) (blkno + 1) (data + sfsBlkNentry) nblks

/-- `sfs_init_freemap`, called after one read. -/
def sfsInitFreemap (disk : Nat → Block) (freemap : Bitmap) (nblks : Nat) : Option (Except Int Bitmap) :=
  if freemap.nwords = nblks * sfsBlkNentry then
    some ((readFreemap device disk freemap.map 1 sfsBlknFreemap 0 nblks).map fun map => { freemap with map })
  else none

/-- The loop of `sfs_do_mount` over the bits of the freemap. -/
def countUnused (freemap : Bitmap) : Nat → Option Nat
  | 0 => some 0
  | bits + 1 => do
      let unused ← countUnused freemap bits
      let free ← bitmapTest freemap bits
      some (if free then unused + 1 else unused)

/-- The end of `sfs_do_mount`: the freemap is checked against the superblock. -/
def checkFreemap (disk : Nat → Block) (super : Super) (freemap : Bitmap) : Option (Except Int SfsFs) := do
  let read ← sfsInitFreemap device disk freemap (sfsFreemapBlocks super)
  match read with
  | .error ret => some (.error ret)
  | .ok freemap => do
      let unused ← countUnused freemap (sfsFreemapBits super)
      if unused = super.unusedBlocks then
        some (.ok { super, superDirty := false, freemap, disk, calls := sfsFreemapBlocks super + 1 })
      else none

/-- `sfs_do_mount` on a device with blocks of `dBlocksize` bytes. -/
def sfsDoMount (dBlocksize dBlocks : Nat) (disk : Nat → Block) : Option (Except Int SfsFs) :=
  let super := Super.ofWords (disk sfsBlknSuper)
  if dBlocksize ≠ sfsBlksize then some (.error (-eNaDev))
  else if memory 0 = false ∨ memory 1 = false then some (.error (-eNoMem))
  else if device 0 ≠ 0 then some (.error (device 0))
  else if super.magic ≠ sfsMagic ∨ dBlocks < super.blocks then some (.error (-eInval))
  else if memory 2 = false then some (.error (-eNoMem))
  else do
    let created ← bitmapCreate (memory 3) (sfsFreemapBits super % 2 ^ 32)
    match created with
    | none => some (.error (-eNoMem))
    | some freemap => checkFreemap device disk super freemap

variable {device} {memory}

/-! ## What a mount reads -/

/-- The words of the freemap that a disk holds. -/
def diskFreemap (disk : Nat → Block) (index : Nat) : BitVec 32 :=
  BitVec.ofNat 32 (disk (sfsBlknFreemap + index / sfsBlkNentry) (index % sfsBlkNentry))

/-- The bit of a block in the freemap that a disk holds. -/
def diskBit (disk : Nat → Block) (index : Nat) : Bool :=
  (diskFreemap disk (index / wordBits)).getLsbD (index % wordBits)

variable {disk : Nat → Block} {map : Nat → BitVec 32} {freemap : Bitmap} {calls block data nblks : Nat}

/-- A read fails, or the words read are those of the disk. -/
theorem readFreemap_cases (isData : data = block * sfsBlkNentry) :
    (∃ call, device call ≠ 0 ∧
      readFreemap device disk map calls (sfsBlknFreemap + block) data nblks = .error (device call)) ∨
    ∃ after, readFreemap device disk map calls (sfsBlknFreemap + block) data nblks = .ok after ∧
      ∀ index, after index =
        if data ≤ index ∧ index < data + nblks * sfsBlkNentry then diskFreemap disk index else map index := by
  induction nblks generalizing map calls block data with
  | zero =>
    refine Or.inr ⟨map, rfl, fun index => ?_⟩
    have none : ¬ (data ≤ index ∧ index < data + 0 * sfsBlkNentry) := by omega
    rw [if_neg none]
  | succ nblks ih =>
    by_cases fails : device calls ≠ 0
    · exact Or.inl ⟨calls, fails, by simp only [readFreemap, if_pos fails]⟩
    · simp only [readFreemap, if_neg fails]
      have isNext : data + sfsBlkNentry = (block + 1) * sfsBlkNentry := by
        rw [isData, Nat.add_mul, Nat.one_mul]
      rcases @ih _ (calls + 1) (block + 1) _ isNext with failed | ⟨after, read, isAfter⟩
      · exact Or.inl failed
      · refine Or.inr ⟨after, read, fun index => ?_⟩
        rw [isAfter]
        by_cases here : data ≤ index ∧ index < data + sfsBlkNentry
        · have notLater : ¬ (data + sfsBlkNentry ≤ index ∧ index < data + sfsBlkNentry + nblks * sfsBlkNentry) := by
            omega
          have inside : data ≤ index ∧ index < data + (nblks + 1) * sfsBlkNentry := by
            simp only [sfsBlkNentry] at here ⊢
            omega
          have isBlock : index / sfsBlkNentry = block ∧ index % sfsBlkNentry = index - data := by
            simp only [sfsBlkNentry] at here isData ⊢
            omega
          rw [if_neg notLater, if_pos here, if_pos inside, diskFreemap, isBlock.1, isBlock.2]
        · have same : (data + sfsBlkNentry ≤ index ∧ index < data + sfsBlkNentry + nblks * sfsBlkNentry) ↔
              (data ≤ index ∧ index < data + (nblks + 1) * sfsBlkNentry) := by
            simp only [sfsBlkNentry] at here ⊢
            omega
          simp only [same, if_neg here]

/-- The bits are counted. -/
theorem countUnused_exact {bits : Nat} (inside : bits ≤ freemap.nbits) : countUnused freemap bits =
    some ((Finset.range bits).filter fun index => freemap.bit index = true).card := by
  induction bits with
  | zero => rfl
  | succ bits ih =>
    have here : bitmapTest freemap bits = some (freemap.bit bits) := bitmapTest_exact inside
    rw [countUnused, ih (Nat.le_of_succ_le inside), here]
    simp only [Option.bind_eq_bind, Option.bind_some]
    rw [Finset.range_add_one, Finset.filter_insert]
    cases freemap.bit bits
    · simp
    · simp

/-- A new bitmap for whole blocks of bits. -/
theorem bitmapCreate_blocks {available : Bool} (positive : 0 < nblks) (small : nblks * sfsBlkbits < 2 ^ 32) :
    available = false ∧ bitmapCreate available (nblks * sfsBlkbits) = some none ∨
    ∃ freemap, bitmapCreate available (nblks * sfsBlkbits) = some (some freemap) ∧ available = true ∧
      freemap.nbits = nblks * sfsBlkbits ∧ freemap.nwords = nblks * sfsBlkNentry := by
  have accepted : nblks * sfsBlkbits ≠ 0 ∧
      nblks * sfsBlkbits < (nblks * sfsBlkbits + wordBits) % 2 ^ 64 := by
    simp only [sfsBlkbits, wordBits] at small ⊢
    omega
  have isWords : (nblks * sfsBlkbits + wordBits - 1) / wordBits = nblks * sfsBlkNentry := by
    simp only [sfsBlkbits, wordBits, sfsBlkNentry]
    omega
  have whole : nblks * sfsBlkbits = nblks * sfsBlkNentry * wordBits := by
    simp only [sfsBlkbits, wordBits, sfsBlkNentry]
    omega
  rw [bitmapCreate, if_pos accepted]
  cases available with
  | false => exact Or.inl ⟨rfl, rfl⟩
  | true =>
    right
    have words : bitmapWords (nblks * sfsBlkbits) ((nblks * sfsBlkbits + wordBits - 1) / wordBits) =
        some fun _ => BitVec.allOnes 32 := by
      rw [isWords, bitmapWords, if_pos whole]
    simp only [Bool.true_eq_false, if_false, words, Option.bind_eq_bind, Option.bind_some]
    exact ⟨_, rfl, trivial, rfl, isWords⟩

/-- The freemap read has the bits of the disk, unless a read fails. -/
theorem sfsInitFreemap_cases (isNbits : freemap.nbits = nblks * sfsBlkbits)
    (isNwords : freemap.nwords = nblks * sfsBlkNentry) :
    (∃ call, device call ≠ 0 ∧ sfsInitFreemap device disk freemap nblks = some (.error (device call))) ∨
    ∃ after, sfsInitFreemap device disk freemap nblks = some (.ok after) ∧ after.nbits = freemap.nbits ∧
      ∀ index < freemap.nbits, after.bit index = diskBit disk index := by
  have start : (0 : Nat) = 0 * sfsBlkNentry := (Nat.zero_mul _).symm
  rcases @readFreemap_cases device disk freemap.map 1 0 0 nblks start with ⟨call, fails, read⟩ | ⟨map, read, isMap⟩
  · refine Or.inl ⟨call, fails, ?_⟩
    rw [Nat.add_zero] at read
    rw [sfsInitFreemap, if_pos isNwords, read]
    rfl
  · rw [Nat.add_zero] at read
    refine Or.inr ⟨{ freemap with map }, ?_, rfl, ?_⟩
    · rw [sfsInitFreemap, if_pos isNwords, read]
      rfl
    · intro index inside
      have inWords : 0 ≤ index / wordBits ∧ index / wordBits < 0 + nblks * sfsBlkNentry := by
        rw [isNbits] at inside
        simp only [sfsBlkbits, wordBits, sfsBlkNentry] at inside ⊢
        omega
      have isWord := isMap (index / wordBits)
      rw [if_pos inWords] at isWord
      simp only [Bitmap.bit, isWord, diskBit]

/-- What is mounted from a disk. -/
structure MountedFrom (disk : Nat → Block) (fs : SfsFs) : Prop where
  super : fs.super = Super.ofWords (disk sfsBlknSuper)
  clean : fs.superDirty = false
  sameDisk : fs.disk = disk
  nbits : fs.freemap.nbits = sfsFreemapBits fs.super
  bits : ∀ index < fs.freemap.nbits, fs.freemap.bit index = diskBit disk index

/-- The superblock counts the bits set in the freemap. -/
def CountsUnused (disk : Nat → Block) : Prop :=
  ((Finset.range (sfsFreemapBits (Super.ofWords (disk sfsBlknSuper)))).filter fun index =>
    diskBit disk index = true).card = (Super.ofWords (disk sfsBlknSuper)).unusedBlocks

/-- A freemap that the superblock counts passes the check, unless a read fails. -/
theorem checkFreemap_counts (counts : CountsUnused disk)
    (isNbits : freemap.nbits = sfsFreemapBits (Super.ofWords (disk sfsBlknSuper)))
    (isNwords : freemap.nwords = sfsFreemapBlocks (Super.ofWords (disk sfsBlknSuper)) * sfsBlkNentry) :
    (∃ call, device call ≠ 0 ∧
      checkFreemap device disk (Super.ofWords (disk sfsBlknSuper)) freemap = some (.error (device call))) ∨
    ∃ fs, checkFreemap device disk (Super.ofWords (disk sfsBlknSuper)) freemap = some (.ok fs) ∧
      MountedFrom disk fs := by
  rcases @sfsInitFreemap_cases device disk freemap (sfsFreemapBlocks (Super.ofWords (disk sfsBlknSuper)))
      isNbits isNwords with
    ⟨call, fails, read⟩ | ⟨after, read, sameNbits, bits⟩
  · refine Or.inl ⟨call, fails, ?_⟩
    rw [checkFreemap, read]
    rfl
  · right
    have counted : countUnused after (sfsFreemapBits (Super.ofWords (disk sfsBlknSuper))) =
        some (Super.ofWords (disk sfsBlknSuper)).unusedBlocks := by
      rw [countUnused_exact (Nat.le_of_eq (sameNbits.trans isNbits).symm), ← counts]
      refine congrArg (fun set => some (Finset.card set)) (Finset.filter_congr fun index member => ?_)
      rw [bits index (isNbits ▸ Finset.mem_range.mp member)]
    let mounted : SfsFs := {
      super := Super.ofWords (disk sfsBlknSuper)
      superDirty := false
      freemap := after
      disk
      calls := sfsFreemapBlocks (Super.ofWords (disk sfsBlknSuper)) + 1 }
    have isMounted : MountedFrom disk mounted :=
      ⟨rfl, rfl, rfl, sameNbits.trans isNbits, fun index inside => bits index (sameNbits ▸ inside)⟩
    refine ⟨mounted, ?_, isMounted⟩
    simp only [checkFreemap, Option.bind_eq_bind, Option.bind_eq_some_iff]
    refine ⟨_, read, ?_⟩
    simp only [Option.bind_eq_some_iff]
    exact ⟨_, counted, if_pos rfl⟩

/-- The device fits the disk and works, and there is memory. -/
structure Works (device : Nat → Int) (memory : Nat → Bool) (dBlocksize dBlocks : Nat) (disk : Nat → Block) :
    Prop where
  size : dBlocksize = sfsBlksize
  fits : (Super.ofWords (disk sfsBlknSuper)).blocks ≤ dBlocks
  works : ∀ call, device call = 0
  available : ∀ call, memory call = true

/-- A disk whose superblock counts the free blocks can be mounted: no assertion fails,
and a device that works is mounted. -/
theorem sfsDoMount_counts {dBlocksize dBlocks : Nat} (counts : CountsUnused disk)
    (isMagic : (Super.ofWords (disk sfsBlknSuper)).magic = sfsMagic)
    (positive : 0 < (Super.ofWords (disk sfsBlknSuper)).blocks)
    (small : sfsFreemapBits (Super.ofWords (disk sfsBlknSuper)) < 2 ^ 32) :
    ∃ result, sfsDoMount device memory dBlocksize dBlocks disk = some result ∧
      (Works device memory dBlocksize dBlocks disk → ∃ fs, result = .ok fs) ∧
      ∀ fs, result = .ok fs → MountedFrom disk fs := by
  have someBlocks : 0 < sfsFreemapBlocks (Super.ofWords (disk sfsBlknSuper)) := by
    simp only [sfsFreemapBlocks, sfsBlkbits]
    omega
  have isBits : sfsFreemapBits (Super.ofWords (disk sfsBlknSuper)) =
      sfsFreemapBlocks (Super.ofWords (disk sfsBlknSuper)) * sfsBlkbits := rfl
  have failed : ∀ ret, ¬ Works device memory dBlocksize dBlocks disk →
      ∃ result, (some (.error ret) : Option (Except Int SfsFs)) = some result ∧
        (Works device memory dBlocksize dBlocks disk → ∃ fs, result = .ok fs) ∧
        ∀ fs, result = .ok fs → MountedFrom disk fs := by
    intro ret broken
    refine ⟨_, rfl, fun works => absurd works broken, fun fs isOk => ?_⟩
    cases isOk
  unfold sfsDoMount
  by_cases wrongSize : dBlocksize ≠ sfsBlksize
  · rw [if_pos wrongSize]
    exact failed _ fun works => wrongSize works.size
  rw [if_neg wrongSize]
  by_cases noBuffer : memory 0 = false ∨ memory 1 = false
  · rw [if_pos noBuffer]
    refine failed _ fun works => ?_
    simp [works.available] at noBuffer
  rw [if_neg noBuffer]
  by_cases noSuper : device 0 ≠ 0
  · rw [if_pos noSuper]
    exact failed _ fun works => noSuper (works.works 0)
  rw [if_neg noSuper]
  by_cases misfit : (Super.ofWords (disk sfsBlknSuper)).magic ≠ sfsMagic ∨
      dBlocks < (Super.ofWords (disk sfsBlknSuper)).blocks
  · rw [if_pos misfit]
    refine failed _ fun works => ?_
    exact misfit.elim (fun wrong => wrong isMagic) (Nat.not_lt.mpr works.fits)
  rw [if_neg misfit]
  by_cases noList : memory 2 = false
  · rw [if_pos noList]
    refine failed _ fun works => ?_
    simp [works.available] at noList
  rw [if_neg noList]
  rcases @bitmapCreate_blocks _ (memory 3) someBlocks small with
    ⟨noMemory, created⟩ | ⟨freemap, created, _, isNbits, isNwords⟩
  · rw [← isBits] at created
    rw [Nat.mod_eq_of_lt small, created]
    refine failed _ fun works => ?_
    simp [works.available] at noMemory
  · rw [← isBits] at created isNbits
    rw [Nat.mod_eq_of_lt small, created]
    rcases @checkFreemap_counts device disk freemap counts isNbits isNwords with
      ⟨call, fails, checked⟩ | ⟨fs, checked, isMounted⟩
    · obtain ⟨result, isError, broken⟩ := failed (device call) fun works => fails (works.works call)
      exact ⟨result, checked.trans isError, broken⟩
    · refine ⟨.ok fs, checked, fun _ => ⟨fs, rfl⟩, ?_⟩
      rintro other isOk
      cases isOk
      exact isMounted

end Ucore.Volume
