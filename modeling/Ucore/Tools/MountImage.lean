import Mathlib.Order.Interval.Finset.Nat
import Ucore.Sfs.Mount
import Ucore.Tools.CloseImage

/-!
# Mounting an image of the builder

The kernel mounts every image that the builder writes: the freemap has a bit for every
block not handed out, and the superblock counts them.
-/

namespace Ucore.Mksfs

open Ownership Transition Volume

variable {sfs start : Image} {ninos size index : Nat} {info : Nat → Nat} {disk : Nat → Block}

/-- The blocks allocated: those of the superblock, the root and the freemap, and those that
`sfs_alloc_ino` returned. -/
def Image.Allocated (sfs : Image) (block : Nat) : Prop :=
  block = sfsBlknSuper ∨ block = sfsBlknRoot ∨
    sfsBlknFreemap ≤ block ∧ block < sfsBlknFreemap + (sfs.ninos + sfsBlkbits - 1) / sfsBlkbits ∨
    block ∈ sfs.allocated

/-- The blocks allocated are those before the next one. -/
theorem Laid.allocated_iff (laid : Laid ninos sfs) : sfs.Allocated index ↔ index < sfs.nextIno := by
  obtain ⟨isNinos, _⟩ := laid.size
  obtain ⟨first, _⟩ := laid.counts
  rw [Image.Allocated, laid.allocated, List.mem_range'_1, isNinos]
  simp only [firstBlock, sfsBlknFreemap, sfsBlknSuper, sfsBlknRoot] at first ⊢
  generalize (ninos + sfsBlkbits - 1) / sfsBlkbits = blocks at first ⊢
  omega

/-- The superblock that the kernel reads. -/
theorem Written.super_eq (written : Written sfs disk) :
    (Super.ofWords (disk sfsBlknSuper)).magic = sfs.super.magic ∧
      (Super.ofWords (disk sfsBlknSuper)).blocks = sfs.super.blocks ∧
      (Super.ofWords (disk sfsBlknSuper)).unusedBlocks = sfs.super.unusedBlocks := by
  rw [written.super]
  exact ⟨rfl, rfl, rfl⟩

/-- The kernel finds the bits that the builder wrote. -/
theorem Written.bit (written : Written sfs disk)
    (inside : index < (sfs.ninos + sfsBlkbits - 1) / sfsBlkbits * sfsBlkbits) :
    diskBit disk index = decide (sfs.nextIno ≤ index ∧ index < sfs.ninos) := by
  have isBlock : index / wordBits / sfsBlkNentry = index / sfsBlkbits := by
    simp only [wordBits, sfsBlkNentry, sfsBlkbits]
    omega
  have isWord : index / wordBits % sfsBlkNentry = index % sfsBlkbits / 32 := by
    simp only [wordBits, sfsBlkNentry, sfsBlkbits]
    omega
  have isBit : index % wordBits = index % sfsBlkbits % 32 := by
    simp only [wordBits, sfsBlkbits]
    omega
  have inFreemap : index / sfsBlkbits < (sfs.ninos + sfsBlkbits - 1) / sfsBlkbits := by
    simp only [sfsBlkbits] at inside ⊢
    omega
  have small : index % sfsBlkbits < sfsBlkbits := Nat.mod_lt _ (by decide)
  have whole : index / sfsBlkbits * sfsBlkbits + index % sfsBlkbits = index := Nat.div_add_mod' index sfsBlkbits
  rw [diskBit, diskFreemap, isBlock, isWord, isBit, written.freemap _ inFreemap, freemapBlock,
    BitVec.ofNat_toNat, BitVec.setWidth_eq, freemapWords_exact _ _ _ _ small, whole]

/-- The superblock counts the bits of the freemap. -/
theorem Written.countsUnused (laid : Laid ninos sfs) (written : Written sfs disk) : CountsUnused disk := by
  obtain ⟨isNinos, isBlocks, _⟩ := laid.size
  obtain ⟨first, sum⟩ := laid.counts
  obtain ⟨_, sameBlocks, sameUnused⟩ := written.super_eq
  have isBits : sfsFreemapBits (Super.ofWords (disk sfsBlknSuper)) =
      (sfs.ninos + sfsBlkbits - 1) / sfsBlkbits * sfsBlkbits := by
    rw [sfsFreemapBits, sameBlocks, isBlocks, isNinos]
  have covered : sfs.ninos ≤ (sfs.ninos + sfsBlkbits - 1) / sfsBlkbits * sfsBlkbits := by
    simp only [sfsBlkbits]
    omega
  have free : ((Finset.range ((sfs.ninos + sfsBlkbits - 1) / sfsBlkbits * sfsBlkbits)).filter fun index =>
      diskBit disk index = true) = Finset.Ico sfs.nextIno sfs.ninos := by
    ext index
    rw [Finset.mem_filter, Finset.mem_range, Finset.mem_Ico]
    constructor
    · rintro ⟨inside, isSet⟩
      simpa [written.bit inside] using isSet
    · rintro ⟨lower, upper⟩
      have inside := Nat.lt_of_lt_of_le upper covered
      exact ⟨inside, by simp [written.bit inside, lower, upper]⟩
  rw [CountsUnused, isBits, free, Nat.card_Ico, sameUnused]
  omega

/-- `ninos` fits the words of the kernel. -/
theorem createNinos_le (size : Nat) : createNinos size ≤ sfsMaxNblks := by
  unfold createNinos
  split
  · exact Nat.le_refl _
  · omega

/-- The kernel mounts a closed image, unless the device or the memory fails. -/
theorem closed_mounts {device : Nat → Int} {memory : Nat → Bool} {dBlocksize dBlocks : Nat}
    (laid : Laid ninos sfs) (small : ninos ≤ sfsMaxNblks) (written : Written sfs disk) :
    ∃ result, sfsDoMount device memory dBlocksize dBlocks disk = some result ∧
      (Works device memory dBlocksize dBlocks disk → ∃ fs, result = .ok fs) ∧
      ∀ fs, result = .ok fs → MountedFrom disk fs := by
  obtain ⟨isNinos, isBlocks, isMagic⟩ := laid.size
  obtain ⟨first, sum⟩ := laid.counts
  obtain ⟨sameMagic, sameBlocks, _⟩ := written.super_eq
  have nonzero : 0 < ninos := by
    have positive : 0 < firstBlock ninos :=
      Nat.lt_of_lt_of_le (by decide : 0 < sfsBlknFreemap) (Nat.le_add_right _ _)
    omega
  refine sfsDoMount_counts (written.countsUnused laid) (sameMagic.trans isMagic) ?_ ?_
  · rwa [sameBlocks, isBlocks]
  · rw [sfsFreemapBits, sameBlocks, isBlocks]
    simp only [sfsMaxNblks, sfsBlkbits] at small ⊢
    omega

/-- A closed image can be mounted. -/
theorem closed_mounted (laid : Laid ninos sfs) (small : ninos ≤ sfsMaxNblks) (written : Written sfs disk) :
    ∃ fs, MountedFrom disk fs := by
  obtain ⟨result, _, succeeds, isMounted⟩ := @closed_mounts _ _ _ (fun _ => 0) (fun _ => true) sfsBlksize
    (Super.ofWords (disk sfsBlknSuper)).blocks laid small written
  obtain ⟨fs, isOk⟩ := succeeds ⟨rfl, Nat.le_refl _, fun _ => rfl, fun _ => rfl⟩
  exact ⟨fs, isMounted fs isOk⟩

/-- Every image that the builder writes is mounted: the freemap has a set bit for each
block below the size of the image that was not allocated, and no other; the superblock
counts the set bits; and so the kernel mounts the image, unless the device or the memory
fails, and no assertion does. -/
theorem image_mounts (created : createSfs size info disk = some start)
    (reached : Reaches imageStep ImageLegal start sfs) :
    ∃ closed, closeSfs sfs = some closed ∧
      (Super.ofWords (closed.disk sfsBlknSuper)).blocks = createNinos size ∧
      (∀ index < sfsFreemapBits (Super.ofWords (closed.disk sfsBlknSuper)),
        diskBit closed.disk index = true ↔ index < createNinos size ∧ ¬ sfs.Allocated index) ∧
      CountsUnused closed.disk ∧
      ∀ device memory dBlocksize dBlocks, ∃ result,
        sfsDoMount device memory dBlocksize dBlocks closed.disk = some result ∧
        (Works device memory dBlocksize dBlocks closed.disk → ∃ fs, result = .ok fs) ∧
        ∀ fs, result = .ok fs → MountedFrom closed.disk fs := by
  have laid := (built_reached created reached).toLaid
  obtain ⟨isNinos, isBlocks, _⟩ := laid.size
  have written := closedDisk_written laid
  obtain ⟨_, sameBlocks, _⟩ := written.super_eq
  refine ⟨_, closeSfs_exact laid, sameBlocks.trans isBlocks, ?_, written.countsUnused laid, ?_⟩
  · intro index inside
    have inBits : index < (sfs.ninos + sfsBlkbits - 1) / sfsBlkbits * sfsBlkbits := by
      rw [isNinos]
      rwa [sfsFreemapBits, sameBlocks, isBlocks] at inside
    rw [written.bit inBits, laid.allocated_iff, isNinos, decide_eq_true_iff]
    omega
  · exact fun device memory dBlocksize dBlocks => closed_mounts laid (createNinos_le size) written

/-- An image of ten blocks, with one empty file. -/
theorem image_mounts_file : ∃ start sfs, createSfs 40960 (fun _ => 0) (fun _ _ => 0) = some start ∧
    imageStep start (.newFile 7 typeFile) = some sfs ∧ ∃ closed, closeSfs sfs = some closed ∧
      (Super.ofWords (closed.disk sfsBlknSuper)).blocks = createNinos 40960 ∧ CountsUnused closed.disk := by
  obtain ⟨start, sfs, created, made⟩ : ∃ start sfs, createSfs 40960 (fun _ => 0) (fun _ _ => 0) = some start ∧
      imageStep start (.newFile 7 typeFile) = some sfs := ⟨_, _, rfl, rfl⟩
  have legal : ImageLegal start (.newFile 7 typeFile) := Or.inl rfl
  obtain ⟨closed, isClosed, isBlocks, _, counts, _⟩ := image_mounts created (.step .start legal made)
  exact ⟨start, sfs, created, made, closed, isClosed, isBlocks, counts⟩

end Ucore.Mksfs
