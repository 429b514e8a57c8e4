import Ucore.Tools.HostTree

/-!
# The data of regular files on an image

The builder copies a regular file of the host block by block, and writes every block of
the image once. So what it has copied stays, whatever it stores afterwards.
-/

namespace Ucore.Mksfs

open Ownership Transition Volume

variable {sfs middle next : Image} {ninos file current parent ino real size last : Nat} {words : Block} {name : Name}
variable {blocks copied : List (Block × Nat)}

/-- An inode holds blocks of the host: as many, with their words, and their sizes add up to
its size. -/
structure HoldsBlocks (sfs : Image) (ino : Nat) (blocks : List (Block × Nat)) : Prop where
  size : (sfs.files ino).din.size = (blocks.map Prod.snd).sum
  length : (sfs.files ino).appended.length = blocks.length
  data : ∀ (index : Nat) words size, blocks[index]? = some (words, size) →
    ∃ block, (sfs.files ino).appended[index]? = some block ∧ sfs.disk block = words

/-- A part of the run: the inodes stay with their types and the numbers of the host, blocks
handed out before are not written, and no block is appended to regular files. -/
structure KeepsData (sfs next : Image) : Prop where
  isFile : ∀ ino, sfs.IsFile ino → next.IsFile ino
  real : ∀ ino, sfs.IsFile ino → (next.files ino).real = (sfs.files ino).real
  type : ∀ ino, sfs.IsFile ino → (next.files ino).din.type = (sfs.files ino).din.type
  size : ∀ ino, sfs.IsFile ino → (sfs.files ino).din.type = typeFile →
    (next.files ino).din.size = (sfs.files ino).din.size
  appended : ∀ ino, sfs.IsFile ino → (sfs.files ino).din.type = typeFile →
    (next.files ino).appended = (sfs.files ino).appended
  disk : ∀ block < sfs.nextIno, next.disk block = sfs.disk block
  nextIno : sfs.nextIno ≤ next.nextIno

theorem KeepsData.refl (sfs : Image) : KeepsData sfs sfs where
  isFile := fun _ => id
  real := fun _ _ => rfl
  type := fun _ _ => rfl
  size := fun _ _ _ => rfl
  appended := fun _ _ _ => rfl
  disk := fun _ _ => rfl
  nextIno := Nat.le_refl _

theorem KeepsData.trans (first : KeepsData sfs middle) (second : KeepsData middle next) : KeepsData sfs next where
  isFile := fun ino isFile => second.isFile ino (first.isFile ino isFile)
  real := fun ino isFile => (second.real ino (first.isFile ino isFile)).trans (first.real ino isFile)
  type := fun ino isFile => (second.type ino (first.isFile ino isFile)).trans (first.type ino isFile)
  size := by
    intro ino isFile isData
    have isMiddle := (first.type ino isFile).trans isData
    exact (second.size ino (first.isFile ino isFile) isMiddle).trans (first.size ino isFile isData)
  appended := by
    intro ino isFile isData
    have isMiddle := (first.type ino isFile).trans isData
    exact (second.appended ino (first.isFile ino isFile) isMiddle).trans (first.appended ino isFile isData)
  disk := fun block old => (second.disk block (Nat.lt_of_lt_of_le old first.nextIno)).trans (first.disk block old)
  nextIno := Nat.le_trans first.nextIno second.nextIno

/-- What a regular file holds stays. -/
theorem HoldsBlocks.later (holds : HoldsBlocks sfs ino blocks) (laid : Laid ninos sfs) (keeps : KeepsData sfs next)
    (isFile : sfs.IsFile ino) (isData : (sfs.files ino).din.type = typeFile) : HoldsBlocks next ino blocks where
  size := (keeps.size ino isFile isData).trans holds.size
  length := by
    rw [keeps.appended ino isFile isData]
    exact holds.length
  data := by
    intro index words size isBlock
    obtain ⟨block, appended, isWords⟩ := holds.data index words size isBlock
    refine ⟨block, ?_, ?_⟩
    · rwa [keeps.appended ino isFile isData]
    · rw [keeps.disk block (laid.appended_inUse isFile appended), isWords]

/-! ## What the builder does to them -/

/-- A block adds its size to the size of the inode. -/
theorem appendData_size (laid : Laid ninos sfs) (isFile : sfs.IsFile file)
    (called : appendData sfs file words size = some next) :
    (next.files file).din.size = (sfs.files file).din.size + size := by
  have owns := laid.owned file
  rw [places_isFile isFile] at owns
  simp only [appendData, Option.bind_eq_bind, Option.bind_eq_some_iff] at called
  obtain ⟨⟨number, allocated⟩, alloc, written, write, append⟩ := called
  obtain ⟨rfl, _, isAllocated⟩ := sfsAllocIno_cases alloc
  obtain ⟨_, isWritten⟩ := writeBlock_cases write
  have isTaken : written = sfs.take words := by
    rw [isWritten, isAllocated]
    rfl
  subst isTaken
  unfold appendBlock at append
  split at append
  · simp only [Option.bind_eq_bind, Option.bind_eq_some_iff] at append
    obtain ⟨pointed, isPointed, isNext⟩ := append
    have widened : Owns (places (sfs.take words).cache ((sfs.take words).files file))
        (· < (sfs.take words).nextIno) (others sfs.places file) :=
      owns.mono (fun _ _ names => names) fun block inUse => Nat.lt_succ_of_lt inUse
    obtain ⟨grows, _⟩ := appendPointer_grows widened (Nat.succ_ne_zero _) isPointed
    have sameSize : (pointed.files file).din.size = (sfs.files file).din.size := grows.history.size
    cases isNext
    have here : (pointed.setFile file ((pointed.files file).append size sfs.nextIno)).files file =
        (pointed.files file).append size sfs.nextIno := Function.update_self ..
    rw [here, CacheInode.append, sameSize]
  · cases append

/-- A new inode. -/
theorem Makes.keepsData {type : Nat} (makes : Makes real type file sfs next) (notFile : ¬ sfs.IsFile file) :
    KeepsData sfs next := by
  have elsewhere : ∀ ino, sfs.IsFile ino → next.files ino = sfs.files ino := fun ino isFile =>
    makes.elsewhere ino fun isHere => notFile (isHere ▸ isFile)
  constructor
  case isFile => exact fun ino isFile => (makes.isFile ino).mpr (Or.inl isFile)
  case real => exact fun ino isFile => by rw [elsewhere ino isFile]
  case type => exact fun ino isFile => by rw [elsewhere ino isFile]
  case size => exact fun ino isFile _ => by rw [elsewhere ino isFile]
  case appended => exact fun ino isFile _ => by rw [elsewhere ino isFile]
  case disk => exact fun block _ => by rw [makes.fixed.1]
  case nextIno =>
    rw [makes.counts.nextIno]
    exact Nat.le_succ _

/-- An entry, which goes to a directory. -/
theorem Adds.keepsData (adds : Adds current file name sfs next) (sizes : ∀ ino, ino ≠ current →
    (next.files ino).din.size = (sfs.files ino).din.size) : KeepsData sfs next := by
  have different : ∀ ino, (sfs.files ino).din.type = typeFile → ino ≠ current := by
    intro ino isData same
    rw [same, adds.isDir] at isData
    exact absurd isData (by decide)
  constructor
  case isFile =>
    intro ino isFile
    rw [Image.IsFile, adds.inodes]
    exact isFile
  case real => exact fun ino _ => adds.real ino
  case type => exact fun ino _ => adds.type ino
  case size => exact fun ino _ isData => sizes ino (different ino isData)
  case appended =>
    intro ino _ isData
    rw [adds.appended ino, if_neg (different ino isData), List.append_nil]
  case disk =>
    intro block old
    rw [adds.disk, Function.update_of_ne (Nat.ne_of_lt old)]
  case nextIno => exact Nat.le_of_lt adds.nextIno

theorem addEntry_keepsData (built : Built ninos sfs) (isCurrent : sfs.IsFile current) (isFile : sfs.IsFile file)
    (called : addEntry sfs current file name = some next) : KeepsData sfs next := by
  obtain ⟨_, adds⟩ := built.entry isCurrent isFile called
  refine adds.keepsData fun ino different => ?_
  unfold addEntry at called
  split at called
  · simp only [Option.bind_eq_bind, Option.bind_eq_some_iff] at called
    obtain ⟨filled, append, isNext⟩ := called
    have named : Laid ninos { sfs with entryName := copyName sfs.entryName name } :=
      built.toLaid.links (fun ino => ⟨_, _, rfl⟩) ⟨rfl, rfl, rfl, rfl, rfl, rfl, rfl⟩
    obtain ⟨_, appends⟩ := named.appendData isCurrent append
    have elsewhere : filled.files ino = sfs.files ino := appends.elsewhere ino different
    cases isNext
    by_cases isHere : ino = file
    · subst isHere
      simp [Image.link, Image.setFile, different, elsewhere]
    · simp [Image.link, Image.setFile, different, isHere, elsewhere]
  · cases called

/-- A block of data goes to the end of what the inode holds. -/
theorem HoldsBlocks.append (holds : HoldsBlocks sfs file copied) (built : Built ninos sfs) (isFile : sfs.IsFile file)
    (notDir : (sfs.files file).din.type ≠ typeDir) (called : appendData sfs file words size = some next) :
    HoldsBlocks next file (copied ++ [(words, size)]) := by
  obtain ⟨_, appends⟩ := built.data isFile notDir called
  constructor
  case size =>
    rw [appendData_size built.toLaid isFile called, holds.size]
    simp
  case length =>
    rw [appends.appended, List.length_append, List.length_append, holds.length]
    rfl
  case data =>
    intro index words' size' isBlock
    rw [appends.appended, appends.disk]
    by_cases old : index < copied.length
    · rw [List.getElem?_append_left old] at isBlock
      obtain ⟨block, appended, isWords⟩ := holds.data index words' size' isBlock
      refine ⟨block, ?_, ?_⟩
      · rwa [List.getElem?_append_left (holds.length ▸ old)]
      · rw [Function.update_of_ne (Nat.ne_of_lt (built.toLaid.appended_inUse isFile appended)), isWords]
    · have isLast : index = copied.length := by
        have inside := (List.getElem?_eq_some_iff.mp isBlock).1
        rw [List.length_append, List.length_singleton] at inside
        omega
      subst isLast
      rw [List.getElem?_concat_length] at isBlock
      cases isBlock
      refine ⟨sfs.nextIno, ?_, Function.update_self ..⟩
      rw [← holds.length, List.getElem?_concat_length]

/-- What is appended to one inode does not matter to the others. -/
structure Fills (file : Nat) (sfs next : Image) : Prop where
  elsewhere : ∀ ino, ino ≠ file → next.files ino = sfs.files ino
  real : (next.files file).real = (sfs.files file).real
  type : (next.files file).din.type = (sfs.files file).din.type
  inodes : next.inodes = sfs.inodes
  disk : ∀ block < sfs.nextIno, next.disk block = sfs.disk block
  nextIno : sfs.nextIno ≤ next.nextIno

theorem Fills.refl (file : Nat) (sfs : Image) : Fills file sfs sfs :=
  ⟨fun _ _ => rfl, rfl, rfl, rfl, fun _ _ => rfl, Nat.le_refl _⟩

theorem Fills.trans (first : Fills file sfs middle) (second : Fills file middle next) : Fills file sfs next where
  elsewhere := fun ino different => (second.elsewhere ino different).trans (first.elsewhere ino different)
  real := second.real.trans first.real
  type := second.type.trans first.type
  inodes := second.inodes.trans first.inodes
  disk := fun block old => (second.disk block (Nat.lt_of_lt_of_le old first.nextIno)).trans (first.disk block old)
  nextIno := Nat.le_trans first.nextIno second.nextIno

theorem appendData_fills (built : Built ninos sfs) (isFile : sfs.IsFile file)
    (notDir : (sfs.files file).din.type ≠ typeDir) (called : appendData sfs file words size = some next) :
    Fills file sfs next := by
  obtain ⟨_, appends⟩ := built.data isFile notDir called
  refine ⟨appends.elsewhere, appends.real, appends.type, appends.fixed.1, ?_, Nat.le_of_lt appends.counts.1⟩
  intro block old
  rw [appends.disk, Function.update_of_ne (Nat.ne_of_lt old)]

/-- The loop of `open_file` copies the blocks that it is given. -/
theorem openFile_holds (built : Built ninos sfs) (isFile : sfs.IsFile file)
    (notDir : (sfs.files file).din.type ≠ typeDir) (holds : HoldsBlocks sfs file copied)
    (called : openFile sfs file last blocks = some next) :
    HoldsBlocks next file (copied ++ blocks) ∧ Fills file sfs next := by
  induction blocks generalizing sfs last copied with
  | nil =>
    cases called
    exact ⟨(List.append_nil copied).symm ▸ holds, Fills.refl _ _⟩
  | cons block rest ih =>
    rw [openFile] at called
    split at called
    · obtain ⟨filled, append, opened⟩ := Option.bind_eq_some_iff.mp called
      have fills := appendData_fills built isFile notDir append
      have isFile' : filled.IsFile file := by
        rw [Image.IsFile, fills.inodes]
        exact isFile
      obtain ⟨whole, later⟩ := ih (built.data isFile notDir append).1 isFile' (fills.type ▸ notDir)
        (holds.append built isFile notDir append) opened
      rw [List.append_assoc, List.singleton_append] at whole
      exact ⟨whole, fills.trans later⟩
    · cases called

/-- Filling an inode that is new keeps the data of the others. -/
theorem Makes.fills_keepsData {type : Nat} (makes : Makes real type file sfs middle) (notFile : ¬ sfs.IsFile file)
    (fills : Fills file middle next) : KeepsData sfs next := by
  have kept := makes.keepsData notFile
  have elsewhere : ∀ ino, sfs.IsFile ino → next.files ino = middle.files ino := fun ino isFile =>
    fills.elsewhere ino fun isHere => notFile (isHere ▸ isFile)
  constructor
  case isFile =>
    intro ino isFile
    rw [Image.IsFile, fills.inodes]
    exact kept.isFile ino isFile
  case real => exact fun ino isFile => by rw [elsewhere ino isFile, kept.real ino isFile]
  case type => exact fun ino isFile => by rw [elsewhere ino isFile, kept.type ino isFile]
  case size => exact fun ino isFile isData => by rw [elsewhere ino isFile, kept.size ino isFile isData]
  case appended => exact fun ino isFile isData => by rw [elsewhere ino isFile, kept.appended ino isFile isData]
  case disk =>
    exact fun block old => (fills.disk block (Nat.lt_of_lt_of_le old kept.nextIno)).trans (kept.disk block old)
  case nextIno => exact Nat.le_trans kept.nextIno fills.nextIno

end Ucore.Mksfs
