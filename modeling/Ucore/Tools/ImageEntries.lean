import Ucore.Sfs.Dirent
import Ucore.Sfs.VolumeRuns
import Ucore.Tools.ImageBlocks

/-!
# The entries of a directory on an image

The builder writes the inode number of an entry and as many bytes behind it that the
whole is as long as the name. So the kernel finds the names cut to 252 bytes, in the
first 1036 slots.
-/

namespace Ucore.Mksfs

open Ownership Transition Volume

variable {sfs : Image} {ninos ino index block number : Nat} {disk : Nat → Block} {buffer : Nat → Fin 256}
variable {device : Nat → Int} {fs : SfsFs} {name : Name}

/-- The bytes of a name that `add_entry` writes: the inode number takes the place of the
last ones. -/
def writtenLen : Nat := sfsMaxFnameLen + 1 - 4

/-- The name that is on the image. -/
def cut (name : Name) : Name := name.take writtenLen

/-- The bytes of a word. -/
theorem byteOf_word (bytes : Nat → Fin 256) (index : Nat) (small : index < 4) :
    byteOf ((bytes 0).val + 256 * (bytes 1).val + 65536 * (bytes 2).val + 16777216 * (bytes 3).val) index =
      bytes index := by
  have first := (bytes 0).isLt
  have second := (bytes 1).isLt
  have third := (bytes 2).isLt
  have fourth := (bytes 3).isLt
  apply Fin.ext
  rcases (by omega : index = 0 ∨ index = 1 ∨ index = 2 ∨ index = 3) with rfl | rfl | rfl | rfl
  all_goals
    simp only [byteOf, Fin.val_ofNat]
    omega

/-- The static buffer holds the name. -/
theorem copyName_holds (buffer : Nat → Fin 256) (name : Name) : HoldsString (copyName buffer name) name := by
  constructor
  · intro index byte isByte
    simp [copyName, isByte]
  · simp [copyName]

theorem ofWords_name (words : Block) (index : Nat) : (DiskEntry.ofWords words).name index =
    if index = Volume.sfsMaxFnameLen then 0 else byteOf (words (index / 4 + 1)) (index % 4) := rfl

/-- The kernel reads the bytes of a name that were written. -/
theorem readName_exact (number : Nat) (bytes : Nat → Fin 256) (index : Nat) :
    (DiskEntry.ofWords (entryBlock number bytes)).name index = if index < writtenLen then bytes index else 0 := by
  by_cases inside : index < writtenLen
  · have notLast : index ≠ Volume.sfsMaxFnameLen := by
      simp only [writtenLen, sfsMaxFnameLen, Volume.sfsMaxFnameLen] at inside ⊢
      omega
    have written : index / 4 + 1 < (sfsMaxFnameLen + 1) / 4 := by
      simp only [writtenLen, sfsMaxFnameLen] at inside ⊢
      omega
    have word := byteOf_word (fun byte => bytes (4 * (index / 4) + byte)) (index % 4) (Nat.mod_lt _ (by decide))
    rw [Nat.div_add_mod] at word
    rw [if_pos inside, ofWords_name, if_neg notLast, entryBlock, if_pos written]
    exact word
  · rw [if_neg inside, ofWords_name]
    by_cases isLast : index = Volume.sfsMaxFnameLen
    · rw [if_pos isLast]
    · have notWritten : ¬ index / 4 + 1 < (sfsMaxFnameLen + 1) / 4 := by
        simp only [writtenLen, sfsMaxFnameLen] at inside ⊢
        omega
      rw [if_neg isLast, entryBlock, if_neg notWritten, byteOf, Nat.zero_div]
      rfl

/-- The kernel reads the name cut off. -/
theorem readEntry_exact (number : Nat) (buffer : Nat → Fin 256) (name : Name) :
    (DiskEntry.ofWords (entryBlock number (copyName buffer name))).ino = number ∧
      HoldsString (DiskEntry.ofWords (entryBlock number (copyName buffer name))).name (cut name) := by
  obtain ⟨holds, ended⟩ := copyName_holds buffer name
  refine ⟨rfl, ?_, ?_⟩
  · intro index byte isByte
    rw [cut, List.getElem?_take] at isByte
    split at isByte
    · rename_i inside
      rw [readName_exact, if_pos inside, holds index byte isByte]
    · cases isByte
  · rw [readName_exact, cut, List.length_take]
    by_cases short : name.length < writtenLen
    · rw [Nat.min_eq_right (Nat.le_of_lt short), if_pos short, ended]
    · rw [Nat.min_eq_left (Nat.not_lt.mp short), if_neg (Nat.lt_irrefl _)]

/-! ## One slot -/

/-- A mounted image of the builder. -/
structure OnImage (ninos : Nat) (sfs : Image) (disk : Nat → Block) (fs : SfsFs) : Prop where
  built : Built ninos sfs
  written : Written sfs disk
  mounted : MountedFrom disk fs

/-- A slot in the first 1036 holds an entry. -/
theorem direntRead_exact (image : OnImage ninos sfs disk fs) (works : ∀ call, device call = 0)
    (isFile : sfs.IsFile ino) (isDir : (sfs.files ino).din.type = typeDir)
    (added : (sfs.files ino).added[index]? = some (name, number)) (inside : index < sfsL1Nblks) :
    ∃ entry calls, sfsDirentReadNolock device fs (readInode disk ino) index =
      some (.ok entry, { fs with calls }, readInode disk ino) ∧ entry.ino = number ∧
      HoldsString entry.name (cut name) := by
  obtain ⟨isBlocks, _, _, isType, _⟩ := readInode_exact image.written image.built.toLaid isFile
  obtain ⟨length, entries⟩ := image.built.entries ino isFile isDir
  obtain ⟨block, buffer, appended, holds⟩ := entries index name number added
  have laid := image.built.toLaid
  have names : sfs.places ino (.data index) = some block := by
    rw [places_isFile isFile]
    exact appended
  obtain ⟨nonzero, small, inUse⟩ := assertInuse_exact image.written laid image.mounted names
  obtain ⟨calls, loaded⟩ := load_exact image.written laid isFile appended inside works image.mounted
  have accepted : (readInode disk ino).din.type = sfsTypeDir ∧ index < (readInode disk ino).din.blocks := by
    rw [isType, isDir, isBlocks, (laid.file ino isFile).blocks]
    exact ⟨rfl, (List.getElem?_eq_some_iff.mp appended).1⟩
  have read : sfsRbuf device { fs with calls } diskEntryWords block 0 = _ :=
    sfsRbuf_works works ⟨by decide, by decide⟩ ⟨nonzero, small⟩
  have isEntry : (fun index => disk block (0 + index)) = entryBlock number (copyName buffer name) := by
    funext index
    rw [Nat.zero_add, image.written.data ino _ block isFile appended, holds]
  obtain ⟨isNumber, isName⟩ := readEntry_exact number buffer name
  refine ⟨_, calls + 1, ?_, isNumber, isName⟩
  rw [sfsDirentReadNolock, if_pos accepted, loaded]
  simp only [Option.bind_eq_bind, Option.bind_some, assertInuse_calls, inUse, read]
  rw [image.mounted.sameDisk, isEntry]
  rfl

/-- A slot behind them is a panic. -/
theorem direntRead_panics {sin : SfsInode} (outside : sfsNdirect + sfsBlkNentry ≤ index) :
    sfsDirentReadNolock device fs sin index = none := by
  have noLoad : sfsBmapLoadNolock device fs sin index = none := by
    unfold sfsBmapLoadNolock
    split
    · simp only [get_panics outside]
      rfl
    · rfl
  unfold sfsDirentReadNolock
  split
  · rw [noLoad]
    rfl
  · rfl

/-! ## A lookup -/

/-- The entries that a lookup can reach. -/
def reachable (entries : List (Name × Nat)) : List (Name × Nat) := entries.take (sfsNdirect + sfsBlkNentry)

/-- The entry that a lookup meets: the first one whose name, cut off, is the name looked up. -/
def meets (name : Name) (entries : List (Name × Nat)) : Option (Name × Nat) :=
  entries.find? fun entry => cut entry.1 = name

theorem OnImage.called {calls : Nat} (image : OnImage ninos sfs disk fs) :
    OnImage ninos sfs disk { fs with calls } where
  built := image.built
  written := image.written
  mounted := ⟨image.mounted.super, image.mounted.clean, image.mounted.sameDisk, image.mounted.nbits, image.mounted.bits⟩

/-- Inodes have numbers. -/
theorem OnImage.nonzero (image : OnImage ninos sfs disk fs) (isFile : sfs.IsFile ino) : ino ≠ 0 := by
  have names : sfs.places ino .inode = some ino := by
    rw [places_isFile isFile]
    exact congrArg some (image.built.ino ino isFile)
  exact (assertInuse_exact image.written image.built.toLaid image.mounted names).1

/-- From any slot on, a lookup gives the entry that it meets, finds none, or panics behind
the slots that it can reach. -/
theorem searchSlots_exact {slot emptySlot rounds : Nat} (image : OnImage ninos sfs disk fs)
    (works : ∀ call, device call = 0) (isFile : sfs.IsFile ino) (isDir : (sfs.files ino).din.type = typeDir)
    (sum : slot + rounds = (sfs.files ino).added.length) (inside : slot ≤ sfsNdirect + sfsBlkNentry) :
    (∀ entry, meets name ((reachable (sfs.files ino).added).drop slot) = some entry → ∃ found calls,
      searchSlots device fs (readInode disk ino) name slot emptySlot rounds =
        some (.ok (found, entry.2), some emptySlot, { fs with calls }, readInode disk ino)) ∧
    (meets name ((reachable (sfs.files ino).added).drop slot) = none →
      (sfs.files ino).added.length ≤ sfsNdirect + sfsBlkNentry → ∃ calls,
        searchSlots device fs (readInode disk ino) name slot emptySlot rounds =
          some (.error (-eNoent), some emptySlot, { fs with calls }, readInode disk ino)) ∧
    (meets name ((reachable (sfs.files ino).added).drop slot) = none →
      sfsNdirect + sfsBlkNentry < (sfs.files ino).added.length →
        searchSlots device fs (readInode disk ino) name slot emptySlot rounds = none) := by
  induction rounds generalizing slot fs with
  | zero =>
    have nothing : (reachable (sfs.files ino).added).drop slot = [] := by
      rw [List.drop_eq_nil_iff, reachable, List.length_take]
      omega
    rw [nothing]
    exact ⟨fun entry met => by simp [meets] at met, fun _ _ => ⟨fs.calls, rfl⟩, fun _ large => by omega⟩
  | succ rounds ih =>
    have small : slot < (sfs.files ino).added.length := by omega
    by_cases last : slot = sfsNdirect + sfsBlkNentry
    · have nothing : (reachable (sfs.files ino).added).drop slot = [] := by
        rw [List.drop_eq_nil_iff, reachable, List.length_take]
        omega
      rw [nothing]
      refine ⟨fun entry met => by simp [meets] at met, fun _ _ => by omega, fun _ _ => ?_⟩
      rw [searchSlots, direntRead_panics (Nat.le_of_eq last.symm)]
      rfl
    · obtain ⟨⟨held, number⟩, isHere⟩ : ∃ entry, (sfs.files ino).added[slot]? = some entry :=
        ⟨_, List.getElem?_eq_getElem small⟩
      have isSlot : (reachable (sfs.files ino).added).drop slot =
          (held, number) :: (reachable (sfs.files ino).added).drop (slot + 1) := by
        have inReach : slot < (reachable (sfs.files ino).added).length := by
          rw [reachable, List.length_take]
          omega
        rw [List.drop_eq_getElem_cons inReach]
        congr 1
        simp only [reachable, List.getElem_take]
        exact (List.getElem?_eq_some_iff.mp isHere).2
      have inL1 : slot < sfsL1Nblks := by
        rw [sfsL1Nblks, Nat.add_comm]
        omega
      obtain ⟨entry, calls, read, isNumber, holds⟩ := direntRead_exact image works isFile isDir isHere inL1
      have nonzero : entry.ino ≠ 0 := by
        rw [isNumber]
        exact image.nonzero (image.built.linked ino isFile held number (List.mem_of_getElem? isHere))
      have round : searchSlots device fs (readInode disk ino) name slot emptySlot (rounds + 1) =
          if name = cut held then some (.ok (slot, number), some emptySlot, { fs with calls }, readInode disk ino)
          else searchSlots device { fs with calls } (readInode disk ino) name (slot + 1) emptySlot rounds := by
        rw [searchSlots, read]
        simp only [Option.bind_eq_bind, Option.bind_some, if_neg nonzero, strcmp_exact holds name]
        rw [isNumber]
      rw [isSlot, round]
      by_cases met : cut held = name
      · have meetsHere : meets name ((held, number) :: (reachable (sfs.files ino).added).drop (slot + 1)) =
            some (held, number) := by
          simp [meets, met]
        rw [meetsHere, if_pos met.symm]
        refine ⟨?_, fun absent => absurd absent (Option.some_ne_none _),
          fun absent => absurd absent (Option.some_ne_none _)⟩
        intro other isOther
        cases isOther
        exact ⟨slot, calls, rfl⟩
      · have meetsLater : meets name ((held, number) :: (reachable (sfs.files ino).added).drop (slot + 1)) =
            meets name ((reachable (sfs.files ino).added).drop (slot + 1)) := by
          simp [meets, met]
        rw [meetsLater, if_neg (Ne.symm met)]
        have called : OnImage ninos sfs disk { fs with calls } := image.called
        obtain ⟨found, absent, panics⟩ := @ih _ (slot + 1) called (by omega) (by omega)
        refine ⟨?_, ?_, panics⟩
        · intro other isOther
          obtain ⟨at', calls', ended⟩ := found other isOther
          exact ⟨at', calls', ended⟩
        · intro none short
          obtain ⟨calls', ended⟩ := absent none short
          exact ⟨calls', ended⟩

/-- A lookup in a directory of an image. -/
theorem search_exact (image : OnImage ninos sfs disk fs) (works : ∀ call, device call = 0)
    (isFile : sfs.IsFile ino) (isDir : (sfs.files ino).din.type = typeDir) (short : name.length ≤ sfsMaxFnameLen) :
    (∀ entry, meets name (reachable (sfs.files ino).added) = some entry → ∃ found emptySlot after,
      sfsDirentSearchNolock device true fs (readInode disk ino) name =
        some (.ok (found, entry.2), emptySlot, after, readInode disk ino)) ∧
    (meets name (reachable (sfs.files ino).added) = none →
      (sfs.files ino).added.length ≤ sfsNdirect + sfsBlkNentry → ∃ emptySlot after,
        sfsDirentSearchNolock device true fs (readInode disk ino) name =
          some (.error (-eNoent), emptySlot, after, readInode disk ino)) ∧
    (meets name (reachable (sfs.files ino).added) = none →
      sfsNdirect + sfsBlkNentry < (sfs.files ino).added.length →
        sfsDirentSearchNolock device true fs (readInode disk ino) name = none) := by
  have isLength : (readInode disk ino).din.blocks = (sfs.files ino).added.length := by
    rw [(readInode_exact image.written image.built.toLaid isFile).1, (image.built.file ino isFile).blocks,
      (image.built.entries ino isFile isDir).1]
  have searches : sfsDirentSearchNolock device true fs (readInode disk ino) name =
      searchSlots device fs (readInode disk ino) name 0 (readInode disk ino).din.blocks
        (sfs.files ino).added.length := by
    refine (if_pos short).trans ?_
    rw [if_neg (by decide), isLength]
  obtain ⟨found, absent, panics⟩ :=
    @searchSlots_exact _ _ _ _ device fs name 0 (readInode disk ino).din.blocks _ image works isFile isDir
      (Nat.zero_add _) (Nat.zero_le _)
  rw [List.drop_zero] at found absent panics
  rw [searches]
  refine ⟨?_, ?_, panics⟩
  · intro entry met
    obtain ⟨slot, calls, ended⟩ := found entry met
    exact ⟨slot, _, _, ended⟩
  · intro none few
    obtain ⟨calls, ended⟩ := absent none few
    exact ⟨_, _, ended⟩

/-! ## Loading an inode -/

/-- The kernel loads an inode that is not in memory. -/
def Loads (device : Nat → Int) (fs : SfsFs) (disk : Nat → Block) (ino : Nat) : Prop :=
  ∃ loaded, loadInode device { fs, inodes := fun _ => none, files := ∅ } ino 0 true true = some loaded ∧
    loaded.inodes ino = some (readInode disk ino)

/-- The kernel loads the files and the directories that have links. -/
theorem loads_iff (image : OnImage ninos sfs disk fs) (works : ∀ call, device call = 0) (isFile : sfs.IsFile ino) :
    Loads device fs disk ino ↔ (sfs.files ino).din.type ≠ typeLink ∧ (sfs.files ino).din.nlinks ≠ 0 := by
  have laid := image.built.toLaid
  have names : sfs.places ino .inode = some ino := by
    rw [places_isFile isFile]
    exact congrArg some (laid.ino ino isFile)
  obtain ⟨nonzero, small, inUse⟩ := assertInuse_exact image.written laid image.mounted names
  obtain ⟨_, _, _, isType, isLinks⟩ := readInode_exact image.written laid isFile
  have read : sfsRbuf device fs diskInodeWords ino 0 = _ := sfsRbuf_works works ⟨by decide, by decide⟩ ⟨nonzero, small⟩
  have isWords : (fun index => fs.disk ino (0 + index)) = disk ino := by
    funext index
    rw [Nat.zero_add, image.mounted.sameDisk]
  have loads : loadInode device { fs, inodes := fun _ => none, files := ∅ } ino 0 true true =
      if (readInode disk ino).din.nlinks = 0 then none
      else if sfsGetOps (readInode disk ino).din.type = none then none
      else some (Mounted.put { fs, inodes := fun _ => none, files := ∅ } ino { fs with calls := fs.calls + 1 }
        (some (readInode disk ino))) := by
    rw [isWords] at read
    simp only [loadInode, inUse, read, Option.bind_eq_bind, Option.bind_some, Bool.true_eq_false, if_false]
    rfl
  have noOps : sfsGetOps (sfs.files ino).din.type = none ↔ (sfs.files ino).din.type = typeLink := by
    rcases laid.type ino isFile with is | is | is <;> rw [is] <;> decide
  rw [Loads, loads, isType, isLinks]
  constructor
  · rintro ⟨loaded, isLoaded, _⟩
    split at isLoaded
    · cases isLoaded
    · rename_i linked
      split at isLoaded
      · cases isLoaded
      · rename_i ops
        exact ⟨fun isLink => ops (noOps.mpr isLink), linked⟩
  · rintro ⟨notLink, linked⟩
    rw [if_neg linked, if_neg (mt noOps.mp notLink)]
    exact ⟨_, rfl, Function.update_self ..⟩

end Ucore.Mksfs
