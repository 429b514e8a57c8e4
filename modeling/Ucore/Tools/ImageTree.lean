import Ucore.Sfs.DirectoryTree
import Ucore.Tools.HostPaths

/-!
# The tree of an image

A volume mounted from an image has a tree that the kernel can walk, if the directories of
the host are within the reach of the kernel: its directories hold the entries of the host,
and its inodes those of the files.
-/

namespace Ucore.Mksfs

open Ownership Transition Volume

/-! ## The host -/

/-- A directory that the kernel can search on an image: its names differ, are not cut off
and have no slash, and its entries are within the indirect block. -/
structure Searchable (host : HostEntries) : Prop where
  few : (host.toList.filter fun entry => entry.1.head? ≠ some dot).length + 2 ≤ sfsNdirect + sfsBlkNentry
  distinct : ((host.toList.filter fun entry => entry.1.head? ≠ some dot).map Prod.fst).Nodup
  names : ∀ name node, host.Visible name node → name ≠ [] ∧ name.length ≤ writtenLen ∧
    ∀ byte ∈ name, byte.val ≠ 47

/-- A tree of the host that the kernel can use: there are no symbolic links, every
directory can be searched, every regular file is within the indirect block, and the names of
an inode can be counted. -/
structure Storable (home : HostEntries) : Prop extends Numbered home where
  plain : ∀ node, Inside home node → node.isLink = false
  root : Searchable home
  dirs : ∀ number host, Inside home (.dir number host) → Searchable host
  short : ∀ number blocks, Inside home (.file number blocks) → blocks.length ≤ sfsL1Nblks
  total : home.total + 2 < 65536

variable {start closed sfs : Image} {ninos ino index slot block size number : Nat} {info : Nat → Nat}
variable {disk : Nat → Block} {fs : SfsFs} {name : Name} {node : HostNode} {home : HostEntries}
variable {dir : Stored} {stored : List Stored}

/-- The image of a tree of the host. -/
structure Faithful (home : HostEntries) (stored : List Stored) (sfs : Image) : Prop where
  image : ImageOf stored sfs
  root : ∃ dir ∈ stored, dir.ino = sfsBlknRoot ∧ dir.parent = sfsBlknRoot ∧ dir.host = home
  nested : ∀ dir ∈ stored, ∀ name number host ino, (name, .dir number host, ino) ∈ dir.entries →
    ∃ child ∈ stored, child.ino = ino ∧ child.host = host ∧ child.parent = dir.ino
  inside : ∀ dir ∈ stored, dir.host = home ∨ ∃ number, Inside home (.dir number dir.host)
  stands : ∀ dir ∈ stored, ∀ entry ∈ dir.entries, sfs.IsFile entry.2.2 ∧ Stores sfs entry.2.2 entry.2.1
  named : ∀ ino, sfs.IsFile ino → ino = sfsBlknRoot ∨ ∃ dir ∈ stored, ∃ name node, (name, node, ino) ∈ dir.entries
  total : storedTotal stored = home.total + 2

/-- The builder writes the image of the tree. -/
theorem createImg_faithful (numbered : Numbered home) (created : createSfs size info disk = some start)
    (called : createImg start home = some (stored, closed)) :
    ∃ sfs, Built (createNinos size) sfs ∧ closed = { sfs with disk := closedDisk sfs } ∧ Faithful home stored sfs := by
  simp only [createImg, Option.bind_eq_bind, Option.bind_eq_some_iff] at called
  obtain ⟨opened, dotted, ⟨entries, below, filled⟩, walked, after, isClosed, same⟩ := called
  cases same
  obtain ⟨isNew, _⟩ := createSfs_isNew created
  obtain ⟨reached, stores⟩ := isNew.stores dotted walked
  have built := built_reached created reached
  have isRoot : start.IsFile sfsBlknRoot := (isNew.isFile _).mpr rfl
  have known : Known home start := by
    intro ino isFile
    rw [(isNew.isFile ino).mp isFile, isNew.root]
    exact Or.inl rfl
  obtain ⟨builtOpened, knownOpened, keepsOpened, oldOpened⟩ :=
    addDots_keeping (built_reached created .start) known isRoot isRoot dotted
  have keeping := openEntries_keeping numbered home Inside.top builtOpened knownOpened (keepsOpened.isFile _ isRoot) walked
  obtain ⟨nested, count⟩ := openEntries_nested home Inside.top walked
  rw [closeSfs_exact built.toLaid] at isClosed
  refine ⟨filled, built, (Option.some.inj isClosed).symm, stores, ?_, ?_, ?_, ?_, ?_, ?_⟩
  · exact ⟨_, List.mem_cons_self, rfl, rfl, rfl⟩
  · intro dir member name number host ino isEntry
    rcases List.mem_cons.mp member with rfl | old
    · obtain ⟨child, isChild, facts⟩ := nested.children name number host ino isEntry
      exact ⟨child, List.mem_cons_of_mem _ isChild, facts⟩
    · obtain ⟨child, isChild, facts⟩ := nested.deeper dir old name number host ino isEntry
      exact ⟨child, List.mem_cons_of_mem _ isChild, facts⟩
  · intro dir member
    rcases List.mem_cons.mp member with rfl | old
    · exact Or.inl rfl
    · exact Or.inr (nested.inside dir old)
  · intro dir member
    rcases List.mem_cons.mp member with rfl | old
    · exact keeping.standing.here
    · exact keeping.standing.below dir old
  · intro ino isFile
    rcases keeping.named ino isFile with old | ⟨⟨name, node, _⟩, member, rfl⟩ | ⟨dir, member, ⟨name, node, _⟩, entry, rfl⟩
    · exact Or.inl ((isNew.isFile ino).mp (oldOpened ino old))
    · exact Or.inr ⟨_, List.mem_cons_self, name, node, member⟩
    · exact Or.inr ⟨dir, List.mem_cons_of_mem _ member, name, node, entry⟩
  · rw [storedTotal_cons, ← count]
    dsimp only
    omega

/-! ## Links -/

theorem linkCount_le (stored : List Stored) (ino : Nat) : linkCount stored ino ≤ storedTotal stored := by
  induction stored with
  | nil => exact Nat.le_refl _
  | cons dir rest ih =>
    have here : namings dir.names ino ≤ dir.names.length := List.countP_le_length
    rw [linkCount_cons, storedTotal_cons, ← names_length]
    omega

theorem linkCount_pos (member : dir ∈ stored) (entry : (name, ino) ∈ dir.names) : 0 < linkCount stored ino := by
  have counted : 0 < namings dir.names ino := List.countP_pos_iff.mpr ⟨_, entry, by simp⟩
  induction stored with
  | nil => cases member
  | cons first rest ih =>
    rw [linkCount_cons]
    rcases List.mem_cons.mp member with rfl | later
    · omega
    · have below := ih later
      omega

/-- Every inode of the image has links. -/
theorem Faithful.linked (faithful : Faithful home stored sfs) (storable : Storable home) (isFile : sfs.IsFile ino) :
    (sfs.files ino).din.nlinks ≠ 0 := by
  have positive : 0 < linkCount stored ino := by
    rcases faithful.named ino isFile with rfl | ⟨dir, member, name, node, entry⟩
    · obtain ⟨dir, member, isRoot, _⟩ := faithful.root
      exact linkCount_pos member (List.mem_append_left _ (isRoot ▸ List.mem_cons_self) : ([dot], _) ∈ dir.names)
    · exact linkCount_pos member (List.mem_append_right _ (List.mem_map_of_mem entry) : (name, ino) ∈ dir.names)
  have few := linkCount_le stored ino
  have total := faithful.total
  have small := storable.total
  rw [faithful.image.nlinks ino, Nat.mod_eq_of_lt (by omega)]
  omega

/-! ## Entries -/

/-- The entries of a stored directory are those of the host that are not hidden. -/
theorem Holds.visible_iff (holds : Holds sfs dir) :
    dir.host.Visible name node ↔ ∃ ino, (name, node, ino) ∈ dir.entries := by
  have same := congrArg (fun entries => (name, node) ∈ entries) holds.host
  simp only [List.mem_map, List.mem_filter, decide_eq_true_eq, eq_iff_iff] at same
  rw [HostEntries.Visible, ← same]
  constructor
  · rintro ⟨⟨_, _, ino⟩, member, isEntry⟩
    obtain ⟨rfl, rfl⟩ := Prod.mk.inj isEntry
    exact ⟨ino, member⟩
  · rintro ⟨ino, member⟩
    exact ⟨_, member, rfl⟩

/-- An entry of a stored directory is a file in the tree of the host. -/
theorem Faithful.entry_inside (faithful : Faithful home stored sfs) (member : dir ∈ stored)
    (entry : (name, node, ino) ∈ dir.entries) : Inside home node := by
  have visible := (faithful.image.holds dir member).visible_iff.mpr ⟨ino, entry⟩
  rcases faithful.inside dir member with isHome | ⟨number, inside⟩
  · exact .top name node (isHome ▸ visible)
  · exact .within number dir.host name node inside visible

theorem Faithful.searchable (faithful : Faithful home stored sfs) (storable : Storable home) (member : dir ∈ stored) :
    Searchable dir.host := by
  rcases faithful.inside dir member with isHome | ⟨number, inside⟩
  · exact isHome ▸ storable.root
  · exact storable.dirs number dir.host inside

theorem Faithful.noLink (faithful : Faithful home stored sfs) (storable : Storable home) :
    ¬ ∃ dir ∈ stored, LinkAmong dir.entries ino := by
  rintro ⟨dir, member, name, node, entry, isLink⟩
  rw [storable.plain node (faithful.entry_inside member entry)] at isLink
  cases isLink

/-- A name of a stored directory is the one or the other dot, or a name of the host. -/
theorem mem_names : (name, ino) ∈ dir.names ↔ name = [dot] ∧ ino = dir.ino ∨ name = [dot, dot] ∧ ino = dir.parent ∨
    ∃ node, (name, node, ino) ∈ dir.entries := by
  simp only [Stored.names, dots, given, List.mem_append, List.mem_cons, Prod.mk.injEq, List.not_mem_nil, or_false,
    List.mem_map, or_assoc]
  constructor
  · rintro (isDot | isDots | ⟨⟨_, node, _⟩, member, rfl, rfl⟩)
    · exact Or.inl isDot
    · exact Or.inr (Or.inl isDots)
    · exact Or.inr (Or.inr ⟨node, member⟩)
  · rintro (isDot | isDots | ⟨node, member⟩)
    · exact Or.inl isDot
    · exact Or.inr (Or.inl isDots)
    · exact Or.inr (Or.inr ⟨_, member, rfl, rfl⟩)

/-- The names of a stored directory are short and have no slash. -/
theorem Faithful.name_fits (faithful : Faithful home stored sfs) (storable : Storable home) (member : dir ∈ stored)
    (entry : (name, ino) ∈ dir.names) : name.length ≤ writtenLen ∧ ∀ byte ∈ name, byte.val ≠ 47 := by
  have dotFits : dot.val ≠ 47 := by decide
  rcases mem_names.mp entry with ⟨rfl, _⟩ | ⟨rfl, _⟩ | ⟨node, isEntry⟩
  · refine ⟨by decide, fun byte isByte => ?_⟩
    rwa [List.mem_singleton.mp isByte]
  · refine ⟨by decide, fun byte isByte => ?_⟩
    rwa [show byte = dot by simpa using isByte]
  · have visible := (faithful.image.holds dir member).visible_iff.mpr ⟨ino, isEntry⟩
    exact ((faithful.searchable storable member).names name node visible).2

/-- No two entries of a stored directory have the same name. -/
theorem Faithful.names_distinct (faithful : Faithful home stored sfs) (storable : Storable home)
    (member : dir ∈ stored) : (dir.names.map Prod.fst).Nodup := by
  have holds := faithful.image.holds dir member
  have names : dir.names.map Prod.fst = [dot] :: [dot, dot] ::
      (dir.host.toList.filter fun entry => entry.1.head? ≠ some dot).map Prod.fst := by
    rw [← holds.host]
    simp [Stored.names, dots, given]
  have visible : ∀ name ∈ (dir.host.toList.filter fun entry => entry.1.head? ≠ some dot).map Prod.fst,
      name.head? ≠ some dot := by
    intro name isName
    obtain ⟨entry, isEntry, rfl⟩ := List.mem_map.mp isName
    simpa using (List.mem_filter.mp isEntry).2
  rw [names, List.nodup_cons, List.nodup_cons]
  refine ⟨?_, fun isName => visible _ isName rfl, (faithful.searchable storable member).distinct⟩
  intro isName
  rcases List.mem_cons.mp isName with same | later
  · exact absurd same (by decide)
  · exact visible _ later rfl

theorem Faithful.names_few (faithful : Faithful home stored sfs) (storable : Storable home) (member : dir ∈ stored) :
    dir.names.length ≤ sfsNdirect + sfsBlkNentry := by
  have few := (faithful.searchable storable member).few
  rw [← (faithful.image.holds dir member).host, List.length_map] at few
  rwa [names_length]

/-! ## The volume -/

open Classical in
/-- The volume of an image after it was mounted: no inode is in memory. -/
noncomputable def mountedVolume (sfs : Image) (fs : SfsFs) : Mounted where
  fs := fs
  inodes := fun _ => none
  files := (Finset.range sfs.nextIno).filter sfs.IsFile

theorem mountedVolume_files (laid : Laid ninos sfs) : ino ∈ (mountedVolume sfs fs).files ↔ sfs.IsFile ino := by
  simp only [mountedVolume, Finset.mem_filter, Finset.mem_range]
  exact ⟨And.right, fun isFile => ⟨laid.inUse isFile, isFile⟩⟩

theorem mountedVolume_din (mounted : MountedFrom disk fs) :
    (mountedVolume sfs fs).din ino = (readInode disk ino).din := by
  rw [Mounted.din, readInode, ← mounted.sameDisk]
  rfl

/-- The blocks of an inode are usable. -/
theorem OnImage.usable (image : OnImage ninos sfs disk fs) {place : MkPlace} (names : sfs.places ino place = some block) :
    fs.Usable block :=
  (assertInuse_exact image.written image.built.toLaid image.mounted names).2.2

/-- The kernel finds the recorded blocks of a directory in its slots. -/
theorem slotBlock_exact (written : Written sfs disk) (laid : Laid ninos sfs) (isFile : sfs.IsFile ino)
    (appended : (sfs.files ino).appended[index]? = some block) (inside : index < sfsL1Nblks) (nonzero : block ≠ 0) :
    slotBlock disk (readInode disk ino).din index = block := by
  obtain ⟨_, isIndirect, isDirect, _⟩ := readInode_exact written laid isFile
  have recorded : firstPointers sfs.cache (sfs.files ino) index = block := by
    rw [(laid.file ino isFile).pointers index inside, List.getD_eq_getElem?_getD, appended]
    rfl
  unfold slotBlock
  unfold firstPointers at recorded
  split
  · rename_i direct
    rw [isDirect index direct]
    rwa [if_pos direct] at recorded
  · rename_i direct
    rw [if_neg direct] at recorded
    split at recorded
    · exact absurd recorded.symm nonzero
    · rename_i isPointer
      have namesIndirect : sfs.places ino .indirect = some (sfs.files ino).din.indirect := by
        rw [places_isFile isFile]
        exact pointer_nonzero isPointer
      rw [isIndirect, written.cached _ ((laid.cached _).mpr ⟨ino, .indirect, trivial, namesIndirect⟩), recorded]

/-- A buffer holds one string. -/
theorem HoldsString.unique {buffer : Nat → Fin 256} {first second : Name} (one : HoldsString buffer first)
    (two : HoldsString buffer second) : first = second :=
  (strcmp_exact two first).mp ((strcmp_exact one first).mpr rfl)

/-- The kernel finds the entries added to a directory in its slots. -/
theorem OnImage.entryAt (image : OnImage ninos sfs disk fs) (isFile : sfs.IsFile ino)
    (isDir : (sfs.files ino).din.type = typeDir) (added : (sfs.files ino).added[slot]? = some (name, number))
    (inside : slot < sfsL1Nblks) :
    (Volume.entryAt disk (readInode disk ino).din slot).ino = number ∧
      (Volume.entryAt disk (readInode disk ino).din slot).string = cut name := by
  obtain ⟨length, entries⟩ := image.built.entries ino isFile isDir
  obtain ⟨block, buffer, appended, holds⟩ := entries slot name number added
  have laid := image.built.toLaid
  have names : sfs.places ino (.data slot) = some block := by
    rw [places_isFile isFile]
    exact appended
  have nonzero := (assertInuse_exact image.written laid image.mounted names).1
  have isEntry : Volume.entryAt disk (readInode disk ino).din slot =
      DiskEntry.ofWords (entryBlock number (copyName buffer name)) := by
    rw [Volume.entryAt, slotBlock_exact image.written laid isFile appended inside nonzero,
      image.written.data ino slot block isFile appended, holds]
  obtain ⟨isNumber, isName⟩ := readEntry_exact number buffer name
  refine ⟨by rw [isEntry, isNumber], HoldsString.unique (entryAt_holds disk _ slot) ?_⟩
  rw [isEntry]
  exact isName

/-- The file in an entry of the host is as long as the host says. -/
theorem Faithful.data_few (faithful : Faithful home stored sfs) (storable : Storable home) (member : dir ∈ stored)
    (entry : (name, node, ino) ∈ dir.entries) (isData : (sfs.files ino).din.type = typeFile) :
    (sfs.files ino).appended.length ≤ sfsL1Nblks := by
  have inside := faithful.entry_inside member entry
  obtain ⟨_, stores⟩ := faithful.stands dir member _ entry
  dsimp only at stores
  cases node with
  | file number blocks =>
    rw [stores.2.length]
    exact storable.short number blocks inside
  | link number target =>
    rw [Stores, isData] at stores
    exact absurd stores (by decide)
  | dir number host =>
    rw [Stores, isData] at stores
    exact absurd stores (by decide)

/-- No inode has more blocks than the kernel can reach. -/
theorem OnImage.few (image : OnImage ninos sfs disk fs) (faithful : Faithful home stored sfs)
    (storable : Storable home) (isFile : sfs.IsFile ino) : (sfs.files ino).appended.length ≤ sfsL1Nblks := by
  rcases image.built.type ino isFile with isData | isDir | isLink
  · rcases faithful.named ino isFile with rfl | ⟨dir, member, name, node, entry⟩
    · obtain ⟨dir, member, isRoot, _⟩ := faithful.root
      have isDir := isRoot ▸ (faithful.image.holds dir member).isDir
      rw [isData] at isDir
      exact absurd isDir (by decide)
    · exact faithful.data_few storable member entry isData
  · obtain ⟨dir, member, rfl⟩ := (faithful.image.dirs ino isFile).mp isDir
    have few := faithful.names_few storable member
    rw [← (image.built.entries dir.ino isFile isDir).1, (faithful.image.holds dir member).added]
    exact few
  · exact absurd ((faithful.image.links ino isFile).mp isLink) (faithful.noLink storable)

/-- Every slot of an inode has a block, and is within the indirect block. -/
theorem OnImage.blockOf (image : OnImage ninos sfs disk fs) (faithful : Faithful home stored sfs)
    (storable : Storable home) (isFile : sfs.IsFile ino) (small : slot < ((mountedVolume sfs fs).din ino).blocks) :
    ∃ block, (sfs.files ino).appended[slot]? = some block ∧ slot < sfsL1Nblks ∧
      slotBlock (mountedVolume sfs fs).fs.disk ((mountedVolume sfs fs).din ino) slot = block := by
  have laid := image.built.toLaid
  have isDin : (mountedVolume sfs fs).din ino = (readInode disk ino).din := mountedVolume_din image.mounted
  have isDisk : (mountedVolume sfs fs).fs.disk = disk := image.mounted.sameDisk
  rw [isDin, (readInode_exact image.written laid isFile).1, (laid.file ino isFile).blocks] at small
  have inside : slot < sfsL1Nblks := Nat.lt_of_lt_of_le small (image.few faithful storable isFile)
  have appended : (sfs.files ino).appended[slot]? = some ((sfs.files ino).appended[slot]) :=
    List.getElem?_eq_getElem small
  have names : sfs.places ino (.data slot) = some ((sfs.files ino).appended[slot]) := by
    rw [places_isFile isFile]
    exact appended
  have nonzero := (assertInuse_exact image.written laid image.mounted names).1
  refine ⟨_, appended, inside, ?_⟩
  rw [isDisk, isDin]
  exact slotBlock_exact image.written laid isFile appended inside nonzero

/-- Every slot of a directory has an entry. -/
theorem OnImage.slotOf (image : OnImage ninos sfs disk fs) (isFile : sfs.IsFile ino)
    (isDir : (sfs.files ino).din.type = typeDir) (small : slot < ((mountedVolume sfs fs).din ino).blocks) :
    ∃ name number, (sfs.files ino).added[slot]? = some (name, number) := by
  have laid := image.built.toLaid
  have isDin : (mountedVolume sfs fs).din ino = (readInode disk ino).din := mountedVolume_din image.mounted
  have length := (image.built.entries ino isFile isDir).1
  rw [isDin, (readInode_exact image.written laid isFile).1, (laid.file ino isFile).blocks] at small
  exact ⟨_, _, List.getElem?_eq_getElem (length ▸ small)⟩

/-- An inode with so many slots has an indirect block. -/
theorem OnImage.indirect (image : OnImage ninos sfs disk fs) (faithful : Faithful home stored sfs)
    (storable : Storable home) (isFile : sfs.IsFile ino) (large : sfsNdirect < ((mountedVolume sfs fs).din ino).blocks) :
    sfs.places ino .indirect = some ((mountedVolume sfs fs).din ino).indirect := by
  have laid := image.built.toLaid
  have isDin : (mountedVolume sfs fs).din ino = (readInode disk ino).din := mountedVolume_din image.mounted
  obtain ⟨block, appended, inside, _⟩ := image.blockOf faithful storable isFile large
  have names : sfs.places ino (.data sfsNdirect) = some block := by
    rw [places_isFile isFile]
    exact appended
  have nonzero := (assertInuse_exact image.written laid image.mounted names).1
  have recorded : firstPointers sfs.cache (sfs.files ino) sfsNdirect = block := by
    rw [(laid.file ino isFile).pointers _ inside, List.getD_eq_getElem?_getD, appended]
    rfl
  have isPointer : (sfs.files ino).din.indirect ≠ 0 := by
    intro none
    rw [firstPointers, if_neg (Nat.lt_irrefl _), if_pos none] at recorded
    exact nonzero recorded.symm
  rw [places_isFile isFile, isDin, (readInode_exact image.written laid isFile).2.1]
  exact pointer_nonzero isPointer

theorem OnImage.readable (image : OnImage ninos sfs disk fs) (faithful : Faithful home stored sfs)
    (storable : Storable home) (isFile : sfs.IsFile ino) (isDir : (sfs.files ino).din.type = typeDir) :
    Readable (mountedVolume sfs fs).fs ((mountedVolume sfs fs).din ino) := by
  have laid := image.built.toLaid
  obtain ⟨isBlocks, _, _, isType, _⟩ := readInode_exact image.written laid isFile
  have isDin : (mountedVolume sfs fs).din ino = (readInode disk ino).din := mountedVolume_din image.mounted
  constructor
  case isDir => rw [isDin, isType, isDir]; rfl
  case few =>
    obtain ⟨dir, member, rfl⟩ := (faithful.image.dirs ino isFile).mp isDir
    rw [isDin, isBlocks, (laid.file dir.ino isFile).blocks, ← (image.built.entries dir.ino isFile isDir).1,
      (faithful.image.holds dir member).added]
    exact faithful.names_few storable member
  case indirect => exact fun large => image.usable (image.indirect faithful storable isFile large)
  case usable =>
    intro slot small
    obtain ⟨block, appended, _, isBlock⟩ := image.blockOf faithful storable isFile small
    have names : sfs.places ino (.data slot) = some block := by
      rw [places_isFile isFile]
      exact appended
    rw [isBlock]
    exact image.usable names

theorem OnImage.apart (image : OnImage ninos sfs disk fs) (faithful : Faithful home stored sfs)
    (storable : Storable home) (isFile : sfs.IsFile ino) :
    Apart (mountedVolume sfs fs).files (mountedVolume sfs fs).fs.disk ((mountedVolume sfs fs).din ino) := by
  have laid := image.built.toLaid
  constructor
  case indirect =>
    intro large
    rw [mountedVolume_files laid]
    exact laid.apart ((laid.cached _).mpr
      ⟨ino, .indirect, trivial, image.indirect faithful storable isFile large⟩)
  case slots =>
    intro slot small
    obtain ⟨block, appended, _, isBlock⟩ := image.blockOf faithful storable isFile small
    rw [mountedVolume_files laid, isBlock]
    exact (laid.data_apart isFile appended).1

/-- A volume mounted from an image of a tree of the host can be walked. -/
theorem OnImage.tree (image : OnImage ninos sfs disk fs) (faithful : Faithful home stored sfs)
    (storable : Storable home) : Tree (mountedVolume sfs fs) := by
  have laid := image.built.toLaid
  have isDin : ∀ ino, (mountedVolume sfs fs).din ino = (readInode disk ino).din :=
    fun ino => mountedVolume_din image.mounted
  have isFileOf : ∀ ino ∈ (mountedVolume sfs fs).files, sfs.IsFile ino := fun ino member =>
    (mountedVolume_files laid).mp member
  have isDirOf : ∀ ino, sfs.IsFile ino → ((mountedVolume sfs fs).din ino).type = sfsTypeDir →
      (sfs.files ino).din.type = typeDir := by
    intro ino isFile isDir
    rwa [isDin, (readInode_exact image.written laid isFile).2.2.2.1] at isDir
  constructor
  case usable =>
    intro ino member
    have isFile := isFileOf ino member
    have names : sfs.places ino .inode = some ino := by
      rw [places_isFile isFile]
      exact congrArg some (laid.ino ino isFile)
    exact image.usable names
  case linked =>
    intro ino member
    have isFile := isFileOf ino member
    rw [isDin, (readInode_exact image.written laid isFile).2.2.2.2]
    exact faithful.linked storable isFile
  case typed =>
    intro ino member
    have isFile := isFileOf ino member
    rw [isDin, (readInode_exact image.written laid isFile).2.2.2.1]
    rcases laid.type ino isFile with isData | isDir | isLink
    · exact Or.inr isData
    · exact Or.inl isDir
    · exact absurd ((faithful.image.links ino isFile).mp isLink) (faithful.noLink storable)
  case readable =>
    intro ino member isDir
    have isFile := isFileOf ino member
    exact image.readable faithful storable isFile (isDirOf ino isFile isDir)
  case apart =>
    exact fun ino member _ => image.apart faithful storable (isFileOf ino member)
  case entries =>
    intro ino member isDir slot small _
    have isFile := isFileOf ino member
    have dirType := isDirOf ino isFile isDir
    obtain ⟨_, _, inside, _⟩ := image.blockOf faithful storable isFile small
    obtain ⟨name, number, added⟩ := image.slotOf isFile dirType small
    have isDisk : (mountedVolume sfs fs).fs.disk = disk := image.mounted.sameDisk
    rw [mountedVolume_files laid, isDin, isDisk, (image.entryAt isFile dirType added inside).1]
    exact image.built.linked ino isFile name number (List.mem_of_getElem? added)

end Ucore.Mksfs
