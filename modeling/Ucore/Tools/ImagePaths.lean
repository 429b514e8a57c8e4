import Ucore.Fs.BootFs
import Ucore.Tools.ImageTree

/-!
# Paths on an image

A path leads to the same place on the host and on the volume mounted from its image: to a
directory, to a regular file with the same bytes, or nowhere.
-/

namespace Ucore.Mksfs

open Ownership Volume
open Vfs (dirFind dirStep dirOf Node firstSlot_some)

/-! ## Paths of the host -/

/-- A directory of the host with those above it, the next one first. -/
structure HostDir where
  host : HostEntries
  above : List HostEntries

/-- Where a path of the host leads: to a directory, or to the blocks of a regular file. -/
inductive HostPlace where
  | dir (dir : HostDir)
  | file (blocks : List (Block × Nat))

/-- The directory above; that of the root is the root. -/
def HostDir.parent (dir : HostDir) : HostDir :=
  match dir.above with
  | [] => dir
  | host :: above => ⟨host, above⟩

/-- The place of an entry of a directory; symbolic links have none. -/
def HostNode.place (dir : HostDir) : HostNode → Option HostPlace
  | .file _ blocks => some (.file blocks)
  | .link .. => none
  | .dir _ host => some (.dir ⟨host, dir.host :: dir.above⟩)

/-- What a name means in a directory of the host; a hidden file has no name. -/
def HostDir.find (dir : HostDir) (name : Name) : Option HostPlace :=
  if name = [dot] then some (.dir dir)
  else if name = [dot, dot] then some (.dir dir.parent)
  else if name.head? = some dot then none
  else (dir.host.toList.find? fun entry => entry.1 = name).bind fun entry => entry.2.place dir

/-- The directory that a name means in a directory of the host. -/
def HostDir.enter (dir : HostDir) (name : Name) : Option HostDir :=
  match dir.find name with
  | some (.dir next) => some next
  | _ => none

/-! ## Where they are stored -/

/-- An inode is a directory of the host, and its parents are those above it. -/
def StoredAs (stored : List Stored) (ino : Nat) (host : HostEntries) : List HostEntries → Prop
  | [] => ∃ dir ∈ stored, dir.ino = ino ∧ dir.host = host ∧ dir.parent = ino
  | parent :: above => ∃ dir ∈ stored, dir.ino = ino ∧ dir.host = host ∧ StoredAs stored dir.parent parent above

/-- An inode is what a place of the host is. -/
def AtPlace (stored : List Stored) (sfs : Image) (ino : Nat) : HostPlace → Prop
  | .dir dir => StoredAs stored ino dir.host dir.above
  | .file blocks => ∃ number, sfs.IsFile ino ∧ Stores sfs ino (.file number blocks)

/-- A file as its readers see it has the blocks of a file of the host. -/
structure Shows (view : FileView) (blocks : List (Block × Nat)) : Prop where
  size : view.size = (blocks.map Prod.snd).sum
  contents : view.contents = blocks.map Prod.fst

variable {sfs : Image} {ninos ino child : Nat} {disk : Nat → Block} {fs : SfsFs} {name : Name} {home : HostEntries}
variable {dir : Stored} {stored : List Stored} {place : HostDir} {next : HostPlace} {blocks : List (Block × Nat)}

theorem StoredAs.record (isStored : StoredAs stored ino place.host place.above) :
    ∃ dir ∈ stored, dir.ino = ino ∧ dir.host = place.host ∧
      StoredAs stored dir.parent place.parent.host place.parent.above := by
  obtain ⟨host, above⟩ := place
  cases above with
  | nil =>
    obtain ⟨dir, member, isIno, isHost, isParent⟩ := isStored
    exact ⟨dir, member, isIno, isHost, dir, member, isIno.trans isParent.symm, isHost, rfl⟩
  | cons parent above => exact isStored

theorem Faithful.isDir (faithful : Faithful home stored sfs) (isStored : StoredAs stored ino place.host place.above) :
    sfs.IsFile ino ∧ (sfs.files ino).din.type = typeDir := by
  obtain ⟨dir, member, rfl, _⟩ := isStored.record
  have holds := faithful.image.holds dir member
  exact ⟨holds.isFile, holds.isDir⟩

/-- The root of the volume is the root of the tree of the host. -/
theorem Faithful.rootStored (faithful : Faithful home stored sfs) : StoredAs stored sfsBlknRoot home [] := by
  obtain ⟨dir, member, isRoot, isParent, isHost⟩ := faithful.root
  exact ⟨dir, member, isRoot, isHost, isParent⟩

/-! ## One name -/

theorem mountedVolume_type (image : OnImage ninos sfs disk fs) (isFile : sfs.IsFile ino) :
    ((mountedVolume sfs fs).din ino).type = (sfs.files ino).din.type := by
  rw [mountedVolume_din image.mounted]
  exact (readInode_exact image.written image.built.toLaid isFile).2.2.2.1

/-- The entry of a slot of a stored directory is one of its names. -/
theorem OnImage.entryOf (image : OnImage ninos sfs disk fs) (faithful : Faithful home stored sfs)
    (storable : Storable home) (member : dir ∈ stored) {slot number : Nat}
    (added : (sfs.files dir.ino).added[slot]? = some (name, number))
    (small : slot < ((mountedVolume sfs fs).din dir.ino).blocks) :
    (Volume.entryAt (mountedVolume sfs fs).fs.disk ((mountedVolume sfs fs).din dir.ino) slot).ino = number ∧
      (Volume.entryAt (mountedVolume sfs fs).fs.disk ((mountedVolume sfs fs).din dir.ino) slot).string = name ∧
      (name, number) ∈ dir.names := by
  have holds := faithful.image.holds dir member
  have entry : (name, number) ∈ dir.names := holds.added ▸ List.mem_of_getElem? added
  obtain ⟨_, _, inside, _⟩ := image.blockOf faithful storable holds.isFile small
  obtain ⟨isNumber, isName⟩ := image.entryAt holds.isFile holds.isDir added inside
  have isDisk : (mountedVolume sfs fs).fs.disk = disk := image.mounted.sameDisk
  rw [mountedVolume_din image.mounted, isDisk]
  have whole : cut name = name := List.take_of_length_le (faithful.name_fits storable member entry).1
  exact ⟨isNumber, isName.trans whole, entry⟩

/-- The kernel finds a name of a stored directory, with the inode stored for it, and no
other name. -/
theorem OnImage.dirFind_exact (image : OnImage ninos sfs disk fs) (faithful : Faithful home stored sfs)
    (storable : Storable home) (member : dir ∈ stored) :
    dirFind (mountedVolume sfs fs) dir.ino name = .ok (.sfs child) ↔ (name, child) ∈ dir.names := by
  have holds := faithful.image.holds dir member
  have sound : ∀ found, dirFind (mountedVolume sfs fs) dir.ino name = .ok found →
      ∃ number, found = .sfs number ∧ (name, number) ∈ dir.names := by
    intro found isFound
    unfold dirFind at isFound
    split at isFound
    · rename_i slot isFirst
      obtain ⟨small, named⟩ := firstSlot_some isFirst
      obtain ⟨other, number, added⟩ := image.slotOf holds.isFile holds.isDir small
      obtain ⟨isNumber, isName, entry⟩ := image.entryOf faithful storable member added small
      simp only [isNamed, decide_eq_true_eq] at named
      obtain rfl : other = name := isName.symm.trans named.2
      exact ⟨number, by rw [← Except.ok.inj isFound, isNumber], entry⟩
    · cases isFound
  constructor
  · intro isFound
    obtain ⟨number, same, entry⟩ := sound _ isFound
    cases same
    exact entry
  · intro entry
    have distinct := List.inj_on_of_nodup_map (faithful.names_distinct storable member)
    have complete : ∃ found, dirFind (mountedVolume sfs fs) dir.ino name = .ok found := by
      unfold dirFind
      cases isFirst : firstSlot (mountedVolume sfs fs).fs.disk ((mountedVolume sfs fs).din dir.ino) 0
          ((mountedVolume sfs fs).din dir.ino).blocks (isNamed name) with
      | some slot => exact ⟨_, rfl⟩
      | none =>
        obtain ⟨slot, added⟩ := List.getElem?_of_mem (holds.added.symm ▸ entry)
        have small : slot < ((mountedVolume sfs fs).din dir.ino).blocks := by
          have length := (image.built.entries dir.ino holds.isFile holds.isDir).1
          rw [mountedVolume_din image.mounted, (readInode_exact image.written image.built.toLaid holds.isFile).1,
            (image.built.file dir.ino holds.isFile).blocks, ← length]
          exact (List.getElem?_eq_some_iff.mp added).1
        obtain ⟨isNumber, isName, _⟩ := image.entryOf faithful storable member added small
        have isChild := image.built.linked dir.ino holds.isFile name child (List.mem_of_getElem? added)
        have absent := List.find?_eq_none.mp isFirst slot (by simpa using small)
        have nonzero : child ≠ 0 := image.nonzero isChild
        simp [isNamed, isNumber, isName, nonzero] at absent
    obtain ⟨found, isFound⟩ := complete
    obtain ⟨number, rfl, other⟩ := sound found isFound
    have same := distinct other entry rfl
    cases same
    exact isFound

/-- The lookup of a name of a stored directory. -/
theorem OnImage.dirStep_exact (image : OnImage ninos sfs disk fs) (faithful : Faithful home stored sfs)
    (storable : Storable home) (member : dir ∈ stored) {node : Node} :
    dirStep (mountedVolume sfs fs) (.sfs dir.ino) name = some node ↔
      ∃ child, node = .sfs child ∧ (name, child) ∈ dir.names := by
  have holds := faithful.image.holds dir member
  have isDir : ((mountedVolume sfs fs).din dir.ino).type = sfsTypeDir :=
    (mountedVolume_type image holds.isFile).trans holds.isDir
  simp only [dirStep, isDir, if_true]
  constructor
  · intro leads
    cases isFound : dirFind (mountedVolume sfs fs) dir.ino name with
    | error code =>
      rw [isFound] at leads
      cases leads
    | ok found =>
      rw [isFound] at leads
      cases leads
      have isMember : dir.ino ∈ (mountedVolume sfs fs).files := (mountedVolume_files image.built.toLaid).mpr holds.isFile
      obtain ⟨child, _, rfl⟩ := Vfs.dirFind_member (image.tree faithful storable) isMember isDir isFound
      exact ⟨child, rfl, (image.dirFind_exact faithful storable member).mp isFound⟩
  · rintro ⟨child, rfl, entry⟩
    rw [(image.dirFind_exact faithful storable member).mpr entry]
    rfl

/-- A name means on the volume what it means on the host. -/
theorem OnImage.find_rel (image : OnImage ninos sfs disk fs) (faithful : Faithful home stored sfs)
    (storable : Storable home) (isStored : StoredAs stored ino place.host place.above) :
    Option.Rel (fun node next => ∃ child, node = .sfs child ∧ AtPlace stored sfs child next)
      (dirStep (mountedVolume sfs fs) (.sfs ino) name) (place.find name) := by
  obtain ⟨dir, member, rfl, isHost, isParent⟩ := isStored.record
  have holds := faithful.image.holds dir member
  have leads : ∀ {child}, (name, child) ∈ dir.names →
      dirStep (mountedVolume sfs fs) (.sfs dir.ino) name = some (.sfs child) := fun entry =>
    (image.dirStep_exact faithful storable member).mpr ⟨_, rfl, entry⟩
  unfold HostDir.find
  split
  · rename_i isDot
    rw [leads (mem_names.mpr (Or.inl ⟨isDot, rfl⟩))]
    exact .some ⟨dir.ino, rfl, isStored⟩
  · rename_i notDot
    split
    · rename_i isDots
      rw [leads (mem_names.mpr (Or.inr (Or.inl ⟨isDots, rfl⟩)))]
      exact .some ⟨dir.parent, rfl, isParent⟩
    · rename_i notDots
      have absent : (∀ node, ¬ dir.host.Visible name node) →
          dirStep (mountedVolume sfs fs) (.sfs dir.ino) name = none := by
        intro noNode
        rw [Option.eq_none_iff_forall_ne_some]
        intro node found
        obtain ⟨child, _, entry⟩ := (image.dirStep_exact faithful storable member).mp found
        rcases mem_names.mp entry with ⟨isDot, _⟩ | ⟨isDots, _⟩ | ⟨hostNode, isEntry⟩
        · exact notDot isDot
        · exact notDots isDots
        · exact noNode hostNode (holds.visible_iff.mpr ⟨child, isEntry⟩)
      split
      · rename_i hidden
        rw [absent fun node visible => visible.2 hidden]
        exact .none
      · rename_i shown
        rw [← isHost]
        cases isFound : dir.host.toList.find? fun entry => entry.1 = name with
        | none =>
          rw [absent]
          · exact .none
          · intro node visible
            have missing := List.find?_eq_none.mp isFound _ visible.1
            simp at missing
        | some entry =>
          obtain ⟨other, node⟩ := entry
          obtain rfl : other = name := by simpa using List.find?_some isFound
          have visible : dir.host.Visible other node := ⟨List.mem_of_find?_eq_some isFound, shown⟩
          obtain ⟨child, isEntry⟩ := holds.visible_iff.mp visible
          rw [leads (mem_names.mpr (Or.inr (Or.inr ⟨node, isEntry⟩)))]
          obtain ⟨isFile, stores⟩ := faithful.stands dir member _ isEntry
          cases node with
          | file number blocks => exact .some ⟨child, rfl, number, isFile, stores⟩
          | link number target =>
            have noLink := storable.plain _ (faithful.entry_inside member isEntry)
            cases noLink
          | dir number host =>
            obtain ⟨below, isBelow, isChild, isInner, isAbove⟩ := faithful.nested dir member _ _ _ _ isEntry
            refine .some ⟨child, rfl, below, isBelow, isChild, isInner, ?_⟩
            rw [isAbove]
            exact isStored

/-- A name leads to the same directory on the volume and on the host. -/
theorem OnImage.enter_rel (image : OnImage ninos sfs disk fs) (faithful : Faithful home stored sfs)
    (storable : Storable home) (isStored : StoredAs stored ino place.host place.above) :
    Option.Rel (fun ino next => StoredAs stored ino next.host next.above)
      (dirOf (mountedVolume sfs fs) ino name) (place.enter name) := by
  have found := @OnImage.find_rel _ _ _ _ _ name _ _ _ image faithful storable isStored
  cases isNode : dirStep (mountedVolume sfs fs) (.sfs ino) name with
  | none =>
    cases isPlace : place.find name with
    | none =>
      rw [dirOf, isNode, HostDir.enter, isPlace]
      exact .none
    | some next =>
      rw [isNode, isPlace] at found
      cases found
  | some node =>
    cases isPlace : place.find name with
    | none =>
      rw [isNode, isPlace] at found
      cases found
    | some next =>
      rw [isNode, isPlace] at found
      cases found with
      | some agrees =>
        obtain ⟨child, rfl, atPlace⟩ := agrees
        cases next with
        | dir next =>
          obtain ⟨isFile, isDir⟩ := @Faithful.isDir _ _ _ _ next faithful atPlace
          have leads : dirOf (mountedVolume sfs fs) ino name = some child := by
            rw [dirOf, isNode]
            exact if_pos ((mountedVolume_type image isFile).trans isDir)
          rw [leads, HostDir.enter, isPlace]
          exact .some atPlace
        | file blocks =>
          obtain ⟨number, isFile, isData, _⟩ := atPlace
          have notDir : ((mountedVolume sfs fs).din child).type ≠ sfsTypeDir := by
            rw [mountedVolume_type image isFile, isData]
            decide
          have stops : dirOf (mountedVolume sfs fs) ino name = none := by
            rw [dirOf, isNode]
            exact if_neg notDir
          rw [stops, HostDir.enter, isPlace]
          exact .none

/-! ## The contents -/

/-- A regular file on the volume has the size and the blocks of the file of the host. -/
theorem OnImage.shows (image : OnImage ninos sfs disk fs) (faithful : Faithful home stored sfs)
    (storable : Storable home) (isFile : sfs.IsFile ino) (holds : HoldsBlocks sfs ino blocks) :
    Shows ((mountedVolume sfs fs).view ino) blocks := by
  have laid := image.built.toLaid
  have isDin : (mountedVolume sfs fs).din ino = (readInode disk ino).din := mountedVolume_din image.mounted
  have isDisk : (mountedVolume sfs fs).fs.disk = disk := image.mounted.sameDisk
  have count : ((mountedVolume sfs fs).din ino).blocks = blocks.length := by
    rw [isDin, (readInode_exact image.written laid isFile).1, (laid.file ino isFile).blocks, holds.length]
  constructor
  case size =>
    have isWords : disk ino = (sfs.files ino).words := image.written.file ino isFile
    rw [← holds.size, Mounted.view, isDin]
    simp [readInode, isWords, DiskInode.ofWords, CacheInode.words, diskInodeWords, DiskInode.words]
  case contents =>
    apply List.ext_getElem
    · simp [Mounted.view, Mounted.blockList, count]
    · intro index inside within
      have small : index < ((mountedVolume sfs fs).din ino).blocks := by
        simpa [Mounted.view, Mounted.blockList] using inside
      have isBlock : blocks[index]? = some (blocks[index].1, blocks[index].2) :=
        List.getElem?_eq_getElem (count ▸ small)
      obtain ⟨block, appended, isWords⟩ := holds.data index _ _ isBlock
      obtain ⟨other, isOther, _, isSlot⟩ := image.blockOf faithful storable isFile small
      obtain rfl : block = other := Option.some.inj (appended.symm.trans isOther)
      simp only [Mounted.view, Mounted.blockList, List.getElem_map, List.getElem_range]
      rw [isSlot, isDisk, image.written.data ino index block isFile appended, isWords]

/-- A volume that was mounted is quiet: nothing is in memory. -/
theorem OnImage.quiet (image : OnImage ninos sfs disk fs) (faithful : Faithful home stored sfs)
    (storable : Storable home) : Quiet (mountedVolume sfs fs) where
  held := fun _ _ isIn => (nomatch isIn)
  synced := fun _ _ isIn => (nomatch isIn)
  apart := fun _ member =>
    image.apart faithful storable ((mountedVolume_files image.built.toLaid).mp member)

end Ucore.Mksfs
