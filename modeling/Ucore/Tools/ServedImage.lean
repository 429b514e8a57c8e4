import Ucore.Tools.ImagePaths

/-!
# An image in use

The builder writes the tree of the host to an image, and the kernel mounts it and starts
from its root. A process that goes from directory to directory then sees the tree of the
host: it gets on as long as the host does, and finds the files of the host.
-/

namespace Ucore.Mksfs

open Transition Volume
open Vfs (AtStart Fresh Node PlainName Resting SameSpare VfsState chdirOk dirFind dirOf vfsLookup vfsSetBootfs)

variable {F : Type} [DecidableEq F] {device : Nat → Int} {memory : Nat → Bool} {state : VfsState F} {files : F}
variable {start closed sfs : Image} {ninos size dBlocks : Nat} {info : Nat → Nat} {disk : Nat → Block} {fs : SfsFs}
variable {home : HostEntries} {stored : List Stored} {devname : Name} {volume : Mounted} {ino : Nat}

/-- The answer of a lookup is what the host has there: nothing, a directory, or a regular
file with its size and its blocks. -/
def Answers (volume : Mounted) (result : Except Int Node) : Option HostPlace → Prop
  | none => result = .error (-eNoent)
  | some (.dir _) => ∃ ino, result = .ok (.sfs ino) ∧ (volume.din ino).type = sfsTypeDir
  | some (.file blocks) => ∃ ino, result = .ok (.sfs ino) ∧ (volume.din ino).type = sfsTypeFile ∧
      Shows (volume.view ino) blocks

omit [DecidableEq F] in
/-- Behind the mount of an image the kernel can start. -/
theorem OnImage.fresh (image : OnImage ninos sfs disk fs) (faithful : Faithful home stored sfs)
    (storable : Storable home) (isVolume : state.volume = mountedVolume sfs fs) (atStart : AtStart state files devname) :
    Fresh state files devname where
  toAtStart := atStart
  tree := by
    rw [isVolume]
    exact image.tree faithful storable
  unloaded := by
    rw [isVolume]
    exact fun _ => rfl
  root := by
    obtain ⟨isFile, isDir⟩ := @Faithful.isDir _ _ _ _ ⟨home, []⟩ faithful faithful.rootStored
    rw [Vfs.Startable, isVolume]
    exact ⟨(mountedVolume_files image.built.toLaid).mpr isFile, (mountedVolume_type image isFile).trans isDir⟩

/-- What a directory of the volume has under a name is what the host has. -/
theorem OnImage.answers (image : OnImage ninos sfs disk fs) (faithful : Faithful home stored sfs)
    (storable : Storable home) {place : HostDir} (isStored : StoredAs stored ino place.host place.above) (name : Name) :
    Answers (mountedVolume sfs fs) (dirFind (mountedVolume sfs fs) ino name) (place.find name) := by
  have found := @OnImage.find_rel _ _ _ _ _ name _ _ _ image faithful storable isStored
  obtain ⟨isFile, isDir⟩ := faithful.isDir isStored
  have dirType := (mountedVolume_type image isFile).trans isDir
  cases isFound : dirFind (mountedVolume sfs fs) ino name with
  | error code =>
    rw [Vfs.dirFind_error isFound] at found
    cases isPlace : place.find name with
    | none => rw [Answers, Vfs.dirFind_code isFound]
    | some next =>
      rw [isPlace] at found
      cases found
  | ok node =>
    rw [Vfs.dirFind_ok isFound dirType] at found
    cases isPlace : place.find name with
    | none =>
      rw [isPlace] at found
      cases found
    | some next =>
      rw [isPlace] at found
      cases found with
      | some agrees =>
        obtain ⟨child, rfl, atPlace⟩ := agrees
        cases next with
        | dir next =>
          obtain ⟨isFile, isDir⟩ := @Faithful.isDir _ _ _ _ next faithful atPlace
          exact ⟨child, rfl, (mountedVolume_type image isFile).trans isDir⟩
        | file blocks =>
          obtain ⟨number, isFile, isData, holds⟩ := atPlace
          exact ⟨child, rfl, (mountedVolume_type image isFile).trans isData,
            image.shows faithful storable isFile holds⟩

/-- An answer stays right while the files stay what they are. -/
theorem Answers.later {next : Mounted} {result : Except Int Node} {place : Option HostPlace}
    (answers : Answers volume result place) (same : SameTree volume next) (stays : Stays volume next)
    (quiet : Quiet volume) (member : ∀ ino, result = .ok (.sfs ino) → ino ∈ volume.files) :
    Answers next result place := by
  cases place with
  | none => exact answers
  | some place =>
    cases place with
    | dir dir =>
      obtain ⟨ino, isIno, isDir⟩ := answers
      exact ⟨ino, isIno, (same.din ino (member ino isIno)).type.trans isDir⟩
    | file blocks =>
      obtain ⟨ino, isIno, isData, shows⟩ := answers
      refine ⟨ino, isIno, (same.din ino (member ino isIno)).type.trans isData, ?_⟩
      rw [(stays quiet).1.view quiet (member ino isIno)]
      exact shows

omit [DecidableEq F] in
/-- A process in a directory of the volume, which is a directory of the host, looks a name
up: it gets what the host has there. -/
theorem OnImage.lookup_answers (image : OnImage ninos sfs disk fs) (faithful : Faithful home stored sfs)
    (storable : Storable home) (works : ∀ call, device call = 0) (room : ∀ call, memory call = true)
    (resting : Resting state files) (isPwd : (state.files.files files).pwd = some (.sfs ino))
    (same : SameTree (mountedVolume sfs fs) state.volume) (stays : Stays (mountedVolume sfs fs) state.volume)
    {place : HostDir} (isStored : StoredAs stored ino place.host place.above) {name : Name} (plain : PlainName name) :
    ∃ result after, vfsLookup device memory state files name = some (result, after) ∧
      Answers after.volume result (place.find name) := by
  have tree := image.tree faithful storable
  obtain ⟨isFile, isDir⟩ := faithful.isDir isStored
  have member : ino ∈ (mountedVolume sfs fs).files := (mountedVolume_files image.built.toLaid).mpr isFile
  have dirType := (mountedVolume_type image isFile).trans isDir
  obtain ⟨result, after, called, went, _, allocated⟩ :=
    @Vfs.vfsLookup_plain _ device memory _ _ _ _ works resting isPwd plain
  obtain rfl := Vfs.room_fits room allocated
  rw [Vfs.dirFind_same same tree member dirType] at called
  refine ⟨_, after, called, ?_⟩
  apply (image.answers faithful storable isStored name).later (same.trans went.tree)
    (stays.trans (Vfs.vfsLookup_stays called)) (image.quiet faithful storable)
  intro child isChild
  obtain ⟨other, isMember, isOther⟩ := Vfs.dirFind_member tree member dirType isChild
  cases isOther
  exact isMember

/-- A tree of the host is written to an image and the image is mounted. When the kernel has
set the root of the volume as the boot file system, a process that changes its directory by
names gets on exactly as long as these names lead to directories of the host, and in the
directory where it is every lookup gives what the host has there: the same directories, and
the same regular files with their sizes and blocks. -/
theorem image_served (storable : Storable home) (created : createSfs size info disk = some start)
    (called : createImg start home = some (stored, closed))
    (mounts : sfsDoMount device memory sfsBlksize dBlocks closed.disk = some (.ok fs))
    (isVolume : state.volume = mountedVolume closed fs) (atStart : AtStart state files devname)
    (plain : PlainName devname) (works : ∀ call, device call = 0) (room : ∀ call, memory call = true) :
    ∃ booted, vfsSetBootfs device memory state files (some (devname ++ [Vfs.colon])) = some (0, booted) ∧
      ∀ names, (∀ name ∈ names, PlainName name) →
        Option.Rel (fun arrived place => ∀ name, PlainName name → ∃ result after,
            vfsLookup device memory arrived files name = some (result, after) ∧
              Answers after.volume result (place.find name))
          (run (chdirOk device memory files) names booted) (PathNames.walk HostDir.enter ⟨home, []⟩ names) := by
  obtain ⟨sfs, built, rfl, faithful⟩ := createImg_faithful storable.toNumbered created called
  obtain ⟨result, mountResult, _, isMounted⟩ := @closed_mounts _ _ _ device memory sfsBlksize dBlocks built.toLaid
    (createNinos_le size) (closedDisk_written built.toLaid)
  have mounted := isMounted fs (Option.some.inj (mountResult.symm.trans mounts))
  have image : OnImage (createNinos size) sfs (closedDisk sfs) fs := ⟨built, closedDisk_written built.toLaid, mounted⟩
  have onVolume : state.volume = mountedVolume sfs fs := isVolume
  have fresh := image.fresh faithful storable onVolume atStart
  obtain ⟨booted, isBooted, resting, same, isPwd, _⟩ := Vfs.vfsSetBootfs_fresh works room fresh plain
  have stays := Vfs.vfsSetBootfs_stays isBooted
  rw [onVolume] at same stays
  have tree := image.tree faithful storable
  obtain ⟨isFile, _⟩ := @Faithful.isDir _ _ _ _ ⟨home, []⟩ faithful faithful.rootStored
  have isRoot : sfsBlknRoot ∈ (mountedVolume sfs fs).files := (mountedVolume_files image.built.toLaid).mpr isFile
  refine ⟨booted, isBooted, fun names areNames => ?_⟩
  -- the kernel follows the names on its volume, and the volume follows the host
  have kernel := Vfs.chdirs_walk works room resting isPwd areNames
  have sameWalk : PathNames.walk (dirOf booted.volume) Vfs.sfsBlknRoot names =
      PathNames.walk (dirOf (mountedVolume sfs fs)) sfsBlknRoot names := Vfs.walk_same same tree names isRoot
  rw [sameWalk] at kernel
  have agrees : Option.Rel (fun ino place => StoredAs stored ino place.host place.above)
      (PathNames.walk (dirOf (mountedVolume sfs fs)) sfsBlknRoot names) (PathNames.walk HostDir.enter ⟨home, []⟩ names) := by
    apply PathNames.walk_rel
    · exact fun ino place name isStored => image.enter_rel faithful storable isStored
    · exact faithful.rootStored
  apply PathNames.rel_through kernel agrees
  intro arrived ino place arrives isStored name isName
  exact image.lookup_answers faithful storable works room arrives.resting arrives.pwd (same.trans arrives.spare.tree)
    (stays.trans arrives.stays) isStored isName

/-! ## One file -/

/-- The only block of a file. -/
def smallBlocks : List (Block × Nat) := [(fun _ => 0x0a6f6f66, 4)]

/-- A directory of the host with one file of one block. -/
def smallHome : HostEntries := .cons Vfs.nameA (.file 7 smallBlocks) .nil

theorem smallHome_visible {name : Name} {node : HostNode} (visible : smallHome.Visible name node) :
    name = Vfs.nameA ∧ node = .file 7 smallBlocks := by
  have same : (name, node) = (Vfs.nameA, .file 7 smallBlocks) := List.mem_singleton.mp visible.1
  exact Prod.mk.inj same

theorem smallHome_inside {node : HostNode} (inside : Inside smallHome node) : node = .file 7 smallBlocks := by
  induction inside with
  | top name node visible => exact (smallHome_visible visible).2
  | within number host name node _ _ ih => cases ih

theorem smallHome_storable : Storable smallHome where
  positive := by
    intro node inside
    rw [smallHome_inside inside]
    decide
  same := fun node other inside isOther _ => (smallHome_inside inside).trans (smallHome_inside isOther).symm
  plain := by
    intro node inside
    rw [smallHome_inside inside]
    rfl
  root := by
    constructor
    case few => decide
    case distinct => decide
    case names =>
      intro name node visible
      rw [(smallHome_visible visible).1]
      refine ⟨by decide, by decide, fun byte isByte => ?_⟩
      rw [List.mem_singleton.mp isByte]
      decide
  dirs := by
    intro number host inside
    cases smallHome_inside inside
  short := by
    intro number blocks inside
    cases smallHome_inside inside
    decide
  total := by decide

theorem smallHome_image : ∃ start stored closed, createSfs 40960 (fun _ => 0) (fun _ _ => 0) = some start ∧
    createImg start smallHome = some (stored, closed) := by
  obtain ⟨start, opened, made, created, dotted, isStored, filled, added⟩ : ∃ start opened made,
      createSfs 40960 (fun _ => 0) (fun _ _ => 0) = some start ∧ addDots start sfsBlknRoot sfsBlknRoot = some opened ∧
      storeFile opened 7 smallBlocks = some (5, made) ∧ ∃ filled, addEntry made sfsBlknRoot 5 Vfs.nameA = some filled :=
    ⟨_, _, _, rfl, rfl, rfl, _, rfl⟩
  have walked : openEntries opened sfsBlknRoot smallHome = some ([(Vfs.nameA, .file 7 smallBlocks, 5)], [], filled) := by
    have visible : Vfs.nameA.head? ≠ some dot := by decide
    have short : Vfs.nameA.length ≤ sfsMaxFnameLen := by decide
    rw [smallHome, openEntries, if_neg visible, if_pos short, openNode, isStored]
    simp only [Option.map_some, Option.bind_eq_bind, Option.bind_some, added, openEntries, List.append_nil]
  have isNew := (createSfs_isNew created).1
  have built := built_reached created (isNew.stores dotted walked).1
  have completes : (createImg start smallHome).isSome = true := by
    simp only [createImg, dotted, walked, closeSfs_exact built.toLaid, Option.bind_eq_bind, Option.bind_some,
      Option.isSome_some]
  obtain ⟨⟨stored, closed⟩, called⟩ := Option.isSome_iff_exists.mp completes
  exact ⟨start, stored, closed, created, called⟩

/-- The start, with the volume of an image. -/
noncomputable def imageState (closed : Image) (fs : SfsFs) : VfsState Unit where
  volume := mountedVolume closed fs
  files := {
    files := fun _ => { pwd := none, fdArray := Fs.fdArrayInit, filesCount := 1 }
    inodes := fun _ => ⟨0, 0⟩
    opened := 0
    ended := [] }
  allocs := 0
  devices := fun _ => { dBlocks := 32, dBlocksize := 4096, dOpen := fun _ => 0 }
  vdevList := [Vfs.smallVdev]
  bootfsNode := none

/-- A process finds the file in the root of the image, with its block. -/
theorem image_served_file : ∃ closed fs booted result after,
    vfsSetBootfs (fun _ => 0) (fun _ => true) (imageState closed fs) () (some (Vfs.smallVdev.devname ++ [Vfs.colon])) =
      some (0, booted) ∧
    vfsLookup (fun _ => 0) (fun _ => true) booted () Vfs.nameA = some (result, after) ∧
    ∃ ino, result = .ok (.sfs ino) ∧ (after.volume.din ino).type = sfsTypeFile ∧
      Shows (after.volume.view ino) smallBlocks := by
  obtain ⟨start, stored, closed, created, called⟩ := smallHome_image
  obtain ⟨sfs, built, isClosed, _⟩ := createImg_faithful smallHome_storable.toNumbered created called
  have written : Written sfs closed.disk := isClosed ▸ closedDisk_written built.toLaid
  obtain ⟨mounted, mounts, succeeds, _⟩ := @closed_mounts _ _ _ (fun _ => 0) (fun _ => true) sfsBlksize
    (Super.ofWords (closed.disk sfsBlknSuper)).blocks built.toLaid (createNinos_le 40960) written
  obtain ⟨fs, rfl⟩ := succeeds ⟨rfl, Nat.le_refl _, fun _ => rfl, fun _ => rfl⟩
  have atStart : AtStart (imageState closed fs) () Vfs.smallVdev.devname := by
    exact ⟨fun _ => ⟨Int.le_refl 0, Int.le_refl 0, (by decide : (0 : Int) + 2 < Vfs.maxInodeCount)⟩, rfl, rfl,
      Vfs.smallVdev, rfl, rfl⟩
  have devicePlain : PlainName Vfs.smallVdev.devname := ⟨by decide, by decide, by decide, by decide⟩
  have plain : PlainName Vfs.nameA := ⟨by decide, by decide, by decide, by decide⟩
  obtain ⟨booted, isBooted, serves⟩ := image_served smallHome_storable created called mounts rfl atStart devicePlain
    (fun _ => rfl) (fun _ => rfl)
  have here := serves [] fun name member => (nomatch member)
  cases here with
  | some finds =>
    obtain ⟨result, after, looked, answers⟩ := finds Vfs.nameA plain
    exact ⟨closed, fs, booted, result, after, isBooted, looked, answers⟩

end Ucore.Mksfs
