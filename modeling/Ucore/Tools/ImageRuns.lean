import Ucore.Library.Transition
import Ucore.Tools.ImagePointers

/-!
# Runs of the image builder

The builder makes inodes, appends blocks to them and adds entries to directories, in any
order. Every block is handed out once, the pointers of an inode record its blocks, and
those of a directory hold its entries.
-/

namespace Ucore.Mksfs

open Ownership Transition Volume

/-- The steps of the builder on inodes, given by block number. -/
inductive ImageOperation where
  | newFile (real type : Nat)
  | data (file : Nat) (words : Block) (size : Nat)
  | entry (current file : Nat) (name : Name)

def imageStep (sfs : Image) : ImageOperation → Option Image
  | .newFile real type => (allocCacheInode sfs real 0 type).map Prod.snd
  | .data file words size => appendData sfs file words size
  | .entry current file name => addEntry sfs current file name

/-- An inode of the builder. -/
def Image.IsFile (sfs : Image) (ino : Nat) : Prop := InBuckets sfs.inodes ino

/-- There are three types of inodes; data goes to those that are no directories. -/
def ImageLegal (sfs : Image) : ImageOperation → Prop
  | .newFile _ type => type = typeFile ∨ type = typeDir ∨ type = typeLink
  | .data file _ _ => sfs.IsFile file ∧ (sfs.files file).din.type ≠ typeDir
  | .entry current file _ => sfs.IsFile current ∧ sfs.IsFile file

open Classical in
/-- The family of the inodes. -/
noncomputable def Image.places (sfs : Image) (ino : Nat) (place : MkPlace) : Option Nat :=
  if sfs.IsFile ino then Mksfs.places sfs.cache (sfs.files ino) place else none

/-- The blocks of a directory hold the entries added. -/
def EntriesOk (disk : Nat → Block) (file : CacheInode) : Prop :=
  file.added.length = file.appended.length ∧ ∀ (index : Nat) name number, file.added[index]? = some (name, number) →
    ∃ block buffer, file.appended[index]? = some block ∧ disk block = entryBlock number (copyName buffer name)

/-- `SFS_BLKN_FREEMAP` and the blocks of the freemap stand in front of the others. -/
def firstBlock (ninos : Nat) : Nat := sfsBlknFreemap + (ninos + sfsBlkbits - 1) / sfsBlkbits

/-- The blocks handed out are those named, and the superblock counts the others. -/
structure Laid (ninos : Nat) (sfs : Image) : Prop where
  owned : Partitioned sfs.places (· < sfs.nextIno)
  file : ∀ ino, sfs.IsFile ino → FileOk sfs.cache (sfs.files ino)
  ino : ∀ ino, sfs.IsFile ino → (sfs.files ino).ino = ino
  type : ∀ ino, sfs.IsFile ino →
    (sfs.files ino).din.type = typeFile ∨ (sfs.files ino).din.type = typeDir ∨ (sfs.files ino).din.type = typeLink
  cached : ∀ block, sfs.IsCached block ↔ ∃ ino place, place.IsPointers ∧ sfs.places ino place = some block
  range : ∀ ino place block, sfs.places ino place = some block → block = sfsBlknRoot ∨ firstBlock ninos ≤ block
  root : sfs.IsFile sfsBlknRoot
  size : sfs.ninos = ninos ∧ sfs.super.blocks = ninos ∧ sfs.super.magic = sfsMagic
  counts : firstBlock ninos ≤ sfs.nextIno ∧ sfs.super.unusedBlocks + sfs.nextIno = ninos
  allocated : sfs.allocated = List.range' (firstBlock ninos) (sfs.nextIno - firstBlock ninos)

/-- And every directory holds its entries, which name inodes; only inodes have links. -/
structure Built (ninos : Nat) (sfs : Image) : Prop extends Laid ninos sfs where
  entries : ∀ ino, sfs.IsFile ino → (sfs.files ino).din.type = typeDir → EntriesOk sfs.disk (sfs.files ino)
  linked : ∀ ino, sfs.IsFile ino → ∀ name number, (name, number) ∈ (sfs.files ino).added → sfs.IsFile number
  links : ∀ ino, (sfs.files ino).din.nlinks < 65536 ∧ (¬ sfs.IsFile ino → (sfs.files ino).din.nlinks = 0)

variable {sfs next : Image} {ninos file block ino size index : Nat} {words : Block}

theorem places_isFile (isFile : sfs.IsFile ino) : sfs.places ino = Mksfs.places sfs.cache (sfs.files ino) := by
  funext place
  exact if_pos isFile

theorem isFile_of_places {place : MkPlace} (names : sfs.places ino place = some block) : sfs.IsFile ino := by
  by_contra none
  rw [Image.places, if_neg none] at names
  cases names

/-- The inodes are numbered by blocks handed out. -/
theorem Laid.inUse (laid : Laid ninos sfs) (isFile : sfs.IsFile ino) : ino < sfs.nextIno := by
  refine (laid.owned ino).inUse .inode ino ?_
  rw [places_isFile isFile]
  exact congrArg some (laid.ino ino isFile)


/-- The blocks that the other inodes name do not change, nor do their places. -/
theorem places_elsewhere {other : Nat} (isFile : next.IsFile other ↔ sfs.IsFile other)
    (sameFile : next.files other = sfs.files other)
    (framed : ∀ block, others sfs.places file block → next.cache block = sfs.cache block) (different : other ≠ file) :
    next.places other = sfs.places other := by
  by_cases exists' : sfs.IsFile other
  · rw [places_isFile exists', places_isFile (isFile.mpr exists'), sameFile]
    refine places_congr fun double => framed _ ⟨other, different, .double, ?_⟩
    rw [places_isFile exists']
    exact pointer_nonzero double
  · funext place
    rw [Image.places, Image.places, if_neg exists', if_neg (mt isFile.mp exists')]

theorem FileOk.congr {cache other : Nat → Block} {fields : CacheInode} (ok : FileOk cache fields)
    (kept : fields.din.indirect ≠ 0 → other fields.din.indirect = cache fields.din.indirect) :
    FileOk other fields where
  nblks := ok.nblks
  blocks := ok.blocks
  small := ok.small
  pointers := by
    rw [firstPointers_congr rfl rfl kept]
    exact ok.pointers

/-- The blocks handed out stand in a row. -/
theorem Laid.hands {taken : Nat} (laid : Laid ninos sfs) (hands : Hands taken sfs next) :
    next.allocated = List.range' (firstBlock ninos) (next.nextIno - firstBlock ninos) := by
  obtain ⟨first, _⟩ := laid.counts
  have follows : sfs.nextIno = firstBlock ninos + (sfs.nextIno - firstBlock ninos) := by omega
  have length : next.nextIno - firstBlock ninos = sfs.nextIno - firstBlock ninos + taken := by
    rw [hands.nextIno]
    omega
  rw [hands.allocated, laid.allocated, length, ← List.range'_append_1, ← follows]

/-- A block is appended to one inode; the others keep theirs. -/
theorem Laid.appendData (laid : Laid ninos sfs) (isFile : sfs.IsFile file)
    (called : appendData sfs file words size = some next) :
    Laid ninos next ∧ Appends file words (others sfs.places file) sfs next := by
  have owns := laid.owned file
  rw [places_isFile isFile] at owns
  have appends := appendData_appends owns (laid.file file isFile) called
  have sameFile : ∀ ino, next.IsFile ino ↔ sfs.IsFile ino := by
    intro ino
    rw [Image.IsFile, appends.fixed.1]
    rfl
  have elsewhere : ∀ other, other ≠ file → next.places other = sfs.places other := fun other different =>
    places_elsewhere (sameFile other) (appends.elsewhere other different) appends.framed different
  have here : next.places file = Mksfs.places next.cache (next.files file) := places_isFile ((sameFile file).mpr isFile)
  obtain ⟨more, bound, taken, hands⟩ := appends.counts
  have isTaken := hands.nextIno
  have isSuper := hands.super
  refine ⟨?_, appends⟩
  constructor
  case owned => exact laid.owned.step elsewhere (here ▸ appends.owns)
  case file =>
    intro ino isIno
    by_cases isHere : ino = file
    · exact isHere ▸ appends.ok
    · rw [appends.elsewhere ino isHere]
      have old := (sameFile ino).mp isIno
      refine (laid.file ino old).congr fun indirect => appends.framed _ ⟨ino, isHere, .indirect, ?_⟩
      rw [places_isFile old]
      exact pointer_nonzero indirect
  case ino =>
    intro ino isIno
    by_cases isHere : ino = file
    · rw [isHere, appends.ino, laid.ino file isFile]
    · rw [appends.elsewhere ino isHere, laid.ino ino ((sameFile ino).mp isIno)]
  case type =>
    intro ino isIno
    by_cases isHere : ino = file
    · rw [isHere, appends.type]
      exact laid.type file isFile
    · rw [appends.elsewhere ino isHere]
      exact laid.type ino ((sameFile ino).mp isIno)
  case cached =>
    intro block
    rw [appends.cached, laid.cached]
    constructor
    · rintro (⟨ino, place, pointers, names⟩ | ⟨lower, upper⟩)
      · by_cases isHere : ino = file
        · subst isHere
          rw [places_isFile isFile] at names
          exact ⟨ino, place, pointers, here ▸ appends.persists place block names⟩
        · exact ⟨ino, place, pointers, elsewhere ino isHere ▸ names⟩
      · obtain ⟨place, pointers, names⟩ := appends.named block lower upper
        exact ⟨file, place, pointers, here ▸ names⟩
    · rintro ⟨ino, place, pointers, names⟩
      by_cases isHere : ino = file
      · subst isHere
        rw [here] at names
        rcases appends.fresh place block names with old | ⟨_, new⟩
        · exact Or.inl ⟨ino, place, pointers, places_isFile isFile ▸ old⟩
        · exact Or.inr ⟨new pointers, appends.owns.inUse place block names⟩
      · exact Or.inl ⟨ino, place, pointers, elsewhere ino isHere ▸ names⟩
  case range =>
    intro ino place block names
    by_cases isHere : ino = file
    · subst isHere
      rw [here] at names
      rcases appends.fresh place block names with old | ⟨new, _⟩
      · exact laid.range ino place block (places_isFile isFile ▸ old)
      · exact Or.inr (laid.counts.1.trans new)
    · exact laid.range ino place block (elsewhere ino isHere ▸ names)
  case root => exact (sameFile _).mpr laid.root
  case size =>
    rw [appends.fixed.2.1, isSuper]
    exact laid.size
  case counts =>
    obtain ⟨first, sum⟩ := laid.counts
    obtain ⟨isNinos, _⟩ := laid.size
    refine ⟨by omega, ?_⟩
    rw [isSuper]
    simp only
    omega
  case allocated => exact laid.hands hands

/-! ## Entries -/

/-- Two states of an inode that differ in its names and links only. -/
def SameButLinks (first second : CacheInode) : Prop :=
  ∃ added nlinks, second = { first with added, din := { first.din with nlinks } }

theorem places_links {cache : Nat → Block} {fields after : CacheInode} (same : SameButLinks fields after) :
    Mksfs.places cache after = Mksfs.places cache fields := by
  obtain ⟨added, nlinks, rfl⟩ := same
  funext place
  cases place <;> rfl

theorem FileOk.links {cache : Nat → Block} {fields after : CacheInode} (ok : FileOk cache fields)
    (same : SameButLinks fields after) : FileOk cache after := by
  obtain ⟨added, nlinks, rfl⟩ := same
  exact ⟨ok.nblks, ok.blocks, ok.small, ok.pointers⟩

/-- The names and links do not matter, nor do the words on disk. -/
theorem Laid.links (laid : Laid ninos sfs) (files : ∀ ino, SameButLinks (sfs.files ino) (next.files ino))
    (same : next.cache = sfs.cache ∧ next.blocks = sfs.blocks ∧ next.inodes = sfs.inodes ∧
      next.nextIno = sfs.nextIno ∧ next.super = sfs.super ∧ next.ninos = sfs.ninos ∧
      next.allocated = sfs.allocated) : Laid ninos next := by
  obtain ⟨sameCache, sameBlocks, sameInodes, sameNext, sameSuper, sameNinos, sameAllocated⟩ := same
  have sameFile : ∀ ino, next.IsFile ino ↔ sfs.IsFile ino := by
    intro ino
    rw [Image.IsFile, sameInodes]
    rfl
  have samePlaces : next.places = sfs.places := by
    funext ino place
    rw [Image.places, Image.places, sameCache, places_links (files ino)]
    by_cases isFile : sfs.IsFile ino
    · rw [if_pos isFile, if_pos ((sameFile ino).mpr isFile)]
    · rw [if_neg isFile, if_neg (mt (sameFile ino).mp isFile)]
  constructor
  case owned =>
    rw [samePlaces, sameNext]
    exact laid.owned
  case file =>
    intro ino isIno
    rw [sameCache]
    exact (laid.file ino ((sameFile ino).mp isIno)).links (files ino)
  case ino =>
    intro ino isIno
    obtain ⟨added, nlinks, same⟩ := files ino
    rw [same]
    exact laid.ino ino ((sameFile ino).mp isIno)
  case type =>
    intro ino isIno
    obtain ⟨added, nlinks, same⟩ := files ino
    rw [same]
    exact laid.type ino ((sameFile ino).mp isIno)
  case cached =>
    intro block
    rw [Image.IsCached, sameBlocks, samePlaces]
    exact laid.cached block
  case range =>
    rw [samePlaces]
    exact laid.range
  case root => exact (sameFile _).mpr laid.root
  case size =>
    rw [sameNinos, sameSuper]
    exact laid.size
  case counts =>
    rw [sameNext, sameSuper]
    exact laid.counts
  case allocated =>
    rw [sameAllocated, sameNext]
    exact laid.allocated

/-- What adding an entry does: a block holds it, the directory records it, and the inode
has one link more. -/
structure Adds (current file : Nat) (name : Name) (sfs next : Image) : Prop where
  isDir : (sfs.files current).din.type = typeDir
  length : name.length ≤ sfsMaxFnameLen
  appended : ∀ ino, (next.files ino).appended =
    (sfs.files ino).appended ++ if ino = current then [sfs.nextIno] else []
  added : ∀ ino, (next.files ino).added =
    (sfs.files ino).added ++ if ino = current then [(name, (sfs.files file).ino)] else []
  nlinks : ∀ ino, (next.files ino).din.nlinks =
    if ino = file then ((sfs.files ino).din.nlinks + 1) % 65536 else (sfs.files ino).din.nlinks
  type : ∀ ino, (next.files ino).din.type = (sfs.files ino).din.type
  real : ∀ ino, (next.files ino).real = (sfs.files ino).real
  disk : next.disk = Function.update sfs.disk sfs.nextIno
    (entryBlock (sfs.files file).ino (copyName sfs.entryName name))
  inodes : next.inodes = sfs.inodes
  nextIno : sfs.nextIno < next.nextIno

theorem Laid.addEntry {current : Nat} {name : Name} (laid : Laid ninos sfs) (isFile : sfs.IsFile current)
    (called : addEntry sfs current file name = some next) :
    Laid ninos next ∧ Adds current file name sfs next := by
  unfold Mksfs.addEntry at called
  split at called
  · rename_i accepted
    simp only [Option.bind_eq_bind, Option.bind_eq_some_iff] at called
    obtain ⟨filled, append, isNext⟩ := called
    cases isNext
    have named : Laid ninos { sfs with entryName := copyName sfs.entryName name } :=
      laid.links (fun ino => ⟨_, _, rfl⟩) ⟨rfl, rfl, rfl, rfl, rfl, rfl, rfl⟩
    obtain ⟨laid', appends⟩ := named.appendData isFile append
    have files : ∀ ino, ((filled.setFile current { filled.files current with
          added := (filled.files current).added ++ [(name, (sfs.files file).ino)] }).link file).files ino =
        { filled.files ino with
          added := (filled.files ino).added ++ if ino = current then [(name, (sfs.files file).ino)] else []
          din := { (filled.files ino).din with
            nlinks := if ino = file then ((filled.files ino).din.nlinks + 1) % 65536
              else (filled.files ino).din.nlinks } } := by
      intro ino
      by_cases isHere : ino = current
      · by_cases isLinked : ino = file
        · subst isHere isLinked
          simp [Image.link, Image.setFile]
        · subst isHere
          simp [Image.link, Image.setFile, isLinked]
      · by_cases isLinked : ino = file
        · subst isLinked
          simp [Image.link, Image.setFile, isHere]
        · simp [Image.link, Image.setFile, isHere, isLinked]
    refine ⟨laid'.links (fun ino => ⟨_, _, files ino⟩) ⟨rfl, rfl, rfl, rfl, rfl, rfl, rfl⟩, ?_⟩
    constructor
    case isDir => exact accepted.1
    case length => exact accepted.2
    case appended =>
      intro ino
      rw [files]
      by_cases isHere : ino = current
      · simp [isHere, appends.appended]
      · simp [isHere, appends.elsewhere ino isHere]
    case added =>
      intro ino
      rw [files]
      by_cases isHere : ino = current
      · simp [isHere, appends.added]
      · simp [isHere, appends.elsewhere ino isHere]
    case nlinks =>
      intro ino
      rw [files]
      by_cases isHere : ino = current
      · simp [isHere, appends.nlinks]
      · simp [appends.elsewhere ino isHere]
    case type =>
      intro ino
      rw [files]
      by_cases isHere : ino = current
      · simp [isHere, appends.type]
      · simp [appends.elsewhere ino isHere]
    case real =>
      intro ino
      rw [files]
      by_cases isHere : ino = current
      · simp [isHere, appends.real]
      · simp [appends.elsewhere ino isHere]
    case disk => exact appends.disk
    case inodes => exact appends.fixed.1
    case nextIno => exact appends.counts.1
  · cases called

/-! ## New inodes -/

/-- What making an inode does: its number is a new block, and it is empty. -/
structure Makes (real type file : Nat) (sfs next : Image) : Prop where
  isNew : file = sfs.nextIno
  small : sfs.nextIno < sfs.ninos
  isFile : ∀ ino, next.IsFile ino ↔ sfs.IsFile ino ∨ ino = file
  elsewhere : ∀ ino, ino ≠ file → next.files ino = sfs.files ino
  here : next.files file = {
    din := { size := 0, type, nlinks := 0, blocks := 0, direct := fun _ => 0, indirect := 0 }
    dbIndirect := 0, real, ino := file, nblks := 0, l1 := none, l2 := none, appended := [], added := [] }
  fixed : next.disk = sfs.disk ∧ next.cache = sfs.cache ∧ next.blocks = sfs.blocks ∧ next.ninos = sfs.ninos
  counts : Hands 1 sfs next

theorem allocCacheInode_makes {real type : Nat} (called : allocCacheInode sfs real 0 type = some (file, next)) :
    Makes real type file sfs next := by
  simp only [allocCacheInode, ne_eq, not_true_eq_false, if_false] at called
  obtain ⟨⟨number, allocated⟩, alloc, same⟩ := Option.map_eq_some_iff.mp called
  obtain ⟨rfl, rfl⟩ := Prod.mk.inj same
  obtain ⟨isNew, small, isAllocated⟩ := sfsAllocIno_cases alloc
  subst isAllocated
  refine ⟨isNew, small, ?_, ?_, ?_, ⟨rfl, rfl, rfl, rfl⟩, rfl, rfl, rfl⟩
  · exact fun ino => inBuckets_cons sfs.inodes real
  · exact fun ino different => Function.update_of_ne different _ _
  · exact Function.update_self ..

theorem Laid.newFile {real type : Nat} (laid : Laid ninos sfs)
    (legal : type = typeFile ∨ type = typeDir ∨ type = typeLink) (makes : Makes real type file sfs next) :
    Laid ninos next := by
  have isNew := makes.isNew
  subst isNew
  have notFile : ¬ sfs.IsFile sfs.nextIno := fun isFile => Nat.lt_irrefl _ (laid.inUse isFile)
  obtain ⟨sameDisk, sameCache, sameBlocks, sameNinos⟩ := makes.fixed
  obtain ⟨isNext, isSuper, _⟩ := makes.counts
  have isFile : next.IsFile sfs.nextIno := (makes.isFile _).mpr (Or.inr rfl)
  have sameFile : ∀ ino, ino ≠ sfs.nextIno → (next.IsFile ino ↔ sfs.IsFile ino) := by
    intro ino different
    rw [makes.isFile]
    simp [different]
  have elsewhere : ∀ ino, ino ≠ sfs.nextIno → next.places ino = sfs.places ino := fun ino different =>
    places_elsewhere (sameFile ino different) (makes.elsewhere ino different) (fun _ _ => by rw [sameCache]) different
  have before : ∀ place, sfs.places sfs.nextIno place = none := fun place => if_neg notFile
  have here : next.places sfs.nextIno = Function.update (sfs.places sfs.nextIno) .inode (some sfs.nextIno) := by
    rw [places_isFile isFile, makes.here]
    funext place
    cases place <;> simp [Mksfs.places, pointer, before]
  have onlyInode : ∀ place block, next.places sfs.nextIno place = some block → place = .inode ∧ block = sfs.nextIno := by
    intro place block names
    rw [here] at names
    by_cases isInode : place = .inode
    · rw [isInode, Function.update_self] at names
      exact ⟨isInode, (Option.some.inj names).symm⟩
    · rw [Function.update_of_ne isInode, before] at names
      cases names
  constructor
  case owned =>
    refine laid.owned.step elsewhere ?_
    rw [here]
    refine (laid.owned _).assign .inode (Nat.lt_irrefl _) ?_
    rintro other (used | rfl)
    · omega
    · omega
  case file =>
    intro ino isIno
    by_cases isHere : ino = sfs.nextIno
    · rw [isHere, makes.here]
      refine ⟨rfl, rfl, Nat.zero_le _, ?_⟩
      intro index _
      simp [firstPointers]
    · rw [makes.elsewhere ino isHere, sameCache]
      exact laid.file ino ((sameFile ino isHere).mp isIno)
  case ino =>
    intro ino isIno
    by_cases isHere : ino = sfs.nextIno
    · rw [isHere, makes.here]
    · rw [makes.elsewhere ino isHere]
      exact laid.ino ino ((sameFile ino isHere).mp isIno)
  case type =>
    intro ino isIno
    by_cases isHere : ino = sfs.nextIno
    · rw [isHere, makes.here]
      exact legal
    · rw [makes.elsewhere ino isHere]
      exact laid.type ino ((sameFile ino isHere).mp isIno)
  case cached =>
    intro block
    rw [Image.IsCached, sameBlocks]
    refine (laid.cached block).trans ?_
    constructor
    · rintro ⟨ino, place, pointers, names⟩
      by_cases isHere : ino = sfs.nextIno
      · rw [isHere, before] at names
        cases names
      · exact ⟨ino, place, pointers, elsewhere ino isHere ▸ names⟩
    · rintro ⟨ino, place, pointers, names⟩
      by_cases isHere : ino = sfs.nextIno
      · rw [isHere] at names
        rw [(onlyInode place block names).1] at pointers
        exact pointers.elim
      · exact ⟨ino, place, pointers, elsewhere ino isHere ▸ names⟩
  case range =>
    intro ino place block names
    by_cases isHere : ino = sfs.nextIno
    · rw [isHere] at names
      exact Or.inr ((onlyInode place block names).2 ▸ laid.counts.1)
    · exact laid.range ino place block (elsewhere ino isHere ▸ names)
  case root => exact (makes.isFile _).mpr (Or.inl laid.root)
  case size =>
    rw [sameNinos, isSuper]
    exact laid.size
  case counts =>
    obtain ⟨first, sum⟩ := laid.counts
    have small := makes.small
    obtain ⟨isNinos, _⟩ := laid.size
    rw [isNext, isSuper]
    simp only
    omega
  case allocated => exact laid.hands makes.counts

/-! ## Whole runs -/

theorem EntriesOk.disk {disk : Nat → Block} {fields : CacheInode} (ok : EntriesOk disk fields)
    (other : ∀ (index : Nat) named, fields.appended[index]? = some named → named ≠ block) :
    EntriesOk (Function.update disk block words) fields := by
  refine ⟨ok.1, fun index name number entry => ?_⟩
  obtain ⟨named, buffer, appended, holds⟩ := ok.2 index name number entry
  refine ⟨named, buffer, appended, ?_⟩
  rw [Function.update_of_ne (other index named appended), holds]

/-- The last block holds the last entry. -/
theorem EntriesOk.append {disk : Nat → Block} {fields after : CacheInode} {name : Name} {number : Nat}
    {buffer : Nat → Fin 256} (ok : EntriesOk disk fields) (isAppended : after.appended = fields.appended ++ [block])
    (isAdded : after.added = fields.added ++ [(name, number)])
    (holds : disk block = entryBlock number (copyName buffer name)) : EntriesOk disk after := by
  obtain ⟨length, entries⟩ := ok
  refine ⟨by rw [isAppended, isAdded, List.length_append, List.length_append, length]; rfl, ?_⟩
  intro index name' number' entry
  rw [isAdded] at entry
  rw [isAppended]
  by_cases old : index < fields.added.length
  · rw [List.getElem?_append_left old] at entry
    rw [List.getElem?_append_left (length ▸ old)]
    exact entries index name' number' entry
  · rw [List.getElem?_append_right (Nat.not_lt.mp old)] at entry
    have isLast : index - fields.added.length = 0 := by
      by_contra later
      rw [List.getElem?_eq_none] at entry
      · cases entry
      · simp only [List.length_singleton]
        omega
    rw [isLast] at entry
    cases entry
    refine ⟨block, buffer, ?_, holds⟩
    rw [List.getElem?_append_right (length ▸ Nat.not_lt.mp old), ← length, isLast]
    rfl

theorem Laid.appended_inUse (laid : Laid ninos sfs) (isFile : sfs.IsFile ino)
    (appended : (sfs.files ino).appended[index]? = some block) : block < sfs.nextIno := by
  refine (laid.owned ino).inUse (.data index) block ?_
  rw [places_isFile isFile]
  exact appended

theorem Built.newFile {real type : Nat} (built : Built ninos sfs)
    (legal : type = typeFile ∨ type = typeDir ∨ type = typeLink) (makes : Makes real type file sfs next) :
    Built ninos next := by
  refine ⟨built.toLaid.newFile legal makes, ?_, ?_, ?_⟩
  · intro ino isIno isDir
    rw [makes.fixed.1]
    by_cases isHere : ino = file
    · rw [isHere, makes.here]
      exact ⟨rfl, fun index name number entry => by simp at entry⟩
    · have old : sfs.IsFile ino := by
        simpa [isHere] using (makes.isFile ino).mp isIno
      rw [makes.elsewhere ino isHere] at isDir ⊢
      exact built.entries ino old isDir
  · intro ino isIno name number added
    by_cases isHere : ino = file
    · rw [isHere, makes.here] at added
      cases added
    · have old : sfs.IsFile ino := by
        simpa [isHere] using (makes.isFile ino).mp isIno
      rw [makes.elsewhere ino isHere] at added
      exact (makes.isFile number).mpr (Or.inl (built.linked ino old name number added))
  · intro ino
    by_cases isHere : ino = file
    · rw [isHere, makes.here]
      exact ⟨Nat.zero_lt_succ _, fun _ => rfl⟩
    · rw [makes.elsewhere ino isHere]
      refine ⟨(built.links ino).1, fun notFile => (built.links ino).2 fun old => ?_⟩
      exact notFile ((makes.isFile ino).mpr (Or.inl old))

theorem Built.data (built : Built ninos sfs) (isFile : sfs.IsFile file) (notDir : (sfs.files file).din.type ≠ typeDir)
    (called : appendData sfs file words size = some next) :
    Built ninos next ∧ Appends file words (others sfs.places file) sfs next := by
  obtain ⟨laid, appends⟩ := built.toLaid.appendData isFile called
  have sameFile : ∀ ino, next.IsFile ino ↔ sfs.IsFile ino := by
    intro ino
    rw [Image.IsFile, appends.fixed.1]
    rfl
  refine ⟨⟨laid, ?_, ?_, ?_⟩, appends⟩
  · intro ino isIno isDir
    by_cases isHere : ino = file
    · rw [isHere, appends.type] at isDir
      exact absurd isDir notDir
    · have old := (sameFile ino).mp isIno
      rw [appends.elsewhere ino isHere] at isDir ⊢
      rw [appends.disk]
      refine (built.entries ino old isDir).disk fun index named appended => ?_
      exact Nat.ne_of_lt (built.appended_inUse old appended)
  · intro ino isIno name number added
    have sameAdded : (next.files ino).added = (sfs.files ino).added := by
      by_cases isHere : ino = file
      · rw [isHere, appends.added]
      · rw [appends.elsewhere ino isHere]
    rw [sameAdded] at added
    exact (sameFile number).mpr (built.linked ino ((sameFile ino).mp isIno) name number added)
  · intro ino
    have sameLinks : (next.files ino).din.nlinks = (sfs.files ino).din.nlinks := by
      by_cases isHere : ino = file
      · rw [isHere, appends.nlinks]
      · rw [appends.elsewhere ino isHere]
    rw [sameLinks, sameFile]
    exact built.links ino

theorem Built.entry {current : Nat} {name : Name} (built : Built ninos sfs) (isCurrent : sfs.IsFile current)
    (isFile : sfs.IsFile file) (called : Mksfs.addEntry sfs current file name = some next) :
    Built ninos next ∧ Adds current file name sfs next := by
  obtain ⟨laid, adds⟩ := built.toLaid.addEntry isCurrent called
  have sameFile : ∀ ino, next.IsFile ino ↔ sfs.IsFile ino := by
    intro ino
    rw [Image.IsFile, adds.inodes]
    rfl
  refine ⟨⟨laid, ?_, ?_, ?_⟩, adds⟩
  · intro ino isIno isDir
    rw [adds.type] at isDir
    have old := (sameFile ino).mp isIno
    have kept : EntriesOk next.disk (sfs.files ino) := by
      rw [adds.disk]
      refine (built.entries ino old isDir).disk fun index named appended => ?_
      exact Nat.ne_of_lt (built.appended_inUse old appended)
    have isAppended := adds.appended ino
    have isAdded := adds.added ino
    by_cases isHere : ino = current
    · rw [if_pos isHere] at isAppended isAdded
      have holds : next.disk sfs.nextIno = entryBlock (sfs.files file).ino (copyName sfs.entryName name) := by
        rw [adds.disk, Function.update_self]
      exact kept.append isAppended isAdded holds
    · rw [if_neg isHere, List.append_nil] at isAppended isAdded
      exact ⟨by rw [isAppended, isAdded]; exact kept.1, by rw [isAppended, isAdded]; exact kept.2⟩
  · intro ino isIno name' number added
    rw [adds.added, List.mem_append] at added
    rcases added with old | new
    · exact (sameFile number).mpr (built.linked ino ((sameFile ino).mp isIno) name' number old)
    · split at new
      · cases List.mem_singleton.mp new
        rw [built.ino file isFile]
        exact (sameFile file).mpr isFile
      · cases new
  · intro ino
    rw [adds.nlinks, sameFile]
    split
    · rename_i isHere
      exact ⟨Nat.mod_lt _ (by decide), fun notFile => absurd (isHere ▸ isFile) notFile⟩
    · exact built.links ino

/-- One step of the builder. -/
theorem built_step (operation : ImageOperation) (built : Built ninos sfs) (legal : ImageLegal sfs operation)
    (called : imageStep sfs operation = some next) : Built ninos next := by
  cases operation with
  | newFile real type =>
    obtain ⟨⟨file, made⟩, alloc, rfl⟩ := Option.map_eq_some_iff.mp called
    exact built.newFile legal (allocCacheInode_makes alloc)
  | data file words size => exact (built.data legal.1 legal.2 called).1
  | entry current file name => exact (built.entry legal.1 legal.2 called).1

end Ucore.Mksfs
