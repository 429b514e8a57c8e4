import Ucore.Tools.ImageEntries

/-!
# The tree of the host on the image

The builder walks the directories of the host. Each directory stored has the names added
to it as its entries, an inode has as many links as entries name it, and only symbolic
links have inodes of their type.
-/

namespace Ucore.Mksfs

open Ownership Transition Volume

variable {start sfs middle next : Image} {ninos file current parent ino real size : Nat} {words : Block} {name : Name}

/-! ## What a part of the walk adds -/

/-- A part of the walk: the entries added to the inodes that were there, the links added to
each inode, and the inodes made, by their type; regular files do not matter. -/
structure Extends (added : Nat → List (Name × Nat)) (links : Nat → Nat) (made : Nat → Nat → Prop)
    (sfs next : Image) : Prop where
  reached : Reaches imageStep ImageLegal sfs next
  isFile : ∀ ino, sfs.IsFile ino → next.IsFile ino
  type : ∀ ino, sfs.IsFile ino → (next.files ino).din.type = (sfs.files ino).din.type
  made : ∀ ino type, type ≠ typeFile →
    (next.IsFile ino ∧ ¬ sfs.IsFile ino ∧ (next.files ino).din.type = type ↔ made ino type)
  added : ∀ ino, sfs.IsFile ino → (next.files ino).added = (sfs.files ino).added ++ added ino
  nlinks : ∀ ino, (next.files ino).din.nlinks % 65536 = ((sfs.files ino).din.nlinks + links ino) % 65536

variable {added added' : Nat → List (Name × Nat)} {links links' : Nat → Nat} {made made' : Nat → Nat → Prop}

/-- The image stays built. -/
theorem Extends.built (extends' : Extends added links made sfs next) (built : Built ninos sfs) : Built ninos next :=
  extends'.reached.invariant built fun _ operation _ built legal called =>
    built_step operation built legal called

theorem Extends.refl (sfs : Image) : Extends (fun _ => []) (fun _ => 0) (fun _ _ => False) sfs sfs where
  reached := .start
  isFile := fun _ isFile => isFile
  type := fun _ _ => rfl
  made := fun _ _ _ => ⟨fun ⟨isFile, notFile, _⟩ => notFile isFile, False.elim⟩
  added := fun _ _ => (List.append_nil _).symm
  nlinks := fun _ => rfl

theorem Extends.trans (first : Extends added links made sfs middle) (second : Extends added' links' made' middle next) :
    Extends (fun ino => added ino ++ added' ino) (fun ino => links ino + links' ino)
      (fun ino type => made ino type ∨ made' ino type) sfs next where
  reached := first.reached.trans second.reached
  isFile := fun ino isFile => second.isFile ino (first.isFile ino isFile)
  type := fun ino isFile => (second.type ino (first.isFile ino isFile)).trans (first.type ino isFile)
  made := by
    intro ino type notFile
    rw [← first.made ino type notFile, ← second.made ino type notFile]
    constructor
    · rintro ⟨isNext, isNew, isType⟩
      by_cases isMiddle : middle.IsFile ino
      · exact Or.inl ⟨isMiddle, isNew, (second.type ino isMiddle).symm.trans isType⟩
      · exact Or.inr ⟨isNext, isMiddle, isType⟩
    · rintro (⟨isMiddle, isNew, isType⟩ | ⟨isNext, isNew, isType⟩)
      · exact ⟨second.isFile ino isMiddle, isNew, (second.type ino isMiddle).trans isType⟩
      · exact ⟨isNext, mt (first.isFile ino) isNew, isType⟩
  added := by
    intro ino isFile
    rw [second.added ino (first.isFile ino isFile), first.added ino isFile, List.append_assoc]
  nlinks := by
    intro ino
    have one := first.nlinks ino
    have two := second.nlinks ino
    omega

theorem Extends.congr (extends' : Extends added links made sfs next)
    (sameAdded : ∀ ino, sfs.IsFile ino → added ino = added' ino) (sameLinks : ∀ ino, links ino = links' ino)
    (sameMade : ∀ ino type, type ≠ typeFile → (made ino type ↔ made' ino type)) :
    Extends added' links' made' sfs next where
  reached := extends'.reached
  isFile := extends'.isFile
  type := extends'.type
  made := fun ino type notFile => (extends'.made ino type notFile).trans (sameMade ino type notFile)
  added := fun ino isFile => sameAdded ino isFile ▸ extends'.added ino isFile
  nlinks := fun ino => sameLinks ino ▸ extends'.nlinks ino

theorem allocCacheInode_extends {type : Nat} (built : Built ninos sfs)
    (legal : type = typeFile ∨ type = typeDir ∨ type = typeLink)
    (called : allocCacheInode sfs real 0 type = some (file, next)) :
    Extends (fun _ => []) (fun _ => 0) (fun ino type' => ino = file ∧ type' = type) sfs next ∧
      Makes real type file sfs next := by
  have makes := allocCacheInode_makes called
  have notFile : ¬ sfs.IsFile file := by
    rw [makes.isNew]
    exact fun isFile => Nat.lt_irrefl _ (built.inUse isFile)
  have elsewhere : ∀ ino, sfs.IsFile ino → next.files ino = sfs.files ino := fun ino isFile =>
    makes.elsewhere ino fun isHere => notFile (isHere ▸ isFile)
  refine ⟨?_, makes⟩
  constructor
  case reached =>
    have stepped : imageStep sfs (.newFile real type) = some next := by
      rw [imageStep, called]
      rfl
    have isLegal : ImageLegal sfs (.newFile real type) := legal
    exact .step .start isLegal stepped
  case isFile => exact fun ino isFile => (makes.isFile ino).mpr (Or.inl isFile)
  case type => exact fun ino isFile => by rw [elsewhere ino isFile]
  case made =>
    intro ino type' _
    constructor
    · rintro ⟨isNext, isNew, isType⟩
      obtain rfl := ((makes.isFile ino).mp isNext).resolve_left isNew
      rw [makes.here] at isType
      exact ⟨rfl, isType.symm⟩
    · rintro ⟨rfl, rfl⟩
      exact ⟨(makes.isFile _).mpr (Or.inr rfl), notFile, by rw [makes.here]⟩
  case added => exact fun ino isFile => by rw [elsewhere ino isFile, List.append_nil]
  case nlinks =>
    intro ino
    by_cases isHere : ino = file
    · rw [isHere, makes.here, (built.links file).2 notFile]
    · rw [makes.elsewhere ino isHere, Nat.add_zero]

theorem appendData_extends (built : Built ninos sfs) (isFile : sfs.IsFile file)
    (notDir : (sfs.files file).din.type ≠ typeDir) (called : appendData sfs file words size = some next) :
    Extends (fun _ => []) (fun _ => 0) (fun _ _ => False) sfs next := by
  obtain ⟨_, appends⟩ := built.data isFile notDir called
  have sameFile : ∀ ino, next.IsFile ino ↔ sfs.IsFile ino := by
    intro ino
    rw [Image.IsFile, appends.fixed.1]
    rfl
  constructor
  case reached =>
    have isLegal : ImageLegal sfs (.data file words size) := ⟨isFile, notDir⟩
    exact .step .start isLegal called
  case isFile => exact fun ino => (sameFile ino).mpr
  case type =>
    intro ino _
    by_cases isHere : ino = file
    · rw [isHere, appends.type]
    · rw [appends.elsewhere ino isHere]
  case made => exact fun ino _ _ => ⟨fun facts => facts.2.1 ((sameFile ino).mp facts.1), False.elim⟩
  case added =>
    intro ino _
    by_cases isHere : ino = file
    · rw [isHere, appends.added, List.append_nil]
    · rw [appends.elsewhere ino isHere, List.append_nil]
  case nlinks =>
    intro ino
    by_cases isHere : ino = file
    · rw [isHere, appends.nlinks, Nat.add_zero]
    · rw [appends.elsewhere ino isHere, Nat.add_zero]

theorem addEntry_extends (built : Built ninos sfs) (isCurrent : sfs.IsFile current) (isFile : sfs.IsFile file)
    (called : addEntry sfs current file name = some next) :
    Extends (fun ino => if ino = current then [(name, file)] else []) (fun ino => if ino = file then 1 else 0)
      (fun _ _ => False) sfs next := by
  obtain ⟨_, adds⟩ := built.entry isCurrent isFile called
  have sameFile : ∀ ino, next.IsFile ino ↔ sfs.IsFile ino := by
    intro ino
    rw [Image.IsFile, adds.inodes]
    rfl
  constructor
  case reached =>
    have isLegal : ImageLegal sfs (.entry current file name) := ⟨isCurrent, isFile⟩
    exact .step .start isLegal called
  case isFile => exact fun ino => (sameFile ino).mpr
  case type => exact fun ino _ => adds.type ino
  case made => exact fun ino _ _ => ⟨fun facts => facts.2.1 ((sameFile ino).mp facts.1), False.elim⟩
  case added =>
    intro ino _
    rw [adds.added, built.ino file isFile]
  case nlinks =>
    intro ino
    rw [adds.nlinks]
    split
    · exact Nat.mod_mod _ _
    · rfl

/-! ## Files and links -/

theorem openFile_extends {last : Nat} {blocks : List (Block × Nat)} (built : Built ninos sfs)
    (isFile : sfs.IsFile file) (notDir : (sfs.files file).din.type ≠ typeDir)
    (called : openFile sfs file last blocks = some next) :
    Extends (fun _ => []) (fun _ => 0) (fun _ _ => False) sfs next := by
  induction blocks generalizing sfs last with
  | nil =>
    cases called
    exact .refl _
  | cons block rest ih =>
    rw [openFile] at called
    split at called
    · obtain ⟨filled, append, opened⟩ := Option.bind_eq_some_iff.mp called
      have first := appendData_extends built isFile notDir append
      have later := ih (first.built built) (first.isFile file isFile) (first.type file isFile ▸ notDir) opened
      apply (first.trans later).congr
      · exact fun _ _ => rfl
      · exact fun _ => rfl
      · exact fun _ _ _ => or_self_iff
    · cases called

theorem storeFile_extends {blocks : List (Block × Nat)} (built : Built ninos sfs)
    (called : storeFile sfs real blocks = some (file, next)) :
    Extends (fun _ => []) (fun _ => 0) (fun _ _ => False) sfs next ∧ next.IsFile file := by
  unfold storeFile at called
  split at called
  · rename_i found isFound
    cases called
    have member := List.mem_of_find?_eq_some isFound
    obtain ⟨bucket, inRange, isBucket⟩ := hash32_bucket real
    exact ⟨.refl sfs, bucket, inRange, isBucket ▸ member⟩
  · simp only [Option.bind_eq_bind, Option.bind_eq_some_iff] at called
    obtain ⟨⟨made, new⟩, alloc, filled, opened, same⟩ := called
    cases same
    obtain ⟨first, makes⟩ := allocCacheInode_extends built (Or.inl rfl) alloc
    have isFile : new.IsFile made := (makes.isFile made).mpr (Or.inr rfl)
    have notDir : (new.files made).din.type ≠ typeDir := by
      rw [makes.here]
      exact (by decide : typeFile ≠ typeDir)
    have later := openFile_extends (first.built built) isFile notDir opened
    refine ⟨?_, later.isFile made isFile⟩
    apply (first.trans later).congr
    · exact fun _ _ => rfl
    · exact fun _ => rfl
    · intro ino type notFile
      simp [notFile]

theorem storeLink_extends {target : Block × Nat} (built : Built ninos sfs)
    (called : storeLink sfs real target = some (file, next)) :
    Extends (fun _ => []) (fun _ => 0) (fun ino type => ino = file ∧ type = typeLink) sfs next ∧ next.IsFile file := by
  unfold storeLink at called
  split at called
  · simp only [Option.bind_eq_bind, Option.bind_eq_some_iff] at called
    obtain ⟨⟨made, new⟩, alloc, filled, append, same⟩ := called
    cases same
    obtain ⟨first, makes⟩ := allocCacheInode_extends built (Or.inr (Or.inr rfl)) alloc
    have isFile : new.IsFile made := (makes.isFile made).mpr (Or.inr rfl)
    have notDir : (new.files made).din.type ≠ typeDir := by
      rw [makes.here]
      exact (by decide : typeLink ≠ typeDir)
    have later := appendData_extends (first.built built) isFile notDir append
    refine ⟨?_, later.isFile made isFile⟩
    apply (first.trans later).congr
    · exact fun _ _ => rfl
    · exact fun _ => rfl
    · exact fun _ _ _ => or_iff_left False.elim
  · cases called

/-! ## Directories -/

/-- The names that `open_dir` gives itself. -/
def dots (current parent : Nat) : List (Name × Nat) := [([dot], current), ([dot, dot], parent)]

/-- The entries that `open_dir` adds for the host. -/
def given (entries : List (Name × HostNode × Nat)) : List (Name × Nat) :=
  entries.map fun entry => (entry.1, entry.2.2)

/-- The entries of a stored directory, in the order of its slots. -/
def Stored.names (stored : Stored) : List (Name × Nat) := dots stored.ino stored.parent ++ given stored.entries

/-- How many of the entries name an inode. -/
def namings (entries : List (Name × Nat)) (ino : Nat) : Nat := entries.countP fun entry => entry.2 = ino

/-- How many entries of the directories stored name an inode. -/
def linkCount (stored : List Stored) (ino : Nat) : Nat := (stored.map fun dir => namings dir.names ino).sum

/-- A symbolic link. -/
def HostNode.isLink : HostNode → Bool
  | .link .. => true
  | _ => false

/-- The inode is that of a symbolic link among the entries. -/
def LinkAmong (entries : List (Name × HostNode × Nat)) (ino : Nat) : Prop :=
  ∃ name node, (name, node, ino) ∈ entries ∧ node.isLink = true

/-- A directory on the image as it was stored. -/
structure Holds (sfs : Image) (dir : Stored) : Prop where
  isFile : sfs.IsFile dir.ino
  isDir : (sfs.files dir.ino).din.type = typeDir
  added : (sfs.files dir.ino).added = dir.names
  host : dir.entries.map (fun entry => (entry.1, entry.2.1)) =
    dir.host.toList.filter fun entry => entry.1.head? ≠ some dot

/-- The inodes made for links and directories below. -/
def MadeBelow (linked : Nat → Prop) (below : List Stored) (ino type : Nat) : Prop :=
  (type = typeLink ∧ (linked ino ∨ ∃ dir ∈ below, LinkAmong dir.entries ino)) ∨
    (type = typeDir ∧ ∃ dir ∈ below, dir.ino = ino)

theorem namings_append (first second : List (Name × Nat)) :
    namings (first ++ second) ino = namings first ino + namings second ino := List.countP_append ..

theorem linkCount_cons (dir : Stored) (rest : List Stored) :
    linkCount (dir :: rest) ino = namings dir.names ino + linkCount rest ino := List.sum_cons

theorem linkCount_append (first second : List Stored) :
    linkCount (first ++ second) ino = linkCount first ino + linkCount second ino := by
  simp [linkCount]

theorem addDots_extends (built : Built ninos sfs) (isCurrent : sfs.IsFile current) (isParent : sfs.IsFile parent)
    (called : addDots sfs current parent = some next) :
    Extends (fun ino => if ino = current then dots current parent else []) (namings (dots current parent))
      (fun _ _ => False) sfs next := by
  simp only [addDots, Option.bind_eq_bind, Option.bind_eq_some_iff] at called
  obtain ⟨dotted, first, second⟩ := called
  have one := addEntry_extends built isCurrent isCurrent first
  have two := addEntry_extends (one.built built) (one.isFile _ isCurrent) (one.isFile _ isParent) second
  apply (one.trans two).congr
  · intro ino _
    split <;> rfl
  · intro ino
    simp only [namings, dots, List.countP_cons, List.countP_nil, decide_eq_true_eq, eq_comm (a := ino)]
    omega
  · exact fun _ _ _ => or_self_iff

/-! ## The walk -/

/-- A part of the walk, with the directories stored on the way. -/
structure Walks (linked : Nat → Prop) (added : Nat → List (Name × Nat)) (links : Nat → Nat) (below : List Stored)
    (sfs next : Image) : Prop where
  extended : Extends added (fun ino => links ino + linkCount below ino) (MadeBelow linked below) sfs next
  holds : ∀ dir ∈ below, Holds next dir
  isNew : ∀ dir ∈ below, ¬ sfs.IsFile dir.ino

variable {linked linked' : Nat → Prop} {below below' : List Stored} {dir : Stored} {entries : List (Name × HostNode × Nat)}

theorem MadeBelow.append {type : Nat} : MadeBelow linked below ino type ∨ MadeBelow linked' below' ino type ↔
    MadeBelow (fun ino => linked ino ∨ linked' ino) (below ++ below') ino type := by
  simp only [MadeBelow, List.mem_append, or_and_right, exists_or, and_or_left]
  grind

theorem MadeBelow.congr {type : Nat} (same : linked ino ↔ linked' ino) :
    MadeBelow linked below ino type ↔ MadeBelow linked' below ino type := by
  rw [MadeBelow, MadeBelow, same]

theorem linkAmong_cons {node : HostNode} : LinkAmong ((name, node, file) :: entries) ino ↔
    (node.isLink = true ∧ ino = file) ∨ LinkAmong entries ino := by
  simp only [LinkAmong, List.mem_cons, Prod.mk.injEq]
  constructor
  · rintro ⟨name', node', ⟨rfl, rfl, rfl⟩ | member, isLink⟩
    · exact Or.inl ⟨isLink, rfl⟩
    · exact Or.inr ⟨name', node', member, isLink⟩
  · rintro (⟨isLink, rfl⟩ | ⟨name', node', member, isLink⟩)
    · exact ⟨name, node, Or.inl ⟨rfl, rfl, rfl⟩, isLink⟩
    · exact ⟨name', node', Or.inr member, isLink⟩

/-- A directory does not change when nothing is added to it. -/
theorem Holds.later (holds : Holds sfs dir) (extended : Extends added links made sfs next)
    (nothing : added dir.ino = []) : Holds next dir where
  isFile := extended.isFile dir.ino holds.isFile
  isDir := (extended.type dir.ino holds.isFile).trans holds.isDir
  added := by
    rw [extended.added dir.ino holds.isFile, nothing, List.append_nil]
    exact holds.added
  host := holds.host

/-- Two parts of the walk, when the second one adds nothing to what the first one made. -/
theorem Walks.trans (first : Walks linked added links below sfs middle)
    (second : Walks linked' added' links' below' middle next)
    (nothing : ∀ ino, ¬ sfs.IsFile ino → added' ino = []) :
    Walks (fun ino => linked ino ∨ linked' ino) (fun ino => added ino ++ added' ino) (fun ino => links ino + links' ino)
      (below ++ below') sfs next where
  extended := by
    apply (first.extended.trans second.extended).congr
    · exact fun _ _ => rfl
    · intro ino
      rw [linkCount_append]
      omega
    · exact fun _ _ _ => MadeBelow.append
  holds := by
    intro dir member
    rcases List.mem_append.mp member with old | new
    · exact (first.holds dir old).later second.extended (nothing dir.ino (first.isNew dir old))
    · exact second.holds dir new
  isNew := by
    intro dir member
    rcases List.mem_append.mp member with old | new
    · exact first.isNew dir old
    · exact mt (first.extended.isFile dir.ino) (second.isNew dir new)

theorem Walks.congr (walks : Walks linked added links below sfs next)
    (sameLinked : ∀ ino, linked ino ↔ linked' ino) (sameAdded : ∀ ino, sfs.IsFile ino → added ino = added' ino)
    (sameLinks : ∀ ino, links ino = links' ino) : Walks linked' added' links' below sfs next where
  extended := by
    apply walks.extended.congr sameAdded
    · exact fun ino => by rw [sameLinks]
    · exact fun ino type _ => MadeBelow.congr (sameLinked ino)
  holds := walks.holds
  isNew := walks.isNew

/-- A part of the walk that stores no directory. -/
theorem Extends.walks (extended : Extends added links made sfs next)
    (isMade : ∀ ino type, type ≠ typeFile → (made ino type ↔ type = typeLink ∧ linked ino)) :
    Walks linked added links [] sfs next where
  extended := by
    apply extended.congr
    · exact fun _ _ => rfl
    · exact fun _ => rfl
    · intro ino type notFile
      rw [isMade ino type notFile]
      simp [MadeBelow]
  holds := fun dir member => (nomatch member)
  isNew := fun dir member => (nomatch member)

/-- A directory is stored: its own entries, and what is below. -/
theorem openDir_walks {host : HostEntries} (built : Built ninos sfs) (isParent : sfs.IsFile parent)
    (alloc : allocCacheInode sfs real 0 typeDir = some (current, start))
    (dotted : addDots start current parent = some middle)
    (opened : Walks (LinkAmong entries) (fun ino => if ino = current then given entries else [])
      (namings (given entries)) below middle next)
    (isHost : entries.map (fun entry => (entry.1, entry.2.1)) =
      host.toList.filter fun entry => entry.1.head? ≠ some dot) :
    Walks (fun _ => False) (fun _ => []) (fun _ => 0) ({ ino := current, parent, host, entries } :: below) sfs next := by
  obtain ⟨made, makes⟩ := allocCacheInode_extends built (Or.inr (Or.inl rfl)) alloc
  have isCurrent : start.IsFile current := (makes.isFile current).mpr (Or.inr rfl)
  have notFile : ¬ sfs.IsFile current := by
    rw [makes.isNew]
    exact fun isFile => Nat.lt_irrefl _ (built.inUse isFile)
  have dotsAdded := addDots_extends (made.built built) isCurrent (made.isFile parent isParent) dotted
  constructor
  case extended =>
    apply ((made.trans dotsAdded).trans opened.extended).congr
    · intro ino isFile
      have different : ino ≠ current := fun same => notFile (same ▸ isFile)
      simp [different]
    · intro ino
      rw [linkCount_cons, Stored.names, namings_append]
      dsimp only
      omega
    · intro ino type _
      simp only [MadeBelow, List.exists_mem_cons_iff, or_false, false_or]
      constructor
      · rintro (⟨rfl, rfl⟩ | ⟨rfl, linked⟩ | ⟨rfl, stored⟩)
        · exact Or.inr ⟨rfl, Or.inl rfl⟩
        · exact Or.inl ⟨rfl, linked⟩
        · exact Or.inr ⟨rfl, Or.inr stored⟩
      · rintro (⟨rfl, linked⟩ | ⟨rfl, rfl | stored⟩)
        · exact Or.inr (Or.inl ⟨rfl, linked⟩)
        · exact Or.inl ⟨rfl, rfl⟩
        · exact Or.inr (Or.inr ⟨rfl, stored⟩)
  case holds =>
    intro dir member
    rcases List.mem_cons.mp member with rfl | later
    · have isMiddle := dotsAdded.isFile current isCurrent
      constructor
      case isFile => exact opened.extended.isFile current isMiddle
      case isDir =>
        refine (opened.extended.type current isMiddle).trans ((dotsAdded.type current isCurrent).trans ?_)
        rw [makes.here]
      case added =>
        rw [opened.extended.added current isMiddle, dotsAdded.added current isCurrent, makes.here, if_pos rfl, if_pos rfl]
        rfl
      case host => exact isHost
    · exact opened.holds dir later
  case isNew =>
    intro dir member
    rcases List.mem_cons.mp member with rfl | later
    · exact notFile
    · exact mt (fun isFile => dotsAdded.isFile _ (made.isFile _ isFile)) (opened.isNew dir later)

mutual

/-- The entries of a directory of the host. -/
theorem openEntries_walks : ∀ (host : HostEntries) {sfs next : Image} {current entries below}, Built ninos sfs →
    sfs.IsFile current → openEntries sfs current host = some (entries, below, next) →
    Walks (LinkAmong entries) (fun ino => if ino = current then given entries else []) (namings (given entries)) below
      sfs next ∧
    entries.map (fun entry => (entry.1, entry.2.1)) = host.toList.filter fun entry => entry.1.head? ≠ some dot
  | .nil, sfs, next, current, entries, below, built, isCurrent, called => by
    rw [openEntries] at called
    cases called
    refine ⟨?_, rfl⟩
    have nothing : Walks (LinkAmong []) (fun _ => []) (fun _ => 0) [] sfs sfs :=
      (Extends.refl sfs).walks fun ino type _ => by simp [LinkAmong]
    apply nothing.congr
    · exact fun _ => Iff.rfl
    · intro ino _
      split <;> rfl
    · exact fun _ => rfl
  | .cons name node rest, sfs, next, current, entries, below, built, isCurrent, called => by
    rw [openEntries] at called
    split at called
    · rename_i hidden
      obtain ⟨walks, isHost⟩ := openEntries_walks rest built isCurrent called
      refine ⟨walks, ?_⟩
      rw [isHost, HostEntries.toList, List.filter_cons_of_neg]
      simpa using hidden
    · rename_i visible
      split at called
      · simp only [Option.bind_eq_bind, Option.bind_eq_some_iff] at called
        obtain ⟨⟨file, inside, opened⟩, stored, linked, added, ⟨later, others, ended⟩, walked, same⟩ := called
        cases same
        obtain ⟨first, isFile⟩ := openNode_walks node built isCurrent stored
        have builtOpened := first.extended.built built
        have entered := addEntry_extends builtOpened (first.extended.isFile current isCurrent) isFile added
        have second : Walks (fun _ => False) _ _ _ _ _ := entered.walks fun ino type _ => by simp
        obtain ⟨third, isHost⟩ := openEntries_walks rest (entered.built builtOpened)
          (entered.isFile current (first.extended.isFile current isCurrent)) walked
        have notCurrent : ∀ ino, ¬ sfs.IsFile ino → ino ≠ current := fun ino notFile same =>
          notFile (same ▸ isCurrent)
        refine ⟨?_, ?_⟩
        · have walks := (first.trans second fun ino notFile => if_neg (notCurrent ino notFile)).trans third
            fun ino notFile => if_neg (notCurrent ino notFile)
          rw [List.append_nil] at walks
          apply walks.congr
          · intro ino
            rw [linkAmong_cons, or_false]
          · intro ino _
            split <;> rfl
          · intro ino
            simp only [given, namings, List.map_cons, List.countP_cons, decide_eq_true_eq, eq_comm (a := ino)]
            omega
        · rw [List.map_cons, isHost, HostEntries.toList, List.filter_cons_of_pos]
          simpa using visible
      · cases called

/-- An entry of the host. -/
theorem openNode_walks : ∀ (node : HostNode) {sfs next : Image} {parent file below}, Built ninos sfs →
    sfs.IsFile parent → openNode sfs parent node = some (file, below, next) →
    Walks (fun ino => node.isLink = true ∧ ino = file) (fun _ => []) (fun _ => 0) below sfs next ∧ next.IsFile file
  | .file real blocks, sfs, next, parent, file, below, built, isParent, called => by
    rw [openNode] at called
    obtain ⟨⟨found, filled⟩, stored, same⟩ := Option.map_eq_some_iff.mp called
    cases same
    obtain ⟨extended, isFile⟩ := storeFile_extends built stored
    refine ⟨extended.walks fun ino type _ => ?_, isFile⟩
    simp [HostNode.isLink]
  | .link real target, sfs, next, parent, file, below, built, isParent, called => by
    rw [openNode] at called
    obtain ⟨⟨found, filled⟩, stored, same⟩ := Option.map_eq_some_iff.mp called
    cases same
    obtain ⟨extended, isFile⟩ := storeLink_extends built stored
    refine ⟨extended.walks fun ino type _ => ?_, isFile⟩
    simp [HostNode.isLink, and_comm]
  | .dir real host, sfs, next, parent, file, below, built, isParent, called => by
    rw [openNode] at called
    split at called
    · simp only [Option.bind_eq_bind, Option.bind_eq_some_iff] at called
      obtain ⟨⟨current, made⟩, alloc, dotted, isDotted, ⟨entries, inside, ended⟩, opened, same⟩ := called
      cases same
      obtain ⟨extended, makes⟩ := allocCacheInode_extends built (Or.inr (Or.inl rfl)) alloc
      have isCurrent : made.IsFile current := (makes.isFile current).mpr (Or.inr rfl)
      have builtMade := extended.built built
      have dots := addDots_extends builtMade isCurrent (extended.isFile parent isParent) isDotted
      obtain ⟨walks, isHost⟩ := openEntries_walks host (dots.built builtMade) (dots.isFile current isCurrent) opened
      refine ⟨?_, walks.extended.isFile current (dots.isFile current isCurrent)⟩
      apply (openDir_walks built isParent alloc isDotted walks isHost).congr
      · exact fun ino => by simp [HostNode.isLink]
      · exact fun _ _ => rfl
      · exact fun _ => rfl
    · cases called

end

/-! ## The image of a directory of the host -/

variable {closed : Image} {stored : List Stored} {home : HostEntries} {info : Nat → Nat} {disk : Nat → Block}

/-- The directories stored are those of the image; the symbolic links are those of the
host; an inode has a link for each entry that names it, as far as 16 bits count. -/
structure ImageOf (stored : List Stored) (sfs : Image) : Prop where
  holds : ∀ dir ∈ stored, Holds sfs dir
  dirs : ∀ ino, sfs.IsFile ino → ((sfs.files ino).din.type = typeDir ↔ ∃ dir ∈ stored, dir.ino = ino)
  links : ∀ ino, sfs.IsFile ino →
    ((sfs.files ino).din.type = typeLink ↔ ∃ dir ∈ stored, LinkAmong dir.entries ino)
  nlinks : ∀ ino, (sfs.files ino).din.nlinks = linkCount stored ino % 65536

/-- The root directory is stored first. -/
theorem IsNew.stores {entries : List (Name × HostNode × Nat)} (isNew : IsNew start)
    (dotted : addDots start sfsBlknRoot sfsBlknRoot = some middle)
    (walked : openEntries middle sfsBlknRoot home = some (entries, below, sfs)) :
    Reaches imageStep ImageLegal start sfs ∧
      ImageOf ({ ino := sfsBlknRoot, parent := sfsBlknRoot, host := home, entries } :: below) sfs := by
  have built := isNew.built
  have isRoot : start.IsFile sfsBlknRoot := (isNew.isFile _).mpr rfl
  have rootType : (start.files sfsBlknRoot).din.type = typeDir := by
    rw [isNew.root]
  have dotsAdded := addDots_extends built isRoot isRoot dotted
  have isMiddle := dotsAdded.isFile _ isRoot
  obtain ⟨walks, isHost⟩ := openEntries_walks home (dotsAdded.built built) isMiddle walked
  have whole := dotsAdded.trans walks.extended
  have typed : ∀ ino type, type ≠ typeFile → sfs.IsFile ino → ((sfs.files ino).din.type = type ↔
      (ino = sfsBlknRoot ∧ type = typeDir) ∨ MadeBelow (LinkAmong entries) below ino type) := by
    intro ino type notFile isFile
    have made := whole.made ino type notFile
    rw [false_or] at made
    by_cases old : start.IsFile ino
    · obtain rfl := (isNew.isFile ino).mp old
      rw [whole.type _ isRoot, rootType]
      constructor
      · exact fun isType => Or.inl ⟨rfl, isType.symm⟩
      · rintro (⟨_, isType⟩ | below)
        · exact isType.symm
        · exact absurd old (made.mpr below).2.1
    · rw [← made]
      constructor
      · exact fun isType => Or.inr ⟨isFile, old, isType⟩
      · rintro (⟨rfl, _⟩ | ⟨_, _, isType⟩)
        · exact absurd isRoot old
        · exact isType
  refine ⟨whole.reached, ?_⟩
  constructor
  case holds =>
    intro dir member
    rcases List.mem_cons.mp member with rfl | later
    · constructor
      case isFile => exact whole.isFile _ isRoot
      case isDir => exact (whole.type _ isRoot).trans rootType
      case added =>
        rw [whole.added _ isRoot, isNew.root, if_pos rfl, if_pos rfl]
        rfl
      case host => exact isHost
    · exact walks.holds dir later
  case dirs =>
    intro ino isFile
    rw [typed ino typeDir (by decide) isFile, List.exists_mem_cons_iff, MadeBelow]
    simp [eq_comm, typeDir, typeLink]
  case links =>
    intro ino isFile
    rw [typed ino typeLink (by decide) isFile, List.exists_mem_cons_iff, MadeBelow]
    simp [typeDir, typeLink]
  case nlinks =>
    intro ino
    have count := whole.nlinks ino
    have small := (walks.extended.built (dotsAdded.built built)).links ino
    rw [isNew.links, Nat.mod_eq_of_lt small.1] at count
    rw [count, linkCount_cons, Stored.names, namings_append]
    dsimp only
    congr 1
    omega

/-- The builder writes an image of the directory of the host. -/
theorem createImg_stores (created : createSfs size info disk = some start)
    (called : createImg start home = some (stored, closed)) :
    ∃ sfs, Reaches imageStep ImageLegal start sfs ∧ closeSfs sfs = some closed ∧ ImageOf stored sfs := by
  simp only [createImg, Option.bind_eq_bind, Option.bind_eq_some_iff] at called
  obtain ⟨opened, dotted, ⟨entries, below, filled⟩, walked, after, isClosed, same⟩ := called
  cases same
  obtain ⟨reached, stores⟩ := (createSfs_isNew created).1.stores dotted walked
  exact ⟨filled, reached, isClosed, stores⟩

/-! ## A lookup on the image -/

/-- A directory of the host lists its entries that are not hidden, and the two dots. -/
def Listed (dir : Stored) (name : Name) : Prop :=
  name = [dot] ∨ name = [dot, dot] ∨ ∃ node, (name, node) ∈ dir.host.toList ∧ name.head? ≠ some dot

/-- The kernel looks a name up as the host does: it finds the name exactly when it is
listed, with the inode number stored for it, and it loads that inode. This is for every
volume mounted from the disk, when the device works and there is memory. -/
def EntryAgrees (disk : Nat → Block) (dir : Stored) (name : Name) : Prop :=
  ∀ device fs, (∀ call, device call = 0) → MountedFrom disk fs →
    ∃ result emptySlot after sin,
      sfsDirentSearchNolock device true fs (readInode disk dir.ino) name = some (result, emptySlot, after, sin) ∧
      ((∃ found, result = .ok found) ↔ Listed dir name) ∧
      ∀ slot number, result = .ok (slot, number) → (name, number) ∈ dir.names ∧ Loads device fs disk number

/-- The first entry within reach whose name, cut off, is the name looked up has the inode of
an entry of this name, is no symbolic link, and its links do not add up to 65536. If there
is no such entry, the name is not listed, and all entries are within reach. -/
def EntryKept (stored : List Stored) (dir : Stored) (name : Name) : Prop :=
  match meets name (reachable dir.names) with
  | some entry => (name, entry.2) ∈ dir.names ∧ (¬ ∃ other ∈ stored, LinkAmong other.entries entry.2) ∧
      linkCount stored entry.2 % 65536 ≠ 0
  | none => ¬ Listed dir name ∧ dir.names.length ≤ sfsNdirect + sfsBlkNentry

theorem Holds.listed_iff (holds : Holds sfs dir) : Listed dir name ↔ ∃ number, (name, number) ∈ dir.names := by
  have inHost : (∃ node, (name, node) ∈ dir.host.toList ∧ name.head? ≠ some dot) ↔
      ∃ number, (name, number) ∈ given dir.entries := by
    have visible : ∀ node, ((name, node) ∈ dir.host.toList ∧ name.head? ≠ some dot) ↔
        ∃ number, (name, node, number) ∈ dir.entries := by
      intro node
      have same := congrArg (fun entries => (name, node) ∈ entries) holds.host
      simp only [List.mem_map, List.mem_filter, decide_eq_true_eq, eq_iff_iff] at same
      rw [← same]
      constructor
      · rintro ⟨⟨_, _, number⟩, member, isEntry⟩
        obtain ⟨rfl, rfl⟩ := Prod.mk.inj isEntry
        exact ⟨number, member⟩
      · rintro ⟨number, member⟩
        exact ⟨_, member, rfl⟩
    simp only [visible, given, List.mem_map]
    constructor
    · rintro ⟨node, number, member⟩
      exact ⟨number, _, member, rfl⟩
    · rintro ⟨number, ⟨_, node, _⟩, member, isEntry⟩
      obtain ⟨rfl, rfl⟩ := Prod.mk.inj isEntry
      exact ⟨node, _, member⟩
  rw [Listed, inHost]
  simp only [Stored.names, dots, List.mem_append, List.mem_cons, Prod.mk.injEq, List.not_mem_nil, or_false,
    exists_or, or_assoc]
  simp

/-- Every entry on the image names an inode, which loads if it is no symbolic link and its
links do not add up to 65536. -/
theorem OnImage.loads {device : Nat → Int} {fs : SfsFs} {number : Nat} (image : OnImage ninos sfs disk fs)
    (works : ∀ call, device call = 0) (stores : ImageOf stored sfs) (member : dir ∈ stored)
    (entry : (name, number) ∈ dir.names) : Loads device fs disk number ↔
      (¬ ∃ other ∈ stored, LinkAmong other.entries number) ∧ linkCount stored number % 65536 ≠ 0 := by
  have holds := stores.holds dir member
  have isFile : sfs.IsFile number :=
    image.built.linked dir.ino holds.isFile name number (holds.added.symm ▸ entry)
  rw [loads_iff image works isFile, ne_eq, stores.links number isFile, stores.nlinks]

/-- What a lookup finds on a mounted image, for each of the names. -/
theorem OnImage.lookup {device : Nat → Int} {fs : SfsFs} (image : OnImage ninos sfs disk fs)
    (works : ∀ call, device call = 0) (stores : ImageOf stored sfs) (member : dir ∈ stored)
    (short : name.length ≤ sfsMaxFnameLen) : EntryKept stored dir name ↔
    ∃ result emptySlot after sin,
      sfsDirentSearchNolock device true fs (readInode disk dir.ino) name = some (result, emptySlot, after, sin) ∧
      ((∃ found, result = .ok found) ↔ Listed dir name) ∧
      ∀ slot number, result = .ok (slot, number) → (name, number) ∈ dir.names ∧ Loads device fs disk number := by
  have holds := stores.holds dir member
  obtain ⟨found, absent, panics⟩ := search_exact image works holds.isFile holds.isDir short
  rw [holds.added] at found absent panics
  cases met : meets name (reachable dir.names) with
  | some entry =>
    obtain ⟨slot, emptySlot, after, searched⟩ := found entry met
    rw [EntryKept, met]
    constructor
    · rintro ⟨isEntry, loads⟩
      refine ⟨_, emptySlot, after, _, searched, ⟨fun _ => holds.listed_iff.mpr ⟨_, isEntry⟩, fun _ => ⟨_, rfl⟩⟩, ?_⟩
      intro slot' number isFound
      cases isFound
      exact ⟨isEntry, (image.loads works stores member isEntry).mpr loads⟩
    · rintro ⟨result, emptySlot', after', sin, searched', _, loads⟩
      rw [searched] at searched'
      cases searched'
      obtain ⟨isEntry, loaded⟩ := loads slot entry.2 rfl
      exact ⟨isEntry, (image.loads works stores member isEntry).mp loaded⟩
  | none =>
    rw [EntryKept, met]
    by_cases few : dir.names.length ≤ sfsNdirect + sfsBlkNentry
    · obtain ⟨emptySlot, after, searched⟩ := absent met few
      constructor
      · rintro ⟨notListed, _⟩
        refine ⟨_, emptySlot, after, _, searched, ⟨fun ⟨_, isFound⟩ => (nomatch isFound), fun listed => ?_⟩, ?_⟩
        · exact absurd listed notListed
        · exact fun slot number isFound => (nomatch isFound)
      · rintro ⟨result, emptySlot', after', sin, searched', agrees, _⟩
        rw [searched] at searched'
        cases searched'
        refine ⟨fun listed => ?_, few⟩
        obtain ⟨found, isFound⟩ := agrees.mpr listed
        cases isFound
    · have panicked := panics met (Nat.not_le.mp few)
      constructor
      · exact fun kept => absurd kept.2 few
      · rintro ⟨result, emptySlot', after', sin, searched', _⟩
        rw [panicked] at searched'
        cases searched'

theorem entryAgrees_iff (built : Built ninos sfs) (small : ninos ≤ sfsMaxNblks) (written : Written sfs disk)
    (stores : ImageOf stored sfs) (member : dir ∈ stored) (short : name.length ≤ sfsMaxFnameLen) :
    EntryAgrees disk dir name ↔ EntryKept stored dir name := by
  constructor
  · intro agrees
    obtain ⟨fs, mounted⟩ := closed_mounted built.toLaid small written
    have image : OnImage ninos sfs disk fs := ⟨built, written, mounted⟩
    exact (image.lookup (fun _ => rfl) stores member short).mpr (agrees (fun _ => 0) fs (fun _ => rfl) mounted)
  · intro kept device fs works mounted
    have image : OnImage ninos sfs disk fs := ⟨built, written, mounted⟩
    exact (image.lookup works stores member short).mp kept

/-- The kernel looks a name up on an image as the host does, exactly when the entry is
kept. -/
theorem entry_agrees (created : createSfs size info disk = some start)
    (called : createImg start home = some (stored, closed)) (member : dir ∈ stored)
    (short : name.length ≤ sfsMaxFnameLen) : EntryAgrees closed.disk dir name ↔ EntryKept stored dir name := by
  obtain ⟨sfs, reached, isClosed, stores⟩ := createImg_stores created called
  have built := built_reached created reached
  exact entryAgrees_iff built (createNinos_le size) (closeSfs_disk built.toLaid isClosed) stores member short

/-- The image of a directory with one empty file. -/
theorem oneFile_image (visible : name.head? ≠ some dot) (short : name.length ≤ sfsMaxFnameLen) :
    ∃ start closed, createSfs 40960 (fun _ => 0) (fun _ _ => 0) = some start ∧
      createImg start (.cons name (.file 7 []) .nil) = some ([{
        ino := sfsBlknRoot
        parent := sfsBlknRoot
        host := .cons name (.file 7 []) .nil
        entries := [(name, .file 7 [], 5)] }], closed) := by
  obtain ⟨start, opened, made, created, dotted, stored, filled, added⟩ : ∃ start opened made,
      createSfs 40960 (fun _ => 0) (fun _ _ => 0) = some start ∧ addDots start sfsBlknRoot sfsBlknRoot = some opened ∧
      storeFile opened 7 [] = some (5, made) ∧ ∃ filled, addEntry made sfsBlknRoot 5 name = some filled :=
    ⟨_, _, _, rfl, rfl, rfl, _, (if_pos ⟨rfl, short⟩).trans rfl⟩
  have walked : openEntries opened sfsBlknRoot (.cons name (.file 7 []) .nil) =
      some ([(name, .file 7 [], 5)], [], filled) := by
    rw [openEntries, if_neg visible, if_pos short, openNode, stored]
    simp only [Option.map_some, Option.bind_eq_bind, Option.bind_some, added, openEntries, List.append_nil]
  have isNew := (createSfs_isNew created).1
  have built := built_reached created (isNew.stores dotted walked).1
  refine ⟨start, { filled with disk := closedDisk filled }, created, ?_⟩
  simp only [createImg, dotted, walked, closeSfs_exact built.toLaid, Option.bind_eq_bind, Option.bind_some]

/-- The only file of a directory. -/
theorem entry_agrees_file : ∃ start stored closed dir, createSfs 40960 (fun _ => 0) (fun _ _ => 0) = some start ∧
    createImg start (.cons [⟨97, by decide⟩] (.file 7 []) .nil) = some (stored, closed) ∧ dir ∈ stored ∧
    EntryAgrees closed.disk dir [⟨97, by decide⟩] := by
  obtain ⟨start, closed, created, called⟩ := @oneFile_image [⟨97, by decide⟩] (by decide) (by decide)
  refine ⟨start, _, closed, _, created, called, List.mem_singleton.mpr rfl, ?_⟩
  refine (entry_agrees created called (List.mem_singleton.mpr rfl) (by decide)).mpr ⟨?_, ?_, by decide⟩
  · simp [Stored.names, dots, given]
  · simp [LinkAmong, HostNode.isLink]

/-- A name longer than what is written is never met. -/
theorem meets_long {entries : List (Name × Nat)} (long : writtenLen < name.length) : meets name entries = none := by
  apply List.find?_eq_none.mpr
  intro entry _
  have short : (cut entry.1).length ≤ writtenLen := List.length_take_le ..
  simp only [decide_eq_true_eq]
  exact fun same => absurd (same ▸ short) (Nat.not_le.mpr long)

/-- The kernel does not find a file with a name of 253 characters. -/
theorem long_name_lost : ∃ start stored closed dir name, createSfs 40960 (fun _ => 0) (fun _ _ => 0) = some start ∧
    createImg start (.cons name (.file 7 []) .nil) = some (stored, closed) ∧ dir ∈ stored ∧
    name.length = 253 ∧ ¬ EntryAgrees closed.disk dir name := by
  obtain ⟨name, length, visible⟩ : ∃ name : Name, name.length = 253 ∧ name.head? ≠ some dot :=
    ⟨List.replicate 253 ⟨97, by decide⟩, List.length_replicate, by decide⟩
  have short : name.length ≤ sfsMaxFnameLen := by
    rw [length]
    decide
  obtain ⟨start, closed, created, called⟩ := @oneFile_image name visible short
  refine ⟨start, _, closed, _, name, created, called, List.mem_singleton.mpr rfl, length, ?_⟩
  obtain ⟨sfs, reached, isClosed, stores⟩ := createImg_stores created called
  have built := built_reached created reached
  intro agrees
  have kept := (entryAgrees_iff built (by decide) (closeSfs_disk built.toLaid isClosed) stores
    (List.mem_singleton.mpr rfl) short).mp agrees
  have long : writtenLen < name.length := by
    rw [length]
    decide
  rw [EntryKept, meets_long long] at kept
  exact kept.1 (Or.inr (Or.inr ⟨_, List.mem_singleton.mpr rfl, visible⟩))

end Ucore.Mksfs
