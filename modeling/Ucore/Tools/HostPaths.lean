import Ucore.Library.PathNames
import Ucore.Tools.FileData

/-!
# Paths of the host and what is stored for them

The files of the host have numbers of their own. The builder stores each of them once: a
regular file with its data, and a directory with its entries, its parent and its
directories below.
-/

namespace Ucore.Mksfs

open Ownership Transition Volume

/-! ## The tree of the host -/

/-- `st_ino` -/
def HostNode.real : HostNode → Nat
  | .file number _ => number
  | .link number _ => number
  | .dir number _ => number

/-- An entry that the builder does not leave out. -/
def HostEntries.Visible (host : HostEntries) (name : Name) (node : HostNode) : Prop :=
  (name, node) ∈ host.toList ∧ name.head? ≠ some dot

/-- A file in the tree of the host, at any depth. -/
inductive Inside (home : HostEntries) : HostNode → Prop where
  | top (name : Name) (node : HostNode) : home.Visible name node → Inside home node
  | within (number : Nat) (host : HostEntries) (name : Name) (node : HostNode) :
      Inside home (.dir number host) → host.Visible name node → Inside home node

mutual

/-- How many entries an image needs for a directory and those below, the dots left out. -/
def HostEntries.total : HostEntries → Nat
  | .nil => 0
  | .cons name node rest => if name.head? = some dot then rest.total else node.total + 1 + rest.total

/-- How many entries an image needs for a file itself. -/
def HostNode.total : HostNode → Nat
  | .file .. => 0
  | .link .. => 0
  | .dir _ host => host.total + 2

end

/-! ## What is stored -/

/-- An inode stands for a file of the host. -/
def Stores (sfs : Image) (ino : Nat) : HostNode → Prop
  | .file _ blocks => (sfs.files ino).din.type = typeFile ∧ HoldsBlocks sfs ino blocks
  | .link .. => (sfs.files ino).din.type = typeLink
  | .dir .. => (sfs.files ino).din.type = typeDir

/-- Every inode but the root stands for the file of the host whose number it has. -/
def Known (home : HostEntries) (sfs : Image) : Prop :=
  ∀ ino, sfs.IsFile ino → (sfs.files ino).real = 0 ∨
    ∃ node, Inside home node ∧ node.real = (sfs.files ino).real ∧ Stores sfs ino node

/-- A number of the host names one file, and 0 names none. -/
structure Numbered (home : HostEntries) : Prop where
  positive : ∀ node, Inside home node → node.real ≠ 0
  same : ∀ node other, Inside home node → Inside home other → node.real = other.real → node = other

variable {sfs next : Image} {ninos file current parent ino number : Nat} {name : Name} {node : HostNode}
variable {home host : HostEntries} {entries : List (Name × HostNode × Nat)} {below : List Stored}

theorem Stores.later (stores : Stores sfs ino node) (laid : Laid ninos sfs) (keeps : KeepsData sfs next)
    (isFile : sfs.IsFile ino) : Stores next ino node := by
  cases node with
  | file number blocks =>
    exact ⟨(keeps.type ino isFile).trans stores.1, stores.2.later laid keeps isFile stores.1⟩
  | link number target => exact (keeps.type ino isFile).trans stores
  | dir number inner => exact (keeps.type ino isFile).trans stores

/-- Inodes stay known when the data stays, and no inode is new. -/
theorem Known.later (known : Known home sfs) (laid : Laid ninos sfs) (keeps : KeepsData sfs next)
    (old : ∀ ino, next.IsFile ino → sfs.IsFile ino) : Known home next := by
  intro ino isFile
  rw [keeps.real ino (old ino isFile)]
  rcases known ino (old ino isFile) with isRoot | ⟨node, inside, isReal, stores⟩
  · exact Or.inl isRoot
  · exact Or.inr ⟨node, inside, isReal, stores.later laid keeps (old ino isFile)⟩

/-- One inode is new, and it is known. -/
theorem Known.enter (known : Known home sfs) (laid : Laid ninos sfs) (keeps : KeepsData sfs next)
    (isNew : ∀ ino, next.IsFile ino → sfs.IsFile ino ∨ ino = file) (inside : Inside home node)
    (isReal : node.real = (next.files file).real) (stores : Stores next file node) : Known home next := by
  intro ino isFile
  rcases isNew ino isFile with old | rfl
  · rw [keeps.real ino old]
    rcases known ino old with isRoot | ⟨other, isInside, sameReal, holds⟩
    · exact Or.inl isRoot
    · exact Or.inr ⟨other, isInside, sameReal, holds.later laid keeps old⟩
  · exact Or.inr ⟨node, inside, isReal, stores⟩

theorem addEntry_old (built : Built ninos sfs) (isCurrent : sfs.IsFile current) (isFile : sfs.IsFile file)
    (called : addEntry sfs current file name = some next) : ∀ ino, next.IsFile ino → sfs.IsFile ino := by
  intro ino isNext
  rwa [Image.IsFile, (built.entry isCurrent isFile called).2.inodes] at isNext

/-- The inodes of some entries and of those of the directories below stand for what the
entries are on the host. -/
structure Standing (entries : List (Name × HostNode × Nat)) (below : List Stored) (sfs : Image) : Prop where
  here : ∀ entry ∈ entries, sfs.IsFile entry.2.2 ∧ Stores sfs entry.2.2 entry.2.1
  below : ∀ dir ∈ below, ∀ entry ∈ dir.entries, sfs.IsFile entry.2.2 ∧ Stores sfs entry.2.2 entry.2.1

/-- An inode that one of the entries names, or one of a directory below. -/
def NamedAmong (entries : List (Name × HostNode × Nat)) (below : List Stored) (ino : Nat) : Prop :=
  (∃ entry ∈ entries, entry.2.2 = ino) ∨ ∃ dir ∈ below, ∃ entry ∈ dir.entries, entry.2.2 = ino

/-- A part of the walk: the inodes are known behind it, what it has stored stands for the
entries of the host, and the entries name the inodes that are new. -/
structure Keeping (home : HostEntries) (entries : List (Name × HostNode × Nat)) (below : List Stored)
    (sfs next : Image) : Prop where
  built : ∃ ninos, Built ninos next
  known : Known home next
  keeps : KeepsData sfs next
  standing : Standing entries below next
  named : ∀ ino, next.IsFile ino → sfs.IsFile ino ∨ NamedAmong entries below ino

theorem Standing.later (standing : Standing entries below sfs) (built : Built ninos sfs) (keeps : KeepsData sfs next) :
    Standing entries below next where
  here := by
    intro entry member
    obtain ⟨isFile, stores⟩ := standing.here entry member
    exact ⟨keeps.isFile _ isFile, stores.later built.toLaid keeps isFile⟩
  below := by
    intro dir member entry isEntry
    obtain ⟨isFile, stores⟩ := standing.below dir member entry isEntry
    exact ⟨keeps.isFile _ isFile, stores.later built.toLaid keeps isFile⟩

theorem Standing.single (isFile : sfs.IsFile file) (stores : Stores sfs file node) :
    Standing [(name, node, file)] [] sfs where
  here := by
    intro entry member
    obtain rfl := List.mem_singleton.mp member
    exact ⟨isFile, stores⟩
  below := fun dir member => (nomatch member)

/-- The inode of a regular file, stored before or now. -/
theorem storeFile_keeping {blocks : List (Block × Nat)} (numbered : Numbered home)
    (inside : Inside home (.file number blocks)) (built : Built ninos sfs) (known : Known home sfs)
    (called : storeFile sfs number blocks = some (file, next)) :
    Keeping home [(name, .file number blocks, file)] [] sfs next := by
  have extended := storeFile_extends built called
  have isBuilt := extended.1.built built
  have isFile := extended.2
  unfold storeFile at called
  split at called
  · rename_i found isFound
    cases called
    have isReal : (sfs.files file).real = number := by
      simpa using List.find?_some isFound
    have stores : Stores sfs file (.file number blocks) := by
      rcases known file isFile with isRoot | ⟨node, isInside, sameReal, stores⟩
      · exact absurd (isReal ▸ isRoot) (numbered.positive _ inside)
      · have same := numbered.same node _ isInside inside (sameReal.trans isReal)
        exact same ▸ stores
    exact ⟨⟨ninos, built⟩, known, KeepsData.refl sfs, Standing.single isFile stores, fun ino => Or.inl⟩
  · simp only [Option.bind_eq_bind, Option.bind_eq_some_iff] at called
    obtain ⟨⟨made, new⟩, alloc, filled, opened, same⟩ := called
    cases same
    have makes := allocCacheInode_makes alloc
    have notFile : ¬ sfs.IsFile made := by
      rw [makes.isNew]
      exact fun isFile => Nat.lt_irrefl _ (built.inUse isFile)
    have builtNew := built.newFile (Or.inl rfl) makes
    have isNewFile : new.IsFile made := (makes.isFile made).mpr (Or.inr rfl)
    have notDir : (new.files made).din.type ≠ typeDir := by
      rw [makes.here]
      exact (by decide : typeFile ≠ typeDir)
    have holdsNothing : HoldsBlocks new made [] := by
      constructor
      · rw [makes.here]
        rfl
      · rw [makes.here]
        rfl
      · intro index words size isBlock
        cases isBlock
    obtain ⟨holds, fills⟩ := openFile_holds builtNew isNewFile notDir holdsNothing opened
    have keeps := makes.fills_keepsData notFile fills
    have stores : Stores next made (.file number blocks) := by
      refine ⟨?_, holds⟩
      rw [fills.type, makes.here]
    have isNew : ∀ ino, next.IsFile ino → sfs.IsFile ino ∨ ino = made := by
      intro ino isNext
      rw [Image.IsFile, fills.inodes] at isNext
      exact (makes.isFile ino).mp isNext
    refine ⟨⟨ninos, isBuilt⟩, ?_, keeps, Standing.single isFile stores, ?_⟩
    · apply known.enter built.toLaid keeps isNew inside _ stores
      rw [fills.real, makes.here]
      rfl
    · intro ino isNext
      rcases isNew ino isNext with old | rfl
      · exact Or.inl old
      · exact Or.inr (Or.inl ⟨_, List.mem_singleton.mpr rfl, rfl⟩)

/-- The inode of a symbolic link. -/
theorem storeLink_keeping {target : Block × Nat} (inside : Inside home (.link number target)) (built : Built ninos sfs)
    (known : Known home sfs) (called : storeLink sfs number target = some (file, next)) :
    Keeping home [(name, .link number target, file)] [] sfs next := by
  have extended := storeLink_extends built called
  have isBuilt := extended.1.built built
  have isFile := extended.2
  unfold storeLink at called
  split at called
  · simp only [Option.bind_eq_bind, Option.bind_eq_some_iff] at called
    obtain ⟨⟨made, new⟩, alloc, filled, append, same⟩ := called
    cases same
    have makes := allocCacheInode_makes alloc
    have notFile : ¬ sfs.IsFile made := by
      rw [makes.isNew]
      exact fun isFile => Nat.lt_irrefl _ (built.inUse isFile)
    have isNewFile : new.IsFile made := (makes.isFile made).mpr (Or.inr rfl)
    have notDir : (new.files made).din.type ≠ typeDir := by
      rw [makes.here]
      exact (by decide : typeLink ≠ typeDir)
    have fills := appendData_fills (built.newFile (Or.inr (Or.inr rfl)) makes) isNewFile notDir append
    have keeps := makes.fills_keepsData notFile fills
    have stores : Stores next made (.link number target) := by
      rw [Stores, fills.type, makes.here]
    have isNew : ∀ ino, next.IsFile ino → sfs.IsFile ino ∨ ino = made := by
      intro ino isNext
      rw [Image.IsFile, fills.inodes] at isNext
      exact (makes.isFile ino).mp isNext
    refine ⟨⟨ninos, isBuilt⟩, ?_, keeps, Standing.single isFile stores, ?_⟩
    · apply known.enter built.toLaid keeps isNew inside _ stores
      rw [fills.real, makes.here]
      rfl
    · intro ino isNext
      rcases isNew ino isNext with old | rfl
      · exact Or.inl old
      · exact Or.inr (Or.inl ⟨_, List.mem_singleton.mpr rfl, rfl⟩)
  · cases called

/-! ## The walk keeps them -/

/-- An entry is added to a directory. -/
theorem addEntry_keeping (built : Built ninos sfs) (known : Known home sfs) (isCurrent : sfs.IsFile current)
    (isFile : sfs.IsFile file) (called : addEntry sfs current file name = some next) :
    Built ninos next ∧ Known home next ∧ KeepsData sfs next := by
  have keeps := addEntry_keepsData built isCurrent isFile called
  exact ⟨(built.entry isCurrent isFile called).1,
    known.later built.toLaid keeps (addEntry_old built isCurrent isFile called), keeps⟩

theorem addDots_keeping (built : Built ninos sfs) (known : Known home sfs) (isCurrent : sfs.IsFile current)
    (isParent : sfs.IsFile parent) (called : addDots sfs current parent = some next) :
    Built ninos next ∧ Known home next ∧ KeepsData sfs next ∧ ∀ ino, next.IsFile ino → sfs.IsFile ino := by
  simp only [addDots, Option.bind_eq_bind, Option.bind_eq_some_iff] at called
  obtain ⟨dotted, first, second⟩ := called
  obtain ⟨builtDotted, knownDotted, keepsDotted⟩ := addEntry_keeping built known isCurrent isCurrent first
  obtain ⟨isBuilt, isKnown, keeps⟩ := addEntry_keeping builtDotted knownDotted (keepsDotted.isFile _ isCurrent)
    (keepsDotted.isFile _ isParent) second
  have older := addEntry_old built isCurrent isCurrent first
  have old := addEntry_old builtDotted (keepsDotted.isFile _ isCurrent) (keepsDotted.isFile _ isParent) second
  exact ⟨isBuilt, isKnown, keepsDotted.trans keeps, fun ino isNext => older ino (old ino isNext)⟩

mutual

/-- The entries of a directory of the host. -/
theorem openEntries_keeping (numbered : Numbered home) : ∀ (host : HostEntries) {ninos sfs next current entries below},
    (∀ name node, host.Visible name node → Inside home node) → Built ninos sfs → Known home sfs → sfs.IsFile current →
    openEntries sfs current host = some (entries, below, next) → Keeping home entries below sfs next
  | .nil, ninos, sfs, next, current, entries, below, inside, built, known, isCurrent, called => by
    rw [openEntries] at called
    cases called
    exact ⟨⟨ninos, built⟩, known, KeepsData.refl sfs,
      ⟨fun entry member => (nomatch member), fun dir member => (nomatch member)⟩, fun ino => Or.inl⟩
  | .cons name node rest, ninos, sfs, next, current, entries, below, inside, built, known, isCurrent, called => by
    have insideRest : ∀ name node, rest.Visible name node → Inside home node := fun name node visible =>
      inside name node ⟨List.mem_cons_of_mem _ visible.1, visible.2⟩
    rw [openEntries] at called
    split at called
    · exact openEntries_keeping numbered rest insideRest built known isCurrent called
    · rename_i visible
      split at called
      · simp only [Option.bind_eq_bind, Option.bind_eq_some_iff] at called
        obtain ⟨⟨file, inner, opened⟩, stored, linked, added, ⟨later, others, ended⟩, walked, same⟩ := called
        cases same
        have first := openNode_keeping numbered node name (inside name node ⟨List.mem_cons_self, visible⟩) built known
          isCurrent stored
        obtain ⟨ninos', builtOpened⟩ := first.built
        have isFile := (first.standing.here _ (List.mem_singleton.mpr rfl)).1
        obtain ⟨builtLinked, knownLinked, keeps⟩ :=
          addEntry_keeping builtOpened first.known (first.keeps.isFile current isCurrent) isFile added
        have last := openEntries_keeping numbered rest insideRest builtLinked knownLinked
          (keeps.isFile current (first.keeps.isFile current isCurrent)) walked
        have before := first.standing.later builtOpened (keeps.trans last.keeps)
        refine ⟨last.built, last.known, (first.keeps.trans keeps).trans last.keeps, ⟨?_, ?_⟩, ?_⟩
        · intro entry member
          rcases List.mem_cons.mp member with rfl | old
          · exact before.here _ (List.mem_singleton.mpr rfl)
          · exact last.standing.here entry old
        · intro dir member
          rcases List.mem_append.mp member with old | new
          · exact before.below dir old
          · exact last.standing.below dir new
        · intro ino isNext
          rcases last.named ino isNext with old | ⟨entry, member, isEntry⟩ | ⟨dir, member, isEntry⟩
          · have isOpened := addEntry_old builtOpened (first.keeps.isFile current isCurrent) isFile added ino old
            rcases first.named ino isOpened with older | ⟨entry, member, isEntry⟩ | ⟨dir, member, isEntry⟩
            · exact Or.inl older
            · obtain rfl := List.mem_singleton.mp member
              exact Or.inr (Or.inl ⟨_, List.mem_cons_self, isEntry⟩)
            · exact Or.inr (Or.inr ⟨dir, List.mem_append_left _ member, isEntry⟩)
          · exact Or.inr (Or.inl ⟨entry, List.mem_cons_of_mem _ member, isEntry⟩)
          · exact Or.inr (Or.inr ⟨dir, List.mem_append_right _ member, isEntry⟩)
      · cases called

/-- An entry of the host. -/
theorem openNode_keeping (numbered : Numbered home) : ∀ (node : HostNode) (name : Name)
    {ninos sfs next parent file below}, Inside home node → Built ninos sfs → Known home sfs → sfs.IsFile parent →
    openNode sfs parent node = some (file, below, next) → Keeping home [(name, node, file)] below sfs next
  | .file number blocks, name, ninos, sfs, next, parent, file, below, inside, built, known, isParent, called => by
    rw [openNode] at called
    obtain ⟨⟨found, filled⟩, stored, same⟩ := Option.map_eq_some_iff.mp called
    cases same
    exact storeFile_keeping numbered inside built known stored
  | .link number target, name, ninos, sfs, next, parent, file, below, inside, built, known, isParent, called => by
    rw [openNode] at called
    obtain ⟨⟨found, filled⟩, stored, same⟩ := Option.map_eq_some_iff.mp called
    cases same
    exact storeLink_keeping inside built known stored
  | .dir number host, name, ninos, sfs, next, parent, file, below, inside, built, known, isParent, called => by
    rw [openNode] at called
    split at called
    · simp only [Option.bind_eq_bind, Option.bind_eq_some_iff] at called
      obtain ⟨⟨current, made⟩, alloc, dotted, isDotted, ⟨entries, inner, ended⟩, opened, same⟩ := called
      cases same
      have makes := allocCacheInode_makes alloc
      have notFile : ¬ sfs.IsFile current := by
        rw [makes.isNew]
        exact fun isFile => Nat.lt_irrefl _ (built.inUse isFile)
      have keepsMade := makes.keepsData notFile
      have isCurrent : made.IsFile current := (makes.isFile current).mpr (Or.inr rfl)
      have isMade : (made.files current).real = number ∧ (made.files current).din.type = typeDir := by
        rw [makes.here]
        exact ⟨rfl, rfl⟩
      have knownMade : Known home made := known.enter built.toLaid keepsMade
        (fun ino isFile => (makes.isFile ino).mp isFile) inside isMade.1.symm isMade.2
      obtain ⟨builtDotted, knownDotted, keepsDotted, oldDotted⟩ := addDots_keeping (built.newFile (Or.inr (Or.inl rfl)) makes)
        knownMade isCurrent (keepsMade.isFile parent isParent) isDotted
      have walked := openEntries_keeping numbered host (fun name node => Inside.within number host name node inside)
        builtDotted knownDotted (keepsDotted.isFile current isCurrent) opened
      have keeps := keepsDotted.trans walked.keeps
      refine ⟨walked.built, walked.known, keepsMade.trans keeps, ⟨?_, ?_⟩, ?_⟩
      · intro entry member
        obtain rfl := List.mem_singleton.mp member
        exact ⟨keeps.isFile current isCurrent, (keeps.type current isCurrent).trans isMade.2⟩
      · intro dir member
        rcases List.mem_cons.mp member with rfl | old
        · exact walked.standing.here
        · exact walked.standing.below dir old
      · intro ino isNext
        rcases walked.named ino isNext with old | ⟨entry, member, isEntry⟩ | ⟨dir, member, isEntry⟩
        · rcases (makes.isFile ino).mp (oldDotted ino old) with older | rfl
          · exact Or.inl older
          · exact Or.inr (Or.inl ⟨_, List.mem_singleton.mpr rfl, rfl⟩)
        · exact Or.inr (Or.inr ⟨_, List.mem_cons_self, entry, member, isEntry⟩)
        · exact Or.inr (Or.inr ⟨dir, List.mem_cons_of_mem _ member, isEntry⟩)
    · cases called

end

/-! ## The shape of what is stored -/

/-- The directories among some entries of a directory, and those below, are stored: with
their entries of the host and their parents. -/
structure Nested (home : HostEntries) (current : Nat) (entries : List (Name × HostNode × Nat)) (below : List Stored) :
    Prop where
  children : ∀ name number host ino, (name, .dir number host, ino) ∈ entries →
    ∃ child ∈ below, child.ino = ino ∧ child.host = host ∧ child.parent = current
  deeper : ∀ dir ∈ below, ∀ name number host ino, (name, .dir number host, ino) ∈ dir.entries →
    ∃ child ∈ below, child.ino = ino ∧ child.host = host ∧ child.parent = dir.ino
  inside : ∀ dir ∈ below, ∃ number, Inside home (.dir number dir.host)

/-- How many entries the image has for directories. -/
def storedTotal (stored : List Stored) : Nat := (stored.map fun dir => dir.names.length).sum

theorem names_length (dir : Stored) : dir.names.length = dir.entries.length + 2 := by
  rw [Stored.names, given, List.length_append, List.length_map, Nat.add_comm]
  rfl

theorem storedTotal_cons (dir : Stored) (rest : List Stored) :
    storedTotal (dir :: rest) = dir.entries.length + 2 + storedTotal rest := by
  rw [storedTotal, List.map_cons, List.sum_cons, names_length, storedTotal]

theorem storedTotal_append (first second : List Stored) :
    storedTotal (first ++ second) = storedTotal first + storedTotal second := by
  rw [storedTotal, List.map_append, List.sum_append, storedTotal, storedTotal]

mutual

theorem openEntries_nested : ∀ (host : HostEntries) {sfs next current entries below},
    (∀ name node, host.Visible name node → Inside home node) →
    openEntries sfs current host = some (entries, below, next) →
    Nested home current entries below ∧ entries.length + storedTotal below = host.total
  | .nil, sfs, next, current, entries, below, inside, called => by
    rw [openEntries] at called
    cases called
    refine ⟨⟨?_, ?_, ?_⟩, rfl⟩
    · exact fun name number host ino member => (nomatch member)
    · exact fun dir member => (nomatch member)
    · exact fun dir member => (nomatch member)
  | .cons name node rest, sfs, next, current, entries, below, inside, called => by
    have insideRest : ∀ name node, rest.Visible name node → Inside home node := fun name node visible =>
      inside name node ⟨List.mem_cons_of_mem _ visible.1, visible.2⟩
    rw [openEntries] at called
    split at called
    · rename_i hidden
      obtain ⟨nested, count⟩ := openEntries_nested rest insideRest called
      exact ⟨nested, by rw [count, HostEntries.total, if_pos hidden]⟩
    · rename_i visible
      split at called
      · simp only [Option.bind_eq_bind, Option.bind_eq_some_iff] at called
        obtain ⟨⟨file, inner, opened⟩, stored, linked, added, ⟨later, others, ended⟩, walked, same⟩ := called
        cases same
        obtain ⟨first, firstCount⟩ := openNode_nested node name (inside name node ⟨List.mem_cons_self, visible⟩) stored
        obtain ⟨last, lastCount⟩ := openEntries_nested rest insideRest walked
        have early : ∀ {parent ino host}, (∃ child ∈ inner, child.ino = ino ∧ child.host = host ∧ child.parent = parent) →
            ∃ child ∈ inner ++ others, child.ino = ino ∧ child.host = host ∧ child.parent = parent :=
          fun ⟨child, member, facts⟩ => ⟨child, List.mem_append_left _ member, facts⟩
        have late : ∀ {parent ino host}, (∃ child ∈ others, child.ino = ino ∧ child.host = host ∧ child.parent = parent) →
            ∃ child ∈ inner ++ others, child.ino = ino ∧ child.host = host ∧ child.parent = parent :=
          fun ⟨child, member, facts⟩ => ⟨child, List.mem_append_right _ member, facts⟩
        refine ⟨⟨?_, ?_, ?_⟩, ?_⟩
        · intro name' number host ino member
          rcases List.mem_cons.mp member with here | old
          · exact early (first.children name' number host ino (List.mem_singleton.mpr here))
          · exact late (last.children name' number host ino old)
        · intro dir member name' number host ino isEntry
          rcases List.mem_append.mp member with old | new
          · exact early (first.deeper dir old name' number host ino isEntry)
          · exact late (last.deeper dir new name' number host ino isEntry)
        · intro dir member
          rcases List.mem_append.mp member with old | new
          · exact first.inside dir old
          · exact last.inside dir new
        · dsimp only at firstCount lastCount ⊢
          rw [HostEntries.total, if_neg visible, storedTotal_append, List.length_cons]
          omega
      · cases called

theorem openNode_nested : ∀ (node : HostNode) (name : Name) {sfs next parent file below}, Inside home node →
    openNode sfs parent node = some (file, below, next) →
    Nested home parent [(name, node, file)] below ∧ storedTotal below = node.total
  | .file number blocks, name, sfs, next, parent, file, below, inside, called => by
    rw [openNode] at called
    obtain ⟨⟨found, filled⟩, stored, same⟩ := Option.map_eq_some_iff.mp called
    cases same
    refine ⟨⟨?_, ?_, ?_⟩, rfl⟩
    · intro name' number' host ino member
      cases List.mem_singleton.mp member
    · exact fun dir member => (nomatch member)
    · exact fun dir member => (nomatch member)
  | .link number target, name, sfs, next, parent, file, below, inside, called => by
    rw [openNode] at called
    obtain ⟨⟨found, filled⟩, stored, same⟩ := Option.map_eq_some_iff.mp called
    cases same
    refine ⟨⟨?_, ?_, ?_⟩, rfl⟩
    · intro name' number' host ino member
      cases List.mem_singleton.mp member
    · exact fun dir member => (nomatch member)
    · exact fun dir member => (nomatch member)
  | .dir number host, name, sfs, next, parent, file, below, inside, called => by
    rw [openNode] at called
    split at called
    · simp only [Option.bind_eq_bind, Option.bind_eq_some_iff] at called
      obtain ⟨⟨current, made⟩, alloc, dotted, isDotted, ⟨entries, inner, ended⟩, opened, same⟩ := called
      cases same
      obtain ⟨nested, count⟩ :=
        openEntries_nested host (fun name node => Inside.within number host name node inside) opened
      refine ⟨⟨?_, ?_, ?_⟩, ?_⟩
      · intro name' number' host' ino member
        cases List.mem_singleton.mp member
        exact ⟨_, List.mem_cons_self, rfl, rfl, rfl⟩
      · intro dir member name' number' host' ino isEntry
        rcases List.mem_cons.mp member with rfl | old
        · obtain ⟨child, isChild, facts⟩ := nested.children name' number' host' ino isEntry
          exact ⟨child, List.mem_cons_of_mem _ isChild, facts⟩
        · obtain ⟨child, isChild, facts⟩ := nested.deeper dir old name' number' host' ino isEntry
          exact ⟨child, List.mem_cons_of_mem _ isChild, facts⟩
      · intro dir member
        rcases List.mem_cons.mp member with rfl | old
        · exact ⟨number, inside⟩
        · exact nested.inside dir old
      · rw [HostNode.total, ← count, storedTotal_cons]
        dsimp only
        omega
    · cases called

end

end Ucore.Mksfs
