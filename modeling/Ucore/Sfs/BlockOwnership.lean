import Ucore.Library.Ownership
import Ucore.Sfs.BlockMap

/-!
# Who owns a block

An inode names its own block, its direct blocks, its indirect block and the entries of
that block. Each operation on one inode is studied against a frame, the blocks of the
other inodes: it keeps the ownership of its own blocks and leaves the frame alone,
wherever it ends.
-/

namespace Ucore.Volume

open Ownership

/-- Where an inode names a block. -/
inductive Place where
  | inode
  | direct (index : Nat)
  | indirect
  | entry (index : Nat)
deriving DecidableEq

/-- A block number that is not 0. -/
def pointer (block : Nat) : Option Nat := if block = 0 then none else some block

/-- The blocks that an inode names. -/
def names (disk : Nat → Block) (ino : Nat) (din : DiskInode) : Place → Option Nat
  | .inode => some ino
  | .direct index => if index < sfsNdirect then pointer (din.direct index) else none
  | .indirect => pointer din.indirect
  | .entry index =>
      if din.indirect ≠ 0 ∧ index < sfsBlkNentry then pointer (disk din.indirect index) else none

/-- A block in use has its bit cleared. -/
def SfsFs.InUse (fs : SfsFs) (block : Nat) : Prop := fs.freemap.bit block = false

/-- `unused_blocks` is right. -/
def SfsFs.Counted (fs : SfsFs) : Prop := fs.super.unusedBlocks = fs.freemap.setBits

/-- Blocks may enter use, and the contents of those in use stay. -/
structure Keeps (fs after : SfsFs) : Prop where
  inUse : ∀ block, fs.InUse block → after.InUse block
  disk : ∀ block, fs.InUse block → after.disk block = fs.disk block
  counted : fs.Counted → after.Counted

/-- A block that was in use is freed. -/
structure Frees (block : Nat) (fs after : SfsFs) : Prop where
  was : fs.InUse block
  inUse : ∀ other, other ≠ block → fs.InUse other → after.InUse other
  disk : after.disk = fs.disk
  counted : fs.Counted → after.Counted

variable {device : Nat → Int} {fs middle after : SfsFs} {block ino ent entp index : Nat}

@[simp] theorem pointer_zero : pointer 0 = none := rfl

theorem pointer_eq_some {named : Nat} : pointer block = some named ↔ block = named ∧ named ≠ 0 := by
  unfold pointer
  split
  · rename_i zero
    simp only [reduceCtorEq, false_iff, not_and, not_not]
    exact fun same => same ▸ zero
  · rename_i nonzero
    constructor
    · intro same
      obtain rfl := Option.some.inj same
      exact ⟨rfl, nonzero⟩
    · rintro ⟨rfl, _⟩
      rfl

theorem pointer_nonzero (nonzero : block ≠ 0) : pointer block = some block := if_neg nonzero

theorem Keeps.refl (fs : SfsFs) : Keeps fs fs := ⟨fun _ => id, fun _ _ => rfl, id⟩

theorem Keeps.calls (fs : SfsFs) (calls : Nat) : Keeps fs { fs with calls } := ⟨fun _ => id, fun _ _ => rfl, id⟩

theorem Keeps.trans (first : Keeps fs middle) (second : Keeps middle after) : Keeps fs after where
  inUse := fun block used => second.inUse block (first.inUse block used)
  disk := fun block used => (second.disk block (first.inUse block used)).trans (first.disk block used)
  counted := fun counted => second.counted (first.counted counted)

/-- A block that was not in use at first is freed again. -/
theorem Keeps.undo (keeps : Keeps fs middle) (fresh : ¬ fs.InUse block) (frees : Frees block middle after) :
    Keeps fs after where
  inUse := fun other used => frees.inUse other (fun same => fresh (same ▸ used)) (keeps.inUse other used)
  disk := fun other used => by rw [frees.disk, keeps.disk other used]
  counted := fun counted => frees.counted (keeps.counted counted)

/-- A write to a block outside use. -/
theorem Keeps.write (keeps : Keeps fs middle) (fresh : ¬ fs.InUse block) (words : Block) (calls : Nat) :
    Keeps fs { middle with calls, disk := Function.update middle.disk block words } where
  inUse := keeps.inUse
  disk := fun other used => by
    have different : other ≠ block := fun same => fresh (same ▸ used)
    simpa [different] using keeps.disk other used
  counted := keeps.counted

theorem assertInuse_some {result : Unit} (asserted : assertInuse fs ino = some result) :
    ino ≠ 0 ∧ fs.InUse ino := by
  unfold assertInuse at asserted
  split at asserted
  · rename_i inUse
    unfold sfsBlockInuse at inUse
    split at inUse
    · rename_i range
      obtain ⟨bit, tested, clear⟩ := Option.map_eq_some_iff.mp inUse
      have inside : ino < fs.freemap.nbits := by
        unfold bitmapTest at tested
        split at tested
        · assumption
        · cases tested
      rw [bitmapTest_exact inside] at tested
      refine ⟨range.1, ?_⟩
      rw [SfsFs.InUse, Option.some.inj tested]
      simpa using clear
    · cases inUse
  · cases asserted

/-- An allocation finds a block out of use and clears it, or fails. -/
theorem sfsBlockAlloc_cases {result : Except Int Nat} (called : sfsBlockAlloc device fs = some (result, after)) :
    Keeps fs after ∧ ∀ block, result = .ok block →
      block ≠ 0 ∧ ¬ fs.InUse block ∧ after.InUse block ∧ after.disk block = fun _ => 0 := by
  obtain ⟨⟨found, freemap⟩, allocated, rest⟩ := Option.bind_eq_some_iff.mp called
  rcases bitmapAlloc_exact fs.freemap with none | ⟨index, taken, isTaken, isSet, inside, cleared, nbits, nwords⟩
  · rw [none] at allocated
    obtain ⟨rfl, rfl⟩ := Prod.mk.inj (Option.some.inj allocated)
    obtain ⟨rfl, rfl⟩ := Prod.mk.inj (Option.some.inj rest)
    exact ⟨Keeps.refl _, by simp⟩
  · rw [isTaken] at allocated
    obtain ⟨rfl, rfl⟩ := Prod.mk.inj (Option.some.inj allocated)
    have fresh : ¬ fs.InUse index := by simp [SfsFs.InUse, isSet]
    simp only [takeBlock] at rest
    split at rest
    · rename_i positive
      obtain ⟨_, asserted, rest⟩ := Option.bind_eq_some_iff.mp rest
      obtain ⟨nonzero, used⟩ := assertInuse_some asserted
      obtain ⟨⟨ret, last⟩, clearing, isLast⟩ := Option.bind_eq_some_iff.mp rest
      obtain ⟨rfl, rfl⟩ := Prod.mk.inj (Option.some.inj isLast)
      have keeps : Keeps fs { fs with
          super := { fs.super with unusedBlocks := fs.super.unusedBlocks - 1 }
          freemap := taken
          superDirty := true } := by
        refine ⟨?_, fun _ _ => rfl, ?_⟩
        · intro other used
          have different : other ≠ index := fun same => fresh (same ▸ used)
          simpa [SfsFs.InUse, cleared, different] using used
        · intro counted
          have fewer := setBits_clear inside isSet cleared nwords
          simp only [SfsFs.Counted] at counted ⊢
          omega
      obtain ⟨calls, ⟨failed, rfl⟩ | ⟨succeeded, rfl⟩⟩ := sfsClearBlock_cases clearing
      · exact ⟨keeps.trans (Keeps.calls _ calls), by simp [failed]⟩
      · refine ⟨keeps.write fresh _ calls, ?_⟩
        simp only [succeeded, if_true, Except.ok.injEq, forall_eq']
        exact ⟨nonzero, fresh, used, Function.update_self _ _ _⟩
    · cases rest

theorem sfsBlockFree_cases (called : sfsBlockFree fs block = some after) : block ≠ 0 ∧ Frees block fs after := by
  obtain ⟨_, asserted, rest⟩ := Option.bind_eq_some_iff.mp called
  obtain ⟨nonzero, used⟩ := assertInuse_some asserted
  obtain ⟨freemap, freed, isAfter⟩ := Option.bind_eq_some_iff.mp rest
  obtain rfl := Option.some.inj isAfter
  obtain ⟨inside, clear⟩ := bitmapFree_some freed
  obtain ⟨_, same, changed, nbits, nwords⟩ := bitmapFree_exact inside clear
  obtain rfl := Option.some.inj (freed.symm.trans same)
  refine ⟨nonzero, used, ?_, rfl, ?_⟩
  · intro other different inUse
    simpa [SfsFs.InUse, changed, different] using inUse
  · intro counted
    have more := setBits_set (Nat.lt_of_lt_of_le inside fs.freemap.covered) clear changed nwords
    simp only [SfsFs.Counted] at counted ⊢
    omega

/-! ## Entries of the indirect block -/

/-- A new block becomes an entry of the block `ent`. -/
structure Enters (ent index ino : Nat) (fs after : SfsFs) : Prop where
  nonzero : ino ≠ 0
  fresh : ¬ fs.InUse ino
  entered : after.InUse ino
  inUse : ∀ block, fs.InUse block → after.InUse block
  disk : ∀ block, block ≠ ent → fs.InUse block → after.disk block = fs.disk block
  entries : after.disk ent = Function.update (fs.disk ent) index ino
  counted : fs.Counted → after.Counted

theorem failedCleanup_cases {start : SfsFs} {ret : Int} {result : Except Int (Nat × Nat)} (keeps : Keeps start fs)
    (new : ent ≠ entp → ¬ start.InUse ent) (called : failedCleanup fs entp ent ret = some (result, after)) :
    (∃ code, result = .error code) ∧ Keeps start after := by
  unfold failedCleanup at called
  split at called
  · rename_i different
    obtain ⟨last, freed, same⟩ := Option.map_eq_some_iff.mp called
    obtain ⟨rfl, rfl⟩ := Prod.mk.inj same
    exact ⟨⟨ret, rfl⟩, keeps.undo (new different) (sfsBlockFree_cases freed).2⟩
  · obtain ⟨rfl, rfl⟩ := Prod.mk.inj (Option.some.inj called)
    exact ⟨⟨ret, rfl⟩, keeps⟩

/-- One word is written. -/
theorem copyWords_one (block : Block) (word index : Nat) :
    copyWords block (fun _ => word) 1 index = Function.update block index word := by
  funext other
  by_cases same : other = index
  · simp [copyWords, same]
  · rw [Function.update_of_ne same]
    exact if_neg (by omega)

/-- The new block is entered, or everything is undone. -/
theorem newEntry_cases {start : SfsFs} {result : Except Int (Nat × Nat)} (keeps : Keeps start fs)
    (isEnt : fs.InUse ent) (new : ent ≠ entp → ¬ start.InUse ent)
    (called : newEntry device fs entp ent index = some (result, after)) :
    (∃ code, result = .error code) ∧ Keeps start after ∨
      ∃ ino, result = .ok (ent, ino) ∧ Enters ent index ino fs after := by
  obtain ⟨⟨allocated, middle⟩, alloc, rest⟩ := Option.bind_eq_some_iff.mp called
  obtain ⟨taken, isOk⟩ := sfsBlockAlloc_cases alloc
  cases allocated with
  | error ret => exact Or.inl (failedCleanup_cases (keeps.trans taken) new rest)
  | ok ino =>
    obtain ⟨nonzero, fresh, entered, _⟩ := isOk ino rfl
    have notStart : ¬ start.InUse ino := fun used => fresh (keeps.inUse ino used)
    obtain ⟨⟨ret, last⟩, wrote, rest⟩ := Option.bind_eq_some_iff.mp rest
    obtain ⟨calls, ⟨failed, rfl⟩ | ⟨succeeded, rfl⟩⟩ := sfsWbuf_cases wrote
    · left
      simp only [ne_eq, failed, not_false_eq_true, if_true] at rest
      obtain ⟨undone, freed, rest⟩ := Option.bind_eq_some_iff.mp rest
      have grown := (keeps.trans taken).trans (Keeps.calls _ calls)
      exact failedCleanup_cases (grown.undo notStart (sfsBlockFree_cases freed).2) new rest
    · right
      simp only [succeeded, ne_eq, not_true_eq_false, if_false] at rest
      obtain ⟨rfl, rfl⟩ := Prod.mk.inj (Option.some.inj rest)
      refine ⟨ino, rfl, nonzero, fresh, entered, taken.inUse, ?_, ?_, taken.counted⟩
      · intro block different used
        simpa [different] using taken.disk block used
      · simp [copyWords_one, taken.disk ent isEnt]

/-- What `sfs_bmap_get_sub_nolock` does: it fails, finds the entry, enters a new block, or
enters it in a new entry block. -/
theorem sfsBmapGetSubNolock_cases {create : Bool} {result : Except Int (Nat × Nat)}
    (isEnt : entp ≠ 0 → fs.InUse entp)
    (called : sfsBmapGetSubNolock device fs entp index create = some (result, after)) :
    index < sfsBlkNentry ∧
      ((∃ code, result = .error code) ∧ Keeps fs after ∨
        (∃ ino, result = .ok (entp, ino)) ∧ Keeps fs after ∨
        (∃ ino, result = .ok (entp, ino) ∧ entp ≠ 0 ∧ fs.disk entp index = 0 ∧ Enters entp index ino fs after) ∨
        ∃ middle ent ino, result = .ok (ent, ino) ∧ entp = 0 ∧ ent ≠ 0 ∧ Keeps fs middle ∧ ¬ fs.InUse ent ∧
          middle.InUse ent ∧ (middle.disk ent = fun _ => 0) ∧ Enters ent index ino middle after) := by
  unfold sfsBmapGetSubNolock at called
  split at called
  · rename_i small
    refine ⟨small, ?_⟩
    split at called
    · rename_i nonzero
      have used := isEnt nonzero
      obtain ⟨⟨read, middle⟩, isRead, rest⟩ := Option.bind_eq_some_iff.mp called
      obtain ⟨⟨calls, rfl⟩, words⟩ := sfsRbuf_cases isRead
      cases read with
      | error ret =>
        obtain ⟨rfl, rfl⟩ := Prod.mk.inj (Option.some.inj rest)
        exact Or.inl ⟨⟨ret, rfl⟩, Keeps.calls fs calls⟩
      | ok buf =>
        simp only at rest
        split at rest
        · obtain ⟨rfl, rfl⟩ := Prod.mk.inj (Option.some.inj rest)
          exact Or.inr (Or.inl ⟨⟨_, rfl⟩, Keeps.calls fs calls⟩)
        · rename_i empty
          have isZero : fs.disk entp index = 0 := by
            have zero : buf 0 = 0 := by
              by_contra other
              exact empty (Or.inl other)
            simpa [words buf rfl] using zero
          rcases newEntry_cases (Keeps.calls fs calls) used (absurd rfl) rest with
            failed | ⟨ino, isOk, enters⟩
          · exact Or.inl failed
          · exact Or.inr (Or.inr (Or.inl ⟨ino, isOk, nonzero, isZero, ⟨enters.nonzero, enters.fresh,
              enters.entered, enters.inUse, enters.disk, enters.entries, enters.counted⟩⟩))
    · rename_i zero
      have isZero : entp = 0 := not_not.mp zero
      split at called
      · obtain ⟨rfl, rfl⟩ := Prod.mk.inj (Option.some.inj called)
        exact Or.inr (Or.inl ⟨⟨0, rfl⟩, Keeps.refl _⟩)
      · obtain ⟨⟨allocated, middle⟩, alloc, rest⟩ := Option.bind_eq_some_iff.mp called
        obtain ⟨taken, isOk⟩ := sfsBlockAlloc_cases alloc
        cases allocated with
        | error ret =>
          obtain ⟨rfl, rfl⟩ := Prod.mk.inj (Option.some.inj rest)
          exact Or.inl ⟨⟨ret, rfl⟩, taken⟩
        | ok ent =>
          obtain ⟨nonzero, fresh, entered, cleared⟩ := isOk ent rfl
          rcases newEntry_cases taken entered (fun _ => fresh) rest with failed | ⟨ino, isIno, enters⟩
          · exact Or.inl failed
          · exact Or.inr (Or.inr (Or.inr ⟨middle, ent, ino, isIno, isZero, nonzero, taken, fresh, entered,
              cleared, enters⟩))
  · cases called

/-! ## The blocks of one inode -/

section Names

variable {disk diskAfter : Nat → Block} {din : DiskInode}

/-- Only the indirect block matters on disk. -/
theorem names_congr (same : din.indirect ≠ 0 → diskAfter din.indirect = disk din.indirect) :
    names diskAfter ino din = names disk ino din := by
  funext place
  cases place with
  | entry index =>
    by_cases nonzero : din.indirect = 0
    · simp [names, nonzero]
    · simp [names, same nonzero]
  | inode => rfl
  | direct index => rfl
  | indirect => rfl

theorem names_setDirect (small : index < sfsNdirect) :
    names disk ino { din with direct := Function.update din.direct index block } =
      Function.update (names disk ino din) (.direct index) (pointer block) := by
  funext place
  cases place with
  | direct other =>
    by_cases same : other = index
    · simp [names, same, small]
    · simp [names, same]
  | inode => rfl
  | indirect => rfl
  | entry other => rfl

theorem names_setEntry (nonzero : din.indirect ≠ 0) (small : index < sfsBlkNentry)
    (entries : diskAfter din.indirect = Function.update (disk din.indirect) index block) :
    names diskAfter ino din = Function.update (names disk ino din) (.entry index) (pointer block) := by
  funext place
  cases place with
  | entry other =>
    by_cases same : other = index
    · simp [names, same, small, nonzero, entries]
    · simp [names, same, entries]
  | inode => rfl
  | direct other => rfl
  | indirect => rfl

/-- An empty entry block is named by the inode and names nothing. -/
theorem names_setIndirect (disk : Nat → Block) (zero : din.indirect = 0) (nonzero : ent ≠ 0) (empty : diskAfter ent = fun _ => 0) :
    names diskAfter ino { din with indirect := ent } =
      Function.update (names disk ino din) .indirect (some ent) := by
  funext place
  cases place with
  | entry other => simp [names, zero, empty]
  | inode => rfl
  | direct other => rfl
  | indirect => simp [names, pointer_nonzero nonzero]

end Names

/-- An inode owns its blocks against a frame. -/
structure Holds (fs : SfsFs) (sin : SfsInode) (frame : Nat → Prop) : Prop where
  owns : Owns (names fs.disk sin.ino sin.din) fs.InUse frame
  counted : fs.Counted

/-- An operation on an inode keeps what it owns, the blocks of the frame and its own block
on disk; pointers that differ from those on disk leave it dirty. -/
structure Steps (frame : Nat → Prop) (fs : SfsFs) (sin : SfsInode) (after : SfsFs) (sinAfter : SfsInode) :
    Prop where
  holds : Holds after sinAfter frame
  ino : sinAfter.ino = sin.ino
  nlinks : sinAfter.din.nlinks = sin.din.nlinks
  disk : ∀ block, frame block ∨ block = sin.ino → after.disk block = fs.disk block
  dirty : sinAfter.dirty = true ∨ sinAfter.dirty = sin.dirty ∧ sinAfter.din.direct = sin.din.direct ∧
    sinAfter.din.indirect = sin.din.indirect

variable {frame : Nat → Prop} {sin sinMiddle sinAfter : SfsInode}

theorem Holds.refl (holds : Holds fs sin frame) : Steps frame fs sin fs sin :=
  ⟨holds, rfl, rfl, fun _ _ => rfl, Or.inr ⟨rfl, rfl, rfl⟩⟩

theorem Steps.trans (first : Steps frame fs sin middle sinMiddle)
    (second : Steps frame middle sinMiddle after sinAfter) : Steps frame fs sin after sinAfter where
  holds := second.holds
  ino := second.ino.trans first.ino
  nlinks := second.nlinks.trans first.nlinks
  disk := by
    intro block inside
    rw [second.disk block (first.ino ▸ inside), first.disk block inside]
  dirty := by
    obtain dirty | ⟨same, direct, indirect⟩ := second.dirty
    · exact Or.inl dirty
    · obtain dirtyBefore | ⟨sameBefore, directBefore, indirectBefore⟩ := first.dirty
      · exact Or.inl (same.trans dirtyBefore)
      · exact Or.inr ⟨same.trans sameBefore, direct.trans directBefore, indirect.trans indirectBefore⟩

/-- The indirect block of an inode is in use. -/
theorem Holds.indirect (holds : Holds fs sin frame) (nonzero : sin.din.indirect ≠ 0) :
    fs.InUse sin.din.indirect :=
  holds.owns.inUse .indirect _ (pointer_nonzero nonzero)

/-- The block of the inode and the frame are in use. -/
theorem Holds.fixed (holds : Holds fs sin frame) (inside : frame block ∨ block = sin.ino) : fs.InUse block := by
  rcases inside with framed | rfl
  · exact holds.owns.framed block framed
  · exact holds.owns.inUse .inode _ rfl

/-- Blocks are taken that the inode does not name in the end. -/
theorem Holds.keeps (holds : Holds fs sin frame) (keeps : Keeps fs after) : Steps frame fs sin after sin where
  holds := by
    refine ⟨?_, keeps.counted holds.counted⟩
    rw [names_congr fun nonzero => keeps.disk _ (holds.indirect nonzero)]
    exact holds.owns.mono (fun _ _ => id) keeps.inUse
  ino := rfl
  nlinks := rfl
  disk := fun block inside => keeps.disk block (holds.fixed inside)
  dirty := Or.inr ⟨rfl, rfl, rfl⟩

/-- Fields of the inode change that name no blocks. -/
theorem Holds.fields (holds : Holds fs sin frame) {din : DiskInode} {dirty : Bool} {reclaimCount : Int}
    (direct : din.direct = sin.din.direct) (indirect : din.indirect = sin.din.indirect)
    (nlinks : din.nlinks = sin.din.nlinks) (stays : dirty = true ∨ dirty = sin.dirty) :
    Steps frame fs sin fs { sin with din, dirty, reclaimCount } where
  holds := by
    refine ⟨?_, holds.counted⟩
    have same : names fs.disk sin.ino din = names fs.disk sin.ino sin.din := by
      funext place
      cases place <;> simp [names, direct, indirect]
    exact same ▸ holds.owns
  ino := rfl
  nlinks := nlinks
  disk := fun _ _ => rfl
  dirty := by
    rcases stays with isDirty | same
    · exact Or.inl isDirty
    · exact Or.inr ⟨same, direct, indirect⟩

/-- A block that is in use and that the inode does not name becomes an entry. -/
theorem Holds.enters (holds : Holds fs sin frame) (nonzero : sin.din.indirect ≠ 0) (small : index < sfsBlkNentry)
    (enters : Enters sin.din.indirect index ino fs after) : Steps frame fs sin after sin where
  holds := by
    refine ⟨?_, enters.counted holds.counted⟩
    rw [names_setEntry nonzero small enters.entries, pointer_nonzero enters.nonzero]
    refine holds.owns.assign _ enters.fresh ?_
    rintro other (used | rfl)
    · exact enters.inUse other used
    · exact enters.entered
  ino := rfl
  nlinks := rfl
  disk := by
    intro block inside
    refine enters.disk block ?_ (holds.fixed inside)
    rintro rfl
    rcases inside with framed | isInode
    · exact holds.owns.apart .indirect _ (pointer_nonzero nonzero) framed
    · have place := holds.owns.once .indirect .inode _ (pointer_nonzero nonzero) (isInode ▸ rfl)
      cases place
  dirty := Or.inr ⟨rfl, rfl, rfl⟩

/-! ## Operations on one inode -/

theorem found_cases {result : Except Int Nat} (called : found fs sin ino = some (result, after, sinAfter)) :
    after = fs ∧ sinAfter = sin := by
  unfold found at called
  split at called
  · obtain ⟨_, rfl, rfl⟩ := called
    exact ⟨rfl, rfl⟩
  · obtain ⟨_, _, rest⟩ := Option.bind_eq_some_iff.mp called
    obtain ⟨_, rfl, rfl⟩ := rest
    exact ⟨rfl, rfl⟩

theorem Holds.getDirect_steps (holds : Holds fs sin frame) {create : Bool} {result : Except Int Nat}
    (small : index < sfsNdirect) (called : getDirect device fs sin index create = some (result, after, sinAfter)) :
    Steps frame fs sin after sinAfter := by
  unfold getDirect at called
  split at called
  · obtain ⟨⟨allocated, middle⟩, alloc, rest⟩ := Option.bind_eq_some_iff.mp called
    obtain ⟨taken, isOk⟩ := sfsBlockAlloc_cases alloc
    have kept := holds.keeps taken
    cases allocated with
    | error ret =>
      obtain ⟨_, rfl, rfl⟩ := rest
      exact kept
    | ok block =>
      obtain ⟨nonzero, fresh, entered, _⟩ := isOk block rfl
      obtain ⟨rfl, rfl⟩ := found_cases rest
      refine ⟨⟨?_, kept.holds.counted⟩, rfl, rfl, kept.disk, Or.inl rfl⟩
      have before : names after.disk sin.ino sin.din = names fs.disk sin.ino sin.din :=
        names_congr fun nonzero => taken.disk _ (holds.indirect nonzero)
      simp only [SfsInode.modify]
      rw [names_setDirect small, before, pointer_nonzero nonzero]
      refine holds.owns.assign _ fresh ?_
      rintro other (used | rfl)
      · exact taken.inUse other used
      · exact entered
  · obtain ⟨rfl, rfl⟩ := found_cases called
    exact holds.refl

theorem Holds.getIndirect_steps (holds : Holds fs sin frame) {create : Bool} {result : Except Int Nat}
    (called : getIndirect device fs sin index create = some (result, after, sinAfter)) :
    Steps frame fs sin after sinAfter := by
  obtain ⟨⟨sub, middle⟩, got, rest⟩ := Option.bind_eq_some_iff.mp called
  obtain ⟨small, cases⟩ := sfsBmapGetSubNolock_cases holds.indirect got
  rcases cases with ⟨⟨code, rfl⟩, keeps⟩ | ⟨⟨block, rfl⟩, keeps⟩ | ⟨block, rfl, nonzero, _, enters⟩ |
    ⟨cleared, ent, block, rfl, zero, nonzero, keeps, fresh, entered, empty, enters⟩
  · obtain ⟨_, rfl, rfl⟩ := rest
    exact holds.keeps keeps
  · simp only [if_true] at rest
    obtain ⟨rfl, rfl⟩ := found_cases rest
    exact holds.keeps keeps
  · simp only [if_true] at rest
    obtain ⟨rfl, rfl⟩ := found_cases rest
    exact holds.enters nonzero small enters
  · simp only [zero, nonzero, if_true, if_false] at rest
    obtain ⟨rfl, rfl⟩ := found_cases rest
    have kept := holds.keeps keeps
    let sinIndirect := sin.modify { sin.din with indirect := ent }
    -- the empty entry block comes first, then its entry
    have indirect : Steps frame fs sin cleared sinIndirect := by
      refine ⟨⟨?_, kept.holds.counted⟩, rfl, rfl, kept.disk, Or.inl rfl⟩
      simp only [sinIndirect, SfsInode.modify]
      rw [names_setIndirect fs.disk zero nonzero empty]
      refine holds.owns.assign _ fresh ?_
      rintro other (used | rfl)
      · exact keeps.inUse other used
      · exact entered
    exact indirect.trans (indirect.holds.enters nonzero small enters)

theorem Holds.get_steps (holds : Holds fs sin frame) {create : Bool} {result : Except Int Nat}
    (called : sfsBmapGetNolock device fs sin index create = some (result, after, sinAfter)) :
    Steps frame fs sin after sinAfter := by
  unfold sfsBmapGetNolock at called
  split at called
  · rename_i small
    exact holds.getDirect_steps small called
  · split at called
    · exact holds.getIndirect_steps called
    · cases called

/-- `sfs_bmap_load_nolock` keeps the blocks. -/
theorem Holds.load_steps (holds : Holds fs sin frame) {result : Except Int Nat}
    (called : sfsBmapLoadNolock device fs sin index = some (result, after, sinAfter)) :
    Steps frame fs sin after sinAfter := by
  unfold sfsBmapLoadNolock at called
  split at called
  · obtain ⟨⟨got, middle, sinMiddle⟩, isGot, rest⟩ := Option.bind_eq_some_iff.mp called
    have steps := holds.get_steps isGot
    cases got with
    | error ret =>
      obtain ⟨_, rfl, rfl⟩ := rest
      exact steps
    | ok block =>
      obtain ⟨_, _, rest⟩ := Option.bind_eq_some_iff.mp rest
      obtain ⟨_, rfl, rfl⟩ := rest
      exact steps.trans (steps.holds.fields rfl rfl rfl (Or.inr rfl))
  · cases called

/-- An entry is cleared before its block is freed. -/
theorem Holds.freeSub_steps (holds : Holds fs sin frame) {ret : Int} (nonzero : sin.din.indirect ≠ 0)
    (small : index < sfsBlkNentry)
    (called : sfsBmapFreeSubNolock device fs sin.din.indirect index = some (ret, after)) :
    Steps frame fs sin after sin := by
  obtain ⟨_, _, rest⟩ := Option.bind_eq_some_iff.mp called
  obtain ⟨⟨read, middle⟩, isRead, rest⟩ := Option.bind_eq_some_iff.mp rest
  obtain ⟨⟨calls, rfl⟩, words⟩ := sfsRbuf_cases isRead
  cases read with
  | error code =>
    obtain ⟨_, rfl⟩ := rest
    exact holds.keeps (Keeps.calls fs calls)
  | ok buf =>
    have isEntry : buf 0 = fs.disk sin.din.indirect index := by simp [words buf rfl]
    simp only at rest
    split at rest
    · obtain ⟨_, rfl⟩ := rest
      exact holds.keeps (Keeps.calls fs calls)
    · rename_i entered
      obtain ⟨⟨code, written⟩, wrote, rest⟩ := Option.bind_eq_some_iff.mp rest
      obtain ⟨callsAfter, ⟨failed, rfl⟩ | ⟨succeeded, rfl⟩⟩ := sfsWbuf_cases wrote
      · simp only [ne_eq, failed, not_false_eq_true, if_true] at rest
        obtain ⟨_, rfl⟩ := rest
        exact holds.keeps ((Keeps.calls fs calls).trans (Keeps.calls _ callsAfter))
      · simp only [succeeded, ne_eq, not_true_eq_false, if_false] at rest
        obtain ⟨last, freed, same⟩ := Option.map_eq_some_iff.mp rest
        obtain ⟨_, rfl⟩ := Prod.mk.inj same
        obtain ⟨_, frees⟩ := sfsBlockFree_cases freed
        have entries : last.disk sin.din.indirect =
            Function.update (fs.disk sin.din.indirect) index 0 := by
          simp [frees.disk, copyWords_one]
        have isNamed : names fs.disk sin.ino sin.din (.entry index) = some (buf 0) := by
          simp only [names, nonzero, small, ne_eq, not_false_eq_true, and_self, if_true, ← isEntry]
          exact pointer_nonzero entered
        refine ⟨⟨?_, frees.counted holds.counted⟩, rfl, rfl, ?_, Or.inr ⟨rfl, rfl, rfl⟩⟩
        · rw [names_setEntry nonzero small entries, pointer_zero]
          exact holds.owns.remove isNamed frees.inUse
        · intro block inside
          have different : block ≠ sin.din.indirect := by
            rintro rfl
            rcases inside with framed | isInode
            · exact holds.owns.apart .indirect _ (pointer_nonzero nonzero) framed
            · have place := holds.owns.once .indirect .inode _ (pointer_nonzero nonzero) (isInode ▸ rfl)
              cases place
          simp [frees.disk, different]

theorem Holds.free_steps (holds : Holds fs sin frame) {ret : Int}
    (called : sfsBmapFreeNolock device fs sin index = some (ret, after, sinAfter)) :
    Steps frame fs sin after sinAfter := by
  unfold sfsBmapFreeNolock at called
  split at called
  · rename_i small
    split at called
    · rename_i nonzero
      obtain ⟨last, freed, rest⟩ := Option.bind_eq_some_iff.mp called
      obtain ⟨_, rfl, rfl⟩ := rest
      obtain ⟨_, frees⟩ := sfsBlockFree_cases freed
      have isNamed : names fs.disk sin.ino sin.din (.direct index) = some (sin.din.direct index) := by
        simp only [names, small, if_true]
        exact pointer_nonzero nonzero
      refine ⟨⟨?_, frees.counted holds.counted⟩, rfl, rfl, fun _ _ => by rw [frees.disk], Or.inl rfl⟩
      simp only [SfsInode.modify, frees.disk]
      rw [names_setDirect small, pointer_zero]
      exact holds.owns.remove isNamed frees.inUse
    · obtain ⟨_, rfl, rfl⟩ := called
      exact holds.refl
  · split at called
    · rename_i inside
      obtain ⟨⟨code, last⟩, freed, same⟩ := Option.map_eq_some_iff.mp called
      obtain ⟨_, rfl, rfl⟩ := same
      exact holds.freeSub_steps inside.2 inside.1 freed
    · obtain ⟨_, rfl, rfl⟩ := called
      exact holds.refl

/-- `sfs_bmap_truncate_nolock` keeps the blocks. -/
theorem Holds.truncate_steps (holds : Holds fs sin frame) {ret : Int}
    (called : sfsBmapTruncateNolock device fs sin = some (ret, after, sinAfter)) :
    Steps frame fs sin after sinAfter := by
  unfold sfsBmapTruncateNolock at called
  split at called
  · obtain ⟨⟨code, middle, sinMiddle⟩, freed, rest⟩ := Option.bind_eq_some_iff.mp called
    have steps := holds.free_steps freed
    simp only at rest
    split at rest
    · obtain ⟨_, rfl, rfl⟩ := rest
      exact steps
    · obtain ⟨_, rfl, rfl⟩ := rest
      exact steps.trans (steps.holds.fields rfl rfl rfl (Or.inl rfl))
  · cases called

theorem Holds.grow_steps {nblks rounds : Nat} (holds : Holds fs sin frame) {ret : Int}
    (called : growBlocks device fs sin nblks rounds = some (ret, after, sinAfter)) :
    Steps frame fs sin after sinAfter := by
  induction rounds generalizing fs sin nblks with
  | zero =>
    obtain ⟨_, rfl, rfl⟩ := called
    exact holds.refl
  | succ rounds ih =>
    obtain ⟨⟨loaded, middle, sinMiddle⟩, isLoaded, rest⟩ := Option.bind_eq_some_iff.mp called
    have steps := holds.load_steps isLoaded
    cases loaded with
    | error code =>
      obtain ⟨_, rfl, rfl⟩ := rest
      exact steps
    | ok block => exact steps.trans (ih steps.holds rest)

theorem Holds.shrink_steps {rounds : Nat} (holds : Holds fs sin frame) {ret : Int}
    (called : shrinkBlocks device fs sin rounds = some (ret, after, sinAfter)) :
    Steps frame fs sin after sinAfter := by
  induction rounds generalizing fs sin with
  | zero =>
    obtain ⟨_, rfl, rfl⟩ := called
    exact holds.refl
  | succ rounds ih =>
    obtain ⟨⟨code, middle, sinMiddle⟩, truncated, rest⟩ := Option.bind_eq_some_iff.mp called
    have steps := holds.truncate_steps truncated
    simp only at rest
    split at rest
    · obtain ⟨_, rfl, rfl⟩ := rest
      exact steps
    · exact steps.trans (ih steps.holds rest)

/-- `sfs_truncfile` keeps the blocks. -/
theorem Holds.truncfile_steps (holds : Holds fs sin frame) {len ret : Int}
    (called : sfsTruncfile device fs sin len = some (ret, after, sinAfter)) :
    Steps frame fs sin after sinAfter := by
  unfold sfsTruncfile at called
  split at called
  · obtain ⟨_, rfl, rfl⟩ := called
    exact holds.refl
  · simp only at called
    split at called
    · split at called
      · obtain ⟨_, rfl, rfl⟩ := called
        exact holds.refl
      · cases called
    · obtain ⟨⟨code, middle, sinMiddle⟩, resized, rest⟩ := Option.bind_eq_some_iff.mp called
      have steps : Steps frame fs sin middle sinMiddle := by
        unfold resize at resized
        split at resized
        · exact holds.grow_steps resized
        · exact holds.shrink_steps resized
      simp only at rest
      split at rest
      · obtain ⟨_, rfl, rfl⟩ := rest
        exact steps
      · split at rest
        · obtain ⟨_, rfl, rfl⟩ := rest
          exact steps.trans (steps.holds.fields rfl rfl rfl (Or.inl rfl))
        · cases rest

theorem Holds.vopTruncate_steps (holds : Holds fs sin frame) {len ret : Int}
    (called : vopTruncate device fs sin len = some (ret, after, sinAfter)) :
    Steps frame fs sin after sinAfter := by
  unfold vopTruncate at called
  split at called
  · exact holds.truncfile_steps called
  · cases called

/-- `sfs_tryseek` keeps the blocks. -/
theorem Holds.tryseek_steps (holds : Holds fs sin frame) {pos ret : Int}
    (called : sfsTryseek device fs sin pos = some (ret, after, sinAfter)) :
    Steps frame fs sin after sinAfter := by
  unfold sfsTryseek at called
  split at called
  · obtain ⟨_, rfl, rfl⟩ := called
    exact holds.refl
  · split at called
    · exact holds.vopTruncate_steps called
    · obtain ⟨_, rfl, rfl⟩ := called
      exact holds.refl

end Ucore.Volume
