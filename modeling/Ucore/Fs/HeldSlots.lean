import Ucore.Fs.HeldNodes
import Ucore.Fs.ReadOnly

/-!
# Slots that hold inodes

Between the calls of processes every slot is free or open, and every open slot holds a
reference to its inode. A call opens a slot, closes one or uses one, and the inodes of all
other slots stay in memory.
-/

namespace Ucore.Vfs

open Tally Volume

variable {F : Type} [DecidableEq F]

/-- Slots have no users but their descriptors, and every inode has the references of the open
slots and so many others. -/
structure HeldSlots (live : Finset F) (others : Node → Nat) (state : VfsState F) : Prop where
  slot : ∀ slot ∈ Fs.slots live, Fs.SlotOk (state.files.file slot) slot.2 0 0
  refs : ∀ node, (tally (Fs.slots live) state.files.names node : Int) + others node ≤ (state.counts node).refCount

variable {disk : Nat → Int} {memory : Nat → Bool} {state middle after : VfsState F} {files : F} {path : Name}
  {openFlags : BitVec 32} {node : Node} {live : Finset F} {others : Node → Nat} {slot : Fs.Slot F} {file : Fs.File Node}
  {ret fd : Int} {changed : Node → Prop}

omit [DecidableEq F] in
/-- An open slot has one user. -/
theorem HeldSlots.one (heldSlots : HeldSlots live others state) (member : slot ∈ Fs.slots live)
    (opened : (state.files.file slot).status = .opened) : (state.files.file slot).openCount = 1 := by
  have count := (heldSlots.slot slot member).count
  simpa [opened] using count

omit [DecidableEq F] in
/-- A slot is free or open. -/
theorem HeldSlots.idle (heldSlots : HeldSlots live others state) (member : slot ∈ Fs.slots live) :
    (state.files.file slot).status = .none ∨ (state.files.file slot).status = .opened := by
  have ok := heldSlots.slot slot member
  cases status : (state.files.file slot).status with
  | none => exact Or.inl rfl
  | opened => exact Or.inr rfl
  | init =>
    have opening := ok.opening
    simp [status] at opening
  | closed => exact absurd (ok.closing status) (Nat.lt_irrefl 0)

omit [DecidableEq F] in
/-- The inode of an open slot is held. -/
theorem HeldSlots.held (heldSlots : HeldSlots live others state) (member : slot ∈ Fs.slots live)
    (opened : (state.files.file slot).status = .opened) (isNode : (state.files.file slot).node = some node) :
    0 < (state.counts node).refCount := by
  have names : state.files.names slot = some node := by
    rw [Fs.FileState.names, Fs.File.names, if_pos (Or.inl opened), isNode]
  have counted : 0 < tally (Fs.slots live) state.files.names node := tally_pos member names
  have refs := heldSlots.refs node
  omega

omit [DecidableEq F] in
/-- A second slot, or another user, holds an inode as well. -/
theorem HeldSlots.twice (heldSlots : HeldSlots live others state) {other : Fs.Slot F} (member : slot ∈ Fs.slots live)
    (opened : (state.files.file slot).status = .opened) (isNode : (state.files.file slot).node = some node)
    (also : other ∈ Fs.slots live ∧ other ≠ slot ∧ (state.files.file other).status = .opened ∧
      (state.files.file other).node = some node ∨ 0 < others node) : 1 < (state.counts node).refCount := by
  classical
  have refs := heldSlots.refs node
  have names : state.files.names slot = some node := by
    rw [Fs.FileState.names, Fs.File.names, if_pos (Or.inl opened), isNode]
  rcases also with ⟨otherMember, different, otherOpened, isOther⟩ | more
  · have namesOther : state.files.names other = some node := by
      rw [Fs.FileState.names, Fs.File.names, if_pos (Or.inl otherOpened), isOther]
    have rest : 0 < tally ((Fs.slots live).erase slot) state.files.names node :=
      tally_pos (Finset.mem_erase.mpr ⟨different, otherMember⟩) namesOther
    have erased : tally ((Fs.slots live).erase slot) state.files.names node + hit (state.files.names slot) node =
        tally (Fs.slots live) state.files.names node := tally_erase member
    rw [names, hit_some, if_pos rfl] at erased
    omega
  · have counted : 0 < tally (Fs.slots live) state.files.names node := tally_pos member names
    omega

/-- One slot changes, and the references change with what it names. -/
theorem HeldSlots.change (heldSlots : HeldSlots live others state) (member : slot ∈ Fs.slots live)
    (elsewhere : ∀ other, other ≠ slot → after.files.file other = state.files.file other)
    (here : Fs.SlotOk (after.files.file slot) slot.2 0 0)
    (refs : ∀ node, (state.counts node).refCount + (hit (after.files.names slot) node : Int) ≤
      (after.counts node).refCount + (hit (state.files.names slot) node : Int)) : HeldSlots live others after where
  slot := by
    intro other inside
    by_cases same : other = slot
    · exact same ▸ here
    · rw [elsewhere other same]
      exact heldSlots.slot other inside
  refs := by
    intro node
    have changes : tally (Fs.slots live) after.files.names node + hit (state.files.names slot) node =
        tally (Fs.slots live) state.files.names node + hit (after.files.names slot) node :=
      tally_change member fun other different => by
        rw [Fs.FileState.names, elsewhere other different, Fs.FileState.names]
    have before := heldSlots.refs node
    have now := refs node
    omega

omit [DecidableEq F] in
/-- References may be added while no slot changes what it is. -/
theorem HeldSlots.grow (heldSlots : HeldSlots live others state)
    (slots : ∀ slot, after.files.file slot = state.files.file slot)
    (grows : ∀ node, (state.counts node).refCount ≤ (after.counts node).refCount) : HeldSlots live others after where
  slot := fun slot member => slots slot ▸ heldSlots.slot slot member
  refs := by
    intro node
    have same : after.files.names = state.files.names := by
      funext slot
      rw [Fs.FileState.names, slots, Fs.FileState.names]
    rw [same]
    exact Int.le_trans (heldSlots.refs node) (grows node)

/-! ## Open -/

omit [DecidableEq F] in
/-- What a state counts does not depend on its tables. -/
theorem counts_tables {table : Fs.FileState F Node} (same : table.inodes = state.files.inodes) :
    VfsState.counts { state with files := table } = state.counts := by
  funext node
  have present : VfsState.present { state with files := table } node ↔ state.present node := by
    cases node with
    | sfs => exact Iff.rfl
    | device => exact Iff.rfl
  simp only [VfsState.counts, present, same]

/-- The slot that `file_open` fills. -/
theorem fileOpenBegin_slot {table next : Fs.FileState F Node}
    (called : Fs.fileOpenBegin table (some files) openFlags = some (.ok slot, next)) :
    slot.1 = files ∧ slot.2 < Fs.nentry := by
  simp only [Fs.fileOpenBegin] at called
  split at called
  · obtain ⟨live, isLive, rest⟩ := Option.bind_eq_some_iff.mp called
    split at rest
    · cases (Prod.mk.inj (Option.some.inj rest)).1
    · rename_i number isFree
      simp only at rest
      split at rest
      · obtain ⟨same, _⟩ := Prod.mk.inj (Option.some.inj rest)
        obtain rfl := Except.ok.inj same
        refine ⟨?_, (Fs.findFree_exact isFree).1⟩
        unfold Fs.getFdArray at isLive
        simp only [Option.bind_some] at isLive
        split at isLive
        · exact (Option.some.inj isLive).symm
        · cases isLive
      · cases rest
  · cases (Prod.mk.inj (Option.some.inj called)).1

/-- The inode that a `file_open` empties. -/
def FileEmptied (disk : Nat → Int) (memory : Nat → Bool) (state : VfsState F) (files : F) (path : Name)
    (openFlags : BitVec 32) (node : Node) : Prop :=
  ∃ slot table, Fs.fileOpenBegin state.files (some files) openFlags = some (.ok slot, table) ∧
    Emptied disk memory { state with files := table } files path openFlags node

omit [DecidableEq F] in
/-- A slot that is taken changes no inode. -/
theorem Steady.taken {table : Fs.FileState F Node} (same : table.inodes = state.files.inodes)
    (steady : Steady changed { state with files := table } after) : Steady changed state after := by
  refine ⟨fun node => ?_, fun ino sin isIn held => ?_, steady.sane, steady.bootfs⟩
  · rw [← counts_tables same]
    exact steady.grows node
  · rw [← counts_tables same] at held
    exact steady.keeps ino sin isIn held

/-- What an open does in `vfs_open` keeps the inodes. -/
theorem fileOpen_steady {table : Fs.FileState F Node} {result : Except Int Node}
    (begun : Fs.fileOpenBegin state.files (some files) openFlags = some (.ok slot, table))
    (isOpened : vfsOpen disk memory { state with files := table } files path openFlags = some (result, after)) :
    Steady (FileEmptied disk memory state files path openFlags) state after := by
  have opens := (vfsOpen_steady isOpened).mono fun node emptied =>
    (⟨slot, table, begun, emptied⟩ : FileEmptied disk memory state files path openFlags node)
  obtain ⟨_, _, isTable⟩ := fileOpenBegin_cases begun
  have same : table.inodes = state.files.inodes := by rw [isTable]; rfl
  exact Steady.taken same opens

/-- The slot of an open that succeeds, and the open file in it. -/
structure Opens (disk : Nat → Int) (memory : Nat → Bool) (state : VfsState F) (files : F) (path : Name)
    (openFlags : BitVec 32) (slot : Fs.Slot F) (node : Node) (pos : Nat) (after : VfsState F) : Prop where
  mine : slot.1 = files
  inTable : slot.2 < Fs.nentry
  free : (state.files.file slot).status = .none
  opened : ∃ table looked, Fs.fileOpenBegin state.files (some files) openFlags = some (.ok slot, table) ∧
    vfsOpen disk memory { state with files := table } files path openFlags = some (.ok node, looked) ∧
      openPos looked node openFlags = some pos ∧ after.volume = looked.volume
  bumps : ∀ other, (after.counts other).refCount = (state.counts other).refCount + (hit (some node) other : Int)
  slots : ∃ opening, ∀ other, after.files.file other = if other = slot then
    { filledFile (state.files.file slot) node openFlags pos opening with status := .opened, openCount := 1 }
    else state.files.file other

/-- A slot that is taken and given back is free as before. -/
theorem fileOpen_error (called : fileOpen disk memory state files path openFlags = some (.error ret, after)) :
    Steady (FileEmptied disk memory state files path openFlags) state after ∧ ((∀ slot, after.files.file slot =
      state.files.file slot) ∨ ∃ slot, slot.1 = files ∧ slot.2 < Fs.nentry ∧ (state.files.file slot).status = .none ∧
        ∀ other, after.files.file other = if other = slot then
          { state.files.file slot with status := .none, node := none } else state.files.file other) := by
  obtain ⟨⟨allocated, table⟩, begun, rest⟩ := Option.bind_eq_some_iff.mp called
  have cases := fileOpenBegin_cases begun
  cases allocated with
  | error code =>
    obtain rfl : table = state.files := cases
    obtain ⟨_, rfl⟩ := Prod.mk.inj (Option.some.inj rest)
    exact ⟨Steady.same (fun _ => Int.le_refl _) rfl rfl, Or.inl fun _ => rfl⟩
  | ok slot =>
    obtain ⟨free, unused, isTable⟩ := cases
    obtain ⟨mine, inTable⟩ := fileOpenBegin_slot begun
    obtain ⟨⟨opened, looked⟩, isOpened, rest⟩ := Option.bind_eq_some_iff.mp rest
    cases opened with
    | ok node =>
      obtain ⟨_, isOk⟩ := fillSlot_ok rest
      cases isOk
    | error code =>
      obtain ⟨last, freed, isLast⟩ := Option.map_eq_some_iff.mp rest
      obtain ⟨_, rfl⟩ := Prod.mk.inj isLast
      have tables : looked.files.files = table.files := by
        rcases vfsOpen_counts isOpened with ⟨_, same⟩ | ⟨_, _, bumps⟩
        · exact same.files
        · exact bumps.files
      have stays : ∀ other, looked.files.file other = table.file other := by
        intro other
        simp only [Fs.FileState.file, tables]
      have isFile : looked.files.file slot = { state.files.file slot with status := .init, node := none } := by
        rw [stays, isTable, Fs.FileState.setFile_self]
      obtain rfl := fdArrayFree_init isFile rfl unused freed
      constructor
      · have kept := fileOpen_steady begun isOpened
        exact ⟨kept.grows, kept.keeps, kept.sane, kept.bootfs⟩
      · refine Or.inr ⟨slot, mine, inTable, free, fun other => ?_⟩
        rw [Fs.FileState.setFile_file]
        by_cases isSlot : other = slot
        · rw [if_pos isSlot, if_pos isSlot]
        · rw [if_neg isSlot, if_neg isSlot, stays, isTable, Fs.FileState.setFile_file, if_neg isSlot]

/-- An open that succeeds fills a free slot. -/
theorem fileOpen_ok {number : Nat} (called : fileOpen disk memory state files path openFlags = some (.ok number, after)) :
    Steady (FileEmptied disk memory state files path openFlags) state after ∧
      ∃ slot node pos, number = (state.files.file slot).fd ∧
        Opens disk memory state files path openFlags slot node pos after := by
  obtain ⟨⟨allocated, table⟩, begun, rest⟩ := Option.bind_eq_some_iff.mp called
  have cases := fileOpenBegin_cases begun
  cases allocated with
  | error code => cases (Prod.mk.inj (Option.some.inj rest)).1
  | ok slot =>
    obtain ⟨free, unused, isTable⟩ := cases
    obtain ⟨mine, inTable⟩ := fileOpenBegin_slot begun
    obtain ⟨⟨opened, looked⟩, isOpened, rest⟩ := Option.bind_eq_some_iff.mp rest
    cases opened with
    | error code =>
      obtain ⟨_, _, isError⟩ := Option.map_eq_some_iff.mp rest
      cases (Prod.mk.inj isError).1
    | ok node =>
      have kept := fileOpen_steady begun isOpened
      have bumps := vfsOpen_counts isOpened
      have stays : ∀ other, looked.files.file other = table.file other := by
        intro other
        simp only [Fs.FileState.file, bumps.files]
      have isFile : looked.files.file slot = { state.files.file slot with status := .init, node := none } := by
        rw [stays, isTable, Fs.FileState.setFile_self]
      obtain ⟨pos, isPos, rest⟩ := Option.bind_eq_some_iff.mp rest
      obtain ⟨last, filled, rest⟩ := Option.bind_eq_some_iff.mp rest
      obtain ⟨isNumber, rfl⟩ := Prod.mk.inj (Option.some.inj rest)
      rw [isFile] at filled isNumber
      simp only [Fs.fdArrayOpen, Fs.FileState.setFile_self] at filled
      rw [if_pos ⟨rfl, by simp [filledFile]⟩] at filled
      obtain rfl := Option.some.inj filled
      refine ⟨⟨kept.grows, kept.keeps, kept.sane, kept.bootfs⟩, slot, node, pos, (Except.ok.inj isNumber).symm, ?_⟩
      refine ⟨mine, inTable, free, ⟨table, looked, begun, isOpened, isPos, rfl⟩, ?_, looked.files.opened, ?_⟩
      · intro other
        have same : VfsState.counts { state with files := table } = state.counts := counts_tables (by rw [isTable]; rfl)
        have counts := congrFun bumps.counts other
        rw [same, bump] at counts
        have isCounts : (looked.counts other).refCount = (state.counts other).refCount + (hit (some node) other : Int) := by
          rw [counts]
          by_cases isNode : other = node
          · subst isNode
            simp
          · rw [Function.update_of_ne isNode, hit_some, if_neg (Ne.symm isNode)]
            simp
        rw [← isCounts]
        rfl
      · intro other
        rw [Fs.FileState.setFile_file]
        by_cases isSlot : other = slot
        · rw [if_pos isSlot, if_pos isSlot]
          simp [filledFile, unused]
        · rw [if_neg isSlot, if_neg isSlot, Fs.FileState.setFile_file, if_neg isSlot]
          have same : Fs.FileState.file { looked.files with opened := looked.files.opened + 1 } other = looked.files.file other := rfl
          rw [same, stays, isTable, Fs.FileState.setFile_file, if_neg isSlot]

omit [DecidableEq F] in
/-- A slot of a live table. -/
theorem mem_live (mine : files ∈ live) (same : slot.1 = files) (inTable : slot.2 < Fs.nentry) : slot ∈ Fs.slots live := by
  have member : (files, slot.2) ∈ Fs.slots live := Fs.mem_slots.mpr ⟨mine, inTable⟩
  rwa [← same] at member

theorem fileOpen_heldSlots {result : Except Int Nat} (heldSlots : HeldSlots live others state) (mine : files ∈ live)
    (called : fileOpen disk memory state files path openFlags = some (result, after)) : HeldSlots live others after := by
  cases result with
  | error code =>
    obtain ⟨steady, same | ⟨slot, isMine, inTable, free, slots⟩⟩ := fileOpen_error called
    · exact heldSlots.grow same steady.grows
    · have member := mem_live mine isMine inTable
      have ok := heldSlots.slot slot member
      have isSlot := slots slot
      rw [if_pos rfl] at isSlot
      refine heldSlots.change member (fun other different => by rw [slots, if_neg different]) ?_ fun node => ?_
      · rw [isSlot]
        refine ⟨ok.fd, ?_, by simp, by simp, by simp, by simp⟩
        have count := ok.count
        rw [if_neg (by simp [free])] at count
        simpa using count
      · have silent : after.files.names slot = none := by simp [Fs.FileState.names, isSlot, Fs.File.names]
        rw [silent, hit_none]
        have grows := steady.grows node
        omega
  | ok number =>
    obtain ⟨_, slot, node, pos, _, opens⟩ := fileOpen_ok called
    obtain ⟨opening, slots⟩ := opens.slots
    have member := mem_live mine opens.mine opens.inTable
    have isSlot := slots slot
    rw [if_pos rfl] at isSlot
    refine heldSlots.change member (fun other different => by rw [slots, if_neg different]) ?_ fun other => ?_
    · rw [isSlot]
      exact ⟨(heldSlots.slot slot member).fd, by simp, by simp, by simp, by simp, by simp [filledFile]⟩
    · have named : after.files.names slot = some node := by simp [Fs.FileState.names, isSlot, Fs.File.names, filledFile]
      rw [named, opens.bumps other]
      omega

/-! ## Duplicates -/

/-- A slot becomes a second descriptor of an open file. -/
structure Duplicates (state : VfsState F) (files : F) (source slot : Fs.Slot F) (node : Node) (after : VfsState F) : Prop where
  mine : slot.1 = files
  inTable : slot.2 < Fs.nentry
  free : (state.files.file slot).status = .none
  isNode : (state.files.file source).node = some node
  volume : after.volume = state.volume
  bumps : ∀ other, (after.counts other).refCount = (state.counts other).refCount + (hit (some node) other : Int)
  slots : ∃ opening, ∀ other, after.files.file other = if other = slot then
    { state.files.file slot with
      status := .opened
      pos := (state.files.file source).pos
      readable := (state.files.file source).readable
      writable := (state.files.file source).writable
      node := some node
      openCount := 1
      opening }
    else state.files.file other

/-- A slot that `fd_array_alloc` takes. -/
theorem fdArrayAlloc_cases {table next : Fs.FileState F Node} {allocated : Except Int (Fs.Slot F)}
    (called : Fs.fdArrayAlloc table (some files) fd = some (allocated, next)) :
    match allocated with
    | .error _ => next = table
    | .ok slot => slot.1 = files ∧ slot.2 < Fs.nentry ∧ (table.file slot).status = .none ∧ (table.file slot).openCount = 0 ∧
        next = table.setFile slot { table.file slot with status := .init, node := none } := by
  obtain ⟨live, isLive, rest⟩ := Option.bind_eq_some_iff.mp called
  have same : live = files := by
    unfold Fs.getFdArray at isLive
    simp only [Option.bind_some] at isLive
    split at isLive
    · exact (Option.some.inj isLive).symm
    · cases isLive
  subst same
  split at rest
  · obtain ⟨rfl, rfl⟩ := Prod.mk.inj (Option.some.inj rest)
    rfl
  · rename_i number isFree
    simp only at rest
    split at rest
    · rename_i unused
      obtain ⟨rfl, rfl⟩ := Prod.mk.inj (Option.some.inj rest)
      have found := Fs.findFree_exact isFree
      exact ⟨rfl, found.1, found.2, unused, rfl⟩
    · cases rest

omit [DecidableEq F] in
/-- A duplicate takes a reference to an inode that is held. -/
theorem dup_bumps {table : Fs.FileState F Node} (held : 0 < (state.counts node).refCount)
    (inodes : table.inodes = (Fs.vfsOpen state.files node).2.inodes) (other : Node) :
    (VfsState.counts { state with files := table } other).refCount =
      (state.counts other).refCount + (hit (some node) other : Int) := by
  have present : state.present node := by
    by_contra absent
    simp [VfsState.counts, absent] at held
  have same : ∀ other, VfsState.present { state with files := table } other ↔ state.present other := by
    intro other
    cases other with
    | sfs => exact Iff.rfl
    | device => exact Iff.rfl
  simp only [VfsState.counts, same, inodes, Fs.vfsOpen_exact]
  by_cases isNode : other = node
  · subst isNode
    simp [present]
  · rw [Function.update_of_ne isNode, hit_some, if_neg (Ne.symm isNode)]
    simp

theorem fileDup_ok {fd1 fd2 : Int} {number : Nat} (heldSlots : HeldSlots live others state) (mine : files ∈ live)
    (called : fileDup state files fd1 fd2 = some (.ok number, after)) :
    ∃ source slot node, number = (state.files.file slot).fd ∧
      Fs.fd2file state.files (some files) fd1 = some (.ok source) ∧ Duplicates state files source slot node after := by
  obtain ⟨⟨result, table⟩, dups, rest⟩ := Option.bind_eq_some_iff.mp called
  obtain ⟨rfl, rfl⟩ := Prod.mk.inj (Option.some.inj rest)
  obtain ⟨found, isFound, rest⟩ := Option.bind_eq_some_iff.mp dups
  cases found with
  | error code => cases (Prod.mk.inj (Option.some.inj rest)).1
  | ok source =>
    obtain ⟨⟨allocated, taken⟩, isTaken, rest⟩ := Option.bind_eq_some_iff.mp rest
    have cases := fdArrayAlloc_cases isTaken
    cases allocated with
    | error code => cases (Prod.mk.inj (Option.some.inj rest)).1
    | ok slot =>
      obtain ⟨isMine, inTable, free, unused, isTable⟩ := cases
      obtain ⟨sameSource, opened, inFiles⟩ := Fs.fd2file_slot isFound
      have different : source ≠ slot := by
        rintro rfl
        rw [free] at opened
        cases opened
      have isSource : taken.file source = state.files.file source := by
        rw [isTable, Fs.FileState.setFile_file, if_neg different]
      have isSlot : taken.file slot = { state.files.file slot with status := .init, node := none } := by
        rw [isTable, Fs.FileState.setFile_self]
      obtain ⟨last, dup, same⟩ := Option.map_eq_some_iff.mp rest
      obtain ⟨isNumber, rfl⟩ := Prod.mk.inj same
      simp only [Fs.fdArrayDup, isSlot, isSource, opened, and_self, if_true] at dup
      obtain ⟨node, isNode, filled⟩ := Option.bind_eq_some_iff.mp dup
      simp only [Fs.vfsOpen_exact, Fs.fdArrayOpen, Fs.FileState.setFile_self] at filled
      simp only [ne_eq, reduceCtorEq, not_false_eq_true, and_self, if_true] at filled
      obtain rfl := Option.some.inj filled
      have held := heldSlots.held (mem_live mine (congrArg Prod.fst sameSource) (sameSource ▸ inFiles)) opened isNode
      rw [Fs.FileState.setFile_self] at isNumber
      refine ⟨source, slot, node, (Except.ok.inj isNumber).symm, isFound, isMine, inTable, free, isNode, rfl, ?_, taken.opened, ?_⟩
      · apply dup_bumps held
        rw [Fs.vfsOpen_exact, isTable]
        rfl
      · intro other
        rw [Fs.FileState.setFile_file]
        by_cases isOther : other = slot
        · rw [if_pos isOther, if_pos isOther]
          simp [unused]
        · rw [if_neg isOther, if_neg isOther, Fs.FileState.setFile_file, if_neg isOther]
          have same : taken.file other = state.files.file other := by
            rw [isTable, Fs.FileState.setFile_file, if_neg isOther]
          exact same

theorem fileDup_error {fd1 fd2 : Int} (called : fileDup state files fd1 fd2 = some (.error ret, after)) : after = state := by
  obtain ⟨⟨result, table⟩, dups, rest⟩ := Option.bind_eq_some_iff.mp called
  obtain ⟨rfl, rfl⟩ := Prod.mk.inj (Option.some.inj rest)
  obtain ⟨found, isFound, rest⟩ := Option.bind_eq_some_iff.mp dups
  cases found with
  | error code =>
    obtain ⟨_, rfl⟩ := Prod.mk.inj (Option.some.inj rest)
    rfl
  | ok source =>
    obtain ⟨⟨allocated, taken⟩, isTaken, rest⟩ := Option.bind_eq_some_iff.mp rest
    have cases := fdArrayAlloc_cases isTaken
    cases allocated with
    | error code =>
      obtain ⟨_, rfl⟩ := Prod.mk.inj (Option.some.inj rest)
      obtain rfl : taken = state.files := cases
      rfl
    | ok slot =>
      obtain ⟨_, _, isOk⟩ := Option.map_eq_some_iff.mp rest
      cases (Prod.mk.inj isOk).1

theorem fileDup_heldSlots {fd1 fd2 : Int} {result : Except Int Nat} (heldSlots : HeldSlots live others state)
    (mine : files ∈ live) (called : fileDup state files fd1 fd2 = some (result, after)) : HeldSlots live others after := by
  cases result with
  | error code => exact fileDup_error called ▸ heldSlots
  | ok number =>
    obtain ⟨source, slot, node, _, _, dups⟩ := fileDup_ok heldSlots mine called
    obtain ⟨opening, slots⟩ := dups.slots
    have member := mem_live mine dups.mine dups.inTable
    have isSlot := slots slot
    rw [if_pos rfl] at isSlot
    refine heldSlots.change member (fun other different => by rw [slots, if_neg different]) ?_ fun other => ?_
    · rw [isSlot]
      exact ⟨(heldSlots.slot slot member).fd, by simp, by simp, by simp, by simp, by simp⟩
    · have named : after.files.names slot = some node := by simp [Fs.FileState.names, isSlot, Fs.File.names]
      rw [named, dups.bumps other]
      omega

/-! ## Calls on a descriptor -/

/-- A call has used an open slot, whose position is all that may have changed. -/
structure Uses (state : VfsState F) (slot : Fs.Slot F) (pos : Int) (after : VfsState F) : Prop where
  inodes : after.files.inodes = state.files.inodes
  slots : ∀ other, after.files.file other = if other = slot then { state.files.file slot with pos } else
    state.files.file other

/-- A user of an open slot goes, and the descriptor stays. -/
theorem fdArrayRelease_exact (isFile : state.files.file slot = { file with openCount := 2 }) (opened : file.status = .opened)
    (called : fdArrayRelease disk state slot = some after) :
    after = { state with files := state.files.setFile slot { file with openCount := 1 } } := by
  simp only [fdArrayRelease, isFile] at called
  rw [if_pos ⟨Or.inl opened, by decide⟩] at called
  simp only [dropUser] at called
  rw [if_neg (by decide)] at called
  exact (Option.some.inj called).symm

/-- A descriptor that is in use has the slot that it leads to. -/
theorem acquireFd_held {permitted : Fs.File Node → Bool} {table : Fs.FileState F Node} (heldSlots : HeldSlots live others state)
    (mine : files ∈ live) (called : Fs.acquireFd state.files (some files) fd permitted = some (.ok slot, table)) :
    Fs.fd2file state.files (some files) fd = some (.ok slot) ∧ permitted (state.files.file slot) = true ∧
      slot ∈ Fs.slots live ∧ (state.files.file slot).status = .opened ∧
        table = state.files.setFile slot { state.files.file slot with openCount := 2 } := by
  obtain ⟨isFound, isPermitted, isTable⟩ := acquireFd_cases called
  obtain ⟨sameSlot, opened, inFiles⟩ := Fs.fd2file_slot isFound
  have member : slot ∈ Fs.slots live := mem_live mine (congrArg Prod.fst sameSlot) (sameSlot ▸ inFiles)
  rw [heldSlots.one member opened] at isTable
  exact ⟨isFound, isPermitted, member, opened, isTable⟩

/-- A call that moves the position at most gives the slot up. -/
theorem Uses.of {pos : Int} (heldSlots : HeldSlots live others state) (member : slot ∈ Fs.slots live)
    (opened : (state.files.file slot).status = .opened) (called : fdArrayRelease disk middle slot = some after)
    (isFiles : middle.files = (state.files.setFile slot { state.files.file slot with openCount := 2 }).setFile slot
      { state.files.file slot with openCount := 2, pos }) :
    Uses state slot pos after ∧ after.volume = middle.volume := by
  have isFile : middle.files.file slot = { { state.files.file slot with pos } with openCount := 2 } := by
    rw [isFiles, Fs.FileState.setFile_self]
  rw [fdArrayRelease_exact isFile opened called]
  refine ⟨⟨?_, fun other => ?_⟩, rfl⟩
  · simp only [isFiles, Fs.FileState.setFile, Fs.FileState.setFiles]
  · rw [Fs.FileState.setFile_file]
    by_cases isSlot : other = slot
    · rw [if_pos isSlot, if_pos isSlot, ← heldSlots.one member opened]
    · rw [if_neg isSlot, if_neg isSlot, isFiles, Fs.FileState.setFile_file, if_neg isSlot, Fs.FileState.setFile_file,
        if_neg isSlot]

omit [DecidableEq F] in
/-- The same inodes are in memory and none has another user. -/
theorem counts_eq (inodes : after.files.inodes = state.files.inodes)
    (present : ∀ ino, (after.volume.inodes ino).isSome = (state.volume.inodes ino).isSome) :
    after.counts = state.counts := by
  funext node
  have same : after.present node ↔ state.present node := by
    cases node with
    | sfs ino => simp only [VfsState.present, present]
    | device => exact Iff.rfl
  simp only [VfsState.counts, same, inodes]

/-- Nothing but one position has changed. -/
theorem Uses.heldSlots {pos : Int} (uses : Uses state slot pos after) (heldSlots : HeldSlots live others state)
    (member : slot ∈ Fs.slots live)
    (present : ∀ ino, (after.volume.inodes ino).isSome = (state.volume.inodes ino).isSome) :
    HeldSlots live others after := by
  have isSlot := uses.slots slot
  rw [if_pos rfl] at isSlot
  refine heldSlots.change member (fun other different => by rw [uses.slots, if_neg different]) ?_ fun node => ?_
  · rw [isSlot]
    have ok := heldSlots.slot slot member
    exact ⟨ok.fd, ok.count, ok.opening, ok.used, ok.closing, ok.named⟩
  · have named : after.files.names slot = state.files.names slot := by
      simp [Fs.FileState.names, isSlot, Fs.File.names]
    rw [named, counts_eq uses.inodes present]

/-- `file_read` and `file_write` of a file that is open. -/
structure Transfers (state : VfsState F) (files : F) (fd : Int) (permitted : Fs.File Node → Bool) (len : Nat) (write : Bool)
    (slot : Fs.Slot F) (ino : Nat) (sin sinAfter : SfsInode) (copied : Nat) (after : VfsState F) : Prop where
  found : Fs.fd2file state.files (some files) fd = some (.ok slot)
  isPermitted : permitted (state.files.file slot) = true
  isNode : (state.files.file slot).node = some (.sfs ino)
  isIn : state.volume.inodes ino = some sin
  io : ∃ ret, sfsIoNolock sin (state.files.file slot).pos len write = some (ret, copied, sinAfter)
  volume : after.volume = state.volume.put ino state.volume.fs (some sinAfter)
  uses : Uses state slot ((state.files.file slot).pos + copied) after

theorem transfer_cases {permitted : Fs.File Node → Bool} {len copied : Nat} {write : Bool}
    (heldSlots : HeldSlots live others state) (mine : files ∈ live)
    (called : transfer disk state (Fs.acquireFd state.files (some files) fd permitted) len write = some (ret, copied, after)) :
    after = state ∨ ∃ slot ino sin sinAfter, slot ∈ Fs.slots live ∧ (state.files.file slot).status = .opened ∧
      Transfers state files fd permitted len write slot ino sin sinAfter copied after := by
  obtain ⟨⟨acquired, table⟩, begun, rest⟩ := Option.bind_eq_some_iff.mp called
  cases acquired with
  | error code =>
    obtain rfl : table = state.files := acquireFd_cases begun
    obtain ⟨_, same⟩ := Prod.mk.inj (Option.some.inj rest)
    exact Or.inl (Prod.mk.inj same).2.symm
  | ok slot =>
    obtain ⟨isFound, isPermitted, member, opened, rfl⟩ := acquireFd_held heldSlots mine begun
    obtain ⟨node, isNode, rest⟩ := Option.bind_eq_some_iff.mp rest
    obtain ⟨⟨code, amount, middle⟩, isIo, rest⟩ := Option.bind_eq_some_iff.mp rest
    obtain ⟨last, released, same⟩ := Option.map_eq_some_iff.mp rest
    obtain ⟨_, same⟩ := Prod.mk.inj same
    obtain ⟨rfl, rfl⟩ := Prod.mk.inj same
    change ((state.files.setFile slot _).file slot).node = some node at isNode
    change vopIo _ node ((state.files.setFile slot _).file slot).pos len write = _ at isIo
    rw [Fs.FileState.setFile_self] at isNode isIo
    obtain ⟨_, _, rest⟩ := Option.bind_eq_some_iff.mp isIo
    cases node with
    | device => cases rest
    | sfs ino =>
      obtain ⟨sin, isIn, rest⟩ := Option.bind_eq_some_iff.mp rest
      split at rest
      · obtain ⟨⟨outcome, moves, sinAfter⟩, io, rest⟩ := Option.bind_eq_some_iff.mp rest
        obtain ⟨_, same⟩ := Prod.mk.inj (Option.some.inj rest)
        obtain ⟨rfl, rfl⟩ := Prod.mk.inj same
        have isOpen : ((state.files.setFile slot { state.files.file slot with openCount := 2 }).file slot).status = .opened := by
          rw [Fs.FileState.setFile_self]
          exact opened
        simp only [moved] at released
        rw [if_pos isOpen] at released
        obtain ⟨uses, volume⟩ := Uses.of heldSlots member opened released (by rw [Fs.FileState.setFile_self])
        exact Or.inr ⟨slot, ino, sin, sinAfter, member, opened, isFound, isPermitted, isNode, isIn, ⟨_, io⟩, volume, uses⟩
      · cases rest

/-- The file that a transfer grows stays in memory. -/
theorem Transfers.heldSlots {permitted : Fs.File Node → Bool} {len copied : Nat} {write : Bool} {ino : Nat}
    {sin sinAfter : SfsInode} (heldSlots : HeldSlots live others state) (member : slot ∈ Fs.slots live)
    (transfers : Transfers state files fd permitted len write slot ino sin sinAfter copied after) :
    HeldSlots live others after := by
  apply transfers.uses.heldSlots heldSlots member
  intro other
  rw [transfers.volume]
  by_cases same : other = ino
  · subst same
    simp [Mounted.put, transfers.isIn]
  · simp [Mounted.put, same]

/-- `file_seek` of a file that is open and whose new position is known. -/
structure Seeks (disk : Nat → Int) (state : VfsState F) (files : F) (fd pos whence : Int) (slot : Fs.Slot F) (ino : Nat)
    (sin sinAfter : SfsInode) (target tried : Int) (fs : SfsFs) (after : VfsState F) : Prop where
  found : Fs.fd2file state.files (some files) fd = some (.ok slot)
  isNode : (state.files.file slot).node = some (.sfs ino)
  isIn : state.volume.inodes ino = some sin
  isTarget : Fs.seekTarget (state.files.file slot) pos whence (.ok (state.volume.din ino).size) = .ok target
  tryseek : sfsTryseek disk state.volume.fs sin target = some (tried, fs, sinAfter)
  volume : after.volume = state.volume.put ino fs (some sinAfter)
  uses : Uses state slot (if tried = 0 then target else (state.files.file slot).pos) after

theorem fileSeek_cases {pos whence : Int} (heldSlots : HeldSlots live others state) (mine : files ∈ live)
    (called : fileSeek disk state files fd pos whence = some (ret, after)) :
    after = state ∨ ∃ slot, slot ∈ Fs.slots live ∧ (state.files.file slot).status = .opened ∧
      (Uses state slot (state.files.file slot).pos after ∧ after.volume = state.volume ∨
        ∃ ino sin sinAfter target tried fs,
          Seeks disk state files fd pos whence slot ino sin sinAfter target tried fs after) := by
  obtain ⟨⟨acquired, table⟩, begun, rest⟩ := Option.bind_eq_some_iff.mp called
  cases acquired with
  | error code =>
    obtain rfl : table = state.files := acquireFd_cases begun
    exact Or.inl (Prod.mk.inj (Option.some.inj rest)).2.symm
  | ok slot =>
    obtain ⟨isFound, _, member, opened, rfl⟩ := acquireFd_held heldSlots mine begun
    refine Or.inr ⟨slot, member, opened, ?_⟩
    obtain ⟨node, isNode, rest⟩ := Option.bind_eq_some_iff.mp rest
    obtain ⟨target, isTarget, rest⟩ := Option.bind_eq_some_iff.mp rest
    obtain ⟨⟨code, sought⟩, seeks, rest⟩ := Option.bind_eq_some_iff.mp rest
    obtain ⟨last, released, same⟩ := Option.map_eq_some_iff.mp rest
    obtain ⟨_, rfl⟩ := Prod.mk.inj same
    change ((state.files.setFile slot _).file slot).node = some node at isNode
    rw [Fs.FileState.setFile_self] at isNode
    have again : state.files.setFile slot { state.files.file slot with openCount := 2 } =
        (state.files.setFile slot { state.files.file slot with openCount := 2 }).setFile slot
          { state.files.file slot with openCount := 2 } := by
      simp [Fs.FileState.setFile, Fs.FileState.setFiles]
    cases target with
    | error refused =>
      obtain ⟨_, rfl⟩ := Prod.mk.inj (Option.some.inj seeks)
      have kept := Uses.of heldSlots member opened released again
      exact Or.inl kept
    | ok target =>
      obtain ⟨⟨outcome, tried⟩, isTried, ends⟩ := Option.bind_eq_some_iff.mp seeks
      obtain ⟨_, _, rest⟩ := Option.bind_eq_some_iff.mp isTried
      cases node with
      | device => cases rest
      | sfs ino =>
        obtain ⟨sin, isIn, rest⟩ := Option.bind_eq_some_iff.mp rest
        split at rest
        · obtain ⟨⟨number, fs, sinAfter⟩, tryseek, rest⟩ := Option.bind_eq_some_iff.mp rest
          obtain ⟨rfl, rfl⟩ := Prod.mk.inj (Option.some.inj rest)
          have used := seekPos_target isTarget
          change Fs.seekTarget ((state.files.setFile slot _).file slot) pos whence
            (.ok (state.volume.din ino).size) = .ok target at used
          rw [Fs.FileState.setFile_self] at used
          obtain ⟨uses, volume⟩ : Uses state slot (if number = 0 then target else (state.files.file slot).pos) last ∧
              last.volume = state.volume.put ino fs (some sinAfter) := by
            simp only at ends
            split at ends
            · rename_i isZero
              obtain ⟨_, rfl⟩ := Prod.mk.inj (Option.some.inj ends)
              have kept : Uses state slot target last ∧ _ :=
                Uses.of heldSlots member opened released (by rw [Fs.FileState.setFile_self])
              rwa [if_pos isZero]
            · rename_i notZero
              obtain ⟨_, rfl⟩ := Prod.mk.inj (Option.some.inj ends)
              have kept := Uses.of heldSlots member opened released again
              rwa [if_neg notZero]
          exact Or.inr ⟨ino, sin, sinAfter, target, number, fs, isFound, isNode, isIn, used, tryseek, volume, uses⟩
        · cases rest

theorem Seeks.heldSlots {pos whence target tried : Int} {ino : Nat} {sin sinAfter : SfsInode} {fs : SfsFs}
    (heldSlots : HeldSlots live others state) (member : slot ∈ Fs.slots live)
    (seeks : Seeks disk state files fd pos whence slot ino sin sinAfter target tried fs after) :
    HeldSlots live others after := by
  apply seeks.uses.heldSlots heldSlots member
  intro other
  rw [seeks.volume]
  by_cases same : other = ino
  · subst same
    simp [Mounted.put, seeks.isIn]
  · simp [Mounted.put, same]

/-! ## Close -/

/-- The slot of a descriptor that is closed, and its inode. -/
structure Closes (state : VfsState F) (slot : Fs.Slot F) (node : Node) (after : VfsState F) : Prop where
  isNode : (state.files.file slot).node = some node
  slots : ∀ other, after.files.file other = if other = slot then
    { state.files.file slot with status := .none, openCount := 0 } else state.files.file other
  bumps : ∀ other, (after.counts other).refCount + (hit (some node) other : Int) = (state.counts other).refCount
  keeps : ∀ ino sin, state.volume.inodes ino = some sin → (.sfs ino = node → 1 < (state.counts node).refCount) →
    ∃ sinAfter, after.volume.inodes ino = some sinAfter ∧ sinAfter.din = sin.din

/-- A slot that is closed and has no users closes its inode. -/
theorem fdArrayFree_closed (isFile : state.files.file slot = file) (closed : file.status = .closed)
    (unused : file.openCount = 0) (called : fdArrayFree disk state slot = some after) :
    ∃ node middle, file.node = some node ∧ vfsClose disk state node = some middle ∧
      after = { middle with files := middle.files.setFile slot { file with status := .none } } := by
  simp only [fdArrayFree, isFile] at called
  rw [if_pos ⟨Or.inr closed, unused⟩] at called
  obtain ⟨middle, closes, rfl⟩ := Option.map_eq_some_iff.mp called
  simp only [closeNode, if_pos closed] at closes
  obtain ⟨node, isNode, closes⟩ := Option.bind_eq_some_iff.mp closes
  have stays : middle.files.file slot = file := by
    rw [← isFile]
    simp only [Fs.FileState.file, (vfsClose_bumps closes).2]
  exact ⟨node, middle, isNode, closes, by rw [stays]⟩

omit [DecidableEq F] in
/-- The inodes that `vfs_close` leaves in memory. -/
theorem vfsClose_inodes (called : vfsClose disk state node = some after) {ino : Nat} {sin : SfsInode}
    (isIn : state.volume.inodes ino = some sin) (held : .sfs ino = node → 1 < (state.counts node).refCount) :
    ∃ sinAfter, after.volume.inodes ino = some sinAfter ∧ sinAfter.din = sin.din := by
  obtain ⟨middle, lowered, ends⟩ := Option.bind_eq_some_iff.mp called
  obtain ⟨sinAfter, isAfter, same⟩ := vopOpenDec_inodes lowered isIn
  refine ⟨sinAfter, ?_, same⟩
  rw [vopRefDec_inodes ends fun isNode => ?_, isAfter]
  have more := held isNode
  have refs := (vopOpenDec_bumps lowered).refs
  omega

omit [DecidableEq F] in
/-- The reference that `vfs_close` gives back. -/
theorem vfsClose_refs (called : vfsClose disk state node = some after) (other : Node) :
    (after.counts other).refCount + (hit (some node) other : Int) = (state.counts other).refCount := by
  rw [(vfsClose_bumps called).1, bump]
  by_cases same : other = node
  · subst same
    rw [Function.update_self, hit_some, if_pos rfl]
    exact Int.neg_add_cancel_right _ 1
  · rw [Function.update_of_ne same, hit_some, if_neg (Ne.symm same)]
    exact Int.add_zero _

/-- The last user of a slot closes the inode. -/
theorem fdArrayClose_exact (one : (state.files.file slot).openCount = 1)
    (called : fdArrayClose disk state slot = some after) : ∃ node, Closes state slot node after := by
  simp only [fdArrayClose] at called
  split at called
  · simp only [dropUser, one] at called
    rw [if_pos (by decide)] at called
    obtain ⟨node, middle, isNode, closes, rfl⟩ := fdArrayFree_closed Fs.FileState.setFile_self rfl (by rfl) called
    have tables := (vfsClose_bumps closes).2
    refine ⟨node, isNode, fun other => ?_, fun other => ?_, fun ino sin isIn held => ?_⟩
    · rw [Fs.FileState.setFile_file]
      by_cases isSlot : other = slot
      · rw [if_pos isSlot, if_pos isSlot]
        rfl
      · have stays : middle.files.file other = state.files.file other := by
          simp only [Fs.FileState.file, tables]
          exact Fs.FileState.setFile_touches.elsewhere other isSlot
        rw [if_neg isSlot, if_neg isSlot, stays]
    · have refs := vfsClose_refs closes other
      exact refs
    · have kept := vfsClose_inodes closes isIn held
      exact kept
  · cases called

theorem fileClose_cases (heldSlots : HeldSlots live others state) (mine : files ∈ live)
    (called : fileClose disk state files fd = some (ret, after)) :
    after = state ∨ ∃ slot node, slot ∈ Fs.slots live ∧ (state.files.file slot).status = .opened ∧
      Closes state slot node after := by
  obtain ⟨found, isFound, rest⟩ := Option.bind_eq_some_iff.mp called
  cases found with
  | error code => exact Or.inl (Prod.mk.inj (Option.some.inj rest)).2.symm
  | ok slot =>
    obtain ⟨last, closed, same⟩ := Option.map_eq_some_iff.mp rest
    obtain ⟨_, rfl⟩ := Prod.mk.inj same
    obtain ⟨sameSlot, opened, inFiles⟩ := Fs.fd2file_slot isFound
    have member : slot ∈ Fs.slots live := mem_live mine (congrArg Prod.fst sameSlot) (sameSlot ▸ inFiles)
    obtain ⟨node, closes⟩ := fdArrayClose_exact (heldSlots.one member opened) closed
    exact Or.inr ⟨slot, node, member, opened, closes⟩

theorem Closes.heldSlots (closes : Closes state slot node after) (heldSlots : HeldSlots live others state)
    (member : slot ∈ Fs.slots live) (opened : (state.files.file slot).status = .opened) : HeldSlots live others after := by
  have isSlot := closes.slots slot
  rw [if_pos rfl] at isSlot
  refine heldSlots.change member (fun other different => by rw [closes.slots, if_neg different]) ?_ fun other => ?_
  · rw [isSlot]
    exact ⟨(heldSlots.slot slot member).fd, by simp, by simp, by simp, by simp, by simp⟩
  · have silent : after.files.names slot = none := by simp [Fs.FileState.names, isSlot, Fs.File.names]
    have named : state.files.names slot = some node := by
      simp [Fs.FileState.names, Fs.File.names, opened, closes.isNode]
    rw [silent, named, hit_none, ← closes.bumps other]
    omega

end Ucore.Vfs
