import Ucore.Fs.HeldSlots

/-!
# Writes at the end of a file

`O_APPEND` is to append on each write. `file_open` sets the position of the descriptor to the
size of the file, and then it is a position like any other: a seek moves it, and the file
grows or is emptied through another descriptor without it.
-/

namespace Ucore.Vfs

open Tally Volume Transition

variable {F : Type} [DecidableEq F]

/-- The state of the file system, with the slots that were opened with `O_APPEND`. -/
structure AppendState (F : Type) where
  vfs : VfsState F
  append : Fs.Slot F → Bool

/-- The descriptor that a call has opened, if it has opened one, is for appending or not. -/
def marked (append : Fs.Slot F → Bool) (files : F) (opened : Except Int Nat) (flag : Bool) : Fs.Slot F → Bool :=
  match opened with
  | .ok fd => Function.update append (files, fd) flag
  | .error _ => append

/-- A call of a process on its descriptors. A duplicate is for appending if its source is. -/
def appendCall (disk : Nat → Int) (memory : Nat → Bool) (state : AppendState F) (label : F × FileCall) :
    Option (AppendState F) :=
  match label.2 with
  | .fileOpen path openFlags =>
      (fileOpen disk memory state.vfs label.1 path openFlags).map fun result =>
        { vfs := result.2, append := marked state.append label.1 result.1 (hasFlag openFlags Fs.oAppend) }
  | .fileDup fd1 fd2 =>
      (fileDup state.vfs label.1 fd1 fd2).map fun result =>
        { vfs := result.2, append := marked state.append label.1 result.1 (state.append (label.1, fd1.toNat)) }
  | call => (fileCall disk memory state.vfs label.1 call).map fun vfs => { state with vfs }

/-- A slot is open for appending to a file. -/
structure AppendsTo (state : AppendState F) (slot : Fs.Slot F) (ino : Nat) : Prop where
  append : state.append slot = true
  opened : (state.vfs.files.file slot).status = .opened
  writable : (state.vfs.files.file slot).writable = true
  isNode : (state.vfs.files.file slot).node = some (.sfs ino)

/-- Every slot that is open for appending is at the end of its file. -/
def AtEnd (live : Finset F) (state : AppendState F) : Prop :=
  ∀ slot ∈ Fs.slots live, ∀ ino, AppendsTo state slot ino →
    (state.vfs.files.file slot).pos = (state.vfs.volume.din ino).size

/-- A `file_write` on a descriptor for appending starts at the size that the file has. -/
def WritesAtEnd (state : AppendState F) (files : F) (fd : Int) : Prop :=
  ∀ slot table ino, Fs.fileWriteBegin state.vfs.files (some files) fd = some (.ok slot, table) →
    state.append slot = true → (table.file slot).node = some (.sfs ino) →
      (table.file slot).pos = (state.vfs.volume.din ino).size

/-- A call that leaves the descriptors for appending at the end of their files. An open
empties none of the files unless it is empty. A seek moves no such descriptor back, and moves
past the end of a file only the one descriptor for appending to it. A write does not begin
beyond the end of a file that has one. -/
def KeepsEnds (disk : Nat → Int) (memory : Nat → Bool) (live : Finset F) (state : AppendState F)
    (label : F × FileCall) : Prop :=
  match label.2 with
  | .fileOpen path openFlags => ∀ slot ∈ Fs.slots live, ∀ ino, AppendsTo state slot ino →
      FileEmptied disk memory state.vfs label.1 path openFlags (.sfs ino) → (state.vfs.volume.din ino).size = 0
  | .fileWrite fd len => ∀ slot ino, Fs.fd2file state.vfs.files (some label.1) fd = some (.ok slot) →
      (state.vfs.files.file slot).writable = true → (state.vfs.files.file slot).node = some (.sfs ino) →
        (state.vfs.volume.din ino).size < (state.vfs.files.file slot).pos →
          (state.vfs.files.file slot).pos < sfsMaxFileSize →
            (state.vfs.files.file slot).pos < ((state.vfs.files.file slot).pos + len).bmod (2 ^ 64) →
              ∀ other ∈ Fs.slots live, ¬ AppendsTo state other ino
  | .fileSeek fd pos whence => ∀ slot ino target, Fs.fd2file state.vfs.files (some label.1) fd = some (.ok slot) →
      (state.vfs.files.file slot).node = some (.sfs ino) →
        Fs.seekTarget (state.vfs.files.file slot) pos whence (.ok (state.vfs.volume.din ino).size) = .ok target →
          0 ≤ target → target < sfsMaxFileSize →
            (AppendsTo state slot ino → (state.vfs.volume.din ino).size ≤ target) ∧
              ((state.vfs.volume.din ino).size < target →
                ∀ other ∈ Fs.slots live, other ≠ slot → ¬ AppendsTo state other ino)
  | _ => True

variable {disk : Nat → Int} {memory : Nat → Bool} {state after : AppendState F} {files : F} {live : Finset F}
  {others : Node → Nat} {slot other : Fs.Slot F} {ino : Nat} {fd ret : Int}

/-! ## One call -/

/-- A read or write copies nothing, and a write beyond the end makes the file longer. -/
theorem sfsIoNolock_size {sin sinAfter : SfsInode} {offset : Int} {len copied : Nat} {write : Bool}
    (called : sfsIoNolock sin offset len write = some (ret, copied, sinAfter)) :
    copied = 0 ∧ (sinAfter = sin ∨ write = true ∧ (sin.din.size : Int) < offset ∧ offset < sfsMaxFileSize ∧
      offset < (offset + len).bmod (2 ^ 64)) := by
  cases write with
  | false =>
    refine ⟨?_, Or.inl (sfsIoNolock_reads called)⟩
    unfold sfsIoNolock at called
    simp only at called
    split_ifs at called <;> exact (Prod.mk.inj (Prod.mk.inj (Option.some.inj called)).2).1.symm
  | true =>
    unfold sfsIoNolock at called
    simp only [Bool.true_eq_false, false_and, if_false] at called
    split at called
    · cases called
    split at called
    · obtain ⟨rfl, rfl⟩ := Prod.mk.inj (Prod.mk.inj (Option.some.inj called)).2
      exact ⟨rfl, Or.inl rfl⟩
    rename_i inRange
    split at called
    · obtain ⟨rfl, rfl⟩ := Prod.mk.inj (Prod.mk.inj (Option.some.inj called)).2
      exact ⟨rfl, Or.inl rfl⟩
    rename_i nonempty
    obtain ⟨rfl, rfl⟩ := Prod.mk.inj (Prod.mk.inj (Option.some.inj called)).2
    refine ⟨rfl, ?_⟩
    by_cases beyond : sin.din.size < offset.toNat
    · exact Or.inr ⟨rfl, by omega, by omega, by omega⟩
    · exact Or.inl (if_neg beyond)

/-- A seek changes the size only when it goes past the end, and then to the new position. -/
theorem sfsTryseek_size {fs fsAfter : SfsFs} {sin sinAfter : SfsInode} {target : Int}
    (called : sfsTryseek disk fs sin target = some (ret, fsAfter, sinAfter)) :
    ret ≠ 0 ∧ sinAfter.din.size = sin.din.size ∨
      ret = 0 ∧ 0 ≤ target ∧ target < sfsMaxFileSize ∧ (target ≤ sin.din.size ∧ sinAfter.din.size = sin.din.size ∨
        (sin.din.size : Int) < target ∧ sinAfter.din.size = target) := by
  unfold sfsTryseek at called
  split at called
  · obtain ⟨rfl, _, rfl⟩ := called
    exact Or.inl ⟨by decide, rfl⟩
  · rename_i inRange
    split at called
    · unfold Volume.vopTruncate at called
      split at called
      · have size := (sfsTruncfile_size called).2
        omega
      · cases called
    · obtain ⟨rfl, _, rfl⟩ := called
      exact Or.inr ⟨rfl, by omega, by omega, Or.inl ⟨by omega, rfl⟩⟩

omit [DecidableEq F] in
/-- The file of a slot that is open for appending is held. -/
theorem AppendsTo.held (appends : AppendsTo state slot ino) (heldSlots : HeldSlots live others state.vfs)
    (member : slot ∈ Fs.slots live) :
    0 < (state.vfs.counts (.sfs ino)).refCount ∧ ∃ sin, state.vfs.volume.inodes ino = some sin := by
  have held := heldSlots.held member appends.opened appends.isNode
  refine ⟨held, Option.isSome_iff_exists.mp ?_⟩
  by_contra absent
  have missing : ¬ state.vfs.present (.sfs ino) := absent
  simp [VfsState.counts, missing] at held

omit [DecidableEq F] in
/-- The size of a file that is held, behind a call that may empty it. -/
theorem Steady.size {changed : Node → Prop} {before last : VfsState F} {sin : SfsInode} (steady : Steady changed before last)
    (held : 0 < (before.counts (.sfs ino)).refCount) (isIn : before.volume.inodes ino = some sin) :
    (last.volume.din ino).size = (before.volume.din ino).size ∨ changed (.sfs ino) ∧ (last.volume.din ino).size = 0 := by
  obtain ⟨sinAfter, isAfter, kept⟩ := steady.keeps ino sin isIn held
  rw [din_of isIn, din_of isAfter]
  by_cases changes : changed (.sfs ino)
  · rcases kept.size with same | empty
    · exact Or.inl same
    · exact Or.inr ⟨changes, empty⟩
  · exact Or.inl (congrArg DiskInode.size (kept.same changes))

/-- An open that empties no file with a descriptor for appending keeps the ones that are open. -/
theorem AppendsTo.opens {path : Name} {openFlags : BitVec 32} (heldSlots : HeldSlots live others state.vfs)
    (atEnd : AtEnd live state) (keeps : KeepsEnds disk memory live state (files, .fileOpen path openFlags))
    (steady : Steady (FileEmptied disk memory state.vfs files path openFlags) state.vfs after.vfs)
    (member : other ∈ Fs.slots live) (sameFile : after.vfs.files.file other = state.vfs.files.file other)
    (sameAppend : after.append other = state.append other) (appends : AppendsTo after other ino) :
    (after.vfs.files.file other).pos = (after.vfs.volume.din ino).size := by
  have before : AppendsTo state other ino := by
    obtain ⟨append, opened, writable, isNode⟩ := appends
    rw [sameFile] at opened writable isNode
    exact ⟨sameAppend ▸ append, opened, writable, isNode⟩
  obtain ⟨held, sin, isIn⟩ := before.held heldSlots member
  rw [sameFile, atEnd other member ino before]
  rcases steady.size held isIn with same | ⟨emptied, empty⟩
  · rw [same]
  · have isEmpty : (state.vfs.volume.din ino).size = 0 := keeps other member ino before emptied
    rw [isEmpty, empty]

theorem fileOpen_atEnd {path : Name} {openFlags : BitVec 32} (heldSlots : HeldSlots live others state.vfs)
    (mine : files ∈ live) (atEnd : AtEnd live state) (keeps : KeepsEnds disk memory live state (files, .fileOpen path openFlags))
    (called : appendCall disk memory state (files, .fileOpen path openFlags) = some after) : AtEnd live after := by
  obtain ⟨⟨result, last⟩, opens, rfl⟩ := Option.map_eq_some_iff.mp called
  change fileOpen disk memory state.vfs files path openFlags = some (result, last) at opens
  intro other member ino appends
  cases result with
  | error code =>
    obtain ⟨steady, kept⟩ := fileOpen_error opens
    refine AppendsTo.opens heldSlots atEnd keeps steady member ?_ rfl appends
    rcases kept with same | ⟨slot, _, _, _, slots⟩
    · exact same other
    · have isOther := slots other
      split at isOther
      · have opened := appends.opened
        rw [isOther] at opened
        cases opened
      · exact isOther
  | ok number =>
    obtain ⟨steady, slot, node, pos, isNumber, fills⟩ := fileOpen_ok opens
    obtain ⟨opening, slots⟩ := fills.slots
    have isFd := (heldSlots.slot slot (mem_live mine fills.mine fills.inTable)).fd
    have isSlotNumber : (files, number) = slot := Prod.ext fills.mine.symm (isNumber.trans isFd)
    by_cases isSlot : other = slot
    · subst isSlot
      have isOther := slots other
      rw [if_pos rfl] at isOther
      obtain ⟨append, _, _, isNode⟩ := appends
      rw [isOther] at isNode
      obtain rfl : node = .sfs ino := Option.some.inj isNode
      have appending : hasFlag openFlags Fs.oAppend = true := by
        simpa only [marked, isSlotNumber, Function.update_self] using append
      obtain ⟨_, looked, _, _, isPos, volume⟩ := fills.opened
      rw [openPos, if_pos appending] at isPos
      obtain ⟨_, _, isSize⟩ := Option.bind_eq_some_iff.mp isPos
      obtain ⟨sin, isIn, rfl⟩ := Option.map_eq_some_iff.mp isSize
      rw [isOther, volume, din_of isIn]
      rfl
    · refine AppendsTo.opens heldSlots atEnd keeps steady member ?_ ?_ appends
      · rw [slots, if_neg isSlot]
      · simp only [marked, isSlotNumber, Function.update_of_ne isSlot]

/-- A duplicate is where its source is. -/
theorem fileDup_atEnd {fd1 fd2 : Int} (heldSlots : HeldSlots live others state.vfs) (mine : files ∈ live)
    (atEnd : AtEnd live state) (called : appendCall disk memory state (files, .fileDup fd1 fd2) = some after) :
    AtEnd live after := by
  obtain ⟨⟨result, last⟩, dup, rfl⟩ := Option.map_eq_some_iff.mp called
  change fileDup state.vfs files fd1 fd2 = some (result, last) at dup
  intro other member ino appends
  cases result with
  | error code =>
    obtain rfl := fileDup_error dup
    exact atEnd other member ino ⟨appends.append, appends.opened, appends.writable, appends.isNode⟩
  | ok number =>
    obtain ⟨source, slot, node, isNumber, isFound, dups⟩ := fileDup_ok heldSlots mine dup
    obtain ⟨opening, slots⟩ := dups.slots
    have isFd := (heldSlots.slot slot (mem_live mine dups.mine dups.inTable)).fd
    have isSlotNumber : (files, number) = slot := Prod.ext dups.mine.symm (isNumber.trans isFd)
    obtain ⟨append, opened, writable, isNode⟩ := appends
    have isOther := slots other
    by_cases isSlot : other = slot
    · rw [if_pos isSlot] at isOther
      obtain ⟨isSource, openedSource, inFiles⟩ := Fs.fd2file_slot isFound
      have sourceMember := mem_live mine (congrArg Prod.fst isSource) (isSource ▸ inFiles)
      simp only [isOther] at writable isNode ⊢
      obtain rfl : node = .sfs ino := Option.some.inj isNode
      have appendSource : state.append source = true := by
        rw [isSource]
        simpa only [marked, isSlotNumber, isSlot, Function.update_self] using append
      rw [dups.volume]
      exact atEnd source sourceMember ino ⟨appendSource, openedSource, writable, dups.isNode⟩
    · rw [if_neg isSlot] at isOther
      simp only [isOther, dups.volume] at opened writable isNode ⊢
      simp only [marked, isSlotNumber, Function.update_of_ne isSlot] at append
      exact atEnd other member ino ⟨append, opened, writable, isNode⟩

/-- A descriptor for appending that is open behind a call on one, was open before. -/
theorem AppendsTo.uses {pos : Int} {last : VfsState F} (uses : Uses state.vfs slot pos last)
    (appends : AppendsTo { state with vfs := last } other ino) : AppendsTo state other ino ∧
      (last.files.file other).pos = if other = slot then pos else (state.vfs.files.file other).pos := by
  obtain ⟨append, opened, writable, isNode⟩ := appends
  simp only [uses.slots] at opened writable isNode ⊢
  split
  · rename_i isSlot
    subst isSlot
    simp only [if_true] at opened writable isNode
    exact ⟨⟨append, opened, writable, isNode⟩, rfl⟩
  · rename_i notSlot
    simp only [notSlot, if_false] at opened writable isNode
    exact ⟨⟨append, opened, writable, isNode⟩, rfl⟩

omit [DecidableEq F] in
/-- The size of a file when one inode has been stored. -/
theorem size_put {volume : Mounted} {sin : SfsInode} (fs : SfsFs) (stored : Nat) (sinAfter : SfsInode)
    (isIn : volume.inodes ino = some sin) : ((volume.put stored fs (some sinAfter)).din ino).size =
      if ino = stored then sinAfter.din.size else (volume.din ino).size := by
  by_cases same : ino = stored
  · simp [Mounted.din, Mounted.put, same]
  · simp [Mounted.din, Mounted.put, same, isIn]

/-- A read, or a write that begins in the file or where no descriptor for appending is open. -/
theorem transfer_atEnd {permitted : Fs.File Node → Bool} {len copied : Nat} {write : Bool} {last : VfsState F}
    (heldSlots : HeldSlots live others state.vfs) (mine : files ∈ live) (atEnd : AtEnd live state)
    (keeps : ∀ slot ino, Fs.fd2file state.vfs.files (some files) fd = some (.ok slot) → write = true →
      permitted (state.vfs.files.file slot) = true → (state.vfs.files.file slot).node = some (.sfs ino) →
        (state.vfs.volume.din ino).size < (state.vfs.files.file slot).pos →
          (state.vfs.files.file slot).pos < sfsMaxFileSize →
            (state.vfs.files.file slot).pos < ((state.vfs.files.file slot).pos + len).bmod (2 ^ 64) →
              ∀ other ∈ Fs.slots live, ¬ AppendsTo state other ino)
    (called : transfer disk state.vfs (Fs.acquireFd state.vfs.files (some files) fd permitted) len write =
      some (ret, copied, last)) :
    HeldSlots live others last ∧ AtEnd live { state with vfs := last } := by
  rcases transfer_cases heldSlots mine called with rfl | ⟨slot, stored, sin, sinAfter, member, opened, transfers⟩
  · exact ⟨heldSlots, atEnd⟩
  refine ⟨transfers.heldSlots heldSlots member, fun other otherMember ino appends => ?_⟩
  obtain ⟨_, io⟩ := transfers.io
  obtain ⟨rfl, grows⟩ := sfsIoNolock_size io
  obtain ⟨before, pos⟩ := appends.uses transfers.uses
  have samePos : (last.files.file other).pos = (state.vfs.files.file other).pos := by
    rw [pos]
    split
    · rename_i isSlot
      rw [isSlot]
      exact Int.add_zero _
    · rfl
  obtain ⟨_, _, isIn⟩ := before.held heldSlots otherMember
  change (last.files.file other).pos = (last.volume.din ino).size
  rw [samePos, atEnd other otherMember ino before, transfers.volume, size_put _ _ _ isIn]
  split
  · rename_i same
    subst same
    rcases grows with unchanged | ⟨isWrite, beyond, small, inRange⟩
    · rw [unchanged, din_of transfers.isIn]
    · rw [← din_of transfers.isIn] at beyond
      exact absurd before
        (keeps slot ino transfers.found isWrite transfers.isPermitted transfers.isNode beyond small inRange other otherMember)
  · rfl

/-- A seek that leaves the descriptors for appending at the end. -/
theorem fileSeek_atEnd {pos whence : Int} {last : VfsState F} (heldSlots : HeldSlots live others state.vfs)
    (mine : files ∈ live) (atEnd : AtEnd live state)
    (keeps : KeepsEnds disk memory live state (files, .fileSeek fd pos whence))
    (called : fileSeek disk state.vfs files fd pos whence = some (ret, last)) :
    HeldSlots live others last ∧ AtEnd live { state with vfs := last } := by
  rcases fileSeek_cases heldSlots mine called with rfl | ⟨slot, member, opened, ⟨uses, volume⟩ | sought⟩
  · exact ⟨heldSlots, atEnd⟩
  · refine ⟨uses.heldSlots heldSlots member fun _ => by rw [volume], fun other otherMember ino appends => ?_⟩
    obtain ⟨before, samePos⟩ := appends.uses uses
    change (last.files.file other).pos = (last.volume.din ino).size
    rw [samePos, volume, ← atEnd other otherMember ino before]
    split
    · rename_i isSlot
      rw [isSlot]
    · rfl
  · obtain ⟨stored, sin, sinAfter, target, tried, fs, seeks⟩ := sought
    refine ⟨seeks.heldSlots heldSlots member, fun other otherMember ino appends => ?_⟩
    obtain ⟨before, isPos⟩ := appends.uses seeks.uses
    obtain ⟨_, _, isIn⟩ := before.held heldSlots otherMember
    have wasEnd := atEnd other otherMember ino before
    have sameSize := din_of seeks.isIn
    change (last.files.file other).pos = (last.volume.din ino).size
    rw [isPos, seeks.volume, size_put _ _ _ isIn]
    rcases sfsTryseek_size seeks.tryseek with ⟨failed, same⟩ | ⟨rfl, notNegative, small, moves⟩
    · rw [if_neg failed]
      have isPosBefore : (if other = slot then (state.vfs.files.file slot).pos else (state.vfs.files.file other).pos) =
          (state.vfs.files.file other).pos := by
        split
        · rename_i isSlot
          rw [isSlot]
        · rfl
      rw [isPosBefore, wasEnd, same, ← sameSize]
      split
      · rename_i isStored
        rw [isStored]
      · rfl
    · rw [if_pos rfl]
      obtain ⟨forward, alone⟩ := keeps slot stored target seeks.found seeks.isNode seeks.isTarget notNegative small
      by_cases isSlot : other = slot
      · subst isSlot
        obtain rfl : ino = stored := Node.sfs.inj (Option.some.inj (before.isNode.symm.trans seeks.isNode))
        have atLeast := forward before
        rw [sameSize] at atLeast
        rw [if_pos rfl, if_pos rfl]
        omega
      · rw [if_neg isSlot, wasEnd]
        split
        · rename_i isStored
          subst isStored
          rw [sameSize] at alone ⊢
          rcases moves with ⟨_, same⟩ | ⟨past, _⟩
          · rw [same]
          · exact absurd before (alone past other otherMember isSlot)
        · rfl

/-- A close frees one slot, and the files of the others are as long as before. -/
theorem fileClose_atEnd {last : VfsState F} (heldSlots : HeldSlots live others state.vfs) (mine : files ∈ live)
    (atEnd : AtEnd live state) (called : fileClose disk state.vfs files fd = some (ret, last)) :
    HeldSlots live others last ∧ AtEnd live { state with vfs := last } := by
  rcases fileClose_cases heldSlots mine called with rfl | ⟨slot, node, member, opened, closes⟩
  · exact ⟨heldSlots, atEnd⟩
  refine ⟨closes.heldSlots heldSlots member opened, fun other otherMember ino appends => ?_⟩
  obtain ⟨append, otherOpened, writable, isNode⟩ := appends
  have isOther := closes.slots other
  by_cases isSlot : other = slot
  · rw [if_pos isSlot] at isOther
    simp only [isOther] at otherOpened
    cases otherOpened
  · rw [if_neg isSlot] at isOther
    simp only [isOther] at otherOpened writable isNode ⊢
    have before : AppendsTo state other ino := ⟨append, otherOpened, writable, isNode⟩
    obtain ⟨_, sin, isIn⟩ := before.held heldSlots otherMember
    obtain ⟨sinAfter, isAfter, same⟩ := closes.keeps ino sin isIn fun isClosed =>
      heldSlots.twice member opened closes.isNode (Or.inl ⟨otherMember, isSlot, otherOpened, isClosed ▸ isNode⟩)
    have wasEnd := atEnd other otherMember ino before
    rw [din_of isIn] at wasEnd
    rw [din_of isAfter, same]
    exact wasEnd

/-- Every call that leaves the ends keeps the descriptors for appending at the end. -/
theorem appendCall_keeps {call : FileCall} (heldSlots : HeldSlots live others state.vfs) (mine : files ∈ live)
    (atEnd : AtEnd live state) (keeps : KeepsEnds disk memory live state (files, call))
    (called : appendCall disk memory state (files, call) = some after) :
    HeldSlots live others after.vfs ∧ AtEnd live after := by
  cases call with
  | fileOpen path openFlags =>
    obtain ⟨result, opens, isAfter⟩ := Option.map_eq_some_iff.mp called
    refine ⟨?_, fileOpen_atEnd heldSlots mine atEnd keeps called⟩
    rw [← isAfter]
    exact fileOpen_heldSlots heldSlots mine opens
  | fileRead fd len =>
    obtain ⟨last, ran, rfl⟩ := Option.map_eq_some_iff.mp called
    obtain ⟨⟨ret, copied, _⟩, reads, rfl⟩ := Option.map_eq_some_iff.mp ran
    exact transfer_atEnd heldSlots mine atEnd (fun _ _ _ isWrite => absurd isWrite Bool.false_ne_true) reads
  | fileWrite fd len =>
    obtain ⟨last, ran, rfl⟩ := Option.map_eq_some_iff.mp called
    obtain ⟨⟨ret, copied, _⟩, writes, rfl⟩ := Option.map_eq_some_iff.mp ran
    exact transfer_atEnd heldSlots mine atEnd (fun slot ino found _ => keeps slot ino found) writes
  | fileSeek fd pos whence =>
    obtain ⟨last, ran, rfl⟩ := Option.map_eq_some_iff.mp called
    obtain ⟨⟨ret, _⟩, seeks, rfl⟩ := Option.map_eq_some_iff.mp ran
    exact fileSeek_atEnd heldSlots mine atEnd keeps seeks
  | fileDup fd1 fd2 =>
    obtain ⟨result, dup, isAfter⟩ := Option.map_eq_some_iff.mp called
    refine ⟨?_, fileDup_atEnd heldSlots mine atEnd called⟩
    rw [← isAfter]
    exact fileDup_heldSlots heldSlots mine dup
  | fileClose fd =>
    obtain ⟨last, ran, rfl⟩ := Option.map_eq_some_iff.mp called
    obtain ⟨⟨ret, _⟩, closes, rfl⟩ := Option.map_eq_some_iff.mp ran
    exact fileClose_atEnd heldSlots mine atEnd closes

/-- A write on a slot at the end of its file begins there. -/
theorem AtEnd.writes (atEnd : AtEnd live state) (mine : files ∈ live) (fd : Int) : WritesAtEnd state files fd := by
  intro slot table ino begun append isNode
  obtain ⟨isFound, writable, rfl⟩ := acquireFd_cases begun
  obtain ⟨isSlot, opened, inFiles⟩ := Fs.fd2file_slot isFound
  rw [Fs.FileState.setFile_self] at isNode ⊢
  exact atEnd slot (mem_live mine (congrArg Prod.fst isSlot) (isSlot ▸ inFiles)) ino ⟨append, opened, writable, isNode⟩

/-! ## Runs -/

/-- In a run whose calls leave the descriptors for appending at the end of their files, every
write on one of them begins at the size of the file. -/
theorem append_writes_at_end (disk : Nat → Int) (memory : Nat → Bool) (live : Finset F) (others : Node → Nat)
    (start state : AppendState F) (heldSlots : HeldSlots live others start.vfs) (atEnd : AtEnd live start)
    (reached : Reaches (appendCall disk memory)
      (fun state label => label.1 ∈ live ∧ KeepsEnds disk memory live state label) start state) :
    ∀ files ∈ live, ∀ fd, WritesAtEnd state files fd := by
  have kept : HeldSlots live others state.vfs ∧ AtEnd live state := by
    refine @Reaches.invariant _ _ _ _ _ (fun state => HeldSlots live others state.vfs ∧ AtEnd live state) ?_ ?_ _ reached
    · exact ⟨heldSlots, atEnd⟩
    · intro middle label next invariant allowed taken
      exact appendCall_keeps invariant.1 allowed.1 invariant.2 allowed.2 taken
  exact fun files mine fd => kept.2.writes mine fd

/-- The small tree, with no file open. -/
def smallAppend : AppendState Unit where
  vfs := smallState
  append := fun _ => false

theorem smallState_heldSlots : HeldSlots {()} (fun _ => 0) smallState where
  slot := by
    intro slot _
    exact ⟨rfl, rfl, rfl, by simp, nofun, by simp [smallState, Fs.FileState.file, Fs.fdArrayInit]⟩
  refs := by
    intro node
    have unnamed : ∀ slot, smallState.files.names slot = none := fun _ => rfl
    have none : tally (Fs.slots {()}) smallState.files.names node = 0 :=
      tally_eq_zero.mpr fun slot _ => by simp [unnamed slot]
    have count : 0 ≤ (smallState.counts node).refCount := by
      unfold VfsState.counts
      split
      · simp only [smallState]
        split <;> decide
      · exact Int.le_refl 0
    omega

theorem smallAppend_atEnd : AtEnd {()} smallAppend := by
  rintro slot _ ino ⟨⟨⟩⟩

/-- The flags `O_WRONLY | O_APPEND`. -/
def appendFlags : BitVec 32 := Fs.oWronly ||| Fs.oAppend

/-- The file `a` is opened for appending. -/
theorem append_writes_at_end_open :
    ∃ state, Reaches (appendCall (fun _ => 0) (fun _ => true))
        (fun state label => label.1 ∈ ({()} : Finset Unit) ∧ KeepsEnds (fun _ => 0) (fun _ => true) {()} state label)
        smallAppend state ∧ state.append ((), 0) = true ∧ WritesAtEnd state () 0 := by
  have completes : (appendCall (fun _ => 0) (fun _ => true) smallAppend ((), .fileOpen nameA appendFlags)).map
      (fun state => state.append ((), 0)) = some true := by
    decide +kernel
  obtain ⟨state, opens, appends⟩ := Option.map_eq_some_iff.mp completes
  have keeps : KeepsEnds (fun _ => 0) (fun _ => true) {()} smallAppend ((), .fileOpen nameA appendFlags) := by
    rintro slot _ ino ⟨⟨⟩⟩
  have reached : Reaches (appendCall (fun _ => 0) (fun _ => true))
      (fun state label => label.1 ∈ ({()} : Finset Unit) ∧ KeepsEnds (fun _ => 0) (fun _ => true) {()} state label)
      smallAppend state := .step .start ⟨Finset.mem_singleton_self (), keeps⟩ opens
  exact ⟨state, reached, appends, append_writes_at_end _ _ {()} (fun _ => 0) smallAppend state smallState_heldSlots
    smallAppend_atEnd reached () (Finset.mem_singleton_self ()) 0⟩

/-- The file `a` is opened for appending and again for writing. A seek of the second descriptor
makes the file one byte long, and a write on the first one begins at 0. -/
theorem append_write_overwrites :
    ∃ state, Reaches (appendCall (fun _ => 0) (fun _ => true)) (fun _ label => label.1 ∈ ({()} : Finset Unit)) smallAppend state ∧
      HeldSlots {()} (fun _ => 0) smallAppend.vfs ∧ AtEnd {()} smallAppend ∧ ¬ WritesAtEnd state () 0 := by
  have completes : ((run (appendCall (fun _ => 0) (fun _ => true)) [((), .fileOpen nameA appendFlags),
      ((), .fileOpen nameA Fs.oWronly), ((), .fileSeek 1 1 0)] smallAppend).bind fun state =>
        (Fs.fileWriteBegin state.vfs.files (some ()) 0).map fun begun =>
          (begun.1, (begun.2.file ((), 0)).node, (begun.2.file ((), 0)).pos, state.append ((), 0),
            (state.vfs.volume.din 5).size)) = some (.ok ((), 0), some (.sfs 5), 0, true, 1) := by
    decide +kernel
  obtain ⟨state, ran, begins⟩ := Option.bind_eq_some_iff.mp completes
  obtain ⟨⟨begun, table⟩, begins, results⟩ := Option.map_eq_some_iff.mp begins
  simp only [Prod.mk.injEq] at results
  obtain ⟨rfl, isNode, isPos, appends, isSize⟩ := results
  refine ⟨state, (run_reaches _ _ _ ran).mono fun _ _ _ => Finset.mem_singleton_self (), smallState_heldSlots,
    smallAppend_atEnd, fun writes => ?_⟩
  have starts := writes ((), 0) table 5 begins appends isNode
  rw [isPos, isSize] at starts
  cases starts

end Ucore.Vfs
