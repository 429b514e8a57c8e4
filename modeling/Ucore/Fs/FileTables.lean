import Ucore.Fs.FileCounts

/-!
# Calls and tables

The calls on descriptors keep the counts whatever the descriptor is. The loops of
`fs.c` over a table keep them slot by slot; a table enters the live ones empty and
leaves them empty.
-/

namespace Ucore.Fs

open Tally

universe u
variable {F N : Type u} [DecidableEq F] [DecidableEq N]
variable {state next : FileState F N} {live : Finset F} {users openers : Slot F → Nat}
  {others : N → Nat} {slot : Slot F} {files : F}

/-- No table changes but in its slots. -/
def SameTables (state next : FileState F N) : Prop :=
  ∀ files, (next.files files).pwd = (state.files files).pwd ∧
    (next.files files).filesCount = (state.files files).filesCount

omit [DecidableEq F] [DecidableEq N] in
theorem SameTables.trans {last : FileState F N} (first : SameTables state next) (second : SameTables next last) :
    SameTables state last := fun files =>
  ⟨(second files).1.trans (first files).1, (second files).2.trans (first files).2⟩

/-! ## Calls on descriptors -/

omit [DecidableEq F] [DecidableEq N] in
/-- `fd2file` refuses a descriptor or leads to an open slot of the table. -/
theorem fd2file_exact (inside : files ∈ live) (counted : 0 < (state.files files).filesCount) (fd : Int) :
    (∃ ret, fd2file state (some files) fd = some (.error ret)) ∨
    ∃ slot ∈ slots live, slot.1 = files ∧ (state.file slot).status = .opened ∧
      fd2file state (some files) fd = some (.ok slot) := by
  have array : getFdArray state (some files) = some files := by simp [getFdArray, counted]
  by_cases range : 0 ≤ fd ∧ fd < nentry
  · by_cases opened : (state.file (files, fd.toNat)).status = .opened ∧
        ((state.file (files, fd.toNat)).fd : Int) = fd
    · refine Or.inr ⟨(files, fd.toNat), ?_, rfl, opened.1, ?_⟩
      · exact mem_slots.mpr ⟨inside, by omega⟩
      · simp [fd2file, range, array, opened]
    · refine Or.inl ⟨-eInval, ?_⟩
      simp only [fd2file, range, and_self, if_true, array, Option.bind_eq_bind, Option.bind_some, opened,
        if_false]
  · exact Or.inl ⟨-eInval, by simp [fd2file, range]⟩

/-- `file_close` keeps the counts. -/
theorem Consistent.fileClose_exact (consistent : Consistent state live users openers others)
    (inside : files ∈ live) (counted : 0 < (state.files files).filesCount) (fd : Int) :
    ∃ ret next, fileClose state (some files) fd = some (ret, next) ∧ SameTables state next ∧
      Consistent next live users openers others := by
  rcases fd2file_exact inside counted fd with ⟨ret, refused⟩ | ⟨slot, member, _, opened, found⟩
  · exact ⟨ret, state, by simp [fileClose, refused], fun _ => ⟨rfl, rfl⟩, consistent⟩
  · obtain ⟨next, closed, touches, kept, _⟩ := consistent.close_exact member opened
    exact ⟨0, next, by simp [fileClose, found, closed], touches.tables, kept⟩

/-- A call that uses a file is refused, or is one user more of an open slot. -/
theorem Consistent.acquireFd_exact (consistent : Consistent state live users openers others)
    (inside : files ∈ live) (counted : 0 < (state.files files).filesCount) (fd : Int)
    (permitted : File N → Bool) :
    (∃ ret, acquireFd state (some files) fd permitted = some (.error ret, state)) ∨
    ∃ slot ∈ slots live, ∃ next, slot.1 = files ∧
      acquireFd state (some files) fd permitted = some (.ok slot, next) ∧ SameTables state next ∧
      Consistent next live (Function.update users slot (users slot + 1)) openers others := by
  rcases fd2file_exact inside counted fd with ⟨ret, refused⟩ | ⟨slot, member, same, opened, found⟩
  · exact Or.inl ⟨ret, by simp [acquireFd, refused]⟩
  · by_cases allowed : permitted (state.file slot)
    · obtain ⟨next, acquired, touches, kept⟩ := consistent.acquire_exact member opened
      exact Or.inr ⟨slot, member, next, same, by simp [acquireFd, found, allowed, acquired], touches.tables, kept⟩
    · exact Or.inl ⟨-eInval, by simp [acquireFd, found, allowed]⟩

/-- The end of a call that may have moved the position. -/
theorem Consistent.finish_exact (consistent : Consistent state live users openers others)
    (member : slot ∈ slots live) (inUse : 0 < users slot) (moves : Bool) (pos : Int) :
    ∃ next, fdArrayRelease (if moves then state.setFile slot { state.file slot with pos } else state) slot =
        some next ∧ SameTables state next ∧
      Consistent next live (Function.update users slot (users slot - 1)) openers others := by
  cases moves with
  | true =>
    obtain ⟨next, released, touches, kept⟩ := (consistent.setPos member pos).release_exact member inUse
    exact ⟨next, released, SameTables.trans FileState.setFile_touches.tables touches.tables, kept⟩
  | false =>
    obtain ⟨next, released, touches, kept⟩ := consistent.release_exact member inUse
    exact ⟨next, released, touches.tables, kept⟩

theorem Consistent.advance_exact (consistent : Consistent state live users openers others)
    (member : slot ∈ slots live) (inUse : 0 < users slot) (copied : Nat) :
    ∃ next, advance state slot copied = some next ∧ SameTables state next ∧
      Consistent next live (Function.update users slot (users slot - 1)) openers others := by
  have finished := consistent.finish_exact member inUse (decide ((state.file slot).status = .opened))
    ((state.file slot).pos + copied)
  simpa only [advance, decide_eq_true_eq] using finished

theorem Consistent.seekEnd_exact (consistent : Consistent state live users openers others)
    (member : slot ∈ slots live) (inUse : 0 < users slot) (target : Except Int Int) (tryseek : Int) :
    ∃ next, fileSeekEnd state slot target tryseek = some next ∧ SameTables state next ∧
      Consistent next live (Function.update users slot (users slot - 1)) openers others := by
  cases target with
  | error ret => simpa [fileSeekEnd] using consistent.finish_exact member inUse false 0
  | ok pos =>
    have finished := consistent.finish_exact member inUse (decide (tryseek = 0)) pos
    simpa only [fileSeekEnd, decide_eq_true_eq] using finished

/-- `file_dup` keeps the counts. -/
theorem Consistent.fileDup_exact (consistent : Consistent state live users openers others)
    (inside : files ∈ live) (counted : 0 < (state.files files).filesCount) (fd1 fd2 : Int) :
    ∃ ret next, fileDup state (some files) fd1 fd2 = some (ret, next) ∧ SameTables state next ∧
      Consistent next live users openers others := by
  rcases fd2file_exact inside counted fd1 with ⟨ret, refused⟩ | ⟨source, sourceMember, _, opened, found⟩
  · exact ⟨.error ret, state, by simp [fileDup, refused], fun _ => ⟨rfl, rfl⟩, consistent⟩
  · rcases consistent.alloc_exact inside counted fd2 with
      ⟨ret, refused⟩ | ⟨slot, member, middle, _, free, allocated, touches, kept, filling⟩
    · exact ⟨.error ret, state, by simp [fileDup, found, refused], fun _ => ⟨rfl, rfl⟩, consistent⟩
    · have different : source ≠ slot := by
        rintro rfl
        simp [free] at opened
      have stillOpened : (middle.file source).status = .opened := by
        rw [touches.elsewhere source different, opened]
      obtain ⟨next, duplicated, dupTouches, dupKept, _⟩ :=
        kept.dup_exact member filling sourceMember stillOpened
      have unopened : openers slot = 0 := by simp [(consistent.slot slot member).opening, free]
      rw [Function.update_idem, ← unopened, Function.update_eq_self] at dupKept
      exact ⟨.ok (next.file slot).fd, next, by simp [fileDup, found, allocated, duplicated],
        SameTables.trans touches.tables dupTouches.tables, dupKept⟩

/-! ## Loops over a table -/

/-- An open slot is closed; a slot without users and calls under way ends up free. -/
theorem Consistent.closeIfOpened_exact (consistent : Consistent state live users openers others)
    (member : slot ∈ slots live) :
    ∃ next, closeIfOpened state slot = some next ∧ Touches slot state next ∧
      Consistent next live users openers others ∧
      (users slot = 0 → openers slot = 0 → (next.file slot).status = .none) := by
  by_cases opened : (state.file slot).status = .opened
  · obtain ⟨next, closed, touches, kept, status⟩ := consistent.close_exact member opened
    exact ⟨next, by simp [closeIfOpened, opened, closed], touches, kept, fun unused _ => by simp [status, unused]⟩
  · refine ⟨state, by simp [closeIfOpened, opened], ⟨fun _ _ => rfl, fun _ => ⟨rfl, rfl⟩⟩, consistent, ?_⟩
    intro unused unopened
    have ok := consistent.slot slot member
    cases status : (state.file slot).status with
    | none => rfl
    | init => simp [ok.opening, status] at unopened
    | opened => exact absurd status opened
    | closed => exact absurd (ok.closing status) (by omega)

/-- The loop of `files_closeall`, over any part of the table. -/
theorem Consistent.closeall_loop (consistent : Consistent state live users openers others) (inside : files ∈ live)
    {fds : List Nat} (range : ∀ fd ∈ fds, fd < nentry) :
    ∃ next, fds.foldlM (fun state fd => closeIfOpened state (files, fd)) state = some next ∧
      SameTables state next ∧ Consistent next live users openers others := by
  induction fds generalizing state with
  | nil => exact ⟨state, rfl, fun _ => ⟨rfl, rfl⟩, consistent⟩
  | cons fd fds ih =>
    obtain ⟨small, rest⟩ := List.forall_mem_cons.mp range
    obtain ⟨middle, closed, touches, kept, _⟩ := consistent.closeIfOpened_exact (mem_slots.mpr ⟨inside, small⟩)
    obtain ⟨next, looped, same, ends⟩ := ih kept rest
    exact ⟨next, by simp [closed, looped], SameTables.trans touches.tables same, ends⟩

theorem Consistent.closeall_exact (consistent : Consistent state live users openers others) (inside : files ∈ live)
    (counted : 0 < (state.files files).filesCount) :
    ∃ next, filesCloseall state files = some next ∧ SameTables state next ∧
      Consistent next live users openers others := by
  rw [filesCloseall, if_pos counted]
  apply consistent.closeall_loop inside
  intro fd member
  have bounds := List.mem_range'_1.mp member
  unfold nentry at bounds ⊢
  omega

/-- The loop of `files_destroy` over a table that no call uses frees its slots. -/
theorem Consistent.destroy_loop (consistent : Consistent state live users openers others) (inside : files ∈ live)
    {fds : List Nat} (range : ∀ fd ∈ fds, fd < nentry) (distinct : fds.Nodup)
    (quiet : ∀ fd < nentry, users (files, fd) = 0 ∧ openers (files, fd) = 0) :
    ∃ next, fds.foldlM (fun state fd => destroyEntry state files fd) state = some next ∧
      SameTables state next ∧ Consistent next live users openers others ∧
      (∀ fd ∈ fds, (next.file (files, fd)).status = .none) ∧
      ∀ fd, fd ∉ fds → next.file (files, fd) = state.file (files, fd) := by
  induction fds generalizing state with
  | nil => exact ⟨state, rfl, fun _ => ⟨rfl, rfl⟩, consistent, by simp, fun _ _ => rfl⟩
  | cons fd fds ih =>
    obtain ⟨small, rest⟩ := List.forall_mem_cons.mp range
    obtain ⟨absent, distinctRest⟩ := List.nodup_cons.mp distinct
    obtain ⟨middle, closed, touches, kept, freed⟩ := consistent.closeIfOpened_exact (mem_slots.mpr ⟨inside, small⟩)
    have free := freed (quiet fd small).1 (quiet fd small).2
    obtain ⟨next, looped, same, ends, cleared, untouched⟩ := ih kept rest distinctRest
    refine ⟨next, ?_, SameTables.trans touches.tables same, ends, ?_, ?_⟩
    · have entry : destroyEntry state files fd = some middle := by simp [destroyEntry, closed, free]
      simp [entry, looped]
    · refine List.forall_mem_cons.mpr ⟨?_, cleared⟩
      rw [untouched fd absent, free]
    · intro other outside
      obtain ⟨different, outsideRest⟩ : other ≠ fd ∧ other ∉ fds := by simpa using outside
      rw [untouched other outsideRest, touches.elsewhere _ (by simpa using different)]

omit [DecidableEq F] in
/-- The counts depend on the slots of the live tables and on the counts of inodes. -/
theorem Consistent.congr {users' openers' : Slot F → Nat} {others' : N → Nat}
    (consistent : Consistent state live users openers others)
    (sameFile : ∀ slot ∈ slots live, next.file slot = state.file slot)
    (sameUsers : ∀ slot ∈ slots live, users' slot = users slot ∧ openers' slot = openers slot)
    (opens : ∀ node, (next.inodes node).openCount = (state.inodes node).openCount)
    (refs : ∀ node, (next.inodes node).refCount + (others node : Int) =
      (state.inodes node).refCount + (others' node : Int))
    (opened : next.opened = state.opened) (ended : next.ended = state.ended) :
    Consistent next live users' openers' others' := by
  have names : ∀ node, tally (slots live) next.names node = tally (slots live) state.names node := by
    intro node
    apply tally_congr
    intro slot member
    rw [FileState.names, sameFile slot member, FileState.names]
  have holds : ∀ opening, tally (slots live) next.holds opening = tally (slots live) state.holds opening := by
    intro opening
    apply tally_congr
    intro slot member
    rw [FileState.holds, sameFile slot member, FileState.holds]
  constructor
  · intro slot member
    obtain ⟨sameUser, sameOpener⟩ := sameUsers slot member
    rw [sameFile slot member, sameUser, sameOpener]
    exact consistent.slot slot member
  · intro node
    rw [opens, names, consistent.opens]
  · intro node
    have before := consistent.refs node
    have now := refs node
    rw [names]
    omega
  · intro opening
    rw [holds, ended, opened, consistent.history]

/-- A table whose slots are free holds nothing, and may leave or enter the live ones. -/
theorem tally_slots (state : FileState F N) {live fewer : Finset F} (subset : fewer ⊆ live)
    (free : ∀ slot ∈ slots live, slot.1 ∉ fewer → (state.file slot).status = .none) :
    (∀ node, tally (slots fewer) state.names node = tally (slots live) state.names node) ∧
      ∀ opening, tally (slots fewer) state.holds opening = tally (slots live) state.holds opening := by
  have slotsSubset : slots fewer ⊆ slots live := Finset.product_subset_product_left subset
  have outside : ∀ slot ∈ slots live, slot ∉ slots fewer → (state.file slot).status = .none := by
    intro slot member absent
    apply free slot member
    intro inside
    exact absent (mem_slots.mpr ⟨inside, (mem_slots.mp member).2⟩)
  constructor
  · intro node
    apply tally_subset slotsSubset
    intro slot member absent
    simp [FileState.names, File.names, outside slot member absent]
  · intro opening
    apply tally_subset slotsSubset
    intro slot member absent
    simp [FileState.holds, File.holds, outside slot member absent]

/-- A table with free slots leaves the live ones. -/
theorem Consistent.retire (consistent : Consistent state live users openers others)
    (free : ∀ fd < nentry, (state.file (files, fd)).status = .none) :
    Consistent state (live.erase files) users openers others := by
  obtain ⟨names, holds⟩ := tally_slots state (Finset.erase_subset files live) (by
    intro slot member absent
    obtain ⟨inside, small⟩ := mem_slots.mp member
    have same : slot.1 = files := by
      by_contra different
      exact absent (Finset.mem_erase.mpr ⟨different, inside⟩)
    have isFree := free slot.2 small
    rw [← same] at isFree
    exact isFree)
  constructor
  · intro slot member
    obtain ⟨inside, small⟩ := mem_slots.mp member
    exact consistent.slot slot (mem_slots.mpr ⟨Finset.mem_of_mem_erase inside, small⟩)
  · exact fun node => by rw [names, consistent.opens]
  · exact fun node => by rw [names, consistent.refs]
  · exact fun opening => by rw [holds, consistent.history]

/-- A table with fresh slots enters the live ones. -/
theorem Consistent.withNew (consistent : Consistent state live users openers others)
    (fresh : ∀ fd < nentry, state.file (files, fd) = fdArrayInit fd)
    (quiet : ∀ fd < nentry, users (files, fd) = 0 ∧ openers (files, fd) = 0) :
    Consistent state (insert files live) users openers others := by
  obtain ⟨names, holds⟩ := tally_slots state (Finset.subset_insert files live) (by
    intro slot member absent
    obtain ⟨inside, small⟩ := mem_slots.mp member
    have same : slot.1 = files := by
      by_contra different
      exact absent (Finset.mem_of_mem_insert_of_ne inside different)
    have isFresh := fresh slot.2 small
    rw [← same] at isFresh
    rw [isFresh]
    rfl)
  constructor
  · intro slot member
    obtain ⟨inside, small⟩ := mem_slots.mp member
    rcases Finset.mem_insert.mp inside with same | old
    · have isFresh := fresh slot.2 small
      obtain ⟨unused, unopened⟩ := quiet slot.2 small
      rw [← same] at isFresh unused unopened
      rw [isFresh, unused, unopened]
      exact ⟨rfl, by simp [fdArrayInit], by simp [fdArrayInit], by simp, by simp [fdArrayInit],
        by simp [fdArrayInit]⟩
    · exact consistent.slot slot (mem_slots.mpr ⟨old, small⟩)
  · exact fun node => by rw [← names, consistent.opens]
  · exact fun node => by rw [← names, consistent.refs]
  · exact fun opening => by rw [← holds, consistent.history]

/-! ## Tables of processes -/

/-- One round of `dup_files` fills a free slot, or leaves it. -/
theorem Consistent.dupEntry_exact (consistent : Consistent state live users openers others) {target source : F}
    {fd : Nat} (member : (target, fd) ∈ slots live) (free : (state.file (target, fd)).status = .none)
    (sourceMember : (source, fd) ∈ slots live) (different : source ≠ target) :
    ∃ next, dupEntry state target source fd = some next ∧ Touches (target, fd) state next ∧
      Consistent next live users openers others := by
  by_cases opened : (state.file (source, fd)).status = .opened
  · have ok := consistent.slot _ member
    obtain ⟨unused, count⟩ := ok.unused (Or.inl free)
    have filling := consistent.setFile member { state.file (target, fd) with status := .init }
      (users (target, fd)) 1 ⟨ok.fd, by simp [count, unused], by simp, by simp [unused], by simp, by simp⟩
      (by simp [File.names, free]) (by simp [File.holds, free])
    rw [Function.update_eq_self] at filling
    have stillOpened : ((state.setFile (target, fd) { state.file (target, fd) with status := .init }).file
        (source, fd)).status = .opened := by
      rw [FileState.setFile_file, if_neg (by simpa using different), opened]
    obtain ⟨next, duplicated, touches, kept, _⟩ :=
      filling.dup_exact member (by simp) sourceMember stillOpened
    have unopened : openers (target, fd) = 0 := by simp [ok.opening, free]
    rw [Function.update_idem, ← unopened, Function.update_eq_self] at kept
    refine ⟨next, ?_, FileState.setFile_touches.trans touches, kept⟩
    simpa [dupEntry, opened] using duplicated
  · exact ⟨state, by simp [dupEntry, opened], ⟨fun _ _ => rfl, fun _ => ⟨rfl, rfl⟩⟩, consistent⟩

/-- The loop of `dup_files`. -/
theorem Consistent.dup_loop (consistent : Consistent state live users openers others) {target source : F}
    {fds : List Nat} (range : ∀ fd ∈ fds, fd < nentry) (distinct : fds.Nodup) (inside : target ∈ live)
    (free : ∀ fd ∈ fds, (state.file (target, fd)).status = .none) (sourceInside : source ∈ live)
    (different : source ≠ target) :
    ∃ next, fds.foldlM (fun state fd => dupEntry state target source fd) state = some next ∧
      SameTables state next ∧ Consistent next live users openers others := by
  induction fds generalizing state with
  | nil => exact ⟨state, rfl, fun _ => ⟨rfl, rfl⟩, consistent⟩
  | cons fd fds ih =>
    obtain ⟨small, rest⟩ := List.forall_mem_cons.mp range
    obtain ⟨isFree, freeRest⟩ := List.forall_mem_cons.mp free
    obtain ⟨absent, distinctRest⟩ := List.nodup_cons.mp distinct
    obtain ⟨middle, entry, touches, kept⟩ := consistent.dupEntry_exact (mem_slots.mpr ⟨inside, small⟩) isFree
      (mem_slots.mpr ⟨sourceInside, small⟩) different
    have stillFree : ∀ other ∈ fds, (middle.file (target, other)).status = .none := by
      intro other member
      have notHere : (target, other) ≠ (target, fd) := by
        intro same
        exact absent ((Prod.mk.inj same).2 ▸ member)
      rw [touches.elsewhere _ notHere, freeRest other member]
    obtain ⟨next, looped, same, ends⟩ := ih kept rest distinctRest stillFree
    exact ⟨next, by simp [entry, looped], SameTables.trans touches.tables same, ends⟩

/-- One reference for the working directory, if there is one. -/
def plusPwd (pwd : Option N) (others : N → Nat) (node : N) : Nat := others node + hit pwd node

omit [DecidableEq F] [DecidableEq N] in
@[simp] theorem plusPwd_none [DecidableEq N] (others : N → Nat) : plusPwd none others = others := by
  funext node
  simp [plusPwd]

omit [DecidableEq F] in
/-- The working directory gives up its reference. -/
theorem Consistent.dropPwd_exact {pwd : Option N}
    (consistent : Consistent state live users openers (plusPwd pwd others)) :
    ∃ next, dropPwd state pwd = some next ∧ next.files = state.files ∧
      Consistent next live users openers others := by
  cases pwd with
  | none => exact ⟨state, rfl, rfl, by simpa using consistent⟩
  | some node =>
    have refs := consistent.refs node
    have positive : 0 < (state.inodes node).refCount := by
      simp [plusPwd] at refs
      omega
    refine ⟨_, if_pos positive, rfl, consistent.congr ?_ ?_ ?_ ?_ rfl rfl⟩
    · exact fun _ _ => rfl
    · exact fun _ _ => ⟨rfl, rfl⟩
    · intro other
      by_cases same : other = node
      · simp [FileState.setInode, same]
      · simp [FileState.setInode, same]
    · intro other
      by_cases same : other = node
      · simp [FileState.setInode, plusPwd, same]
      · simp [FileState.setInode, plusPwd, same, Ne.symm same]

omit [DecidableEq F] in
/-- A new reference of a working directory. -/
theorem Consistent.takePwd_exact (consistent : Consistent state live users openers others) (pwd : Option N) :
    (takePwd state pwd).files = state.files ∧
      Consistent (takePwd state pwd) live users openers (plusPwd pwd others) := by
  cases pwd with
  | none => exact ⟨rfl, by simpa [takePwd] using consistent⟩
  | some node =>
    refine ⟨rfl, consistent.congr ?_ ?_ ?_ ?_ rfl rfl⟩
    · exact fun _ _ => rfl
    · exact fun _ _ => ⟨rfl, rfl⟩
    · intro other
      by_cases same : other = node
      · simp [takePwd, inodeRefInc, FileState.setInode, same]
      · simp [takePwd, inodeRefInc, FileState.setInode, same]
    · intro other
      by_cases same : other = node
      · simp [takePwd, inodeRefInc, FileState.setInode, plusPwd, same]
        omega
      · simp [takePwd, inodeRefInc, FileState.setInode, plusPwd, same, Ne.symm same]

/-- A table without users is destroyed: its descriptors and its working directory go. -/
theorem Consistent.destroy_exact
    (consistent : Consistent state live users openers (plusPwd (state.files files).pwd others))
    (inside : files ∈ live) (unused : (state.files files).filesCount = 0)
    (quiet : ∀ fd < nentry, users (files, fd) = 0 ∧ openers (files, fd) = 0) :
    ∃ next, filesDestroy state files = some next ∧ SameTables state next ∧
      Consistent next (live.erase files) users openers others := by
  obtain ⟨middle, dropped, tables, kept⟩ := consistent.dropPwd_exact
  obtain ⟨next, looped, same, ends, cleared, _⟩ := kept.destroy_loop inside
    (fun fd member => List.mem_range.mp member) List.nodup_range quiet
  refine ⟨next, ?_, ?_, ends.retire fun fd small => cleared fd (List.mem_range.mpr small)⟩
  · rw [filesDestroy, if_pos unused]
    exact Option.bind_eq_some_iff.mpr ⟨middle, dropped, looped⟩
  · intro table
    rw [← tables]
    exact same table

/-- A change of tables that leaves the slots of the live ones alone. -/
theorem Consistent.setFiles (consistent : Consistent state live users openers others) (files : F)
    (fields : FilesStruct N) (sameSlots : files ∈ live → fields.fdArray = (state.files files).fdArray) :
    Consistent (state.setFiles files fields) live users openers others := by
  refine consistent.congr ?_ (fun _ _ => ⟨rfl, rfl⟩) (fun _ => rfl) (fun _ => rfl) rfl rfl
  intro slot member
  by_cases same : slot.1 = files
  · have inside := (mem_slots.mp member).1
    simp [FileState.file, FileState.setFiles, same, sameSlots (same ▸ inside)]
  · simp [FileState.file, FileState.setFiles, same]

/-- A new table takes over the descriptors and the working directory of another one. -/
theorem Consistent.copy_exact (consistent : Consistent state live users openers others) {source : F}
    (sourceInside : source ∈ live) (counted : 0 < (state.files source).filesCount) (fresh : files ∉ live)
    (quiet : ∀ fd < nentry, users (files, fd) = 0 ∧ openers (files, fd) = 0) :
    ∃ next, copyFiles state source (some files) = some (files, next) ∧
      Consistent next (insert files live) users openers (plusPwd (state.files source).pwd others) ∧
      (next.files files).pwd = (state.files source).pwd ∧ (next.files files).filesCount = 1 ∧
      ∀ other, other ≠ files → (next.files other).pwd = (state.files other).pwd ∧
        (next.files other).filesCount = (state.files other).filesCount := by
  have different : source ≠ files := fun same => fresh (same ▸ sourceInside)
  let created := filesCreate state files
  let pwd := (created.files source).pwd
  let renamed := created.setFiles files { created.files files with pwd }
  have createdSource : created.files source = state.files source := Function.update_of_ne different _ _
  have createdFiles : created.files files = { pwd := none, fdArray := fdArrayInit, filesCount := 0 } :=
    Function.update_self _ _ _
  have isFresh : ∀ fd < nentry, created.file (files, fd) = fdArrayInit fd := by
    intro fd _
    rw [FileState.file, createdFiles]
  have admitted : Consistent created (insert files live) users openers others :=
    (consistent.setFiles files _ fun inside => absurd inside fresh).withNew isFresh quiet
  have isRenamed : Consistent renamed (insert files live) users openers others :=
    admitted.setFiles files _ fun _ => rfl
  obtain ⟨takenFiles, taken⟩ := isRenamed.takePwd_exact pwd
  have free : ∀ fd ∈ List.range nentry, ((takePwd renamed pwd).file (files, fd)).status = .none := by
    intro fd _
    rw [FileState.file, takenFiles]
    simp [renamed, FileState.setFiles, createdFiles, fdArrayInit]
  obtain ⟨copied, looped, tables, kept⟩ := taken.dup_loop (fun fd member => List.mem_range.mp member)
    List.nodup_range (Finset.mem_insert_self _ _) free (Finset.mem_insert_of_mem sourceInside) different
  have duplicated : dupFiles created files source = some copied := by
    rw [dupFiles, if_pos ⟨by rw [createdFiles], by rw [createdSource]; exact counted⟩]
    exact looped
  have copiedFiles : (copied.files files).pwd = pwd ∧ (copied.files files).filesCount = 0 := by
    obtain ⟨samePwd, sameCount⟩ := tables files
    rw [samePwd, sameCount, takenFiles]
    simp [renamed, FileState.setFiles, createdFiles]
  refine ⟨filesCountInc copied files, ?_, ?_, ?_, ?_, ?_⟩
  · simp only [copyFiles]
    rw [duplicated]
    rfl
  · have counted := kept.setFiles files
      { copied.files files with filesCount := (copied.files files).filesCount + 1 } fun _ => rfl
    simpa only [filesCountInc, pwd, createdSource] using counted
  · simp [filesCountInc, FileState.setFiles, copiedFiles.1, pwd, createdSource]
  · simp [filesCountInc, FileState.setFiles, copiedFiles.2]
  · intro other notFiles
    obtain ⟨samePwd, sameCount⟩ := tables other
    simp only [filesCountInc, FileState.setFiles, Function.update_of_ne notFiles]
    rw [samePwd, sameCount, takenFiles]
    simp [renamed, FileState.setFiles, notFiles, created, filesCreate]

end Ucore.Fs
