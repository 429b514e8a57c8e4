import Mathlib.Data.Finset.Prod
import Mathlib.Data.Finset.Range
import Ucore.Fs.File
import Ucore.Library.Tally

/-!
# The counts of open files

Every slot of a live table counts its descriptor and the calls that use it, and
every inode counts the slots that have it open. Each operation of `file.c` finds its
assertions true and keeps the counts, which also tell that every opening ends once.
-/

namespace Ucore.Fs

open Tally

universe u
variable {F N : Type u} [DecidableEq F] [DecidableEq N]

/-- The inode that a slot has open. -/
def File.names (file : File N) : Option N :=
  if file.status = .opened ∨ file.status = .closed then file.node else none

/-- The opening that a slot has not ended. -/
def File.holds (file : File N) : Option Nat :=
  if file.status = .opened ∨ file.status = .closed then some file.opening else none

def FileState.names (state : FileState F N) (slot : Slot F) : Option N := (state.file slot).names

def FileState.holds (state : FileState F N) (slot : Slot F) : Option Nat := (state.file slot).holds

/-- The slots of the live tables. -/
def slots (live : Finset F) : Finset (Slot F) := live ×ˢ Finset.range nentry

/-- One slot with its number of users and of `file_open` calls under way. -/
structure SlotOk (file : File N) (fd users openers : Nat) : Prop where
  fd : file.fd = fd
  count : file.openCount = (if file.status = .opened then 1 else 0) + users
  opening : openers = if file.status = .init then 1 else 0
  used : 0 < users → file.status = .opened ∨ file.status = .closed
  closing : file.status = .closed → 0 < users
  named : file.status = .opened ∨ file.status = .closed → file.node ≠ none

/-- Whether an opening has begun, as a number. -/
def issued (opened opening : Nat) : Nat := if opening < opened then 1 else 0

/-- The counts of slots and inodes. `others` are the references to an inode that no
slot accounts for. -/
structure Consistent (state : FileState F N) (live : Finset F) (users openers : Slot F → Nat)
    (others : N → Nat) : Prop where
  slot : ∀ slot ∈ slots live, SlotOk (state.file slot) slot.2 (users slot) (openers slot)
  opens : ∀ node, (state.inodes node).openCount = tally (slots live) state.names node
  refs : ∀ node, (state.inodes node).refCount =
    tally (slots live) state.names node + others node
  history : ∀ opening, tally (slots live) state.holds opening +
    state.ended.count opening = issued state.opened opening

/-- An operation on one slot leaves the other slots and the rest of the tables alone. -/
structure Touches (slot : Slot F) (state next : FileState F N) : Prop where
  elsewhere : ∀ other, other ≠ slot → next.file other = state.file other
  tables : ∀ files, (next.files files).pwd = (state.files files).pwd ∧
    (next.files files).filesCount = (state.files files).filesCount

section Frames

variable {state next last : FileState F N} {slot other : Slot F} {file : File N}

omit [DecidableEq N] in
theorem FileState.setFile_file :
    (state.setFile slot file).file other = if other = slot then file else state.file other := by
  obtain ⟨files, fd⟩ := slot
  obtain ⟨otherFiles, otherFd⟩ := other
  simp only [FileState.file, FileState.setFile, FileState.setFiles, Function.update_apply, Prod.mk.injEq]
  by_cases sameFiles : otherFiles = files
  · subst sameFiles
    by_cases sameFd : otherFd = fd
    · simp [sameFd]
    · simp [sameFd]
  · simp [sameFiles]

omit [DecidableEq N] in
@[simp] theorem FileState.setFile_self : (state.setFile slot file).file slot = file := by
  rw [FileState.setFile_file, if_pos rfl]

omit [DecidableEq N] in
theorem FileState.setFile_touches : Touches slot state (state.setFile slot file) where
  elsewhere := fun other different => by rw [FileState.setFile_file, if_neg different]
  tables := by
    intro files
    by_cases same : files = slot.1
    · subst same
      simp [FileState.setFile, FileState.setFiles]
    · simp [FileState.setFile, FileState.setFiles, same]

omit [DecidableEq F] [DecidableEq N] in
theorem Touches.trans (first : Touches slot state next) (second : Touches slot next last) :
    Touches slot state last where
  elsewhere := fun other different => (second.elsewhere other different).trans (first.elsewhere other different)
  tables := fun files =>
    ⟨(second.tables files).1.trans (first.tables files).1, (second.tables files).2.trans (first.tables files).2⟩

end Frames

variable {state next : FileState F N} {live : Finset F} {users openers users' openers' : Slot F → Nat}
  {others : N → Nat} {slot : Slot F}

/-- One slot changes, with its users and openers, and the counts of inodes and the
history change with what it names. -/
theorem Consistent.change (consistent : Consistent state live users openers others) (member : slot ∈ slots live)
    (touches : Touches slot state next) (sameUsers : ∀ other, other ≠ slot → users' other = users other)
    (sameOpeners : ∀ other, other ≠ slot → openers' other = openers other)
    (here : SlotOk (next.file slot) slot.2 (users' slot) (openers' slot))
    (opens : ∀ node, (next.inodes node).openCount + (hit (state.names slot) node : Int) =
      (state.inodes node).openCount + (hit (next.names slot) node : Int))
    (refs : ∀ node, (next.inodes node).refCount + (hit (state.names slot) node : Int) =
      (state.inodes node).refCount + (hit (next.names slot) node : Int))
    (history : ∀ opening,
      next.ended.count opening + hit (next.holds slot) opening + issued state.opened opening =
        state.ended.count opening + hit (state.holds slot) opening + issued next.opened opening) :
    Consistent next live users' openers' others := by
  have sameNames : ∀ other, other ≠ slot → next.names other = state.names other := by
    intro other different
    rw [FileState.names, touches.elsewhere other different, FileState.names]
  constructor
  · intro other inside
    by_cases same : other = slot
    · exact same ▸ here
    · rw [touches.elsewhere other same, sameUsers other same, sameOpeners other same]
      exact consistent.slot other inside
  · intro node
    have changed : tally (slots live) next.names node + hit (state.names slot) node =
        tally (slots live) state.names node + hit (next.names slot) node := tally_change member sameNames
    have before := consistent.opens node
    have now := opens node
    omega
  · intro node
    have changed : tally (slots live) next.names node + hit (state.names slot) node =
        tally (slots live) state.names node + hit (next.names slot) node := tally_change member sameNames
    have before := consistent.refs node
    have now := refs node
    omega
  · intro opening
    have changed : tally (slots live) next.holds opening + hit (state.holds slot) opening =
        tally (slots live) state.holds opening + hit (next.holds slot) opening := by
      apply tally_change member
      intro other different
      rw [FileState.holds, touches.elsewhere other different, FileState.holds]
    have before := consistent.history opening
    have now := history opening
    omega

/-- A slot changes, but not what it names. -/
theorem Consistent.setFile (consistent : Consistent state live users openers others) (member : slot ∈ slots live)
    (file : File N) (used opening : Nat) (here : SlotOk file slot.2 used opening)
    (names : file.names = (state.file slot).names) (holds : file.holds = (state.file slot).holds) :
    Consistent (state.setFile slot file) live (Function.update users slot used)
      (Function.update openers slot opening) others := by
  have sameNames : (state.setFile slot file).names slot = state.names slot := by
    rw [FileState.names, FileState.setFile_self, names, FileState.names]
  have sameHolds : (state.setFile slot file).holds slot = state.holds slot := by
    rw [FileState.holds, FileState.setFile_self, holds, FileState.holds]
  apply consistent.change member FileState.setFile_touches
  · exact fun other different => Function.update_of_ne different _ _
  · exact fun other different => Function.update_of_ne different _ _
  · simpa using here
  · intro node
    rw [sameNames]
    rfl
  · intro node
    rw [sameNames]
    rfl
  · intro number
    rw [sameHolds]
    rfl

omit [DecidableEq F] in
/-- The counts of an inode that a slot has open are positive. -/
theorem Consistent.positive (consistent : Consistent state live users openers others) (member : slot ∈ slots live)
    {node : N} (names : state.names slot = some node) :
    0 < (state.inodes node).openCount ∧ 0 < (state.inodes node).refCount := by
  have counted : 0 < tally (slots live) state.names node := tally_pos member names
  have opens := consistent.opens node
  have refs := consistent.refs node
  omega

omit [DecidableEq F] in
/-- A successful `vfs_open`. -/
theorem vfsOpen_exact (node : N) : vfsOpen state node = (state.opened, { state with
    inodes := Function.update state.inodes node
      { refCount := (state.inodes node).refCount + 1, openCount := (state.inodes node).openCount + 1 }
    opened := state.opened + 1 }) := by
  simp [vfsOpen, inodeOpenInc, inodeRefInc, FileState.setInode]

/-- The state after `vfs_close`. -/
def FileState.close (state : FileState F N) (node : N) (opening : Nat) : FileState F N :=
  { state with
    inodes := Function.update state.inodes node
      { refCount := (state.inodes node).refCount - 1, openCount := (state.inodes node).openCount - 1 }
    ended := opening :: state.ended }

omit [DecidableEq F] in
/-- `vfs_close` of an inode that is open. -/
theorem vfsClose_exact {node : N} (opening : Nat) (opens : 0 < (state.inodes node).openCount)
    (refs : 0 < (state.inodes node).refCount) :
    vfsClose state node opening = some (state.close node opening) := by
  simp [vfsClose, inodeOpenDec, inodeRefDec, FileState.setInode, FileState.close, opens, refs]

/-- The last user of a closed slot ends its opening. -/
theorem fdArrayFree_closed (state : FileState F N) {node : N} (closed : (state.file slot).status = .closed)
    (unused : (state.file slot).openCount = 0) (isNode : (state.file slot).node = some node)
    (opens : 0 < (state.inodes node).openCount) (refs : 0 < (state.inodes node).refCount) :
    fdArrayFree state slot = some ((state.close node (state.file slot).opening).setFile slot
      { state.file slot with status := .none }) := by
  simp [fdArrayFree, closed, unused, isNode, vfsClose_exact _ opens refs]

omit [DecidableEq F] in
/-- The counts of an inode change by one for the slot that begins or ends to name it. -/
theorem update_hit (inodes : N → Inode) (named node : N) (inode : Inode) (field : Inode → Int) (change : Int)
    (changed : field inode = field (inodes named) + change) :
    field (Function.update inodes named inode node) =
      field (inodes node) + change * (hit (some named) node : Int) := by
  by_cases same : node = named
  · subst same
    simp [changed]
  · simp [Function.update_of_ne same, Ne.symm same]

/-- A user of a slot goes. The last one finds the slot closed, ends its opening and
frees it. -/
theorem Consistent.dropUser_exact (consistent : Consistent state live users openers others)
    (member : slot ∈ slots live) (file : File N) (used : Nat) (isFd : file.fd = slot.2)
    (active : file.status = .opened ∨ file.status = .closed) (names : (state.file slot).names = file.names)
    (holds : (state.file slot).holds = file.holds) (named : file.node ≠ none)
    (count : file.openCount - 1 = (if file.status = .opened then 1 else 0) + used) (unopened : openers slot = 0) :
    ∃ next, dropUser state slot file = some next ∧ Touches slot state next ∧
      Consistent next live (Function.update users slot used) openers others ∧
      (next.file slot).status = if file.openCount - 1 = 0 then .none else file.status := by
  have sameOpeners : Function.update openers slot 0 = openers := by rw [← unopened, Function.update_eq_self]
  have activeNot : file.status ≠ .init := by rcases active with status | status <;> simp [status]
  by_cases last : file.openCount - 1 = 0
  · obtain ⟨node, isNode⟩ := Option.ne_none_iff_exists'.mp named
    have unused : used = 0 := by split_ifs at count <;> omega
    have closed : file.status = .closed := by
      rcases active with status | status
      · simp only [status, if_true] at count
        omega
      · exact status
    have namesNode : state.names slot = some node := by
      rw [FileState.names, names, File.names, if_pos active, isNode]
    have holdsOpening : state.holds slot = some file.opening := by
      rw [FileState.holds, holds, File.holds, if_pos active]
    obtain ⟨opens, refs⟩ := consistent.positive member namesNode
    let left : File N := { file with openCount := file.openCount - 1 }
    have stored : (state.setFile slot left).file slot = left := FileState.setFile_self
    have freed := fdArrayFree_closed (state.setFile slot left) (by rw [stored]; exact closed)
      (by rw [stored]; exact last) (by rw [stored]; exact isNode) opens refs
    rw [stored] at freed
    have closes : Touches slot state ((state.setFile slot left).close node file.opening) :=
      ⟨FileState.setFile_touches.elsewhere, FileState.setFile_touches.tables⟩
    have touches : Touches slot state (((state.setFile slot left).close node file.opening).setFile slot
        { left with status := .none }) := closes.trans FileState.setFile_touches
    have silent : (((state.setFile slot left).close node file.opening).setFile slot
        { left with status := .none }).names slot = none := by
      simp [FileState.names, File.names]
    have ends : (((state.setFile slot left).close node file.opening).setFile slot
        { left with status := .none }).holds slot = none := by
      simp [FileState.holds, File.holds]
    refine ⟨_, ?_, touches, ?_, ?_⟩
    · exact (if_pos last).trans freed
    · apply consistent.change member touches
      · exact fun other different => Function.update_of_ne different _ _
      · exact fun _ _ => rfl
      · rw [FileState.setFile_self, Function.update_self, unused, unopened]
        exact ⟨isFd, by simpa [left] using last, by simp, by simp, by simp, by simp⟩
      · intro other
        have changed := update_hit state.inodes node other
          ⟨(state.inodes node).refCount - 1, (state.inodes node).openCount - 1⟩ Inode.openCount (-1) rfl
        rw [namesNode, silent, hit_none]
        simp only [FileState.setFile, FileState.setFiles, FileState.close]
        omega
      · intro other
        have changed := update_hit state.inodes node other
          ⟨(state.inodes node).refCount - 1, (state.inodes node).openCount - 1⟩ Inode.refCount (-1) rfl
        rw [namesNode, silent, hit_none]
        simp only [FileState.setFile, FileState.setFiles, FileState.close]
        omega
      · intro number
        rw [holdsOpening, ends, hit_none, hit_some]
        simp only [FileState.setFile, FileState.setFiles, FileState.close, List.count_cons, beq_iff_eq]
        omega
    · simp [last]
  · refine ⟨state.setFile slot { file with openCount := file.openCount - 1 }, ?_, ?_, ?_, ?_⟩
    · simp [dropUser, last]
    · exact FileState.setFile_touches
    · rw [← sameOpeners]
      refine consistent.setFile member _ _ _ ?_ names.symm holds.symm
      refine ⟨isFd, count, ?_, fun _ => active, ?_, fun _ => named⟩
      · simp [activeNot]
      · intro isClosed
        have closed : file.status = .closed := isClosed
        simp only [closed, reduceCtorEq, if_false] at count
        omega
    · simp [last]

/-- A call that ends gives the slot up. -/
theorem Consistent.release_exact (consistent : Consistent state live users openers others)
    (member : slot ∈ slots live) (inUse : 0 < users slot) :
    ∃ next, fdArrayRelease state slot = some next ∧ Touches slot state next ∧
      Consistent next live (Function.update users slot (users slot - 1)) openers others := by
  have ok := consistent.slot slot member
  have active := ok.used inUse
  have count := ok.count
  have positive : 0 < (state.file slot).openCount := by
    rw [count]
    split_ifs <;> omega
  have unopened : openers slot = 0 := by
    rw [ok.opening, if_neg]
    rcases active with status | status <;> simp [status]
  obtain ⟨next, dropped, touches, kept, _⟩ := consistent.dropUser_exact member (state.file slot)
    (users slot - 1) ok.fd active rfl rfl (ok.named active) (by omega) unopened
  refine ⟨next, ?_, touches, kept⟩
  rw [fdArrayRelease, if_pos ⟨active, positive⟩]
  exact dropped

/-- The descriptor of an open slot goes; without other users the slot is free. -/
theorem Consistent.close_exact (consistent : Consistent state live users openers others)
    (member : slot ∈ slots live) (opened : (state.file slot).status = .opened) :
    ∃ next, fdArrayClose state slot = some next ∧ Touches slot state next ∧
      Consistent next live users openers others ∧
      (next.file slot).status = if users slot = 0 then .none else .closed := by
  have ok := consistent.slot slot member
  have count := ok.count
  rw [if_pos opened] at count
  have unopened : openers slot = 0 := by simp [ok.opening, opened]
  obtain ⟨next, dropped, touches, kept, status⟩ := consistent.dropUser_exact member
    { state.file slot with status := .closed } (users slot) ok.fd (Or.inr rfl) (by simp [File.names, opened])
    (by simp [File.holds, opened]) (ok.named (Or.inl opened)) (by simp [count]) unopened
  refine ⟨next, ?_, touches, ?_, ?_⟩
  · rw [fdArrayClose, if_pos ⟨opened, by omega⟩]
    exact dropped
  · rwa [Function.update_eq_self] at kept
  · rw [status]
    have same : (state.file slot).openCount - 1 = 0 ↔ users slot = 0 := by omega
    simp only [same]

/-- A call begins to use an open slot. -/
theorem Consistent.acquire_exact (consistent : Consistent state live users openers others)
    (member : slot ∈ slots live) (opened : (state.file slot).status = .opened) :
    ∃ next, fdArrayAcquire state slot = some next ∧ Touches slot state next ∧
      Consistent next live (Function.update users slot (users slot + 1)) openers others := by
  have ok := consistent.slot slot member
  have count := ok.count
  refine ⟨_, if_pos opened, FileState.setFile_touches, ?_⟩
  have unopened : openers slot = 0 := by simp [ok.opening, opened]
  have kept := consistent.setFile member { state.file slot with openCount := (state.file slot).openCount + 1 }
    (users slot + 1) 0 ⟨ok.fd, by simp [count]; omega, by simp [opened], fun _ => Or.inl opened,
      by simp [opened], ok.named⟩ rfl rfl
  rwa [← unopened, Function.update_eq_self] at kept

/-- A change of what the counts do not depend on. -/
theorem Consistent.setPos (consistent : Consistent state live users openers others) (member : slot ∈ slots live)
    (pos : Int) :
    Consistent (state.setFile slot { state.file slot with pos }) live users openers others := by
  have ok := consistent.slot slot member
  have kept := consistent.setFile member { state.file slot with pos } (users slot) (openers slot)
    ⟨ok.fd, ok.count, ok.opening, ok.used, ok.closing, ok.named⟩ rfl rfl
  rwa [Function.update_eq_self, Function.update_eq_self] at kept

omit [DecidableEq F] [DecidableEq N] in
/-- A slot that is being filled has no users. -/
theorem SlotOk.unused {file : File N} {fd used opening : Nat} (ok : SlotOk file fd used opening)
    (idle : file.status = .none ∨ file.status = .init) : used = 0 ∧ file.openCount = 0 := by
  have unused : used = 0 := by
    by_contra inUse
    rcases ok.used (by omega) with status | status <;> rcases idle with other | other <;> simp [status] at other
  refine ⟨unused, ?_⟩
  rw [ok.count, unused]
  rcases idle with status | status <;> simp [status]

/-- A `file_open` that fails frees its slot. -/
theorem Consistent.free_exact (consistent : Consistent state live users openers others) (member : slot ∈ slots live)
    (filling : (state.file slot).status = .init) :
    ∃ next, fdArrayFree state slot = some next ∧ Touches slot state next ∧
      Consistent next live users (Function.update openers slot 0) others := by
  have ok := consistent.slot slot member
  obtain ⟨unused, count⟩ := ok.unused (Or.inr filling)
  refine ⟨state.setFile slot { state.file slot with status := .none }, ?_, FileState.setFile_touches, ?_⟩
  · simp [fdArrayFree, filling, count]
  · have kept := consistent.setFile member { state.file slot with status := .none } (users slot) 0
      ⟨ok.fd, by simp [count, unused], by simp, by simp [unused], by simp, by simp⟩
      (by simp [File.names, filling]) (by simp [File.holds, filling])
    rwa [Function.update_eq_self] at kept

/-- An inode opened for a slot that is being filled: the slot counts for the inode as
soon as it is open, and holds the new opening. -/
theorem Consistent.open_exact (consistent : Consistent state live users openers others) (member : slot ∈ slots live)
    (filling : (state.file slot).status = .init) (node : N) (pos : Int) (readable writable : Bool) :
    ∃ next, fdArrayOpen ((vfsOpen state node).2.setFile slot { state.file slot with
        pos, readable, writable, node := some node, opening := state.opened }) slot = some next ∧
      Touches slot state next ∧ Consistent next live users (Function.update openers slot 0) others ∧
      (next.file slot).status = .opened := by
  have ok := consistent.slot slot member
  obtain ⟨unused, count⟩ := ok.unused (Or.inr filling)
  let filled : File N :=
    { state.file slot with pos, readable, writable, node := some node, opening := state.opened }
  let next := ((vfsOpen state node).2.setFile slot filled).setFile slot
    { filled with status := .opened, openCount := filled.openCount + 1 }
  have stored : ((vfsOpen state node).2.setFile slot filled).file slot = filled := FileState.setFile_self
  have touches : Touches slot state next := by
    have opens : Touches slot state ((vfsOpen state node).2.setFile slot filled) :=
      ⟨FileState.setFile_touches.elsewhere, FileState.setFile_touches.tables⟩
    exact opens.trans FileState.setFile_touches
  have silent : state.names slot = none ∧ state.holds slot = none := by
    simp [FileState.names, File.names, FileState.holds, File.holds, filling]
  have named : next.names slot = some node ∧ next.holds slot = some state.opened := by
    simp [next, FileState.names, File.names, FileState.holds, File.holds, filled]
  have inodes : next.inodes = Function.update state.inodes node
      ⟨(state.inodes node).refCount + 1, (state.inodes node).openCount + 1⟩ := by
    simp [next, FileState.setFile, FileState.setFiles, vfsOpen_exact]
  refine ⟨next, ?_, touches, ?_, by simp [next]⟩
  · have able : filled.status = .init ∧ filled.node ≠ none := ⟨filling, by simp [filled]⟩
    unfold fdArrayOpen
    rw [stored, if_pos able]
  · apply consistent.change member touches
    · exact fun _ _ => rfl
    · exact fun other different => Function.update_of_ne different _ _
    · simp only [next, FileState.setFile_self, Function.update_self]
      exact ⟨ok.fd, by simp [filled, count, unused], by simp, fun _ => Or.inl rfl, by simp, by simp [filled]⟩
    · intro other
      have changed := update_hit state.inodes node other
        ⟨(state.inodes node).refCount + 1, (state.inodes node).openCount + 1⟩ Inode.openCount 1 rfl
      rw [silent.1, named.1, hit_none, inodes]
      omega
    · intro other
      have changed := update_hit state.inodes node other
        ⟨(state.inodes node).refCount + 1, (state.inodes node).openCount + 1⟩ Inode.refCount 1 rfl
      rw [silent.1, named.1, hit_none, inodes]
      omega
    · intro number
      rw [silent.2, named.2, hit_none, hit_some]
      simp only [next, FileState.setFile, FileState.setFiles, vfsOpen_exact, issued]
      split_ifs <;> omega

omit [DecidableEq F] [DecidableEq N] in
/-- The slot that a descriptor leads to. -/
theorem fd2file_slot {files : F} {fd : Int} (found : fd2file state (some files) fd = some (.ok slot)) :
    slot = (files, fd.toNat) ∧ (state.file slot).status = .opened ∧ fd.toNat < nentry := by
  unfold fd2file at found
  split at found
  · rename_i range
    obtain ⟨live, isLive, rest⟩ := Option.bind_eq_some_iff.mp found
    have same : live = files := by
      unfold getFdArray at isLive
      simp only [Option.bind_some] at isLive
      split at isLive
      · exact (Option.some.inj isLive).symm
      · cases isLive
    subst same
    simp only at rest
    split at rest
    · rename_i isOpen
      obtain rfl := Except.ok.inj (Option.some.inj rest)
      exact ⟨rfl, isOpen.1, by omega⟩
    · cases rest
  · cases found

omit [DecidableEq F] in
theorem mem_slots {files : F} {fd : Nat} : (files, fd) ∈ slots live ↔ files ∈ live ∧ fd < nentry := by
  simp [slots]

omit [DecidableEq N] in
/-- A free slot that `fd_array_alloc` finds is in the table. -/
theorem findFree_exact {fdArray : Nat → File N} {fd : Int} {found : Nat} (isFound : findFree fdArray fd = .ok found) :
    found < nentry ∧ (fdArray found).status = .none := by
  unfold findFree at isFound
  split at isFound
  · split at isFound
    · rename_i free search
      obtain rfl : free = found := by simpa using isFound
      have member := List.mem_range.mp (List.mem_of_find?_eq_some search)
      exact ⟨member, by simpa using List.find?_some search⟩
    · cases isFound
  · split at isFound
    · rename_i range
      split at isFound
      · rename_i free
        obtain rfl : fd.toNat = found := by simpa using isFound
        exact ⟨by omega, free⟩
      · cases isFound
    · cases isFound

/-- `fd_array_alloc` refuses, or takes a free slot for a call that fills it. -/
theorem Consistent.alloc_exact (consistent : Consistent state live users openers others) {files : F}
    (inside : files ∈ live) (counted : 0 < (state.files files).filesCount) (fd : Int) :
    (∃ ret, fdArrayAlloc state (some files) fd = some (.error ret, state)) ∨
    ∃ slot ∈ slots live, ∃ next, slot.1 = files ∧ (state.file slot).status = .none ∧
      fdArrayAlloc state (some files) fd = some (.ok slot, next) ∧ Touches slot state next ∧
      Consistent next live users (Function.update openers slot 1) others ∧ (next.file slot).status = .init := by
  have array : getFdArray state (some files) = some files := by simp [getFdArray, counted]
  cases found : findFree (state.files files).fdArray fd with
  | error ret => exact Or.inl ⟨ret, by simp [fdArrayAlloc, array, found]⟩
  | ok number =>
    obtain ⟨small, free⟩ := findFree_exact found
    have member : (files, number) ∈ slots live := mem_slots.mpr ⟨inside, small⟩
    have isFree : (state.file (files, number)).status = .none := free
    have ok := consistent.slot _ member
    obtain ⟨unused, count⟩ := ok.unused (Or.inl isFree)
    have kept := consistent.setFile member { state.file (files, number) with status := .init, node := none }
      (users (files, number)) 1 ⟨ok.fd, by simp [count, unused], by simp, by simp [unused], by simp, by simp⟩
      (by simp [File.names, isFree]) (by simp [File.holds, isFree])
    rw [Function.update_eq_self] at kept
    refine Or.inr ⟨_, member, _, rfl, isFree, ?_, FileState.setFile_touches, kept, by simp⟩
    simp [fdArrayAlloc, array, found, count]

/-- `fd_array_dup` fills a slot with the inode of an open one. -/
theorem Consistent.dup_exact (consistent : Consistent state live users openers others) {source : Slot F}
    (member : slot ∈ slots live) (filling : (state.file slot).status = .init) (sourceMember : source ∈ slots live)
    (opened : (state.file source).status = .opened) :
    ∃ next, fdArrayDup state slot source = some next ∧ Touches slot state next ∧
      Consistent next live users (Function.update openers slot 0) others ∧ (next.file slot).status = .opened := by
  obtain ⟨node, isNode⟩ := Option.ne_none_iff_exists'.mp ((consistent.slot source sourceMember).named (Or.inl opened))
  obtain ⟨next, ends, facts⟩ := consistent.open_exact member filling node (state.file source).pos
    (state.file source).readable (state.file source).writable
  refine ⟨next, ?_, facts⟩
  simp only [fdArrayDup, filling, opened, isNode, vfsOpen_exact] at ends ⊢
  exact ends

/-- An inode opened for a slot and closed at once: its opening has begun and ended. -/
theorem Consistent.reclose_exact (consistent : Consistent state live users openers others)
    (member : slot ∈ slots live) (filling : (state.file slot).status = .init) (node : N) (pos : Int) :
    ∃ next, vfsClose ((vfsOpen state node).2.setFile slot { state.file slot with pos }) node state.opened =
        some next ∧ Touches slot state next ∧ Consistent next live users openers others ∧
      (next.file slot).status = .init := by
  have ok := consistent.slot slot member
  let opened := (vfsOpen state node).2.setFile slot { state.file slot with pos }
  have inodes : opened.inodes = Function.update state.inodes node
      ⟨(state.inodes node).refCount + 1, (state.inodes node).openCount + 1⟩ := by
    simp [opened, FileState.setFile, FileState.setFiles, vfsOpen_exact]
  have positive : 0 < (opened.inodes node).openCount ∧ 0 < (opened.inodes node).refCount := by
    have opens := consistent.opens node
    have refs := consistent.refs node
    simp only [inodes, Function.update_self]
    omega
  have restored : (opened.close node state.opened).inodes = state.inodes := by
    simp [FileState.close, inodes]
  have stored : (opened.close node state.opened).file slot = { state.file slot with pos } :=
    FileState.setFile_self
  have touches : Touches slot state (opened.close node state.opened) :=
    ⟨FileState.setFile_touches.elsewhere, FileState.setFile_touches.tables⟩
  have silent : state.names slot = none ∧ state.holds slot = none := by
    simp [FileState.names, File.names, FileState.holds, File.holds, filling]
  have stillSilent : (opened.close node state.opened).names slot = none ∧
      (opened.close node state.opened).holds slot = none := by
    simp [FileState.names, File.names, FileState.holds, File.holds, stored, filling]
  refine ⟨_, vfsClose_exact _ positive.1 positive.2, touches, ?_, by rw [stored]; exact filling⟩
  apply consistent.change member touches
  · exact fun _ _ => rfl
  · exact fun _ _ => rfl
  · rw [stored]
    exact ⟨ok.fd, ok.count, ok.opening, ok.used, ok.closing, ok.named⟩
  · intro other
    rw [restored, silent.1, stillSilent.1]
  · intro other
    rw [restored, silent.1, stillSilent.1]
  · intro number
    rw [silent.2, stillSilent.2]
    simp only [opened, FileState.close, FileState.setFile, FileState.setFiles, vfsOpen_exact,
      List.count_cons, beq_iff_eq, hit_none, issued]
    split_ifs <;> omega

/-- The rest of `file_open`: the slot is filled, or it is free again and the opening,
if there was one, has ended. -/
theorem Consistent.openEnd_exact (consistent : Consistent state live users openers others)
    (member : slot ∈ slots live) (filling : (state.file slot).status = .init) (openFlags : BitVec 32)
    (opened : Except Int N) (fstat : Except Int Int) :
    ∃ ret next, fileOpenEnd state slot openFlags opened fstat = some (ret, next) ∧ Touches slot state next ∧
      Consistent next live users (Function.update openers slot 0) others := by
  cases opened with
  | error ret =>
    obtain ⟨next, freed, touches, kept⟩ := consistent.free_exact member filling
    exact ⟨.error ret, next, by simp [fileOpenEnd, freed], touches, kept⟩
  | ok node =>
    cases stat : (if openFlags &&& oAppend ≠ 0 then fstat else .ok 0) with
    | ok pos =>
      obtain ⟨next, ends, touches, kept, _⟩ := consistent.open_exact member filling node pos
        (decide (openFlags &&& oAccmode = oRdonly ∨ openFlags &&& oAccmode = oRdwr))
        (decide (openFlags &&& oAccmode = oWronly ∨ openFlags &&& oAccmode = oRdwr))
      refine ⟨.ok (state.file slot).fd, next, ?_, touches, kept⟩
      simp only [fileOpenEnd, stat]
      exact Option.bind_eq_some_iff.mpr ⟨next, ends, rfl⟩
    | error ret =>
      obtain ⟨closed, isClosed, closeTouches, closeKept, stillFilling⟩ :=
        consistent.reclose_exact member filling node 0
      obtain ⟨next, freed, touches, kept⟩ := closeKept.free_exact member stillFilling
      refine ⟨.error ret, next, ?_, closeTouches.trans touches, kept⟩
      simp only [fileOpenEnd, stat]
      exact Option.bind_eq_some_iff.mpr ⟨closed, isClosed, Option.bind_eq_some_iff.mpr ⟨next, freed, rfl⟩⟩

end Ucore.Fs
