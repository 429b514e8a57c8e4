import Ucore.Sfs.BlockOwnership
import Ucore.Sfs.Dirent

/-!
# Directories that can be read

The entries of a directory as its blocks hold them, and what the functions of
`kern/fs/sfs/sfs_inode.c` make of them: a search by name or by inode number stops at the
first entry that matches, unless the device fails before.
-/

namespace Ucore.Volume

/-- The block behind a slot of a directory. -/
def slotBlock (disk : Nat → Block) (din : DiskInode) (slot : Nat) : Nat :=
  if slot < sfsNdirect then din.direct slot else disk din.indirect (slot - sfsNdirect)

/-- The entry in a slot of a directory. -/
def entryAt (disk : Nat → Block) (din : DiskInode) (slot : Nat) : DiskEntry :=
  .ofWords (disk (slotBlock disk din slot))

/-- The name in an entry. -/
def DiskEntry.string (entry : DiskEntry) : Name := stringAt entry.name sfsMaxFnameLen

/-- A block that the assertions accept. -/
def SfsFs.Usable (fs : SfsFs) (block : Nat) : Prop := assertInuse fs block = some ()

/-- A directory all of whose slots have blocks. -/
structure Readable (fs : SfsFs) (din : DiskInode) : Prop where
  isDir : din.type = sfsTypeDir
  few : din.blocks ≤ sfsNdirect + sfsBlkNentry
  indirect : sfsNdirect < din.blocks → fs.Usable din.indirect
  usable : ∀ slot < din.blocks, fs.Usable (slotBlock fs.disk din slot)

/-- The first of some slots whose entry passes a test. -/
def firstSlot (disk : Nat → Block) (din : DiskInode) (slot rounds : Nat) (test : DiskEntry → Bool) : Option Nat :=
  (List.range' slot rounds).find? fun slot => test (entryAt disk din slot)

variable (device : Nat → Int)

/-- The loop of `sfs_dirent_findino_nolock`, from a slot on. -/
def findinoSlots (fs : SfsFs) (sin : SfsInode) (ino slot : Nat) :
    Nat → Option (Except Int DiskEntry × SfsFs × SfsInode)
  | 0 => some (.error (-eNoent), fs, sin)
  | rounds + 1 => do
      let (read, fs, sin) ← sfsDirentReadNolock device fs sin slot
      match read with
      | .error ret => some (.error ret, fs, sin)
      | .ok entry =>
          if entry.ino = ino then some (.ok entry, fs, sin) else findinoSlots fs sin ino (slot + 1) rounds

/-- `sfs_dirent_findino_nolock` -/
def sfsDirentFindinoNolock (fs : SfsFs) (sin : SfsInode) (ino : Nat) :
    Option (Except Int DiskEntry × SfsFs × SfsInode) :=
  findinoSlots device fs sin ino 0 sin.din.blocks

/-- The outcome of an operation that only reads: it is the expected one, or the device has
failed. -/
def Expected {α : Type} (result expected : Except Int α) : Prop :=
  result = expected ∨ (∃ code, result = .error code) ∧ ∃ call, device call ≠ 0

variable {device} {fs : SfsFs} {sin : SfsInode} {block blkno len offset slot rounds ino : Nat}

theorem Expected.works {α : Type} {result expected : Except Int α} (outcome : Expected device result expected)
    (works : ∀ call, device call = 0) : result = expected := by
  rcases outcome with same | ⟨_, call, failed⟩
  · exact same
  · exact absurd (works call) failed

theorem SfsFs.Usable.range (usable : fs.Usable block) : block ≠ 0 ∧ block < fs.super.blocks := by
  unfold SfsFs.Usable assertInuse at usable
  split at usable
  · rename_i inUse
    unfold sfsBlockInuse at inUse
    split at inUse
    · assumption
    · cases inUse
  · cases usable

/-- Only the superblock and the freemap tell whether a block is usable. -/
theorem SfsFs.Usable.calls (usable : fs.Usable block) (calls : Nat) : SfsFs.Usable { fs with calls } block := usable

theorem Readable.calls {din : DiskInode} (readable : Readable fs din) (calls : Nat) :
    Readable { fs with calls } din :=
  ⟨readable.isDir, readable.few, readable.indirect, readable.usable⟩

variable (device) in
/-- A read of a block gives its words, or the device has failed. -/
theorem sfsRbuf_expected (inside : offset < sfsBlkNentry ∧ offset + len ≤ sfsBlkNentry)
    (isBlock : blkno ≠ 0 ∧ blkno < fs.super.blocks) :
    ∃ result calls, sfsRbuf device fs len blkno offset = some (result, { fs with calls }) ∧
      Expected device result (.ok fun index => fs.disk blkno (offset + index)) := by
  have accepted : (blkno ≠ 0 ∨ true = false) ∧ blkno < fs.super.blocks := ⟨Or.inl isBlock.1, isBlock.2⟩
  by_cases failed : device fs.calls = 0
  · refine ⟨.ok fun index => fs.disk blkno (offset + index), fs.calls + 1, ?_, Or.inl rfl⟩
    simp only [sfsRbuf, if_pos inside, sfsRwblockNolock, if_pos accepted, failed, ne_eq, not_true_eq_false, if_false]
    rfl
  · refine ⟨.error (device fs.calls), fs.calls + 1, ?_, Or.inr ⟨⟨_, rfl⟩, _, failed⟩⟩
    simp only [sfsRbuf, if_pos inside, sfsRwblockNolock, if_pos accepted, ne_eq, failed, not_false_eq_true, if_true,
      Option.bind_eq_bind, Option.bind_some, if_false]

/-- A block that is in the map is found. -/
theorem found_usable (usable : fs.Usable block) : found fs sin block = some (.ok block, fs, sin) := by
  have nonzero := usable.range.1
  rw [SfsFs.Usable] at usable
  simp [found, nonzero, usable]

variable (device) in
/-- `sfs_bmap_load_nolock` gives the block behind a slot. -/
theorem sfsBmapLoadNolock_expected (readable : Readable fs sin.din) (small : slot < sin.din.blocks) :
    ∃ result calls, sfsBmapLoadNolock device fs sin slot = some (result, { fs with calls }, sin) ∧
      Expected device result (.ok (slotBlock fs.disk sin.din slot)) := by
  have usable := readable.usable slot small
  have noCreate : decide (slot = sin.din.blocks) = false := decide_eq_false (Nat.ne_of_lt small)
  have loads : ∀ result calls, sfsBmapGetNolock device fs sin slot false = some (result, { fs with calls }, sin) →
      Expected device result (.ok (slotBlock fs.disk sin.din slot)) →
      sfsBmapLoadNolock device fs sin slot = some (result, { fs with calls }, sin) := by
    intro result calls got outcome
    simp only [sfsBmapLoadNolock, if_pos (Nat.le_of_lt small), noCreate, got, Option.bind_eq_bind, Option.bind_some]
    cases result with
    | error => rfl
    | ok block =>
      obtain rfl : block = slotBlock fs.disk sin.din slot := by
        rcases outcome with same | ⟨⟨_, isError⟩, _⟩
        · exact Except.ok.inj same
        · cases isError
      have asserted : assertInuse { fs with calls } (slotBlock fs.disk sin.din slot) = some () := usable
      simp only [asserted, Option.bind_some]
      rfl
  by_cases direct : slot < sfsNdirect
  · have isBlock : slotBlock fs.disk sin.din slot = sin.din.direct slot := if_pos direct
    have nonzero : sin.din.direct slot ≠ 0 := isBlock ▸ usable.range.1
    have got : sfsBmapGetNolock device fs sin slot false = some (.ok (slotBlock fs.disk sin.din slot), fs, sin) := by
      simp only [sfsBmapGetNolock, if_pos direct, getDirect, nonzero, false_and, if_false]
      rw [isBlock] at usable ⊢
      exact found_usable usable
    exact ⟨_, fs.calls, loads _ fs.calls got (Or.inl rfl), Or.inl rfl⟩
  · have inside : slot - sfsNdirect < sfsBlkNentry := by
      have := readable.few
      omega
    have isBlock : slotBlock fs.disk sin.din slot = fs.disk sin.din.indirect (slot - sfsNdirect) := if_neg direct
    have entries := readable.indirect (by omega)
    have range : slot - sfsNdirect < sfsBlkNentry ∧ slot - sfsNdirect + 1 ≤ sfsBlkNentry := ⟨inside, inside⟩
    obtain ⟨read, calls, isRead, outcome⟩ := sfsRbuf_expected device range entries.range
    have nonzero := entries.range.1
    have gets : sfsBmapGetNolock device fs sin slot false =
        (match read with
          | .error ret => some (.error ret, { fs with calls }, sin)
          | .ok words => found { fs with calls } sin (words 0)) := by
      simp only [sfsBmapGetNolock, if_neg direct, if_pos inside, getIndirect, sfsBmapGetSubNolock, ne_eq, nonzero,
        not_false_eq_true, if_true, isRead, Option.bind_eq_bind, Option.bind_some]
      cases read with
      | error => rfl
      | ok words => simp
    rcases outcome with rfl | ⟨⟨code, rfl⟩, failed⟩
    · have got : sfsBmapGetNolock device fs sin slot false =
          some (.ok (slotBlock fs.disk sin.din slot), { fs with calls }, sin) := by
        rw [gets]
        simp only [Nat.add_zero]
        rw [← isBlock]
        exact found_usable (usable.calls calls)
      exact ⟨_, calls, loads _ calls got (Or.inl rfl), Or.inl rfl⟩
    · exact ⟨_, calls, loads _ calls gets (Or.inr ⟨⟨code, rfl⟩, failed⟩), Or.inr ⟨⟨code, rfl⟩, failed⟩⟩

variable (device) in
/-- `sfs_dirent_read_nolock` gives the entry in a slot. -/
theorem sfsDirentReadNolock_expected (readable : Readable fs sin.din) (small : slot < sin.din.blocks) :
    ∃ result calls, sfsDirentReadNolock device fs sin slot = some (result, { fs with calls }, sin) ∧
      Expected device result (.ok (entryAt fs.disk sin.din slot)) := by
  have usable := readable.usable slot small
  obtain ⟨loaded, calls, isLoaded, outcome⟩ := sfsBmapLoadNolock_expected device readable small
  have accepted : sin.din.type = sfsTypeDir ∧ slot < sin.din.blocks := ⟨readable.isDir, small⟩
  simp only [sfsDirentReadNolock, if_pos accepted, isLoaded, Option.bind_eq_bind, Option.bind_some]
  rcases outcome with rfl | ⟨⟨code, rfl⟩, failed⟩
  · have asserted : assertInuse { fs with calls } (slotBlock fs.disk sin.din slot) = some () := usable
    obtain ⟨read, last, isRead, words⟩ := @sfsRbuf_expected device { fs with calls } (slotBlock fs.disk sin.din slot)
      diskEntryWords 0 ⟨by decide, by decide⟩ usable.range
    simp only [asserted, isRead, Option.bind_some]
    refine ⟨_, last, rfl, ?_⟩
    rcases words with rfl | ⟨⟨code, rfl⟩, failed⟩
    · left
      simp only [Except.map, Nat.zero_add]
      rfl
    · exact Or.inr ⟨⟨code, rfl⟩, failed⟩
  · exact ⟨_, calls, rfl, Or.inr ⟨⟨code, rfl⟩, failed⟩⟩

theorem firstSlot_succ (disk : Nat → Block) (din : DiskInode) (slot rounds : Nat) (test : DiskEntry → Bool) :
    firstSlot disk din slot (rounds + 1) test =
      if test (entryAt disk din slot) then some slot else firstSlot disk din (slot + 1) rounds test := by
  simp only [firstSlot, List.range'_succ, List.find?_cons]
  cases test (entryAt disk din slot) <;> rfl

/-- The test of `sfs_dirent_search_nolock` on an entry. -/
def isNamed (name : Name) (entry : DiskEntry) : Bool := entry.ino ≠ 0 ∧ entry.string = name

/-- What a search by name has to give. -/
def searched (disk : Nat → Block) (din : DiskInode) (name : Name) (slot rounds : Nat) : Except Int (Nat × Nat) :=
  match firstSlot disk din slot rounds (isNamed name) with
  | some slot => .ok (slot, (entryAt disk din slot).ino)
  | none => .error (-eNoent)

/-- The names in entries that were read end in their last byte at the latest. -/
theorem entryAt_holds (disk : Nat → Block) (din : DiskInode) (slot : Nat) :
    HoldsString (entryAt disk din slot).name (entryAt disk din slot).string :=
  stringAt_holds (by simp [entryAt, DiskEntry.ofWords])

variable (device) in
/-- The loop of a search gives the first slot with the name. -/
theorem searchSlots_expected {name : Name} {emptySlot : Nat} (readable : Readable fs sin.din)
    (inside : slot + rounds = sin.din.blocks) :
    ∃ result left calls, searchSlots device fs sin name slot emptySlot rounds =
        some (result, some left, { fs with calls }, sin) ∧
      Expected device result (searched fs.disk sin.din name slot rounds) := by
  induction rounds generalizing fs slot emptySlot with
  | zero => exact ⟨_, emptySlot, fs.calls, rfl, Or.inl rfl⟩
  | succ rounds ih =>
    obtain ⟨read, calls, isRead, outcome⟩ :=
      sfsDirentReadNolock_expected device readable (by omega : slot < sin.din.blocks)
    simp only [searchSlots, isRead, Option.bind_eq_bind, Option.bind_some, searched, firstSlot_succ]
    rcases outcome with rfl | ⟨⟨code, rfl⟩, failed⟩
    · have later := fun left => @ih { fs with calls } (slot + 1) left (readable.calls calls) (by omega)
      simp only [isNamed, strcmp_exact (entryAt_holds fs.disk sin.din slot)]
      by_cases empty : (entryAt fs.disk sin.din slot).ino = 0
      · simp only [empty, if_true, ne_eq, not_true_eq_false, false_and, decide_false, Bool.false_eq_true, if_false]
        exact later slot
      · by_cases same : name = (entryAt fs.disk sin.din slot).string
        · simp only [empty, ← same, if_true, if_false, ne_eq, not_false_eq_true, and_self, decide_true]
          exact ⟨_, emptySlot, calls, rfl, Or.inl rfl⟩
        · simp only [empty, same, Ne.symm same, if_false, and_false, decide_false, Bool.false_eq_true]
          exact later emptySlot
    · exact ⟨_, emptySlot, calls, rfl, Or.inr ⟨⟨code, rfl⟩, failed⟩⟩

variable (device) in
/-- `sfs_dirent_search_nolock` with memory and a name that fits. -/
theorem sfsDirentSearchNolock_expected {name : Name} (readable : Readable fs sin.din)
    (short : name.length ≤ sfsMaxFnameLen) :
    ∃ result left calls, sfsDirentSearchNolock device true fs sin name =
        some (result, some left, { fs with calls }, sin) ∧
      Expected device result (searched fs.disk sin.din name 0 sin.din.blocks) := by
  simp only [sfsDirentSearchNolock, if_pos short, Bool.true_eq_false, if_false]
  exact searchSlots_expected device readable (Nat.zero_add _)

/-- What a search by number has to give. -/
def foundIno (disk : Nat → Block) (din : DiskInode) (ino slot rounds : Nat) : Except Int DiskEntry :=
  match firstSlot disk din slot rounds fun entry => entry.ino = ino with
  | some slot => .ok (entryAt disk din slot)
  | none => .error (-eNoent)

variable (device) in
theorem findinoSlots_expected (readable : Readable fs sin.din) (inside : slot + rounds = sin.din.blocks) :
    ∃ result calls, findinoSlots device fs sin ino slot rounds = some (result, { fs with calls }, sin) ∧
      Expected device result (foundIno fs.disk sin.din ino slot rounds) := by
  induction rounds generalizing fs slot with
  | zero => exact ⟨_, fs.calls, rfl, Or.inl rfl⟩
  | succ rounds ih =>
    obtain ⟨read, calls, isRead, outcome⟩ :=
      sfsDirentReadNolock_expected device readable (by omega : slot < sin.din.blocks)
    simp only [findinoSlots, isRead, Option.bind_eq_bind, Option.bind_some, foundIno, firstSlot_succ]
    rcases outcome with rfl | ⟨⟨code, rfl⟩, failed⟩
    · by_cases same : (entryAt fs.disk sin.din slot).ino = ino
      · simp only [same, if_true, decide_true]
        exact ⟨_, calls, rfl, Or.inl rfl⟩
      · simp only [same, if_false, decide_false, Bool.false_eq_true]
        exact @ih { fs with calls } (slot + 1) (readable.calls calls) (by omega)
    · exact ⟨_, calls, rfl, Or.inr ⟨⟨code, rfl⟩, failed⟩⟩

variable (device) in
/-- `sfs_dirent_findino_nolock` gives the first entry with the number. -/
theorem sfsDirentFindinoNolock_expected (readable : Readable fs sin.din) :
    ∃ result calls, sfsDirentFindinoNolock device fs sin ino = some (result, { fs with calls }, sin) ∧
      Expected device result (foundIno fs.disk sin.din ino 0 sin.din.blocks) :=
  findinoSlots_expected device readable (Nat.zero_add _)

end Ucore.Volume
