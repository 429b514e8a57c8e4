import Mathlib.Algebra.Ring.Int.Defs
import Ucore.Fs.Iobuf
import Ucore.Sfs.Directory

/-!
# Reading a directory

`sfs_getdirentry` of `kern/fs/sfs/sfs_inode.c` gives the entry of a rank, where the rank is
an offset divided by the size of a name and empty slots do not count. `file_getdirentry` of
`kern/fs/file.c` moves the offset on, so that a program that starts at 0 reads the entries
one after the other. The rank is an `int`, which an offset of 64 bits need not fit in.
-/

namespace Ucore.Volume

open Vfs

/-- `sfs_dentry_size` -/
def sfsDentrySize : Nat := 256

/-- `struct dirent` -/
structure Dirent where
  offset : Int
  name : Bytes

variable (device : Nat → Int) (memory : Bool)

/-- The loop of `sfs_getdirentry_sub_nolock`, from a slot of the directory on. -/
def getdirentrySlots (fs : SfsFs) (sin : SfsInode) (i : Nat) (slot : Int) :
    Nat → Option (Except Int DiskEntry × SfsFs × SfsInode)
  | 0 => some (.error (-eNoent), fs, sin)
  | rounds + 1 => do
      let (read, fs, sin) ← sfsDirentReadNolock device fs sin i
      match read with
      | .error ret => some (.error ret, fs, sin)
      | .ok entry =>
          if entry.ino ≠ 0 then
            if slot = 0 then some (.ok entry, fs, sin) else getdirentrySlots fs sin (i + 1) (slot - 1) rounds
          else getdirentrySlots fs sin (i + 1) slot rounds

/-- `sfs_getdirentry_sub_nolock` -/
def sfsGetdirentrySubNolock (fs : SfsFs) (sin : SfsInode) (slot : Int) :
    Option (Except Int DiskEntry × SfsFs × SfsInode) :=
  getdirentrySlots device fs sin 0 slot (toInt sin.din.blocks).toNat

/-- `sfs_getdirentry`, which may find no memory. The comparison with `blocks` is one of
unsigned numbers. -/
def sfsGetdirentry (fs : SfsFs) (sin : SfsInode) (iob : Iobuf) (bytes : Bytes) :
    Option (Int × Iobuf × Bytes × SfsFs × SfsInode) :=
  if memory = false then some (-eNoMem, iob, bytes, fs, sin)
  else if iob.ioOffset < 0 ∨ iob.ioOffset.tmod sfsDentrySize ≠ 0 then some (-eInval, iob, bytes, fs, sin)
  else
    let slot := toInt (iob.ioOffset.tdiv sfsDentrySize)
    if sin.din.blocks < (slot % 2 ^ 32).toNat then some (-eNoent, iob, bytes, fs, sin)
    else do
      let (found, fs, sin) ← sfsGetdirentrySubNolock device fs sin slot
      match found with
      | .error ret => some (ret, iob, bytes, fs, sin)
      | .ok entry => do
          let moved ← iobufMove iob bytes entry.name sfsDentrySize true
          some (moved.ret, moved.iob, moved.bytes, fs, sin)

/-- `file_getdirentry` behind the search for the file, for a directory. The name of the
entry is an object of its own. -/
def direntNext (fs : SfsFs) (sin : SfsInode) (dirent : Dirent) : Option (Int × Dirent × SfsFs × SfsInode) := do
  let (ret, iob, name, fs, sin) ←
    sfsGetdirentry device memory fs sin (iobufInit 0 sfsDentrySize dirent.offset) dirent.name
  let offset := if ret = 0 then dirent.offset + iobufUsed iob else dirent.offset
  some (ret, { offset, name }, fs, sin)

/-- A program that reads entries until a call fails, with the names it is given and what the
last call returns. -/
def listDirectory : Nat → SfsFs → SfsInode → Dirent → Option (List Name × Int)
  | 0, _, _, _ => none
  | calls + 1, fs, sin, dirent => do
      let (ret, dirent, fs, sin) ← direntNext device memory fs sin dirent
      if ret ≠ 0 then some ([], ret)
      else do
        let (names, last) ← listDirectory calls fs sin dirent
        some (stringAt dirent.name sfsMaxFnameLen :: names, last)

/-- The entries of a directory that are not empty, in the order of their slots. -/
def entriesFrom (disk : Nat → Block) (din : DiskInode) (slot rounds : Nat) : List DiskEntry :=
  ((List.range' slot rounds).map (entryAt disk din)).filter fun entry => entry.ino ≠ 0

def entriesOf (disk : Nat → Block) (din : DiskInode) : List DiskEntry := entriesFrom disk din 0 din.blocks

/-- What a call on the entry of some rank comes to: the name in the buffer, or an error and
no change. -/
def Delivers (entry : Option DiskEntry) (iob left : Iobuf) (bytes after : Bytes) (ret : Int) : Prop :=
  match entry with
  | some entry => ret = 0 ∧ iobufUsed left = sfsDentrySize ∧ after = memcpy bytes iob.ioBase entry.name sfsDentrySize
  | none => ret = -eNoent ∧ left = iob ∧ after = bytes

/-- `sfs_getdirentry` delivers the entry of a rank, unless there is no memory or the device
fails; then it returns an error and delivers nothing. -/
def GetdirentryRight (fs : SfsFs) (sin : SfsInode) (rank : Nat) : Prop :=
  ∀ device memory base bytes, ∃ ret left after calls,
    sfsGetdirentry device memory fs sin (iobufInit base sfsDentrySize (rank * sfsDentrySize : Nat)) bytes =
      some (ret, left, after, { fs with calls }, sin) ∧
    (Delivers (entriesOf fs.disk sin.din)[rank]? (iobufInit base sfsDentrySize (rank * sfsDentrySize : Nat)) left
        bytes after ret ∨
      ret ≠ 0 ∧ after = bytes ∧ (memory = false ∨ ∃ call, device call ≠ 0))

variable {device memory} {fs after : SfsFs} {sin sinAfter : SfsInode} {slot rounds rank : Nat} {ret : Int}

/-! ## The loop -/

theorem entriesFrom_succ (disk : Nat → Block) (din : DiskInode) (slot rounds : Nat) :
    entriesFrom disk din slot (rounds + 1) =
      if (entryAt disk din slot).ino ≠ 0 then entryAt disk din slot :: entriesFrom disk din (slot + 1) rounds
      else entriesFrom disk din (slot + 1) rounds := by
  simp only [entriesFrom, List.range'_succ, List.map_cons, List.filter_cons, decide_eq_true_eq]

theorem entriesFrom_length (disk : Nat → Block) (din : DiskInode) (slot rounds : Nat) :
    (entriesFrom disk din slot rounds).length ≤ rounds := by
  have shorter := List.length_filter_le (fun entry => decide (entry.ino ≠ 0)) ((List.range' slot rounds).map (entryAt disk din))
  rw [List.length_map, List.length_range'] at shorter
  exact shorter

/-- What the loop has to give for a rank. -/
def ranked (entries : List DiskEntry) (rank : Nat) : Except Int DiskEntry :=
  match entries[rank]? with
  | some entry => .ok entry
  | none => .error (-eNoent)

variable (device) in
/-- The loop gives the entry of the rank. -/
theorem getdirentrySlots_expected (readable : Readable fs sin.din) (inside : slot + rounds = sin.din.blocks) (rank : Nat) :
    ∃ result calls, getdirentrySlots device fs sin slot rank rounds = some (result, { fs with calls }, sin) ∧
      Expected device result (ranked (entriesFrom fs.disk sin.din slot rounds) rank) := by
  induction rounds generalizing fs slot rank with
  | zero => exact ⟨_, fs.calls, rfl, Or.inl rfl⟩
  | succ rounds ih =>
    obtain ⟨read, calls, isRead, outcome⟩ :=
      sfsDirentReadNolock_expected device readable (by omega : slot < sin.din.blocks)
    have later := fun rank => @ih { fs with calls } (slot + 1) (readable.calls calls) (by omega) rank
    simp only [getdirentrySlots, isRead, Option.bind_eq_bind, Option.bind_some, entriesFrom_succ]
    rcases outcome with rfl | ⟨⟨code, rfl⟩, failed⟩
    · by_cases empty : (entryAt fs.disk sin.din slot).ino = 0
      · simp only [empty, ne_eq, not_true_eq_false, if_false]
        exact later rank
      · simp only [empty, ne_eq, not_false_eq_true, if_true]
        cases rank with
        | zero => exact ⟨_, calls, rfl, Or.inl rfl⟩
        | succ rank =>
          have more : ((rank + 1 : Nat) : Int) ≠ 0 := by omega
          have next : ((rank + 1 : Nat) : Int) - 1 = rank := by omega
          rw [if_neg more, next]
          exact later rank
    · exact ⟨_, calls, rfl, Or.inr ⟨⟨code, rfl⟩, failed⟩⟩

/-! ## Errors -/

theorem sfsRbuf_nonzero {len blkno offset : Nat} (called : sfsRbuf device fs len blkno offset = some (.error ret, after)) :
    ret ≠ 0 := by
  unfold sfsRbuf at called
  split at called
  · obtain ⟨⟨code, buffer, last⟩, _, rest⟩ := Option.bind_eq_some_iff.mp called
    simp only at rest
    split at rest
    · cases rest
    · rename_i failed
      cases rest
      exact failed
  · cases called

theorem found_ok {block : Nat} (called : found fs sin block = some (.error ret, after, sinAfter)) : False := by
  unfold found at called
  split at called
  · cases called
  · obtain ⟨_, _, rest⟩ := Option.bind_eq_some_iff.mp called
    cases rest

/-- A search in the map that creates nothing fails with the device. -/
theorem sfsBmapGetNolock_nonzero {index : Nat}
    (called : sfsBmapGetNolock device fs sin index false = some (.error ret, after, sinAfter)) : ret ≠ 0 := by
  unfold sfsBmapGetNolock at called
  split at called
  · rw [getDirect, if_neg (fun both => Bool.noConfusion both.2)] at called
    exact (found_ok called).elim
  · split at called
    · rename_i inside
      obtain ⟨⟨sub, middle⟩, got, rest⟩ := Option.bind_eq_some_iff.mp called
      cases sub with
      | ok both =>
        simp only at rest
        split at rest
        · exact (found_ok rest).elim
        · split at rest
          · exact (found_ok rest).elim
          · cases rest
      | error code =>
        cases rest
        rw [sfsBmapGetSubNolock, if_pos inside] at got
        by_cases indirect : sin.din.indirect ≠ 0
        · rw [if_pos indirect] at got
          obtain ⟨⟨read, last⟩, isRead, rest⟩ := Option.bind_eq_some_iff.mp got
          cases read with
          | error code =>
            cases rest
            exact sfsRbuf_nonzero isRead
          | ok words =>
            simp only [or_true, if_true] at rest
            cases rest
        · rw [if_neg indirect, if_pos rfl] at got
          cases got
    · cases called

theorem sfsDirentReadNolock_nonzero {slot : Nat}
    (called : sfsDirentReadNolock device fs sin slot = some (.error ret, after, sinAfter)) : ret ≠ 0 := by
  unfold sfsDirentReadNolock at called
  split at called
  · rename_i accepted
    obtain ⟨⟨loaded, middle, sinMiddle⟩, isLoaded, rest⟩ := Option.bind_eq_some_iff.mp called
    cases loaded with
    | error code =>
      cases rest
      have noCreate : decide (slot = sin.din.blocks) = false := decide_eq_false (Nat.ne_of_lt accepted.2)
      simp only [sfsBmapLoadNolock, if_pos (Nat.le_of_lt accepted.2), noCreate] at isLoaded
      obtain ⟨⟨got, last, sinLast⟩, isGot, rest⟩ := Option.bind_eq_some_iff.mp isLoaded
      cases got with
      | error code =>
        cases rest
        exact sfsBmapGetNolock_nonzero isGot
      | ok block =>
        obtain ⟨_, _, rest⟩ := Option.bind_eq_some_iff.mp rest
        cases rest
    | ok block =>
      obtain ⟨_, _, rest⟩ := Option.bind_eq_some_iff.mp rest
      obtain ⟨⟨read, last⟩, isRead, rest⟩ := Option.bind_eq_some_iff.mp rest
      cases read with
      | error code =>
        cases rest
        exact sfsRbuf_nonzero isRead
      | ok words => cases rest
  · cases called

theorem getdirentrySlots_nonzero {rank : Int}
    (called : getdirentrySlots device fs sin slot rank rounds = some (.error ret, after, sinAfter)) : ret ≠ 0 := by
  induction rounds generalizing fs sin slot rank with
  | zero =>
    cases called
    decide
  | succ rounds ih =>
    obtain ⟨⟨read, middle, sinMiddle⟩, isRead, rest⟩ := Option.bind_eq_some_iff.mp called
    cases read with
    | error code =>
      cases rest
      exact sfsDirentReadNolock_nonzero isRead
    | ok entry =>
      simp only at rest
      split at rest
      · split at rest
        · cases rest
        · exact ih rest
      · exact ih rest

/-! ## The rank -/

/-- The rank in 32 bits. -/
theorem toInt_unsigned (number : Nat) : (toInt number % 2 ^ 32).toNat = number % 2 ^ 32 := by
  unfold toInt
  rw [Int.bmod_def]
  omega

theorem offset_exact (rank : Nat) : ¬ (((rank * sfsDentrySize : Nat) : Int) < 0 ∨
    ((rank * sfsDentrySize : Nat) : Int).tmod sfsDentrySize ≠ 0) ∧
      ((rank * sfsDentrySize : Nat) : Int).tdiv sfsDentrySize = rank := by
  have positive : 0 < sfsDentrySize := by decide
  refine ⟨?_, ?_⟩
  · rw [← Int.ofNat_tmod, Nat.mul_mod_left]
    omega
  · rw [← Int.ofNat_tdiv, Nat.mul_div_cancel _ positive]

/-- A move into all of a new buffer. -/
theorem iobufMove_all (base len : Nat) (offset : Int) (bytes data : Bytes) :
    ∃ left, iobufMove (iobufInit base len offset) bytes data len true =
      some ⟨0, len, left, memcpy bytes base data len, data⟩ ∧ iobufUsed left = len := by
  have fits : len ≤ (iobufInit base len offset).ioResid := Nat.le_refl len
  refine ⟨_, iobufMove_exact fits bytes data true, ?_⟩
  simp only [iobufUsed, iobufInit, Nat.sub_self, Nat.sub_zero]

/-- `sfs_getdirentry` delivers the entry of the rank in 32 bits. -/
theorem sfsGetdirentry_narrow (readable : Readable fs sin.din) (rank : Nat) (device : Nat → Int) (memory : Bool)
    (base : Nat) (bytes : Bytes) :
    ∃ ret left after calls,
      sfsGetdirentry device memory fs sin (iobufInit base sfsDentrySize (rank * sfsDentrySize : Nat)) bytes =
        some (ret, left, after, { fs with calls }, sin) ∧
      (Delivers (entriesOf fs.disk sin.din)[rank % 2 ^ 32]?
          (iobufInit base sfsDentrySize (rank * sfsDentrySize : Nat)) left bytes after ret ∨
        ret ≠ 0 ∧ after = bytes ∧ (memory = false ∨ ∃ call, device call ≠ 0)) := by
  have short := entriesFrom_length fs.disk sin.din 0 sin.din.blocks
  have few := readable.few
  simp only [sfsNdirect, sfsBlkNentry] at few
  obtain ⟨accepted, isRank⟩ := offset_exact rank
  have isOffset : (iobufInit base sfsDentrySize (rank * sfsDentrySize : Nat)).ioOffset = (rank * sfsDentrySize : Nat) := rfl
  unfold sfsGetdirentry
  cases memory with
  | false => exact ⟨-eNoMem, _, _, fs.calls, if_pos rfl, Or.inr ⟨by decide, rfl, Or.inl rfl⟩⟩
  | true =>
    simp only [Bool.true_eq_false, if_false, isOffset, if_neg accepted, isRank, toInt_unsigned]
    by_cases behind : sin.din.blocks < rank % 2 ^ 32
    · have none : (entriesOf fs.disk sin.din)[rank % 2 ^ 32]? = none :=
        List.getElem?_eq_none (Nat.le_trans short (Nat.le_of_lt behind))
      refine ⟨-eNoent, _, _, fs.calls, if_pos behind, Or.inl ?_⟩
      rw [none]
      exact ⟨rfl, rfl, rfl⟩
    · have isSlot : toInt rank = (rank % 2 ^ 32 : Nat) := by
        have small : rank % 2 ^ 32 < 2 ^ 31 := by omega
        rw [← toInt_small small]
        unfold toInt
        simp only [Int.bmod_def]
        omega
      have isRounds : (toInt sin.din.blocks).toNat = sin.din.blocks := by
        rw [toInt_small (by omega), Int.toNat_natCast]
      obtain ⟨found, calls, isFound, outcome⟩ :=
        getdirentrySlots_expected device readable (Nat.zero_add sin.din.blocks) (rank % 2 ^ 32)
      have isSub : sfsGetdirentrySubNolock device fs sin (toInt rank) = some (found, { fs with calls }, sin) := by
        rw [sfsGetdirentrySubNolock, isRounds, isSlot, isFound]
      simp only [if_neg behind, isSub, Option.bind_eq_bind, Option.bind_some]
      cases found with
      | error code =>
        refine ⟨code, _, _, calls, rfl, ?_⟩
        rcases outcome with same | ⟨_, failed⟩
        · left
          unfold ranked at same
          split at same
          · cases same
          · rename_i none
            rw [entriesOf, none]
            exact ⟨Except.error.inj same, rfl, rfl⟩
        · exact Or.inr ⟨getdirentrySlots_nonzero isFound, rfl, Or.inr failed⟩
      | ok entry =>
        have isEntry : (entriesOf fs.disk sin.din)[rank % 2 ^ 32]? = some entry := by
          rcases outcome with same | ⟨⟨_, isError⟩, _⟩
          · unfold ranked at same
            split at same
            · rename_i given
              rw [entriesOf, given, Except.ok.inj same]
            · cases same
          · cases isError
        obtain ⟨left, moved, used⟩ :=
          iobufMove_all base sfsDentrySize (rank * sfsDentrySize : Nat) bytes entry.name
        simp only [moved, Option.bind_some, isEntry]
        exact ⟨0, left, _, calls, rfl, Or.inl ⟨rfl, used, rfl⟩⟩

/-! ## The whole directory -/

/-- A call on the entry of a rank that fits, when nothing fails. -/
theorem direntNext_exact (readable : Readable fs sin.din) (small : rank < 2 ^ 32) (name : Bytes) :
    ∃ calls, direntNext (fun _ => 0) true fs sin ⟨(rank * sfsDentrySize : Nat), name⟩ =
      match (entriesOf fs.disk sin.din)[rank]? with
      | some entry => some (0, ⟨((rank + 1) * sfsDentrySize : Nat), memcpy name 0 entry.name sfsDentrySize⟩, { fs with calls }, sin)
      | none => some (-eNoent, ⟨(rank * sfsDentrySize : Nat), name⟩, { fs with calls }, sin) := by
  obtain ⟨ret, left, after, calls, called, outcome⟩ := sfsGetdirentry_narrow readable rank (fun _ => 0) true 0 name
  refine ⟨calls, ?_⟩
  rw [Nat.mod_eq_of_lt small] at outcome
  have delivers := outcome.resolve_right fun failed => by
    rcases failed.2.2 with none | ⟨_, failed⟩
    · cases none
    · exact failed rfl
  simp only [direntNext, called, Option.bind_eq_bind, Option.bind_some]
  cases isEntry : (entriesOf fs.disk sin.din)[rank]? with
  | none =>
    rw [isEntry] at delivers
    obtain ⟨rfl, rfl, rfl⟩ := delivers
    rfl
  | some entry =>
    rw [isEntry] at delivers
    obtain ⟨rfl, used, rfl⟩ := delivers
    rw [if_pos rfl, used]
    simp only [iobufInit, Nat.add_mul, Nat.one_mul]
    rfl

/-- From a rank on, the names of all entries are listed. -/
theorem listDirectory_from {calls : Nat} (readable : Readable fs sin.din) (rest : List DiskEntry)
    (isRest : (entriesOf fs.disk sin.din).drop rank = rest) (enough : rest.length < calls)
    (inside : rank ≤ (entriesOf fs.disk sin.din).length) (name : Bytes) :
    listDirectory (fun _ => 0) true calls fs sin ⟨(rank * sfsDentrySize : Nat), name⟩ =
      some (rest.map DiskEntry.string, -eNoent) := by
  have short : (entriesOf fs.disk sin.din).length ≤ sin.din.blocks := entriesFrom_length ..
  have few := readable.few
  simp only [sfsNdirect, sfsBlkNentry] at few
  have small : rank < 2 ^ 32 := by omega
  induction rest generalizing fs rank name calls with
  | nil =>
    obtain ⟨calls, rfl⟩ := Nat.exists_eq_succ_of_ne_zero (Nat.ne_of_gt enough)
    obtain ⟨last, called⟩ := direntNext_exact readable small name
    have none : (entriesOf fs.disk sin.din)[rank]? = none := List.getElem?_eq_none (List.drop_eq_nil_iff.mp isRest)
    rw [none] at called
    simp only [listDirectory, called, Option.bind_eq_bind, Option.bind_some]
    rfl
  | cons entry rest ih =>
    obtain ⟨calls, rfl⟩ := Nat.exists_eq_succ_of_ne_zero (Nat.ne_of_gt (Nat.lt_of_le_of_lt (Nat.zero_le _) enough))
    obtain ⟨last, called⟩ := direntNext_exact readable small name
    have isEntry : (entriesOf fs.disk sin.din)[rank]? = some entry := by
      rw [← List.head?_drop, isRest, List.head?_cons]
    have isLater : (entriesOf fs.disk sin.din).drop (rank + 1) = rest := by
      rw [← List.tail_drop, isRest, List.tail_cons]
    have more : rank < (entriesOf fs.disk sin.din).length := by
      by_contra beyond
      rw [List.getElem?_eq_none (Nat.not_lt.mp beyond)] at isEntry
      cases isEntry
    have isName : stringAt (memcpy name 0 entry.name sfsDentrySize) sfsMaxFnameLen = entry.string := by
      refine stringAt_congr fun index inside => ?_
      have inName : 0 ≤ index ∧ index < 0 + sfsDentrySize := by
        simp only [sfsMaxFnameLen, sfsDentrySize] at *
        omega
      rw [memcpy_exact, if_pos inName, Nat.sub_zero]
    have later := @ih { fs with calls := last } (rank + 1) calls (readable.calls last) isLater
      (Nat.lt_of_succ_lt_succ enough) more (memcpy name 0 entry.name sfsDentrySize) short (by omega)
    rw [isEntry] at called
    simp only [listDirectory, called, Option.bind_eq_bind, Option.bind_some, later, isName, List.map_cons]
    rfl

/-- A rank of more than 32 bits whose low ones are the rank of an entry. -/
theorem getdirentry_wrong (readable : Readable fs sin.din) (large : 2 ^ 32 ≤ rank)
    (inside : rank % 2 ^ 32 < (entriesOf fs.disk sin.din).length) : ¬ GetdirentryRight fs sin rank := by
  intro right
  have short : (entriesOf fs.disk sin.din).length ≤ sin.din.blocks := entriesFrom_length ..
  have few := readable.few
  simp only [sfsNdirect, sfsBlkNentry] at few
  have absent : (entriesOf fs.disk sin.din)[rank]? = none := List.getElem?_eq_none (by omega)
  have present := List.getElem?_eq_getElem inside
  obtain ⟨ret, left, after, calls, called, outcome⟩ := right (fun _ => 0) true 0 fun _ => 0
  obtain ⟨ret', left', after', calls', called', outcome'⟩ :=
    sfsGetdirentry_narrow readable rank (fun _ => 0) true 0 fun _ => 0
  obtain rfl : ret = ret' := (Prod.mk.inj (Option.some.inj (called.symm.trans called'))).1
  rw [absent] at outcome
  rw [present] at outcome'
  have works : ¬ (true = false ∨ ∃ call : Nat, (fun _ => 0 : Nat → Int) call ≠ 0) := by simp
  have isNoent := (outcome.resolve_right fun failed => works failed.2.2).1
  have isZero := (outcome'.resolve_right fun failed => works failed.2.2).1
  exact absurd (isZero.symm.trans isNoent) (by decide)

/-- `sfs_getdirentry` is right about a rank exactly when the rank has 32 bits, or when there
is no entry of the rank in 32 bits either. From the start of a directory on, the names of its
entries are listed in order, each once, and then the calls fail. -/
theorem getdirentry_exact (readable : Readable fs sin.din) :
    (∀ rank, GetdirentryRight fs sin rank ↔ rank < 2 ^ 32 ∨ (entriesOf fs.disk sin.din).length ≤ rank % 2 ^ 32) ∧
    ∀ calls name, (entriesOf fs.disk sin.din).length < calls →
      listDirectory (fun _ => 0) true calls fs sin ⟨0, name⟩ =
        some ((entriesOf fs.disk sin.din).map DiskEntry.string, -eNoent) := by
  have short : (entriesOf fs.disk sin.din).length ≤ sin.din.blocks := entriesFrom_length ..
  have few := readable.few
  simp only [sfsNdirect, sfsBlkNentry] at few
  refine ⟨fun rank => ⟨fun right => ?_, fun fits => ?_⟩, fun calls name enough => ?_⟩
  · by_contra wrong
    obtain ⟨large, inside⟩ := not_or.mp wrong
    exact getdirentry_wrong readable (Nat.not_lt.mp large) (Nat.not_le.mp inside) right
  · have same : (entriesOf fs.disk sin.din)[rank % 2 ^ 32]? = (entriesOf fs.disk sin.din)[rank]? := by
      by_cases small : rank < 2 ^ 32
      · rw [Nat.mod_eq_of_lt small]
      · rw [List.getElem?_eq_none (fits.resolve_left small), List.getElem?_eq_none (by omega)]
    intro device memory base bytes
    rw [← same]
    exact sfsGetdirentry_narrow readable rank device memory base bytes
  · have isStart : ((0 * sfsDentrySize : Nat) : Int) = 0 := rfl
    rw [← isStart]
    exact listDirectory_from readable _ List.drop_zero enough (Nat.zero_le _) name

/-- A volume whose block 4 has the entry of a file `a` with number 3. -/
def oneEntryFs : SfsFs where
  super := { magic := 0x2f8dbe2a, blocks := 32, unusedBlocks := 27, info := fun _ => 0 }
  superDirty := false
  freemap := { nbits := 32, nwords := 1, map := fun _ => 0xFFFFFFE0#32, covered := oneWord_covers }
  disk := fun block index => if block = 4 then if index = 0 then 3 else if index = 1 then 0x61 else 0 else 0
  calls := 0

/-- The directory with this entry. -/
def oneEntryDir : SfsInode where
  din := {
    size := 4096
    type := sfsTypeDir
    nlinks := 1
    blocks := 1
    direct := fun index => if index = 0 then 4 else 0
    indirect := 0 }
  ino := 2
  dirty := false
  reclaimCount := 1

theorem oneEntry_readable : Readable oneEntryFs oneEntryDir.din where
  isDir := rfl
  few := by decide
  indirect := fun large => absurd large (by decide)
  usable := by
    intro slot small
    obtain rfl : slot = 0 := Nat.lt_one_iff.mp small
    exact (by decide : assertInuse oneEntryFs 4 = some ())

theorem getdirentry_exact_one :
    (∀ rank, GetdirentryRight oneEntryFs oneEntryDir rank ↔
      rank < 2 ^ 32 ∨ (entriesOf oneEntryFs.disk oneEntryDir.din).length ≤ rank % 2 ^ 32) ∧
    ∀ calls name, (entriesOf oneEntryFs.disk oneEntryDir.din).length < calls →
      listDirectory (fun _ => 0) true calls oneEntryFs oneEntryDir ⟨0, name⟩ =
        some ((entriesOf oneEntryFs.disk oneEntryDir.din).map DiskEntry.string, -eNoent) :=
  getdirentry_exact oneEntry_readable

/-- At offset 2^40 the directory has no entry, and the first one is delivered. -/
theorem far_entry_delivered : ¬ GetdirentryRight oneEntryFs oneEntryDir (2 ^ 32) :=
  getdirentry_wrong oneEntry_readable (Nat.le_refl _) (by decide)

end Ucore.Volume
