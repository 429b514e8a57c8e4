import Ucore.Fs.NamePath
import Ucore.Fs.WorkingDir

/-!
# The name of the working directory

`vfs_getcwd` of `kern/fs/vfs/vfspath.c` writes the name of the device and the path name of
the working directory. A process that has changed its directory by names, with the dots
among them, reads the names that are left when each of the dots has had its effect.
-/

namespace Ucore.Vfs

open Transition Volume

variable {F : Type} [DecidableEq F] (disk : Nat → Int) (memory : Nat → Bool) (state : VfsState F) (files : F)

/-! ## The call -/

omit [DecidableEq F] in
/-- `vfs_get_devname` of the volume: the first device that it is mounted on. -/
def vfsGetDevname : Option Name := (state.vdevList.find? fun vdev => vdev.fs).map VfsDev.devname

omit [DecidableEq F] in
/-- `vop_namefile`, which only directories have. -/
def vopNamefile (rounds : Nat) (ino : Nat) (iob : Iobuf) (bytes : Bytes) :
    Option (Int × VfsState F × Iobuf × Bytes) := do
  inodeCheck state (.sfs ino)
  let sin ← state.volume.inodes ino
  if sfsGetOps sin.din.type = some true then sfsNamefile disk memory rounds state ino iob bytes else none

/-- A name as the bytes behind a pointer. -/
def nameBytes (name : Name) : Bytes := fun index =>
  match name[index]? with
  | some byte => byte.val
  | none => 0

omit [DecidableEq F] in
/-- `vfs_getcwd` up to the end of its reference: the name of the device, a colon and the
path name. -/
def namesCwd (rounds : Nat) (devname : Name) (ino : Nat) (iob : Iobuf) (bytes : Bytes) :
    Option (Int × VfsState F × Iobuf × Bytes) := do
  let device ← iobufMove iob bytes (nameBytes devname) devname.length true
  if device.ret ≠ 0 then some (device.ret, state, device.iob, device.bytes)
  else do
    let mark ← iobufMove device.iob device.bytes (nameBytes [colon]) 1 true
    if mark.ret ≠ 0 then some (mark.ret, state, mark.iob, mark.bytes)
    else vopNamefile disk memory state rounds ino mark.iob mark.bytes

omit [DecidableEq F] in
/-- `vfs_getcwd`; the inode of a device is in no file system. -/
def vfsGetcwd (rounds : Nat) (iob : Iobuf) (bytes : Bytes) : Option (Int × VfsState F × Iobuf × Bytes) := do
  let (current, state) ← vfsGetCurdir state files
  match current with
  | .error ret => some (ret, state, iob, bytes)
  | .ok (.device _) => none
  | .ok (.sfs ino) => do
      let devname ← vfsGetDevname state
      let (ret, state, iob, bytes) ← namesCwd disk memory state rounds devname ino iob bytes
      (vopRefDec disk state (.sfs ino)).map fun state => (ret, state, iob, bytes)

/-! ## The tree with its names -/

/-- A tree of directories with names: the root is its own parent, the dot of a directory is
the directory, and each directory has one name in the one directory that it is in. -/
structure NameTree (volume : Mounted) : Prop where
  root : Below volume sfsBlknRoot sfsBlknRoot
  dot : ∀ ino ∈ volume.files, (volume.din ino).type = sfsTypeDir → ∀ target, target ≠ 0 → Entry volume ino [dot] target →
    target = ino
  child : ∀ ino ∈ volume.files, (volume.din ino).type = sfsTypeDir → ∀ name child, name ≠ [Vfs.dot] → name ≠ dotdot →
    child ∈ volume.files → (volume.din child).type = sfsTypeDir → Entry volume ino name child →
      Below volume child ino ∧ child ≠ ino ∧ ∀ other, Entry volume ino other child ↔ other = name

/-- A name added to a path: the dots go nowhere and up. -/
def follow (path : List Name) (name : Name) : List Name :=
  if name = [dot] then path else if name = dotdot then path.dropLast else path ++ [name]

/-- What `vfs_getcwd` writes. -/
def cwdString (devname : Name) (path : List Name) : List (Fin 256) :=
  devname.map Subtype.val ++ [colon.val] ++ (pathString path ++ [0])

/-- There is room for it: `sfs_namefile` does without two bytes in no case. -/
def CwdFits (devname : Name) (path : List Name) (resid : Nat) : Prop :=
  devname.length + 1 + 2 < resid ∧ (cwdString devname path).length ≤ resid

variable {disk memory state files} {middle after : VfsState F} {volume : Mounted} {name : Name} {ino dir : Nat}
variable {path names : List Name}

omit [DecidableEq F] in
/-- The inode that is found has the name in the directory. -/
theorem dirFind_entry {child : Nat} (found : dirFind volume ino name = .ok (.sfs child)) :
    child ≠ 0 ∧ Entry volume ino name child := by
  unfold dirFind at found
  split at found
  · rename_i slot isFirst
    obtain ⟨small, named⟩ := firstSlot_some isFirst
    simp only [isNamed, decide_eq_true_eq] at named
    obtain rfl : (entryAt volume.fs.disk (volume.din ino) slot).ino = child := Node.sfs.inj (Except.ok.inj found)
    exact ⟨named.1, slot, small, named.2, rfl⟩
  · cases found

/-- The directory above a directory has the path without the last name. -/
theorem DirPath.parent (above : DirPath volume ino path) :
    ∃ parent, Below volume ino parent ∧ DirPath volume parent path.dropLast := by
  cases above with
  | root below => exact ⟨ino, below, .root below⟩
  | child above below different named =>
    rw [List.dropLast_concat]
    exact ⟨_, below, above⟩

/-- A name leads from a directory to the one whose path follows the name. -/
theorem dirOf_follow (tree : Tree volume) (nameTree : NameTree volume) (above : DirPath volume ino path)
    (leads : dirOf volume ino name = some dir) : DirPath volume dir (follow path name) := by
  obtain ⟨isFound, isDir⟩ := dirOf_cases leads
  obtain ⟨member, inoDir⟩ := above.directory
  rw [dirStep, if_pos inoDir] at isFound
  cases found : dirFind volume ino name with
  | error code =>
    rw [found] at isFound
    cases isFound
  | ok node =>
    rw [found] at isFound
    cases isFound
    obtain ⟨child, childMember, isChild⟩ := dirFind_member tree member inoDir found
    cases isChild
    obtain ⟨nonzero, entry⟩ := dirFind_entry found
    unfold follow
    split
    · rename_i isDot
      rw [nameTree.dot ino member inoDir dir nonzero (isDot ▸ entry)]
      exact above
    · rename_i notDot
      split
      · rename_i isDots
        obtain ⟨parent, below, abovePath⟩ := above.parent
        rw [(below.up dir).mp ⟨nonzero, isDots ▸ entry⟩]
        exact abovePath
      · rename_i notDots
        obtain ⟨below, different, named⟩ :=
          nameTree.child ino member inoDir name dir notDot notDots childMember isDir entry
        exact .child above below different named

/-- Names lead to the directory whose path follows them one after the other. -/
theorem walk_follow (tree : Tree volume) (nameTree : NameTree volume) (above : DirPath volume ino path)
    (leads : PathNames.walk (dirOf volume) ino names = some dir) : DirPath volume dir (names.foldl follow path) := by
  induction names generalizing ino path with
  | nil =>
    cases leads
    exact above
  | cons name rest ih =>
    obtain ⟨next, first, later⟩ := Option.bind_eq_some_iff.mp leads
    exact ih (dirOf_follow tree nameTree above first) later

theorem follow_length (names path : List Name) : (names.foldl follow path).length ≤ path.length + names.length := by
  induction names generalizing path with
  | nil => exact Nat.le_refl _
  | cons name rest ih =>
    have first : (follow path name).length ≤ path.length + 1 := by
      unfold follow
      split
      · exact Nat.le_succ _
      · split
        · rw [List.length_dropLast]
          omega
        · rw [List.length_append, List.length_singleton]
    have later := ih (follow path name)
    rw [List.foldl_cons, List.length_cons]
    omega

/-! ## The string -/

/-- What a call that writes into a buffer comes to: a string when there is room for it, and
`-E_NO_MEM` when there is none. It writes in the buffer only, and changes no count. -/
structure Writes (state after : VfsState F) (iob : Iobuf) (bytes last : Bytes) (ret : Int) (fits : Prop)
    (string : List (Fin 256)) : Prop where
  went : Went state after
  counts : SameCounts state after
  outside : ∀ address, address < iob.ioBase ∨ iob.ioBase + iob.ioResid ≤ address → last address = bytes address
  writes : fits → ret = 0 ∧ HoldsAt last iob.ioBase string
  lacks : ¬ fits → ret = -eNoMem

omit [DecidableEq F] in
/-- With memory, `sfs_namefile` of a directory whose path is known. -/
theorem sfsNamefile_room {rounds : Nat} (works : ∀ call, disk call = 0) (room : ∀ call, memory call = true)
    (fit : Fit state) (held : 0 < (state.counts (.sfs ino)).refCount) (isPath : DirPath state.volume ino path)
    (enough : path.length < rounds) (iob : Iobuf) (bytes : Bytes) :
    ∃ ret after left last, sfsNamefile disk memory rounds state ino iob bytes = some (ret, after, left, last) ∧
      Writes state after iob bytes last ret (2 < iob.ioResid ∧ (pathString path).length + 1 ≤ iob.ioResid)
        (pathString path ++ [0]) := by
  by_cases tiny : iob.ioResid ≤ 2
  · refine ⟨-eNoMem, state, iob, bytes, by simp only [sfsNamefile, if_pos tiny], Went.refl fit, SameCounts.refl _,
      fun _ _ => rfl, fun fits => ?_, fun _ => rfl⟩
    exact absurd tiny (Nat.not_le.mpr fits.1)
  have started : Went state { state with allocs := state.allocs + 1 } :=
    ⟨⟨fit.tree, fit.cached, fit.counted, fit.reclaims⟩, SameTree.refl _, Nat.le_succ _⟩
  obtain ⟨raised, isRaised, wentOn, _⟩ := @vopRefInc_fit _ _ (.sfs ino) started.fit held
  have spare : Spare raised ino := by
    unfold Spare
    have counted := started.fit.counted (.sfs ino)
    rw [(vopRefInc_bumps isRaised).counts, bump_self]
    dsimp only at counted ⊢
    omega
  obtain ⟨walked, after, last, looped, wentLast, outcome⟩ := @namefileLoop_tree _ disk memory raised ino state path
    works fit isPath rounds (iob.ioResid - 2) (iob.ioBase + iob.ioResid) bytes enough (started.trans wentOn) spare
    (by omega)
  have went := (started.trans wentOn).trans wentLast
  have size : (pathString path).length = (namesString path).length + 1 := by simp [pathString]
  rcases outcome with ⟨rfl, short⟩ | ⟨left, start, rfl, accountLeft, _, holds, _⟩
  · have called : sfsNamefile disk memory rounds state ino iob bytes = some (-eNoMem, after, iob, last) := by
      simp only [sfsNamefile, if_neg tiny, room, isRaised, looped, Bool.true_eq_false, if_false, Option.bind_eq_bind,
        Option.bind_some]
    obtain ⟨outside, same⟩ := sfsNamefile_frame called
    refine ⟨-eNoMem, after, iob, last, called, went, same, outside, fun fits => ?_, fun _ => rfl⟩
    rcases short with short | ⟨call, _, _, failed⟩
    · omega
    · rw [room call] at failed
      cases failed
  · have alen : iob.ioResid - left - 2 = (namesString path).length := by omega
    have skips : (namesString path).length ≤ iob.ioResid := by omega
    obtain ⟨skipped, isSkipped⟩ : ∃ skipped, iobufSkip iob (namesString path).length = some skipped := ⟨_, if_pos skips⟩
    have called : sfsNamefile disk memory rounds state ino iob bytes =
        some (0, after, skipped, movedNames last iob.ioBase start (namesString path).length) := by
      simp only [sfsNamefile, if_neg tiny, room, isRaised, looped, alen, isSkipped, Bool.true_eq_false, if_false,
        Option.bind_eq_bind, Option.bind_some]
    obtain ⟨outside, same⟩ := sfsNamefile_frame called
    refine ⟨0, after, skipped, _, called, went, same, outside, fun _ => ⟨rfl, movedNames_holds holds⟩, fun noFits => ?_⟩
    exact absurd ⟨Nat.not_le.mp tiny, by omega⟩ noFits

omit [DecidableEq F] in
theorem vopNamefile_dir {rounds : Nat} (fit : Fit state) (held : 0 < (state.counts (.sfs ino)).refCount)
    (roomy : (state.counts (.sfs ino)).refCount < maxInodeCount) (isDir : (state.volume.din ino).type = sfsTypeDir)
    (iob : Iobuf) (bytes : Bytes) :
    vopNamefile disk memory state rounds ino iob bytes = sfsNamefile disk memory rounds state ino iob bytes := by
  obtain ⟨sin, isIn⟩ := inMemory_of_held held
  rw [din_of isIn] at isDir
  have isDirOps : sfsGetOps sin.din.type = some true := if_pos isDir
  simp only [vopNamefile, inodeCheck_fit fit held roomy, isIn, isDirOps, if_true, Option.bind_eq_bind, Option.bind_some]

/-- What is left of a transfer behind some bytes. -/
def Iobuf.advance (iob : Iobuf) (len : Nat) : Iobuf :=
  { iob with ioBase := iob.ioBase + len, ioOffset := iob.ioOffset + len, ioResid := iob.ioResid - len }

/-- A name is moved into the memory as a whole, or what fits of it with an error. -/
theorem iobufMove_name (iob : Iobuf) (bytes : Bytes) (name : Name) :
    (name.length ≤ iob.ioResid ∧ ∃ copied, iobufMove iob bytes (nameBytes name) name.length true = some
        ⟨0, copied, iob.advance name.length, memcpy bytes iob.ioBase (nameBytes name) name.length, nameBytes name⟩) ∨
      (iob.ioResid < name.length ∧ ∃ moved, iobufMove iob bytes (nameBytes name) name.length true = some moved ∧
        moved.ret = -eNoMem ∧ ∀ address, address < iob.ioBase ∨ iob.ioBase + iob.ioResid ≤ address →
          moved.bytes address = bytes address) := by
  by_cases fits : name.length ≤ iob.ioResid
  · exact Or.inl ⟨fits, _, iobufMove_exact fits bytes (nameBytes name) true⟩
  · have short := Nat.not_le.mp fits
    refine Or.inr ⟨short, _, iobufMove_rest (Nat.le_of_lt short) bytes (nameBytes name) true, ?_, ?_⟩
    · exact if_neg (by omega)
    · intro address outside
      dsimp only
      rw [if_pos rfl, memcpy_exact, if_neg (by omega)]

/-- A name that is copied is held. -/
theorem nameBytes_holds (bytes : Bytes) (base : Nat) (name : Name) :
    HoldsAt (memcpy bytes base (nameBytes name) name.length) base (name.map Subtype.val) := by
  intro index byte isByte
  rw [List.getElem?_map] at isByte
  obtain ⟨held, isHeld, rfl⟩ := Option.map_eq_some_iff.mp isByte
  obtain ⟨inside, _⟩ := List.getElem?_eq_some_iff.mp isHeld
  rw [memcpy_exact, if_pos (by omega), Nat.add_sub_cancel_left, nameBytes, isHeld]

omit [DecidableEq F] in
/-- What `vfs_getcwd` writes for a directory whose path is known. -/
theorem namesCwd_room {rounds : Nat} (works : ∀ call, disk call = 0) (room : ∀ call, memory call = true)
    (fit : Fit state) (held : 0 < (state.counts (.sfs ino)).refCount)
    (roomy : (state.counts (.sfs ino)).refCount < maxInodeCount) (isPath : DirPath state.volume ino path)
    (enough : path.length < rounds) (devname : Name) (iob : Iobuf) (bytes : Bytes) :
    ∃ ret after left last, namesCwd disk memory state rounds devname ino iob bytes = some (ret, after, left, last) ∧
      Writes state after iob bytes last ret (CwdFits devname path iob.ioResid) (cwdString devname path) := by
  have noMem : -eNoMem ≠ 0 := by decide
  have length : (cwdString devname path).length = devname.length + 1 + ((pathString path).length + 1) := by
    simp only [cwdString, List.length_append, List.length_map, List.length_singleton]
  rcases iobufMove_name iob bytes devname with ⟨fitsName, copied, moves⟩ | ⟨short, moved, moves, isNoMem, outside⟩
  case inr =>
    refine ⟨-eNoMem, state, moved.iob, moved.bytes, ?_, Went.refl fit, SameCounts.refl _, outside, fun fits => ?_,
      fun _ => rfl⟩
    · simp only [namesCwd, moves, isNoMem, noMem, ne_eq, not_false_eq_true, if_true, Option.bind_eq_bind,
        Option.bind_some]
    · have := fits.2
      omega
  rcases iobufMove_name (iob.advance devname.length) (memcpy bytes iob.ioBase (nameBytes devname) devname.length) [colon]
    with ⟨fitsMark, more, marks⟩ | ⟨short, moved, marks, isNoMem, outside⟩
  case inr =>
    refine ⟨-eNoMem, state, moved.iob, moved.bytes, ?_, Went.refl fit, SameCounts.refl _, fun address isOutside => ?_,
      fun fits => ?_, fun _ => rfl⟩
    · simp only [List.length_singleton] at marks
      simp only [namesCwd, moves, marks, isNoMem, noMem, ne_eq, not_true_eq_false, not_false_eq_true, if_true, if_false,
        Option.bind_eq_bind, Option.bind_some]
    · rw [outside address (by simp only [Iobuf.advance]; omega), memcpy_exact, if_neg (by omega)]
    · have := fits.1
      simp only [Iobuf.advance, List.length_singleton] at short
      omega
  obtain ⟨ret, after, left, last, called, writes⟩ := sfsNamefile_room works room fit held isPath enough
    ((iob.advance devname.length).advance 1)
    (memcpy (memcpy bytes iob.ioBase (nameBytes devname) devname.length) (iob.ioBase + devname.length)
      (nameBytes [colon]) 1)
  have base : ((iob.advance devname.length).advance 1).ioBase = iob.ioBase + devname.length + 1 := rfl
  have resid : ((iob.advance devname.length).advance 1).ioResid = iob.ioResid - devname.length - 1 := rfl
  have oneLeft : 1 ≤ iob.ioResid - devname.length := fitsMark
  refine ⟨ret, after, left, last, ?_, writes.went, writes.counts, fun address isOutside => ?_, fun fits => ?_,
    fun noFits => writes.lacks ?_⟩
  · rw [← vopNamefile_dir fit held roomy isPath.directory.2] at called
    simp only [List.length_singleton] at marks
    simp only [namesCwd, moves, marks, ne_eq, not_true_eq_false, if_false, Option.bind_eq_bind, Option.bind_some]
    exact called
  · rw [writes.outside address (by omega), memcpy_exact, if_neg (by omega), memcpy_exact, if_neg (by omega)]
  · obtain ⟨tiny, fits⟩ := fits
    obtain ⟨isZero, holds⟩ := writes.writes (by omega)
    have before : ∀ index < devname.length + 1, last (iob.ioBase + index) =
        memcpy (memcpy bytes iob.ioBase (nameBytes devname) devname.length) (iob.ioBase + devname.length)
          (nameBytes [colon]) 1 (iob.ioBase + index) :=
      fun index _ => writes.outside _ (by omega)
    refine ⟨isZero, HoldsAt.append_iff.mpr ⟨HoldsAt.append_iff.mpr ⟨?_, ?_⟩, ?_⟩⟩
    · apply (nameBytes_holds bytes iob.ioBase devname).congr
      intro index inside
      rw [List.length_map] at inside
      rw [before index (by omega), memcpy_exact, if_neg (by omega)]
    · rw [List.length_map]
      apply HoldsAt.congr (nameBytes_holds (memcpy bytes iob.ioBase (nameBytes devname) devname.length)
        (iob.ioBase + devname.length) [colon])
      intro index inside
      rw [List.length_map, List.length_singleton] at inside
      rw [Nat.add_assoc, before _ (by omega)]
      rfl
    · rw [List.length_append, List.length_map, List.length_singleton, ← Nat.add_assoc]
      exact holds
  · rw [CwdFits] at noFits
    omega

/-! ## The device table -/

omit [DecidableEq F] in
theorem vopRefInc_devices {node : Node} (called : vopRefInc state node = some after) :
    after.vdevList = state.vdevList := by
  unfold vopRefInc at called
  split at called
  · cases called
    rfl
  · cases called

omit [DecidableEq F] in
theorem vopRefDec_devices {node : Node} (called : vopRefDec disk state node = some after) :
    after.vdevList = state.vdevList := by
  unfold vopRefDec at called
  split at called
  · obtain ⟨table, _, rest⟩ := Option.bind_eq_some_iff.mp called
    simp only at rest
    split at rest
    · obtain ⟨_, _, rest⟩ := Option.bind_eq_some_iff.mp rest
      cases node with
      | device index => cases rest
      | sfs ino =>
        obtain ⟨volume, _, rest⟩ := Option.bind_eq_some_iff.mp rest
        split at rest
        · cases rest
        · cases rest
          rfl
    · cases rest
      rfl
  · cases called

omit [DecidableEq F] in
theorem sfsLoadInode_devices {result : Except Int Node} (called : sfsLoadInode disk memory state ino = some (result, after)) :
    after.vdevList = state.vdevList := by
  unfold sfsLoadInode at called
  split at called
  · cases called
    rfl
  · simp only at called
    split at called
    · obtain ⟨_, _, rest⟩ := Option.bind_eq_some_iff.mp called
      obtain ⟨⟨read, fs⟩, _, rest⟩ := Option.bind_eq_some_iff.mp rest
      cases read with
      | error ret =>
        cases rest
        rfl
      | ok words =>
        simp only [createInode] at rest
        split at rest
        · cases rest
        split at rest
        · split at rest
          · cases rest
          · cases rest
            rfl
        · cases rest
          rfl
    · cases called
      rfl

omit [DecidableEq F] in
theorem sfsLookupOnce_devices {result : Except Int Node}
    (called : sfsLookupOnce disk memory state ino name = some (result, after)) : after.vdevList = state.vdevList := by
  obtain ⟨sin, _, rest⟩ := Option.bind_eq_some_iff.mp called
  obtain ⟨⟨found, emptySlot, fs, sinAfter⟩, _, rest⟩ := Option.bind_eq_some_iff.mp rest
  cases found with
  | error ret =>
    cases rest
    rfl
  | ok slot =>
    have loaded := sfsLoadInode_devices rest
    exact loaded

omit [DecidableEq F] in
theorem vopLookup_devices {node : Node} {result : Except Int Node}
    (called : vopLookup disk memory state node name = some (result, after)) : after.vdevList = state.vdevList := by
  obtain ⟨_, _, rest⟩ := Option.bind_eq_some_iff.mp called
  cases node with
  | device index =>
    simp only [devLookup] at rest
    split at rest
    · cases rest
      rfl
    · obtain ⟨raised, isRaised, same⟩ := Option.map_eq_some_iff.mp rest
      cases same
      exact vopRefInc_devices isRaised
  | sfs ino =>
    obtain ⟨sin, _, rest⟩ := Option.bind_eq_some_iff.mp rest
    split at rest
    · unfold sfsLookup at rest
      split at rest
      · cases rest
      · obtain ⟨raised, isRaised, rest⟩ := Option.bind_eq_some_iff.mp rest
        obtain ⟨_, _, rest⟩ := Option.bind_eq_some_iff.mp rest
        split at rest
        · obtain ⟨lowered, isLowered, same⟩ := Option.map_eq_some_iff.mp rest
          cases same
          exact (vopRefDec_devices isLowered).trans (vopRefInc_devices isRaised)
        · obtain ⟨⟨found, looked⟩, isFound, rest⟩ := Option.bind_eq_some_iff.mp rest
          obtain ⟨lowered, isLowered, same⟩ := Option.map_eq_some_iff.mp rest
          cases same
          exact (vopRefDec_devices isLowered).trans ((sfsLookupOnce_devices isFound).trans (vopRefInc_devices isRaised))
    · cases rest

omit [DecidableEq F] in
/-- A lookup of a plain name changes no device. -/
theorem vfsLookup_devices {result : Except Int Node} (plain : PlainName name)
    (called : vfsLookup disk memory state files name = some (result, after)) : after.vdevList = state.vdevList := by
  obtain ⟨⟨start, middle⟩, started, rest⟩ := Option.bind_eq_some_iff.mp called
  rw [plain.getDevice] at started
  have first : middle.vdevList = state.vdevList := by
    unfold vfsGetCurdir at started
    split at started
    · obtain ⟨raised, isRaised, same⟩ := Option.map_eq_some_iff.mp started
      cases same
      exact vopRefInc_devices isRaised
    · cases started
      rfl
  cases start with
  | error code =>
    cases rest
    exact first
  | ok node =>
    simp only at rest
    split at rest
    · obtain ⟨⟨found, looked⟩, isFound, rest⟩ := Option.bind_eq_some_iff.mp rest
      obtain ⟨lowered, isLowered, same⟩ := Option.map_eq_some_iff.mp rest
      cases same
      exact (vopRefDec_devices isLowered).trans ((vopLookup_devices isFound).trans first)
    · cases rest
      exact first

theorem vfsSetCurdir_devices {node : Node} {ret : Int} (called : vfsSetCurdir disk state files node = some (ret, after)) :
    after.vdevList = state.vdevList := by
  unfold vfsSetCurdir at called
  simp only at called
  split at called
  · cases called
    rfl
  · obtain ⟨isDir, _, rest⟩ := Option.bind_eq_some_iff.mp called
    split at rest
    · cases rest
      rfl
    · obtain ⟨raised, isRaised, rest⟩ := Option.bind_eq_some_iff.mp rest
      have first := vopRefInc_devices isRaised
      split at rest
      · obtain ⟨lowered, isLowered, same⟩ := Option.map_eq_some_iff.mp rest
        cases same
        exact (vopRefDec_devices isLowered).trans first
      · cases rest
        exact first

/-- Changes of the directory by plain names change no device. -/
theorem chdirs_devices (plain : ∀ name ∈ names, PlainName name)
    (ran : run (chdirOk disk memory files) names state = some after) : after.vdevList = state.vdevList := by
  induction names generalizing state with
  | nil =>
    cases ran
    rfl
  | cons name rest ih =>
    obtain ⟨middle, ok, later⟩ := Option.bind_eq_some_iff.mp ran
    obtain ⟨⟨ret, moved⟩, called, isZero⟩ := Option.bind_eq_some_iff.mp ok
    obtain ⟨_, same⟩ := Option.ite_none_right_eq_some.mp isZero
    cases same
    rw [ih (fun name isName => plain name (List.mem_cons_of_mem _ isName)) later]
    obtain ⟨⟨found, looked⟩, isFound, rest⟩ := Option.bind_eq_some_iff.mp called
    have first := vfsLookup_devices (plain name List.mem_cons_self) isFound
    cases found with
    | error code =>
      cases rest
      exact first
    | ok node =>
      obtain ⟨⟨code, set⟩, isSet, rest⟩ := Option.bind_eq_some_iff.mp rest
      obtain ⟨lowered, isLowered, same⟩ := Option.map_eq_some_iff.mp rest
      cases same
      exact (vopRefDec_devices isLowered).trans ((vfsSetCurdir_devices isSet).trans first)

/-! ## Where a process is -/

omit [DecidableEq F] in
/-- `vfs_getcwd` of a process in a directory whose path is known. -/
theorem vfsGetcwd_room {rounds : Nat} {devname : Name} (works : ∀ call, disk call = 0)
    (room : ∀ call, memory call = true) (resting : Resting state files)
    (isPwd : (state.files.files files).pwd = some (.sfs ino)) (isPath : DirPath state.volume ino path)
    (isDevice : vfsGetDevname state = some devname) (enough : path.length < rounds) (iob : Iobuf) (bytes : Bytes) :
    ∃ ret after left last, vfsGetcwd disk memory state files rounds iob bytes = some (ret, after, left, last) ∧
      Writes state after iob bytes last ret (CwdFits devname path iob.ioResid) (cwdString devname path) := by
  obtain ⟨opened, roomy⟩ := resting.held isPwd
  have counted := resting.fit.counted (.sfs ino)
  obtain ⟨begun, raised, went, volume⟩ := vopRefInc_fit resting.fit (by omega : 0 < (state.counts (.sfs ino)).refCount)
  have bumps := vopRefInc_bumps raised
  have count : (begun.counts (.sfs ino)).refCount = (state.counts (.sfs ino)).refCount + 1 ∧
      (begun.counts (.sfs ino)).openCount = (state.counts (.sfs ino)).openCount := by
    rw [bumps.counts, bump_self]
    exact ⟨rfl, Int.add_zero _⟩
  have device : vfsGetDevname begun = some devname := by
    rw [vfsGetDevname, vopRefInc_devices raised]
    exact isDevice
  obtain ⟨ret, named, left, last, called, writes⟩ := @namesCwd_room _ disk memory begun ino path rounds works room
    went.fit (by omega) (by omega) (volume ▸ isPath) enough devname iob bytes
  have spare : (named.counts (.sfs ino)).openCount < (named.counts (.sfs ino)).refCount := by
    rw [writes.counts.counts]
    omega
  obtain ⟨after, lowered, wentLast⟩ := vopRefDec_fit works writes.went.fit spare
  refine ⟨ret, after, left, last, ?_, (went.trans writes.went).trans wentLast, ?_, writes.outside, writes.writes,
    writes.lacks⟩
  · simp only [vfsGetcwd, vfsGetCurdir, isPwd, raised, device, called, lowered, Option.map_some, Option.bind_eq_bind,
      Option.bind_some]
  · exact (bumps.trans (writes.counts.bumps (vopRefDec_bumps lowered))).same

/-- The same tree has the same entries. -/
theorem Entry.same {next : Mounted} {target : Nat} (same : SameTree volume next) (tree : Tree volume)
    (member : ino ∈ volume.files) (isDir : (volume.din ino).type = sfsTypeDir) :
    Entry next ino name target ↔ Entry volume ino name target := by
  unfold Entry
  rw [(same.din ino member).blocks]
  constructor
  · rintro ⟨slot, small, isEntry⟩
    exact ⟨slot, small, by rwa [same.entryAt tree member isDir small] at isEntry⟩
  · rintro ⟨slot, small, isEntry⟩
    exact ⟨slot, small, by rwa [same.entryAt tree member isDir small]⟩

theorem Below.same {next : Mounted} {parent : Nat} (below : Below volume ino parent) (same : SameTree volume next)
    (tree : Tree volume) : Below next ino parent where
  member := same.files ▸ below.member
  isDir := (same.din ino below.member).type.trans below.isDir
  up := by
    intro target
    rw [Entry.same same tree below.member below.isDir]
    exact below.up target

/-- Directories keep their paths as long as the tree is the same. -/
theorem DirPath.same {next : Mounted} (isPath : DirPath volume ino path) (same : SameTree volume next)
    (tree : Tree volume) : DirPath next ino path := by
  induction isPath with
  | root below => exact .root (below.same same tree)
  | child above below different named ih =>
    obtain ⟨member, isDir⟩ := above.directory
    refine .child ih (below.same same tree) different fun other => ?_
    rw [Entry.same same tree member isDir]
    exact named other

/-- The root and `d` are below the root. -/
theorem smallTree_below (isDir : ino = 1 ∨ ino = 7) : Below smallTree ino 1 := by
  have facts : ∀ ino, ino = 1 ∨ ino = 7 → ino ∈ smallTree.files ∧ (smallTree.din ino).type = sfsTypeDir ∧
      ∀ slot < (smallTree.din ino).blocks, (entryAt smallTree.fs.disk (smallTree.din ino) slot).string = dotdot →
        (entryAt smallTree.fs.disk (smallTree.din ino) slot).ino = 1 := by
    rintro ino (rfl | rfl) <;> decide +kernel
  obtain ⟨member, dirType, only⟩ := facts ino isDir
  refine ⟨member, dirType, fun target => ⟨?_, ?_⟩⟩
  · rintro ⟨_, slot, small, isName, rfl⟩
    exact only slot small isName
  · rintro rfl
    rcases isDir with rfl | rfl
    · exact ⟨by decide, 1, by decide +kernel⟩
    · exact ⟨by decide, 1, by decide +kernel⟩

theorem smallTree_names : NameTree smallTree where
  root := smallTree_below (Or.inl rfl)
  dot := by
    have only : ∀ ino ∈ smallTree.files, (smallTree.din ino).type = sfsTypeDir → ∀ slot < (smallTree.din ino).blocks,
        (entryAt smallTree.fs.disk (smallTree.din ino) slot).string = [dot] →
          (entryAt smallTree.fs.disk (smallTree.din ino) slot).ino = ino := by
      decide +kernel
    rintro ino member isDir target _ ⟨slot, small, isName, rfl⟩
    exact only ino member isDir slot small isName
  child := by
    have only : ∀ ino ∈ smallTree.files, (smallTree.din ino).type = sfsTypeDir → ∀ slot < (smallTree.din ino).blocks,
        (entryAt smallTree.fs.disk (smallTree.din ino) slot).string = [dot] ∨
          (entryAt smallTree.fs.disk (smallTree.din ino) slot).string = dotdot ∨
          (smallTree.din (entryAt smallTree.fs.disk (smallTree.din ino) slot).ino).type ≠ sfsTypeDir ∨
          ino = 1 ∧ (entryAt smallTree.fs.disk (smallTree.din ino) slot).ino = 7 ∧
            (entryAt smallTree.fs.disk (smallTree.din ino) slot).string = nameD := by
      decide +kernel
    rintro ino member isDir name child notDot notDots _ childDir ⟨slot, small, rfl, rfl⟩
    rcases only ino member isDir slot small with isDot | isDots | notDir | ⟨rfl, isChild, isName⟩
    · exact absurd isDot notDot
    · exact absurd isDots notDots
    · exact absurd childDir notDir
    · rw [isName, isChild]
      refine ⟨smallTree_below (Or.inr rfl), by decide, fun other => ⟨?_, ?_⟩⟩
      · rintro ⟨slot, small, rfl, isIno⟩
        have names : ∀ slot < (smallTree.din 1).blocks, (entryAt smallTree.fs.disk (smallTree.din 1) slot).ino = 7 →
            (entryAt smallTree.fs.disk (smallTree.din 1) slot).string = nameD := by
          decide +kernel
        exact names slot small isIno
      · rintro rfl
        exact ⟨3, by decide +kernel⟩

end Ucore.Vfs
