import Ucore.Fs.NameFile
import Ucore.Fs.PathWalk

/-!
# The path name of a directory in a tree

In a tree each directory but the root has a parent, which its entry `..` names and which has
one entry for it. On a device that works `sfs_namefile` writes the names on the way from the
root to the directory, or finds no room or no memory.
-/

namespace Ucore.Vfs

open Volume

variable {F : Type}

/-- A directory has an entry with a name for an inode. -/
def Entry (volume : Mounted) (dir : Nat) (name : Name) (ino : Nat) : Prop :=
  ∃ slot < (volume.din dir).blocks, (entryAt volume.fs.disk (volume.din dir) slot).string = name ∧
    (entryAt volume.fs.disk (volume.din dir) slot).ino = ino

/-- A directory whose entry `..` names an inode. -/
structure Below (volume : Mounted) (ino parent : Nat) : Prop where
  member : ino ∈ volume.files
  isDir : (volume.din ino).type = sfsTypeDir
  up : ∀ target, target ≠ 0 ∧ Entry volume ino dotdot target ↔ target = parent

/-- The names of the directories on the way from the root to a directory. The root is its own
parent, and every other directory has one entry in its parent. -/
inductive DirPath (volume : Mounted) : Nat → List Name → Prop
  | root {ino : Nat} (below : Below volume ino ino) : DirPath volume ino []
  | child {ino parent : Nat} {names : List Name} {name : Name} (above : DirPath volume parent names)
      (below : Below volume ino parent) (different : ino ≠ parent)
      (named : ∀ other, Entry volume parent other ino ↔ other = name) : DirPath volume ino (names ++ [name])

/-- Names, each followed by a slash. -/
def namesString (names : List Name) : List (Fin 256) :=
  names.flatMap fun name => name.map Subtype.val ++ [slash.val]

/-- The path name of a directory. -/
def pathString (names : List Name) : List (Fin 256) := slash.val :: namesString names

/-- Every call of `kmalloc` has found memory. -/
def GotMemory (memory : Nat → Bool) (state after : VfsState F) : Prop :=
  ∀ call, state.allocs ≤ call → call < after.allocs → memory call = true

variable {disk : Nat → Int} {memory : Nat → Bool} {state middle after : VfsState F} {ino parent : Nat} {name : Name}
  {volume : Mounted}

/-! ## Memory -/

theorem GotMemory.trans (first : GotMemory memory state middle) (second : GotMemory memory middle after) :
    GotMemory memory state after := by
  intro call behind before
  by_cases early : call < middle.allocs
  · exact first call behind early
  · exact second call (Nat.not_lt.mp early) before

theorem GotMemory.same (allocs : after.allocs = state.allocs) : GotMemory memory state after := by
  intro call behind before
  omega

theorem GotMemory.not_lacks (got : GotMemory memory state after) : ¬ NoMemory memory state after := by
  rintro ⟨call, behind, before, failed⟩
  rw [got call behind before] at failed
  cases failed

/-- An inode that is loaded has found memory. -/
theorem sfsLoadInode_memory {node : Node} (called : sfsLoadInode disk memory state ino = some (.ok node, after)) :
    GotMemory memory state after := by
  unfold sfsLoadInode at called
  split at called
  · obtain ⟨_, rfl⟩ := Prod.mk.inj (Option.some.inj called)
    exact GotMemory.same rfl
  · simp only at called
    split at called
    · rename_i room
      obtain ⟨_, _, rest⟩ := Option.bind_eq_some_iff.mp called
      obtain ⟨⟨read, fs⟩, _, rest⟩ := Option.bind_eq_some_iff.mp rest
      cases read with
      | error ret => cases rest
      | ok words =>
        simp only [createInode] at rest
        split at rest
        · cases rest
        split at rest
        · rename_i more
          split at rest
          · cases rest
          · obtain ⟨_, rfl⟩ := Prod.mk.inj (Option.some.inj rest)
            intro call behind before
            simp only at before
            rcases (by omega : call = state.allocs ∨ call = state.allocs + 1) with rfl | rfl
            · exact room
            · exact more
        · cases rest
    · cases called

/-- A name that is found has found memory. -/
theorem sfsLookupOnce_memory {node : Node}
    (called : sfsLookupOnce disk memory state ino name = some (.ok node, after)) : GotMemory memory state after := by
  obtain ⟨sin, _, rest⟩ := Option.bind_eq_some_iff.mp called
  obtain ⟨⟨found, emptySlot, fs, sinAfter⟩, isFound, rest⟩ := Option.bind_eq_some_iff.mp rest
  cases found with
  | error ret => cases rest
  | ok slot =>
    have room : memory state.allocs = true := by
      by_contra lacks
      simp only [Bool.not_eq_true] at lacks
      simp only [sfsDirentSearchNolock, lacks, if_true] at isFound
      split at isFound <;> cases isFound
    have loads := sfsLoadInode_memory rest
    intro call behind before
    by_cases first : call = state.allocs
    · exact first ▸ room
    · exact loads call (by simp only; omega) before

/-! ## Entries of a tree -/

theorem dirFind_below (below : Below volume ino parent) : dirFind volume ino dotdot = .ok (.sfs parent) := by
  obtain ⟨nonzero, slot, small, isName, isIno⟩ := (below.up parent).mpr rfl
  unfold dirFind
  cases isFirst : firstSlot volume.fs.disk (volume.din ino) 0 (volume.din ino).blocks (isNamed dotdot) with
  | none =>
    have noSlot := List.find?_eq_none.mp isFirst slot (by simpa using small)
    exact absurd (by simp [isNamed, isName, isIno, nonzero]) noSlot
  | some first =>
    obtain ⟨inside, named⟩ := firstSlot_some isFirst
    simp only [isNamed, decide_eq_true_eq] at named
    have same := (below.up _).mp ⟨named.1, first, inside, named.2, rfl⟩
    simp only [same]

/-- The only entry for an inode is found. -/
theorem foundIno_named (named : ∀ other, Entry volume parent other ino ↔ other = name) :
    ∃ entry, foundIno volume.fs.disk (volume.din parent) ino 0 (volume.din parent).blocks = .ok entry ∧
      entry.string = name ∧ HoldsString entry.name name := by
  obtain ⟨slot, small, _, isIno⟩ := (named name).mpr rfl
  unfold foundIno
  cases isFirst : firstSlot volume.fs.disk (volume.din parent) 0 (volume.din parent).blocks
      (fun entry => entry.ino = ino) with
  | none =>
    have noSlot := List.find?_eq_none.mp isFirst slot (by simpa using small)
    exact absurd (by simpa using isIno) noSlot
  | some first =>
    obtain ⟨inside, isFirstIno⟩ := firstSlot_some isFirst
    have same := (named _).mp ⟨first, inside, rfl, by simpa using isFirstIno⟩
    exact ⟨_, rfl, same, same ▸ entryAt_holds _ _ _⟩

theorem foundIno_same {next : Mounted} (same : SameTree volume next) (tree : Tree volume) (member : parent ∈ volume.files)
    (isDir : (volume.din parent).type = sfsTypeDir) :
    foundIno next.fs.disk (next.din parent) ino 0 (next.din parent).blocks =
      foundIno volume.fs.disk (volume.din parent) ino 0 (volume.din parent).blocks := by
  unfold foundIno
  rw [same.firstSlot tree member isDir]
  cases isFirst : firstSlot volume.fs.disk (volume.din parent) 0 (volume.din parent).blocks
      (fun entry => entry.ino = ino) with
  | none => rfl
  | some slot =>
    obtain ⟨small, _⟩ := firstSlot_some isFirst
    simp only [same.entryAt tree member isDir small]

theorem DirPath.directory {names : List Name} (path : DirPath volume ino names) :
    ino ∈ volume.files ∧ (volume.din ino).type = sfsTypeDir := by
  cases path with
  | root below => exact ⟨below.member, below.isDir⟩
  | child above below different named => exact ⟨below.member, below.isDir⟩

/-! ## The walk -/

/-- An inode with a reference that is not for an opening. -/
def Spare (state : VfsState F) (ino : Nat) : Prop :=
  (state.counts (.sfs ino)).openCount < (state.counts (.sfs ino)).refCount

theorem Spare.held (fit : Fit state) (spare : Spare state ino) : 0 < (state.counts (.sfs ino)).refCount := by
  have := fit.counted (.sfs ino)
  unfold Spare at spare
  omega

/-- The parent has the reference that the directory has had. -/
theorem spare_exchanged {lowered : VfsState F} (fit : Fit state) (spare : Spare state ino)
    (hands : Hands state (.ok (.sfs parent)) middle) (drops : Bumps middle lowered (.sfs ino) (-1) 0) :
    Spare lowered parent := by
  unfold Spare at spare ⊢
  rw [drops.counts, hands.counts]
  have counted := fit.counted (.sfs parent)
  by_cases same : parent = ino
  · subst same
    simp only [bump_self]
    omega
  · have different : Node.sfs parent ≠ .sfs ino := fun equal => same (Node.sfs.inj equal)
    rw [bump_other different]
    simp only [bump_self]
    omega

/-- The first half of a turn: the parent is looked up and takes over, or there is no memory. -/
theorem lookup_parent {first : VfsState F} (works : ∀ call, disk call = 0) (fit : Fit first) (went : Went first state)
    (below : Below first.volume ino parent) (spare : Spare state ino) :
    (∃ after, namefileTurn disk memory state ino = some (.failed (-eNoMem) after) ∧ Went state after ∧
      NoMemory memory state after) ∨
    ∃ looked sin lowered, sfsLookupOnce disk memory state ino dotdot = some (.ok (.sfs parent), looked) ∧
      looked.volume.inodes ino = some sin ∧ sin.ino = ino ∧ vopRefDec disk looked (.sfs ino) = some lowered ∧
      Went state lowered ∧ GotMemory memory state lowered ∧ Spare lowered parent := by
  obtain ⟨sin, isIn⟩ := inMemory_of_held (spare.held went.fit)
  have isDir : sin.din.type = sfsTypeDir := by
    rw [← din_of isIn, (went.tree.din ino below.member).type]
    exact below.isDir
  have short : dotdot.length ≤ sfsMaxFnameLen := by decide
  obtain ⟨result, looked, isLooked, wentOn, allocated⟩ :=
    @sfsLookupOnce_fit _ disk memory state ino sin dotdot works went.fit isIn isDir short
  rw [dirFind_same went.tree fit.tree below.member below.isDir, dirFind_below below] at allocated
  have lookedSpare : Spare looked ino := (sfsLookupOnce_hands isLooked).spare spare
  obtain ⟨lowered, isLowered, wentLast⟩ := vopRefDec_fit works wentOn.fit lookedSpare
  rcases allocated with rfl | ⟨rfl, lacks⟩
  · right
    obtain ⟨lookedSin, lookedIn⟩ := inMemory_of_held (lookedSpare.held wentOn.fit)
    refine ⟨looked, lookedSin, lowered, isLooked, lookedIn, (wentOn.fit.cached.loaded _ _ lookedIn).2, isLowered,
      wentOn.trans wentLast, ?_, ?_⟩
    · exact (sfsLookupOnce_memory isLooked).trans (GotMemory.same (vopRefDec_allocs isLowered))
    · exact spare_exchanged went.fit spare (sfsLookupOnce_hands isLooked) (vopRefDec_bumps isLowered)
  · left
    refine ⟨lowered, ?_, wentOn.trans wentLast, lacks.within (Went.refl went.fit) wentLast⟩
    simp only [namefileTurn, isLooked, isLowered, Option.bind_eq_bind, Option.bind_some, Option.map_some]

/-- The turn at the root ends the walk. -/
theorem namefileTurn_root {first : VfsState F} (works : ∀ call, disk call = 0) (fit : Fit first)
    (went : Went first state) (below : Below first.volume ino ino) (spare : Spare state ino) :
    (∃ after, namefileTurn disk memory state ino = some (.failed (-eNoMem) after) ∧ Went state after ∧
      NoMemory memory state after) ∨
    ∃ after, namefileTurn disk memory state ino = some (.root after) ∧ Went state after ∧
      GotMemory memory state after := by
  rcases lookup_parent works fit went below spare with failed |
    ⟨looked, sin, lowered, isLooked, isIn, _, isLowered, wentOn, got, loweredSpare⟩
  · exact Or.inl failed
  · right
    obtain ⟨after, isAfter, wentLast⟩ := vopRefDec_fit works wentOn.fit loweredSpare
    refine ⟨after, ?_, wentOn.trans wentLast, got.trans (GotMemory.same (vopRefDec_allocs isAfter))⟩
    simp only [namefileTurn, isLooked, isIn, isLowered, isAfter, Option.bind_eq_bind, Option.bind_some, if_true,
      Option.map_some]

/-- The turn at another directory finds its entry in its parent. -/
theorem namefileTurn_up {first : VfsState F} {names : List Name} (works : ∀ call, disk call = 0) (fit : Fit first)
    (went : Went first state) (above : DirPath first.volume parent names) (below : Below first.volume ino parent)
    (different : ino ≠ parent) (named : ∀ other, Entry first.volume parent other ino ↔ other = name)
    (spare : Spare state ino) :
    (∃ after, namefileTurn disk memory state ino = some (.failed (-eNoMem) after) ∧ Went state after ∧
      NoMemory memory state after) ∨
    ∃ entry after, namefileTurn disk memory state ino = some (.up parent entry after) ∧ Went state after ∧
      GotMemory memory state after ∧ Spare after parent ∧ entry.string = name ∧ HoldsString entry.name name := by
  rcases lookup_parent works fit went below spare with failed |
    ⟨looked, sin, lowered, isLooked, isIn, isIno, isLowered, wentOn, got, loweredSpare⟩
  · exact Or.inl failed
  · right
    have tree := went.tree.trans wentOn.tree
    obtain ⟨member, isDir⟩ := above.directory
    obtain ⟨parentSin, parentIn⟩ := inMemory_of_held (loweredSpare.held wentOn.fit)
    have parentIno := (wentOn.fit.cached.loaded _ _ parentIn).2
    have isDin := din_of parentIn
    have parentDir : parentSin.din.type = sfsTypeDir := by rw [← isDin, (tree.din parent member).type, isDir]
    have parentMember : parent ∈ lowered.volume.files := tree.files ▸ member
    have readable : Readable lowered.volume.fs parentSin.din :=
      isDin ▸ wentOn.fit.tree.readable parent parentMember (isDin ▸ parentDir)
    obtain ⟨result, calls, isFound, outcome⟩ := @sfsDirentFindinoNolock_expected disk _ _ ino readable
    obtain rfl := outcome.works works
    have entries := @foundIno_same ino parent _ _ tree fit.tree member isDir
    rw [isDin] at entries
    obtain ⟨entry, isEntry, isName, holds⟩ := foundIno_named named
    rw [entries, isEntry] at isFound
    have searched := wentOn.fit.searched parentIn calls 0
    refine ⟨entry, { lowered with volume := lowered.volume.put parent { lowered.volume.fs with calls } (some parentSin) },
      ?_, wentOn.trans searched, got.trans (GotMemory.same rfl), ?_, isName, holds⟩
    · simp only [namefileTurn, isLooked, isIn, isLowered, different, entryTurn, parentIn, isIno, parentIno, parentDir,
        isFound, Option.bind_eq_bind, Option.bind_some, if_false, ne_eq, not_true_eq_false, or_self]
    · have same : SameCounts lowered { lowered with
          volume := lowered.volume.put parent { lowered.volume.fs with calls } (some parentSin) } := by
        apply counts_put
        · exact fun other isOther => Function.update_of_ne isOther _ _
        · simp [Mounted.put, parentIn]
      unfold Spare at loweredSpare ⊢
      rw [same.counts]
      exact loweredSpare

/-! ## The loop -/

theorem namesString_append (names : List Name) (name : Name) :
    namesString (names ++ [name]) = namesString names ++ (name.map Subtype.val ++ [slash.val]) := by
  simp [namesString]

/-- A name in front of an address, and its slash. -/
theorem nameBefore_holds {bytes : Bytes} {ptr : Nat} {entry : DiskEntry}
    (holds : HoldsString entry.name name) :
    HoldsAt (nameBefore bytes ptr (name.length + 1) entry) (ptr - (name.length + 1))
      (name.map Subtype.val ++ [slash.val]) := by
  have length : (name.map Subtype.val).length = name.length := List.length_map ..
  apply HoldsAt.append
  · intro index byte isByte
    obtain ⟨inside, _⟩ := List.getElem?_eq_some_iff.mp isByte
    rw [length] at inside
    obtain ⟨held, isHeld, rfl⟩ := List.getElem?_map .. ▸ isByte |> Option.map_eq_some_iff.mp
    unfold nameBefore
    rw [Function.update_of_ne (by omega), memcpy_exact, if_pos (by omega), Nat.add_sub_cancel_left]
    exact holds.1 index held isHeld
  · intro index byte isByte
    obtain ⟨inside, isSlash⟩ := List.getElem?_eq_some_iff.mp isByte
    have first : index = 0 := by simpa using inside
    subst first
    rw [length]
    exact (Function.update_self ..).trans isSlash

/-- The outcome of the loop for a directory with so many names in front of it: they are in
memory, behind what is left of the room, or there was no room or no memory. -/
def Walked (memory : Nat → Bool) (state after : VfsState F) (names : List Name) (resid ptr : Nat)
    (walked : Except Int (Nat × Nat)) (last : Bytes) : Prop :=
  (walked = .error (-eNoMem) ∧ (resid < (namesString names).length ∨ NoMemory memory state after)) ∨
    ∃ left start, walked = .ok (left, start) ∧ left + (namesString names).length = resid ∧
      start + (namesString names).length = ptr ∧ HoldsAt last start (namesString names) ∧ GotMemory memory state after

/-- The loop ends after as many turns as there are directories on the way. -/
theorem namefileLoop_tree {first : VfsState F} {names : List Name} (works : ∀ call, disk call = 0) (fit : Fit first)
    (path : DirPath first.volume ino names) {rounds resid ptr : Nat} {bytes : Bytes} (enough : names.length < rounds)
    (went : Went first state) (spare : Spare state ino) (room : resid ≤ ptr) :
    ∃ walked after last, namefileLoop disk memory rounds state ino resid ptr bytes = some (walked, after, last) ∧
      Went state after ∧ Walked memory state after names resid ptr walked last := by
  induction path generalizing state rounds resid ptr bytes with
  | root below =>
    obtain ⟨more, rfl⟩ := Nat.exists_eq_succ_of_ne_zero (Nat.ne_of_gt enough)
    rcases @namefileTurn_root _ disk memory _ _ _ works fit went below spare with
      ⟨after, turned, wentOn, lacks⟩ | ⟨after, turned, wentOn, got⟩
    · refine ⟨.error (-eNoMem), after, bytes, ?_, wentOn, Or.inl ⟨rfl, Or.inr lacks⟩⟩
      simp only [namefileLoop, turned, Option.bind_eq_bind, Option.bind_some]
    · refine ⟨.ok (resid, ptr), after, bytes, ?_, wentOn, Or.inr ⟨resid, ptr, rfl, rfl, rfl, ?_, got⟩⟩
      · simp only [namefileLoop, turned, Option.bind_eq_bind, Option.bind_some]
      · intro index byte isByte
        simp [namesString] at isByte
  | @child ino parent names name above below different named ih =>
    obtain ⟨more, rfl⟩ := Nat.exists_eq_succ_of_ne_zero (Nat.ne_of_gt (Nat.lt_of_le_of_lt (Nat.zero_le _) enough))
    have length : (namesString (names ++ [name])).length = (namesString names).length + (name.length + 1) := by
      simp [namesString_append]
    rcases @namefileTurn_up _ disk memory _ _ _ _ _ _ works fit went above below different named spare with
      ⟨after, turned, wentOn, lacks⟩ | ⟨entry, next, turned, wentOn, got, nextSpare, isName, holds⟩
    · refine ⟨.error (-eNoMem), after, bytes, ?_, wentOn, Or.inl ⟨rfl, Or.inr lacks⟩⟩
      simp only [namefileLoop, turned, Option.bind_eq_bind, Option.bind_some]
    · by_cases tooLong : resid < name.length + 1
      · obtain ⟨after, lowered, wentLast⟩ := vopRefDec_fit works wentOn.fit nextSpare
        refine ⟨.error (-eNoMem), after, bytes, ?_, wentOn.trans wentLast, Or.inl ⟨rfl, Or.inl (by omega)⟩⟩
        simp only [namefileLoop, turned, isName, tooLong, lowered, Option.bind_eq_bind, Option.bind_some, if_true,
          Option.map_some]
      · have fewer : names.length < more := by simpa using enough
        obtain ⟨walked, after, last, looped, wentLast, outcome⟩ :=
          @ih next more (resid - (name.length + 1)) (ptr - (name.length + 1))
            (nameBefore bytes ptr (name.length + 1) entry) fewer (went.trans wentOn) nextSpare (by omega)
        refine ⟨walked, after, last, ?_, wentOn.trans wentLast, ?_⟩
        · simp only [namefileLoop, turned, isName, tooLong, looped, Option.bind_eq_bind, Option.bind_some, if_false]
        · rcases outcome with ⟨rfl, short | lacks⟩ | ⟨left, start, rfl, accountLeft, accountStart, held, gotLast⟩
          · exact Or.inl ⟨rfl, Or.inl (by omega)⟩
          · exact Or.inl ⟨rfl, Or.inr (lacks.within wentOn (Went.refl wentLast.fit))⟩
          · right
            refine ⟨left, start, rfl, by omega, by omega, ?_, got.trans gotLast⟩
            rw [namesString_append]
            apply held.append
            -- what the later turns write is in front of this name
            have kept := (namefileLoop_inside (by omega) looped).1
            have isStart : start + (namesString names).length = ptr - (name.length + 1) := accountStart
            rw [isStart]
            exact (nameBefore_holds holds).congr fun index _ => kept _ (by omega)

/-! ## `sfs_namefile` -/

/-- The names behind a slash, and the end of the string. -/
theorem movedNames_holds {bytes : Bytes} {base ptr : Nat} {names : List Name}
    (held : HoldsAt bytes ptr (namesString names)) :
    HoldsAt (movedNames bytes base ptr (namesString names).length) base (pathString names ++ [0]) := by
  intro index byte isByte
  unfold movedNames
  by_cases isLast : index = (namesString names).length + 1
  · subst isLast
    have isZero : byte = 0 := by simpa [pathString] using isByte.symm
    rw [show base + ((namesString names).length + 1) = base + 1 + (namesString names).length by omega,
      Function.update_self, isZero]
  · obtain ⟨inside, _⟩ := List.getElem?_eq_some_iff.mp isByte
    simp only [pathString, List.length_append, List.length_cons, List.length_nil] at inside
    rw [Function.update_of_ne (by omega)]
    cases index with
    | zero =>
      have isSlash : slash.val = byte := by simpa [pathString] using isByte
      rw [← isSlash]
      exact Function.update_self ..
    | succ index =>
      have small : index < (namesString names).length := by omega
      have isName : (namesString names)[index]? = some byte := by
        simpa [pathString, List.getElem?_append_left small] using isByte
      rw [Function.update_of_ne (by omega), memmove_exact, if_pos (by omega)]
      rw [show base + (index + 1) - (base + 1) = index by omega]
      exact held index byte isName

/-- The string that `sfs_namefile` is asked for does not fit, or the buffer is tiny, or there
was no memory. -/
def NoRoom (memory : Nat → Bool) (state after : VfsState F) (names : List Name) (resid : Nat) : Prop :=
  resid < (pathString names).length + 1 ∨ resid ≤ 2 ∨ NoMemory memory state after

/-- On a device that works `sfs_namefile` writes the path name of a directory exactly when
there is room and memory for it, and fails with `-E_NO_MEM` otherwise. Whatever the device
does, it writes in the buffer only and changes no count. -/
theorem namefile_path (disk : Nat → Int) (memory : Nat → Bool) (state : VfsState F) (ino : Nat) (iob : Iobuf)
    (bytes : Bytes) :
    (∀ rounds ret after left last,
        sfsNamefile disk memory rounds state ino iob bytes = some (ret, after, left, last) →
          (∀ address, address < iob.ioBase ∨ iob.ioBase + iob.ioResid ≤ address → last address = bytes address) ∧
            SameCounts state after) ∧
      ((∀ call, disk call = 0) → Fit state → 0 < (state.counts (.sfs ino)).refCount →
        ∀ names, DirPath state.volume ino names → ∀ rounds, names.length < rounds →
          ∃ ret after left last,
            sfsNamefile disk memory rounds state ino iob bytes = some (ret, after, left, last) ∧
              (NoRoom memory state after names iob.ioResid → ret = -eNoMem) ∧
              (¬ NoRoom memory state after names iob.ioResid →
                ret = 0 ∧ HoldsAt last iob.ioBase (pathString names ++ [0]))) := by
  refine ⟨fun rounds ret after left last => sfsNamefile_frame, ?_⟩
  intro works fit held names path rounds enough
  by_cases tiny : iob.ioResid ≤ 2
  · refine ⟨-eNoMem, state, iob, bytes, by simp only [sfsNamefile, if_pos tiny], fun _ => rfl, fun room => ?_⟩
    exact absurd (Or.inr (Or.inl tiny)) room
  by_cases lacks : memory state.allocs = false
  · refine ⟨-eNoMem, { state with allocs := state.allocs + 1 }, iob, bytes, ?_, fun _ => rfl, fun room => ?_⟩
    · simp only [sfsNamefile, if_neg tiny, if_pos lacks]
    · exact absurd (Or.inr (Or.inr ⟨_, Nat.le_refl _, Nat.lt_succ_self _, lacks⟩)) room
  have started : Went state { state with allocs := state.allocs + 1 } :=
    ⟨⟨fit.tree, fit.cached, fit.counted, fit.reclaims⟩, SameTree.refl _, Nat.le_succ _⟩
  have startGot : GotMemory memory state { state with allocs := state.allocs + 1 } := by
    intro call behind before
    obtain rfl : call = state.allocs := by simp only at before; omega
    simpa using lacks
  obtain ⟨raised, isRaised, wentOn, _⟩ := @vopRefInc_fit _ _ (.sfs ino) started.fit held
  have spare : Spare raised ino := by
    unfold Spare
    have counted := started.fit.counted (.sfs ino)
    rw [(vopRefInc_bumps isRaised).counts, bump_self]
    dsimp only at counted ⊢
    omega
  obtain ⟨walked, after, last, looped, wentLast, outcome⟩ := @namefileLoop_tree _ disk memory raised ino state names
    works fit path rounds (iob.ioResid - 2) (iob.ioBase + iob.ioResid) bytes enough (started.trans wentOn) spare (by omega)
  have size : (pathString names).length = (namesString names).length + 1 := by simp [pathString]
  rcases outcome with ⟨rfl, short⟩ | ⟨left, start, rfl, accountLeft, _, holds, got⟩
  · refine ⟨-eNoMem, after, iob, last, ?_, fun _ => rfl, fun room => absurd ?_ room⟩
    · simp only [sfsNamefile, if_neg tiny, if_neg lacks, isRaised, looped, Option.bind_eq_bind, Option.bind_some]
    · rcases short with short | lacksLater
      · exact Or.inl (by omega)
      · exact Or.inr (Or.inr (lacksLater.within (started.trans wentOn) (Went.refl wentLast.fit)))
  · have alen : iob.ioResid - left - 2 = (namesString names).length := by omega
    have skips : (namesString names).length ≤ iob.ioResid := by omega
    obtain ⟨skipped, isSkipped⟩ : ∃ skipped, iobufSkip iob (namesString names).length = some skipped := ⟨_, if_pos skips⟩
    refine ⟨0, after, skipped, movedNames last iob.ioBase start (namesString names).length, ?_, fun noRoom => ?_, fun _ => ?_⟩
    · simp only [sfsNamefile, if_neg tiny, if_neg lacks, isRaised, looped, alen, isSkipped,
        Option.bind_eq_bind, Option.bind_some]
    · rcases noRoom with short | isTiny | lacksLater
      · omega
      · contradiction
      · have allGot := startGot.trans ((GotMemory.same (vopRefInc_allocs isRaised)).trans got)
        exact absurd lacksLater allGot.not_lacks
    · exact ⟨rfl, movedNames_holds holds⟩

/-! ## The directory `d` -/

/-- The state with `d` in memory, held once. -/
def smallInside : VfsState Unit := { smallState with
  volume := smallTree.put 7 smallTree.fs (some {
    din := .ofWords (smallDisk 7), ino := 7, dirty := false, reclaimCount := 1 })
  files := smallState.files.setInode (.sfs 7) { refCount := 1, openCount := 0 } }

/-- The name `d`. -/
def nameD : Name := [letterD]

theorem smallInside_fit : Fit smallInside := by
  have tree : SameTree smallState.volume smallInside.volume :=
    @sameTree_put smallTree { din := .ofWords (smallDisk 7), ino := 7, dirty := false, reclaimCount := 1 } 7 0 rfl
  have cached : Cached smallInside.volume :=
    @Cached.put smallTree 7 smallTree_cached { din := .ofWords (smallDisk 7), ino := 7, dirty := false, reclaimCount := 1 }
      0 (by decide) rfl fun _ => Alike.refl _
  apply @Fit.put _ smallState smallInside 7 _ smallState_settled.fit 0 ?_ rfl tree cached (by decide)
  funext node
  by_cases same : node = .sfs 7
  · subst same
    decide
  · rw [bump_other same]
    have present : smallInside.present node ↔ smallState.present node := by
      cases node with
      | device index => exact Iff.rfl
      | sfs ino =>
        have different : ino ≠ 7 := fun equal => same (congrArg Node.sfs equal)
        simp [VfsState.present, smallInside, smallState, Mounted.put, different]
    have inodes : smallInside.files.inodes node = smallState.files.inodes node := Function.update_of_ne same _ _
    simp only [VfsState.counts, present, inodes]

/-- The root and `d` on the way to `d`. -/
theorem smallInside_path : DirPath smallInside.volume 7 [nameD] := by
  have below : ∀ ino parent, ino ∈ smallInside.volume.files → (smallInside.volume.din ino).type = sfsTypeDir →
      (parent ≠ 0 ∧ Entry smallInside.volume ino dotdot parent) →
      (∀ slot < (smallInside.volume.din ino).blocks,
        (entryAt smallInside.volume.fs.disk (smallInside.volume.din ino) slot).string = dotdot →
          (entryAt smallInside.volume.fs.disk (smallInside.volume.din ino) slot).ino = parent) →
      Below smallInside.volume ino parent := by
    intro ino parent member isDir has only
    refine ⟨member, isDir, fun target => ⟨?_, fun same => same ▸ has⟩⟩
    rintro ⟨_, slot, small, isName, rfl⟩
    exact only slot small isName
  have root : Below smallInside.volume 1 1 :=
    below 1 1 (by decide) (by decide) ⟨by decide, 1, by decide +kernel⟩ (by decide +kernel)
  have child : Below smallInside.volume 7 1 :=
    below 7 1 (by decide) (by decide) ⟨by decide, 1, by decide +kernel⟩ (by decide +kernel)
  apply DirPath.child (DirPath.root root) child (by decide)
  intro other
  constructor
  · rintro ⟨slot, small, rfl, isIno⟩
    have only : ∀ slot < (smallInside.volume.din 1).blocks,
        (entryAt smallInside.volume.fs.disk (smallInside.volume.din 1) slot).ino = 7 →
          (entryAt smallInside.volume.fs.disk (smallInside.volume.din 1) slot).string = nameD := by
      decide +kernel
    exact only slot small isIno
  · rintro rfl
    exact ⟨3, by decide +kernel⟩

/-- The path name `/d/` with its end takes four bytes of the buffer. -/
theorem namefile_path_small :
    ∃ ret after left last, sfsNamefile (fun _ => 0) (fun _ => true) 2 smallInside 7
        { ioBase := 100, ioOffset := 0, ioLen := 4, ioResid := 4 } (fun _ => 0) = some (ret, after, left, last) ∧
      ret = 0 ∧ HoldsAt last 100 (pathString [nameD] ++ [0]) := by
  obtain ⟨_, names⟩ := namefile_path (fun _ => 0) (fun _ => true) smallInside 7
    { ioBase := 100, ioOffset := 0, ioLen := 4, ioResid := 4 } (fun _ => 0)
  obtain ⟨ret, after, left, last, called, _, writes⟩ :=
    names (fun _ => rfl) smallInside_fit (by decide) [nameD] smallInside_path 2 (by decide)
  refine ⟨ret, after, left, last, called, writes ?_⟩
  rintro (short | tiny | ⟨_, _, _, failed⟩)
  · revert short
    decide
  · revert tiny
    decide
  · cases failed

end Ucore.Vfs
