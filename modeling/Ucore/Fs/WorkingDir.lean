import Ucore.Fs.CallsKeepFiles
import Ucore.Fs.PathWalk

/-!
# The working directory

`kern/fs/vfs/vfspath.c` changes the directory in which relative paths start. The table of a
process holds a reference to it, which goes from the old directory to the new one. A path
of more than one component is followed by one change of the directory after the other.
-/

namespace Ucore.Vfs

open Transition Volume

variable {F : Type} [DecidableEq F] (disk : Nat → Int) (memory : Nat → Bool) (state : VfsState F) (files : F)

/-! ## `kern/fs/vfs/vfspath.c` -/

omit [DecidableEq F] in
/-- `vop_gettype`, as to whether the inode is a directory. -/
def vopIsDir (node : Node) : Option Bool := do
  inodeCheck state node
  match node with
  | .device _ => some false
  | .sfs ino => do
      let sin ← state.volume.inodes ino
      if sin.din.type = sfsTypeDir then some true
      else if sin.din.type = sfsTypeFile ∨ sin.din.type = sfsTypeLink then some false
      else none

/-- `set_cwd_nolock` -/
def setCwdNolock (pwd : Option Node) : VfsState F :=
  { state with files := state.files.setFiles files { state.files.files files with pwd } }

/-- `vfs_set_curdir` of an inode, for a process with the table `files`. -/
def vfsSetCurdir (dir : Node) : Option (Int × VfsState F) :=
  let oldDir := (state.files.files files).pwd
  if oldDir = some dir then some (0, state)
  else do
    let isDir ← vopIsDir state dir
    if isDir = false then some (-eNotdir, state)
    else do
      let state ← vopRefInc state dir
      let state := setCwdNolock state files (some dir)
      match oldDir with
      | some oldDir => (vopRefDec disk state oldDir).map fun state => (0, state)
      | none => some (0, state)

/-- `vfs_chdir` -/
def vfsChdir (path : Name) : Option (Int × VfsState F) := do
  let (found, state) ← vfsLookup disk memory state files path
  match found with
  | .error ret => some (ret, state)
  | .ok node => do
      let (ret, state) ← vfsSetCurdir disk state files node
      (vopRefDec disk state node).map fun state => (ret, state)

/-! ## What a change of the directory keeps -/

omit [DecidableEq F] in
/-- The references to an inode other than that of the working directory. -/
def spareRefs (node : Node) : Int :=
  (state.counts node).refCount - if (state.files.files files).pwd = some node then 1 else 0

omit [DecidableEq F] in
/-- A state in which the working directory can be changed: it is a directory of the tree,
which the table of the process holds besides the openings, and no count is near its
limit. -/
structure Resting : Prop where
  fit : Fit state
  home : ∃ ino, (state.files.files files).pwd = some (.sfs ino) ∧ Startable state (.sfs ino)
  spare : ∀ node, (state.counts node).openCount ≤ spareRefs state files node ∧
    spareRefs state files node + 2 < maxInodeCount

/-- A name that a path can be: it is not empty, it fits and has neither a colon nor a
slash. -/
structure PlainName (name : Name) : Prop where
  nonempty : name ≠ []
  short : name.length ≤ sfsMaxFnameLen
  noSlash : slash ∉ name
  noColon : colon ∉ name

variable {disk memory state files} {middle after : VfsState F} {node : Node} {name : Name} {ino : Nat}

/-! ## Lookups in the working directory -/

theorem scanDevice_plain (noSlash : slash ∉ name) (noColon : colon ∉ name) (index : Int) :
    scanDevice name index = (-1, -1) := by
  induction name generalizing index with
  | nil => rfl
  | cons byte rest ih =>
    simp only [List.mem_cons, not_or] at noSlash noColon
    rw [scanDevice, if_neg (Ne.symm noColon.1), if_neg (Ne.symm noSlash.1), ih noSlash.2 noColon.2]

theorem PlainName.subpath (plain : PlainName name) : subpath name = name := by
  simp [Vfs.subpath, scanDevice_plain plain.noSlash plain.noColon]

omit [DecidableEq F] in
theorem PlainName.getDevice (plain : PlainName name) :
    getDevice disk memory state files name = vfsGetCurdir state files := by
  simp [Vfs.getDevice, scanDevice_plain plain.noSlash plain.noColon]

theorem PlainName.head (plain : PlainName name) : name.head? ≠ some slash := by
  intro isSlash
  exact plain.noSlash (List.mem_of_mem_head? isSlash)

omit [DecidableEq F] in
/-- The working directory has the reference of its table. -/
theorem Resting.held (resting : Resting state files) (isPwd : (state.files.files files).pwd = some node) :
    (state.counts node).openCount < (state.counts node).refCount ∧
      (state.counts node).refCount + 1 < maxInodeCount := by
  have spare := resting.spare node
  rw [spareRefs, if_pos isPwd] at spare
  omega

omit [DecidableEq F] in
/-- A plain name is looked up in the working directory. -/
theorem vfsLookup_plain (works : ∀ call, disk call = 0) (resting : Resting state files)
    (isPwd : (state.files.files files).pwd = some (.sfs ino)) (plain : PlainName name) :
    ∃ result after, vfsLookup disk memory state files name = some (result, after) ∧ Went state after ∧
      Hands state result after ∧ Allocated memory state result (dirFind state.volume ino name) after := by
  obtain ⟨home, isHome, _, isDir⟩ := resting.home
  obtain rfl : ino = home := Node.sfs.inj (Option.some.inj (isPwd.symm.trans isHome))
  obtain ⟨opened, roomy⟩ := resting.held isPwd
  have counted := resting.fit.counted (.sfs ino)
  obtain ⟨begun, raised, went, volume⟩ := vopRefInc_fit resting.fit (by omega : 0 < (state.counts (.sfs ino)).refCount)
  have bumps := vopRefInc_bumps raised
  have count : (begun.counts (.sfs ino)).refCount = (state.counts (.sfs ino)).refCount + 1 ∧
      (begun.counts (.sfs ino)).openCount = (state.counts (.sfs ino)).openCount := by
    rw [bumps.counts, bump_self]
    exact ⟨rfl, Int.add_zero _⟩
  obtain ⟨result, looked, isLooked, wentOn, allocated, _⟩ := @vopLookup_fit _ disk memory begun name ino works went.fit
    (volume ▸ isDir) (by omega) (by omega) plain.nonempty plain.head plain.short
  have spare : (begun.counts (.sfs ino)).openCount < (begun.counts (.sfs ino)).refCount := by omega
  obtain ⟨after, lowered, wentLast⟩ := vopRefDec_fit works wentOn.fit ((vopLookup_hands isLooked).spare spare)
  have called : vfsLookup disk memory state files name = some (result, after) := by
    simp only [vfsLookup, plain.getDevice, vfsGetCurdir, isPwd, raised, plain.subpath, isLooked, lowered,
      Option.map_some, Option.bind_eq_bind, Option.bind_some, ne_eq, plain.nonempty, not_false_eq_true, if_true]
  refine ⟨result, after, called, (went.trans wentOn).trans wentLast, vfsLookup_hands called, ?_⟩
  rw [volume] at allocated
  rcases allocated with same | ⟨same, lacks⟩
  · exact Or.inl same
  · exact Or.inr ⟨same, lacks.within went wentLast⟩

/-! ## A change of the directory -/

/-- The outcome of a change of the directory: the directory that the name leads to is the
working directory, or the working directory stays and the error tells why. -/
def Changed (memory : Nat → Bool) (state : VfsState F) (files : F) (ino : Nat) (name : Name) (ret : Int)
    (after : VfsState F) : Prop :=
  (ret = 0 ∧ ∃ dir, dirStep state.volume (.sfs ino) name = some (.sfs dir) ∧
    (state.volume.din dir).type = sfsTypeDir ∧ (after.files.files files).pwd = some (.sfs dir)) ∨
  ((after.files.files files).pwd = some (.sfs ino) ∧
    (ret = -eNoMem ∧ NoMemory memory state after ∨
      ret = -eNoent ∧ dirStep state.volume (.sfs ino) name = none ∨
      ret = -eNotdir ∧ ∃ file, dirStep state.volume (.sfs ino) name = some (.sfs file) ∧
        (state.volume.din file).type ≠ sfsTypeDir))

/-- A state with the same references besides those of the working directory. -/
structure SameSpare (state after : VfsState F) (files : F) : Prop where
  tree : SameTree state.volume after.volume
  refs : ∀ node, spareRefs after files node = spareRefs state files node
  opens : ∀ node, (after.counts node).openCount = (state.counts node).openCount
  tables : ∀ other, other ≠ files → after.files.files other = state.files.files other

omit [DecidableEq F] in
theorem SameSpare.trans (first : SameSpare state middle files) (second : SameSpare middle after files) :
    SameSpare state after files where
  tree := first.tree.trans second.tree
  refs := fun node => (second.refs node).trans (first.refs node)
  opens := fun node => (second.opens node).trans (first.opens node)
  tables := fun other different => (second.tables other different).trans (first.tables other different)

omit [DecidableEq F] in
/-- A lookup that gives back all it has taken leaves the table and the counts. -/
theorem SameCounts.sameSpare (same : SameCounts state after) (tree : SameTree state.volume after.volume) :
    SameSpare state after files where
  tree := tree
  refs := fun node => by rw [spareRefs, spareRefs, same.counts, same.files]
  opens := fun node => by rw [same.counts]
  tables := fun other _ => by rw [same.files]

omit [DecidableEq F] in
theorem Startable.same (startable : Startable state (.sfs ino)) (tree : SameTree state.volume after.volume) :
    Startable after (.sfs ino) :=
  ⟨tree.files ▸ startable.1, (tree.din ino startable.1).type.trans startable.2⟩

omit [DecidableEq F] in
/-- The state rests when its references are the same and the working directory is one. -/
theorem Resting.same (resting : Resting state files) (fit : Fit after) (same : SameSpare state after files)
    {dir : Nat} (isPwd : (after.files.files files).pwd = some (.sfs dir)) (startable : Startable state (.sfs dir)) :
    Resting after files where
  fit := fit
  home := ⟨dir, isPwd, startable.same same.tree⟩
  spare := by
    intro node
    rw [same.refs, same.opens]
    exact resting.spare node

omit [DecidableEq F] in
/-- An inode that is held passes its check. -/
theorem inodeCheck_fit (fit : Fit state) (held : 0 < (state.counts (.sfs ino)).refCount)
    (roomy : (state.counts (.sfs ino)).refCount < maxInodeCount) : inodeCheck state (.sfs ino) = some () := by
  have present := present_of_held held
  have counted := fit.counted (.sfs ino)
  rw [counts_present present] at counted roomy
  unfold inodeCheck
  rw [if_pos]
  refine ⟨present, ?_, ?_, ?_, ?_⟩ <;> omega

omit [DecidableEq F] in
/-- An inode of the tree that is held is a directory or not. -/
theorem vopIsDir_fit (fit : Fit state) (held : 0 < (state.counts (.sfs ino)).refCount)
    (roomy : (state.counts (.sfs ino)).refCount < maxInodeCount) :
    vopIsDir state (.sfs ino) = some (decide ((state.volume.din ino).type = sfsTypeDir)) := by
  obtain ⟨sin, isIn⟩ := inMemory_of_held held
  have checked := inodeCheck_fit fit held roomy
  have typed := fit.tree.typed ino (fit.cached.loaded ino sin isIn).1
  rw [din_of isIn] at typed ⊢
  simp only [vopIsDir, checked, isIn, Option.bind_eq_bind, Option.bind_some]
  rcases typed with isDir | isFile
  · rw [if_pos isDir, decide_eq_true isDir]
  · have notDir : sin.din.type ≠ sfsTypeDir := by
      rw [isFile]
      decide
    rw [if_neg notDir, if_pos (Or.inl isFile), decide_eq_false notDir]

/-- The table names another directory, which changes no count. -/
theorem setCwdNolock_fit (fit : Fit state) (pwd : Option Node) :
    Fit (setCwdNolock state files pwd) ∧ (setCwdNolock state files pwd).counts = state.counts :=
  ⟨⟨fit.tree, fit.cached, fit.counted, fit.reclaims⟩, rfl⟩

theorem setCwdNolock_pwd (pwd : Option Node) : ((setCwdNolock state files pwd).files.files files).pwd = pwd := by
  simp [setCwdNolock, Fs.FileState.setFiles]

theorem setCwdNolock_other {other : F} (different : other ≠ files) (pwd : Option Node) :
    (setCwdNolock state files pwd).files.files other = state.files.files other := by
  simp [setCwdNolock, Fs.FileState.setFiles, different]

omit [DecidableEq F] in
theorem dirStep_dir (isDir : (state.volume.din ino).type = sfsTypeDir) :
    dirStep state.volume (.sfs ino) name = (dirFind state.volume ino name).toOption := by
  rw [dirStep, if_pos isDir]

/-- The reference goes from the old working directory to a directory that was found. -/
theorem vfsSetCurdir_moves {dir : Nat} (works : ∀ call, disk call = 0) (resting : Resting state files)
    (isPwd : (state.files.files files).pwd = some (.sfs ino)) (different : ino ≠ dir) {found : VfsState F}
    (fit : Fit found) (bumps : Bumps state found (.sfs dir) 1 0) (isDir : (found.volume.din dir).type = sfsTypeDir) :
    ∃ moved, vfsSetCurdir disk found files (.sfs dir) = some (0, moved) ∧ Went found moved ∧
      moved.counts = bump (bump state.counts (.sfs dir) 2 0) (.sfs ino) (-1) 0 ∧
      (moved.files.files files).pwd = some (.sfs dir) ∧
      ∀ other, other ≠ files → moved.files.files other = state.files.files other := by
  have notSame : (.sfs ino : Node) ≠ .sfs dir := fun same => different (Node.sfs.inj same)
  have isOld : (found.files.files files).pwd = some (.sfs ino) := by rw [bumps.files, isPwd]
  have spare := resting.spare (.sfs dir)
  rw [spareRefs, if_neg (fun same => notSame (Option.some.inj (isPwd.symm.trans same)))] at spare
  have counted := resting.fit.counted (.sfs dir)
  have count : (found.counts (.sfs dir)).refCount = (state.counts (.sfs dir)).refCount + 1 := by
    rw [bumps.counts, bump_self]
  have tested := vopIsDir_fit fit (by omega : 0 < (found.counts (.sfs dir)).refCount) (by omega)
  rw [decide_eq_true isDir] at tested
  obtain ⟨raised, isRaised, went, _⟩ := vopRefInc_fit fit (by omega : 0 < (found.counts (.sfs dir)).refCount)
  have raisedBumps := vopRefInc_bumps isRaised
  obtain ⟨setFit, setCounts⟩ := @setCwdNolock_fit _ _ raised files went.fit (some (.sfs dir))
  have setWent : Went raised (setCwdNolock raised files (some (.sfs dir))) := ⟨setFit, SameTree.refl _, Nat.le_refl _⟩
  have counts : (setCwdNolock raised files (some (.sfs dir))).counts = bump state.counts (.sfs dir) 2 0 := by
    rw [setCounts, raisedBumps.counts, bumps.counts, bump_bump]
    rfl
  have oldHeld := (resting.held isPwd).1
  have held : ((setCwdNolock raised files (some (.sfs dir))).counts (.sfs ino)).openCount <
      ((setCwdNolock raised files (some (.sfs dir))).counts (.sfs ino)).refCount := by
    rw [counts, bump_other notSame]
    exact oldHeld
  obtain ⟨moved, lowered, wentLast⟩ := vopRefDec_fit works setFit held
  have last := vopRefDec_bumps lowered
  refine ⟨moved, ?_, (went.trans setWent).trans wentLast, ?_, ?_, ?_⟩
  · simp only [vfsSetCurdir, isOld, Option.some.injEq, notSame, if_false, tested, Bool.true_eq_false, isRaised, lowered,
      Option.bind_eq_bind, Option.bind_some, Option.map_some]
  · rw [last.counts, counts]
  · rw [last.files, setCwdNolock_pwd]
  · intro other isOther
    rw [last.files, setCwdNolock_other isOther, raisedBumps.files, bumps.files]

/-- References do not count as openings. -/
theorem bump_opens (counts : Node → Fs.Inode) (node other : Node) (refs : Int) :
    (bump counts node refs 0 other).openCount = (counts other).openCount := by
  by_cases same : other = node
  · rw [same, bump_self]
    exact Int.add_zero _
  · rw [bump_other same]

omit [DecidableEq F] in
/-- A name leads to an inode of the tree. -/
theorem dirFind_member {volume : Mounted} (tree : Tree volume) (member : ino ∈ volume.files)
    (isDir : (volume.din ino).type = sfsTypeDir) (found : dirFind volume ino name = .ok node) :
    ∃ child ∈ volume.files, node = .sfs child := by
  unfold dirFind at found
  split at found
  · rename_i slot isFirst
    obtain ⟨small, named⟩ := firstSlot_some isFirst
    simp only [isNamed, decide_eq_true_eq] at named
    exact ⟨_, tree.entries ino member isDir slot small named.1, (Except.ok.inj found).symm⟩
  · cases found

omit [DecidableEq F] in
/-- When the working directory moves, its reference moves with it, and all others stay. -/
theorem sameSpare_moved {child : Nat} {after : VfsState F} (isPwd : (state.files.files files).pwd = some (.sfs ino))
    (different : ino ≠ child) (tree : SameTree state.volume after.volume)
    (counts : after.counts = bump (bump state.counts (.sfs child) 1 0) (.sfs ino) (-1) 0)
    (isAfterPwd : (after.files.files files).pwd = some (.sfs child))
    (tables : ∀ other, other ≠ files → after.files.files other = state.files.files other) :
    SameSpare state after files := by
  have notSame : (.sfs ino : Node) ≠ .sfs child := fun same => different (Node.sfs.inj same)
  refine ⟨tree, fun other => ?_, fun other => ?_, tables⟩
  · rw [spareRefs, spareRefs, isAfterPwd, isPwd, counts]
    by_cases isIno : other = .sfs ino
    · subst isIno
      rw [bump_self, bump_other notSame, if_neg (fun same => notSame (Option.some.inj same).symm), if_pos rfl]
      dsimp only
      omega
    · rw [bump_other isIno, if_neg (fun same => isIno (Option.some.inj same).symm)]
      by_cases isChild : other = .sfs child
      · subst isChild
        rw [bump_self, if_pos rfl]
        dsimp only
        omega
      · rw [bump_other isChild, if_neg (fun same => isChild (Option.some.inj same).symm)]
  · rw [counts, bump_opens, bump_opens]

/-- `vfs_chdir` by a plain name returns. It changes the working directory or tells why it
does not; the tree, and all references but that of the working directory, stay. -/
theorem vfsChdir_plain (works : ∀ call, disk call = 0) (resting : Resting state files)
    (isPwd : (state.files.files files).pwd = some (.sfs ino)) (plain : PlainName name) :
    ∃ ret after, vfsChdir disk memory state files name = some (ret, after) ∧ Resting after files ∧
      SameSpare state after files ∧ Changed memory state files ino name ret after := by
  obtain ⟨home, isHome, startable⟩ := resting.home
  obtain rfl : ino = home := Node.sfs.inj (Option.some.inj (isPwd.symm.trans isHome))
  obtain ⟨member, isDir⟩ := startable
  obtain ⟨result, found, looked, went, hands, allocated⟩ := @vfsLookup_plain _ disk memory _ _ _ _ works resting isPwd plain
  have stays : ∀ code, result = .error code → vfsChdir disk memory state files name = some (code, found) ∧
      Resting found files ∧ SameSpare state found files ∧ (found.files.files files).pwd = some (.sfs ino) := by
    rintro code rfl
    have same : SameCounts state found := hands
    have isFoundPwd : (found.files.files files).pwd = some (.sfs ino) := by rw [same.files, isPwd]
    have spare : SameSpare state found files := same.sameSpare went.tree
    refine ⟨?_, resting.same went.fit spare isFoundPwd ⟨member, isDir⟩, spare, isFoundPwd⟩
    simp only [vfsChdir, looked, Option.bind_eq_bind, Option.bind_some]
  have step := @dirStep_dir _ state name ino isDir
  rcases allocated with rfl | ⟨noMem, lacks⟩
  case inr =>
    obtain ⟨called, rests, spare, isFoundPwd⟩ := stays _ noMem
    exact ⟨_, _, called, rests, spare, Or.inr ⟨isFoundPwd, Or.inl ⟨rfl, lacks⟩⟩⟩
  cases isFound : dirFind state.volume ino name with
  | error code =>
    obtain ⟨called, rests, spare, isFoundPwd⟩ := stays _ isFound
    rw [isFound] at step
    exact ⟨_, _, called, rests, spare, Or.inr ⟨isFoundPwd, Or.inr (Or.inl ⟨dirFind_code isFound, step⟩)⟩⟩
  | ok node =>
    obtain ⟨child, childMember, rfl⟩ := dirFind_member resting.fit.tree member isDir isFound
    rw [isFound] at looked hands step
    have bumps : Bumps state found (.sfs child) 1 0 := hands
    have childSpare := resting.spare (.sfs child)
    have childCounted := resting.fit.counted (.sfs child)
    have childCount : (found.counts (.sfs child)).refCount = (state.counts (.sfs child)).refCount + 1 ∧
        (found.counts (.sfs child)).openCount = (state.counts (.sfs child)).openCount := by
      rw [bumps.counts, bump_self]
      exact ⟨rfl, Int.add_zero _⟩
    have sameType := (went.tree.din child childMember).type
    -- the reference that the lookup gave goes when nothing was changed
    have gives : ∀ ret, vfsSetCurdir disk found files (.sfs child) = some (ret, found) →
        ∃ after, vfsChdir disk memory state files name = some (ret, after) ∧ Resting after files ∧
          SameSpare state after files ∧ (after.files.files files).pwd = some (.sfs ino) := by
      intro ret set
      obtain ⟨after, lowered, wentLast⟩ := vopRefDec_fit works went.fit (by omega :
        (found.counts (.sfs child)).openCount < (found.counts (.sfs child)).refCount)
      have same : SameCounts state after := (bumps.trans (vopRefDec_bumps lowered)).same
      have spare : SameSpare state after files := same.sameSpare (went.trans wentLast).tree
      have isAfterPwd : (after.files.files files).pwd = some (.sfs ino) := by rw [same.files, isPwd]
      refine ⟨after, ?_, resting.same wentLast.fit spare isAfterPwd ⟨member, isDir⟩, spare, isAfterPwd⟩
      simp only [vfsChdir, looked, set, lowered, Option.bind_eq_bind, Option.bind_some, Option.map_some]
    by_cases here : ino = child
    · subst here
      have set : vfsSetCurdir disk found files (.sfs ino) = some (0, found) := by
        simp only [vfsSetCurdir, bumps.files, isPwd, if_true]
      obtain ⟨after, called, rests, spare, isAfterPwd⟩ := gives 0 set
      exact ⟨0, after, called, rests, spare, Or.inl ⟨rfl, ino, step, isDir, isAfterPwd⟩⟩
    · have notSame : (.sfs ino : Node) ≠ .sfs child := fun same => here (Node.sfs.inj same)
      have notPwd : (state.files.files files).pwd ≠ some (.sfs child) := fun same =>
        notSame (Option.some.inj (isPwd.symm.trans same))
      rw [spareRefs, if_neg notPwd] at childSpare
      by_cases isDirectory : (state.volume.din child).type = sfsTypeDir
      · obtain ⟨moved, set, wentMoved, counts, isMovedPwd, tables⟩ :=
          vfsSetCurdir_moves works resting isPwd here went.fit bumps (sameType.trans isDirectory)
        have movedCount : (moved.counts (.sfs child)).refCount = (state.counts (.sfs child)).refCount + 2 ∧
            (moved.counts (.sfs child)).openCount = (state.counts (.sfs child)).openCount := by
          rw [counts, bump_other (Ne.symm notSame), bump_self]
          exact ⟨rfl, Int.add_zero _⟩
        obtain ⟨after, lowered, wentLast⟩ := vopRefDec_fit works wentMoved.fit (by omega :
          (moved.counts (.sfs child)).openCount < (moved.counts (.sfs child)).refCount)
        have last := vopRefDec_bumps lowered
        have isAfterPwd : (after.files.files files).pwd = some (.sfs child) := by rw [last.files, isMovedPwd]
        have afterCounts : after.counts = bump (bump state.counts (.sfs child) 1 0) (.sfs ino) (-1) 0 := by
          rw [last.counts, counts, bump_comm, bump_bump]
          rfl
        have spare : SameSpare state after files :=
          sameSpare_moved isPwd here ((went.trans wentMoved).trans wentLast).tree afterCounts isAfterPwd
            fun other isOther => by rw [last.files, tables other isOther]
        refine ⟨0, after, ?_, resting.same wentLast.fit spare isAfterPwd ⟨childMember, isDirectory⟩, spare,
          Or.inl ⟨rfl, child, step, isDirectory, isAfterPwd⟩⟩
        simp only [vfsChdir, looked, set, lowered, Option.bind_eq_bind, Option.bind_some, Option.map_some]
      · have tested := @vopIsDir_fit _ found child went.fit (by omega) (by omega)
        rw [decide_eq_false (sameType ▸ isDirectory)] at tested
        have set : vfsSetCurdir disk found files (.sfs child) = some (-eNotdir, found) := by
          simp only [vfsSetCurdir, bumps.files, isPwd, Option.some.injEq, notSame, if_false, tested, if_true,
            Option.bind_eq_bind, Option.bind_some]
        obtain ⟨after, called, rests, spare, isAfterPwd⟩ := gives _ set
        exact ⟨-eNotdir, after, called, rests, spare,
          Or.inr ⟨isAfterPwd, Or.inr (Or.inr ⟨rfl, child, step, isDirectory⟩)⟩⟩

/-! ## Runs of changes -/

omit [DecidableEq F] in
theorem SameSpare.refl (state : VfsState F) (files : F) : SameSpare state state files :=
  ⟨SameTree.refl _, fun _ => rfl, fun _ => rfl, fun _ _ => rfl⟩

/-- A change of the directory, whatever it returns. -/
def chdirStep (disk : Nat → Int) (memory : Nat → Bool) (files : F) (state : VfsState F) (name : Name) :
    Option (VfsState F) :=
  (vfsChdir disk memory state files name).map Prod.snd

/-- However often a process changes its directory by plain names, with `kmalloc` failing at
any call: the tree and all references but that of its working directory stay, and the next
change returns, moves to the directory that the name leads to, or tells why it does not. -/
theorem chdir_run (works : ∀ call, disk call = 0) {start : VfsState F} (resting : Resting start files)
    (reached : Reaches (chdirStep disk memory files) (fun _ name => PlainName name) start state) :
    Resting state files ∧ SameSpare start state files ∧ ∀ name, PlainName name →
      ∃ ino ret after, (state.files.files files).pwd = some (.sfs ino) ∧
        vfsChdir disk memory state files name = some (ret, after) ∧ Changed memory state files ino name ret after := by
  have kept : Resting state files ∧ SameSpare start state files := by
    induction reached with
    | start => exact ⟨resting, SameSpare.refl _ _⟩
    | step _ plain taken ih =>
      obtain ⟨rests, same⟩ := ih
      obtain ⟨ino, isPwd, _⟩ := rests.home
      obtain ⟨ret, after, called, restsOn, sameOn, _⟩ := @vfsChdir_plain _ _ disk memory _ _ _ _ works rests isPwd plain
      rw [chdirStep, called] at taken
      cases taken
      exact ⟨restsOn, same.trans sameOn⟩
  refine ⟨kept.1, kept.2, fun name plain => ?_⟩
  obtain ⟨ino, isPwd, _⟩ := kept.1.home
  obtain ⟨ret, after, called, _, _, changed⟩ := @vfsChdir_plain _ _ disk memory _ _ _ _ works kept.1 isPwd plain
  exact ⟨ino, ret, after, isPwd, called, changed⟩

/-- The root of the small tree is the working directory. -/
theorem smallState_resting : Resting smallState () where
  fit := smallState_settled.fit
  home := ⟨1, rfl, smallState_settled.root⟩
  spare := by
    intro node
    have isPwd : (smallState.files.files ()).pwd = some (.sfs 1) := rfl
    by_cases isRoot : node = .sfs 1
    · subst isRoot
      decide
    · have none : smallState.counts node = ⟨0, 0⟩ := by
        unfold VfsState.counts
        split
        · exact if_neg isRoot
        · rfl
      rw [spareRefs, isPwd, none, if_neg (fun same => isRoot (Option.some.inj same).symm)]
      decide

/-- A process goes into the directory `d`. -/
theorem chdir_run_dir : ∃ state, chdirStep (fun _ => 0) (fun _ => true) () smallState [letterD] = some state ∧
    Resting state () ∧ SameSpare smallState state () ∧ (state.files.files ()).pwd = some (.sfs 7) := by
  have plain : PlainName [letterD] := ⟨by decide, by decide, by decide, by decide⟩
  have completes : (chdirStep (fun _ => 0) (fun _ => true) () smallState [letterD]).map
      (fun state => (state.files.files ()).pwd) = some (some (.sfs 7)) := by
    decide +kernel
  obtain ⟨state, taken, isPwd⟩ := Option.map_eq_some_iff.mp completes
  obtain ⟨rests, same, _⟩ := chdir_run (fun _ => rfl) smallState_resting (.step .start plain taken)
  exact ⟨state, taken, rests, same, isPwd⟩

/-! ## The files -/

theorem vfsSetCurdir_stays {ret : Int} (called : vfsSetCurdir disk state files node = some (ret, after)) :
    Stays state.volume after.volume := by
  unfold vfsSetCurdir at called
  simp only at called
  split at called
  · cases called
    exact Stays.refl _
  · obtain ⟨isDir, _, rest⟩ := Option.bind_eq_some_iff.mp called
    split at rest
    · cases rest
      exact Stays.refl _
    · obtain ⟨raised, isRaised, rest⟩ := Option.bind_eq_some_iff.mp rest
      have first := vopRefInc_stays isRaised
      split at rest
      · obtain ⟨lowered, isLowered, same⟩ := Option.map_eq_some_iff.mp rest
        cases same
        have last := vopRefDec_stays isLowered
        exact first.trans last
      · cases rest
        exact first

/-- A change of the directory keeps every file what it is. -/
theorem vfsChdir_stays {ret : Int} (called : vfsChdir disk memory state files name = some (ret, after)) :
    Stays state.volume after.volume := by
  obtain ⟨⟨found, looked⟩, isFound, rest⟩ := Option.bind_eq_some_iff.mp called
  have first := vfsLookup_stays isFound
  cases found with
  | error code =>
    cases rest
    exact first
  | ok node =>
    obtain ⟨⟨code, set⟩, isSet, rest⟩ := Option.bind_eq_some_iff.mp rest
    obtain ⟨lowered, isLowered, same⟩ := Option.map_eq_some_iff.mp rest
    cases same
    exact (first.trans (vfsSetCurdir_stays isSet)).trans (vopRefDec_stays isLowered)

/-! ## Paths of several components -/

/-- The directory that a name leads to. -/
def dirOf (volume : Mounted) (ino : Nat) (name : Name) : Option Nat :=
  match dirStep volume (.sfs ino) name with
  | some (.sfs dir) => if (volume.din dir).type = sfsTypeDir then some dir else none
  | _ => none

/-- A change of the directory that succeeds. -/
def chdirOk (disk : Nat → Int) (memory : Nat → Bool) (files : F) (state : VfsState F) (name : Name) :
    Option (VfsState F) :=
  (vfsChdir disk memory state files name).bind fun (ret, after) => if ret = 0 then some after else none

theorem dirOf_cases {volume : Mounted} {dir : Nat} (leads : dirOf volume ino name = some dir) :
    dirStep volume (.sfs ino) name = some (.sfs dir) ∧ (volume.din dir).type = sfsTypeDir := by
  unfold dirOf at leads
  split at leads
  · rename_i found isFound
    split at leads
    · rename_i isDir
      cases leads
      exact ⟨isFound, isDir⟩
    · cases leads
  · cases leads

/-- A name leads on from a directory, and to an inode of the tree. -/
theorem dirStep_member {volume : Mounted} (tree : Tree volume) (member : ino ∈ volume.files)
    (leads : dirStep volume (.sfs ino) name = some node) : ∃ child ∈ volume.files, node = .sfs child := by
  unfold dirStep at leads
  simp only at leads
  split at leads
  · rename_i isDir
    cases isFound : dirFind volume ino name with
    | error code =>
      rw [isFound] at leads
      cases leads
    | ok found =>
      rw [isFound] at leads
      cases leads
      exact dirFind_member tree member isDir isFound
  · cases leads

/-- Names lead on from an inode of the tree as long as the tree is the same. -/
theorem dirOf_same {volume next : Mounted} (same : SameTree volume next) (tree : Tree volume)
    (member : ino ∈ volume.files) : dirOf next ino name = dirOf volume ino name := by
  have sameStep : dirStep next (.sfs ino) name = dirStep volume (.sfs ino) name := by
    unfold dirStep
    simp only [(same.din ino member).type]
    split
    · rename_i isDir
      rw [dirFind_same same tree member isDir]
    · rfl
  unfold dirOf
  rw [sameStep]
  cases leads : dirStep volume (.sfs ino) name with
  | none => rfl
  | some found =>
    obtain ⟨child, childMember, rfl⟩ := dirStep_member tree member leads
    simp only [(same.din child childMember).type]

theorem walk_same {volume next : Mounted} (same : SameTree volume next) (tree : Tree volume)
    (names : List Name) (member : ino ∈ volume.files) :
    PathNames.walk (dirOf next) ino names = PathNames.walk (dirOf volume) ino names := by
  induction names generalizing ino with
  | nil => rfl
  | cons name rest ih =>
    rw [PathNames.walk, PathNames.walk, dirOf_same same tree member]
    cases leads : dirOf volume ino name with
    | none => rfl
    | some dir =>
      obtain ⟨child, childMember, isChild⟩ := dirStep_member tree member (dirOf_cases leads).1
      cases isChild
      exact ih childMember

/-- A process has gone from its directory to another one: the tree, the files and the
references but that of its directory stay. -/
structure Arrives (state after : VfsState F) (files : F) (dir : Nat) : Prop where
  resting : Resting after files
  spare : SameSpare state after files
  stays : Stays state.volume after.volume
  pwd : (after.files.files files).pwd = some (.sfs dir)

omit [DecidableEq F] in
theorem Arrives.since {dir : Nat} (arrives : Arrives middle after files dir) (spare : SameSpare state middle files)
    (stays : Stays state.volume middle.volume) : Arrives state after files dir :=
  ⟨arrives.resting, spare.trans arrives.spare, stays.trans arrives.stays, arrives.pwd⟩

/-- With memory, a process that changes its directory by one name after the other gets on
exactly as long as the names lead to directories. -/
theorem chdirs_walk (works : ∀ call, disk call = 0) (room : ∀ call, memory call = true) {names : List Name}
    (resting : Resting state files) (isPwd : (state.files.files files).pwd = some (.sfs ino))
    (plain : ∀ name ∈ names, PlainName name) :
    Option.Rel (fun after dir => Arrives state after files dir) (run (chdirOk disk memory files) names state)
      (PathNames.walk (dirOf state.volume) ino names) := by
  induction names generalizing state ino with
  | nil => exact .some ⟨resting, SameSpare.refl _ _, Stays.refl _, isPwd⟩
  | cons name rest ih =>
    obtain ⟨home, isHome, member, _⟩ := resting.home
    obtain rfl : ino = home := Node.sfs.inj (Option.some.inj (isPwd.symm.trans isHome))
    obtain ⟨ret, middle, called, rests, same, changed⟩ :=
      @vfsChdir_plain _ _ disk memory _ _ _ _ works resting isPwd (plain name List.mem_cons_self)
    have stops : ret ≠ 0 → dirOf state.volume ino name = none →
        run (chdirOk disk memory files) (name :: rest) state = none ∧
          PathNames.walk (dirOf state.volume) ino (name :: rest) = none := by
      intro failed nowhere
      have refused : chdirOk disk memory files state name = none := by
        rw [chdirOk, called]
        exact if_neg failed
      rw [run, refused, PathNames.walk, nowhere]
      exact ⟨rfl, rfl⟩
    rcases changed with ⟨rfl, next, isFound, isDir, isMoved⟩ | ⟨_, ⟨_, lacks⟩ | ⟨rfl, nowhere⟩ | ⟨rfl, file, isFile, notDir⟩⟩
    · have leads : dirOf state.volume ino name = some next := by
        rw [dirOf, isFound]
        exact if_pos isDir
      have ok : chdirOk disk memory files state name = some middle := by
        rw [chdirOk, called]
        rfl
      obtain ⟨child, childMember, isChild⟩ := dirStep_member resting.fit.tree member isFound
      cases isChild
      have later := ih rests isMoved fun name isName => plain name (List.mem_cons_of_mem _ isName)
      rw [walk_same same.tree resting.fit.tree rest childMember] at later
      have weaken : ∀ {ran walked}, Option.Rel (fun after dir => Arrives middle after files dir) ran walked →
          Option.Rel (fun after dir => Arrives state after files dir) ran walked := by
        intro ran walked related
        cases related with
        | none => exact .none
        | some arrives => exact .some (arrives.since same (vfsChdir_stays called))
      rw [run, ok, PathNames.walk, leads]
      exact weaken later
    · obtain ⟨call, _, _, failed⟩ := lacks
      rw [room call] at failed
      cases failed
    · obtain ⟨ran, walked⟩ := stops (by decide) (by rw [dirOf, nowhere])
      rw [ran, walked]
      exact .none
    · obtain ⟨ran, walked⟩ := stops (by decide) (by rw [dirOf, isFile]; exact if_neg notDir)
      rw [ran, walked]
      exact .none

end Ucore.Vfs
