import Ucore.Fs.HeldNodes
import Ucore.Fs.WorkingDir

/-!
# The boot file system

`kern/fs/vfs/vfs.c` keeps a reference to the directory in which absolute paths start.
`vfs_set_bootfs` goes to the root of a device by its name, and keeps the working directory
for it. After the start it brings the root of the volume into memory.
-/

namespace Ucore.Vfs

open Volume

variable {F : Type} [DecidableEq F] (disk : Nat → Int) (memory : Nat → Bool) (state : VfsState F) (files : F)

/-! ## `kern/fs/vfs/vfs.c` -/

omit [DecidableEq F] in
/-- `change_bootfs` -/
def changeBootfs (node : Option Node) : Option (VfsState F) :=
  match state.bootfsNode with
  | some old => vopRefDec disk { state with bootfsNode := node } old
  | none => some { state with bootfsNode := node }

/-- `vfs_set_bootfs`; the name of a device ends in its only colon. -/
def vfsSetBootfs (fsname : Option Name) : Option (Int × VfsState F) :=
  match fsname with
  | none => (changeBootfs disk state none).map fun state => (0, state)
  | some fsname =>
      if (fsname.dropWhile fun byte => byte ≠ colon) ≠ [colon] then some (-eInval, state)
      else do
        let (ret, state) ← vfsChdir disk memory state files fsname
        if ret ≠ 0 then some (ret, state)
        else do
          let (current, state) ← vfsGetCurdir state files
          match current with
          | .error ret => some (ret, state)
          | .ok node => (changeBootfs disk state (some node)).map fun state => (0, state)

/-! ## The start -/

omit [DecidableEq F] in
/-- Nothing has been opened yet: there are no working directory and no boot file system, and
the volume is mounted on a device. -/
structure AtStart (devname : Name) : Prop where
  devices : ∀ index, 0 ≤ (state.files.inodes (.device index)).openCount ∧
    (state.files.inodes (.device index)).openCount ≤ (state.files.inodes (.device index)).refCount ∧
    (state.files.inodes (.device index)).refCount + 2 < maxInodeCount
  pwd : (state.files.files files).pwd = none
  boot : state.bootfsNode = none
  mounted : ∃ vdev, (state.vdevList.find? fun vdev => vdev.devname = devname) = some vdev ∧ vdev.fs = true

omit [DecidableEq F] in
/-- And the volume has a tree and a root, and none of its inodes is in memory. -/
structure Fresh (devname : Name) : Prop extends AtStart state files devname where
  tree : Tree state.volume
  unloaded : ∀ ino, state.volume.inodes ino = none
  root : Startable state (.sfs sfsBlknRoot)

variable {disk memory state files} {after : VfsState F} {devname : Name}

omit [DecidableEq F] in
theorem Fresh.counts (fresh : Fresh state files devname) (ino : Nat) : state.counts (.sfs ino) = ⟨0, 0⟩ := by
  apply if_neg
  simp [VfsState.present, fresh.unloaded ino]

omit [DecidableEq F] in
theorem Fresh.fit (fresh : Fresh state files devname) : Fit state where
  tree := fresh.tree
  cached := by
    constructor
    · intro ino sin isIn
      rw [fresh.unloaded ino] at isIn
      cases isIn
    · intro ino sin isIn
      rw [fresh.unloaded ino] at isIn
      cases isIn
  counted := by
    intro node
    cases node with
    | sfs ino =>
      rw [fresh.counts ino]
      decide
    | device index => exact ⟨(fresh.devices index).1, (fresh.devices index).2.1⟩
  reclaims := by
    intro ino sin isIn
    rw [fresh.unloaded ino] at isIn
    cases isIn

omit [DecidableEq F] in
theorem room_fits (room : ∀ call, memory call = true) {result expected : Except Int Node}
    (allocated : Allocated memory state result expected after) : result = expected := by
  rcases allocated with same | ⟨_, call, _, _, failed⟩
  · exact same
  · rw [room call] at failed
    cases failed

/-- The name of a device, which ends in a colon. -/
theorem scanDevice_device {devname : Name} (noSlash : slash ∉ devname) (noColon : colon ∉ devname) (index : Int) :
    scanDevice (devname ++ [colon]) index = (index + devname.length, -1) := by
  induction devname generalizing index with
  | nil => simp [scanDevice]
  | cons byte rest ih =>
    simp only [List.mem_cons, not_or] at noSlash noColon
    have length : index + 1 + (rest.length : Int) = index + ((rest.length + 1 : Nat) : Int) := by omega
    rw [List.cons_append, scanDevice, if_neg (Ne.symm noColon.1), if_neg (Ne.symm noSlash.1), ih noSlash.2 noColon.2,
      List.length_cons, length]

omit [DecidableEq F] in
/-- The root of a device that has the volume mounted is looked up by the name of the device. -/
theorem vfsLookup_device (works : ∀ call, disk call = 0) (room : ∀ call, memory call = true)
    (fresh : Fresh state files devname) (plain : PlainName devname) :
    ∃ after, vfsLookup disk memory state files (devname ++ [colon]) = some (.ok (.sfs sfsBlknRoot), after) ∧
      Went state after ∧ Bumps state after (.sfs sfsBlknRoot) 1 0 := by
  obtain ⟨vdev, isVdev, isMounted⟩ := fresh.mounted
  obtain ⟨result, after, loaded, went, allocated⟩ :=
    @sfsLoadInode_fit _ disk memory state sfsBlknRoot works fresh.fit fresh.root.1
  obtain rfl := room_fits room allocated
  have scanned := scanDevice_device plain.noSlash plain.noColon 0
  rw [Int.zero_add] at scanned
  have positive : 0 < (devname.length : Int) := by
    have := List.length_pos_iff.mpr plain.nonempty
    omega
  have notNegative : ¬ (devname.length : Int) < 0 := by omega
  have isRoot : getDevice disk memory state files (devname ++ [colon]) = some (.ok (.sfs sfsBlknRoot), after) := by
    simp only [getDevice, scanned, notNegative, false_and, if_false, positive, if_true, Int.toNat_natCast,
      List.take_left, vfsGetRoot, isVdev, getVdevRoot, isMounted, sfsGetRoot, loaded, Option.bind_eq_bind,
      Option.bind_some, Option.map_some]
  have nothing : subpath (devname ++ [colon]) = [] := by
    have behind : (devname ++ [colon]).drop (devname.length + 1) = [] := by
      rw [List.drop_eq_nil_iff, List.length_append]
      exact Nat.le_refl _
    simp only [subpath, scanned, notNegative, false_and, if_false, positive, if_true, Int.toNat_natCast, behind]
    rfl
  refine ⟨after, ?_, went, sfsLoadInode_hands loaded⟩
  simp only [vfsLookup, isRoot, nothing, Option.bind_eq_bind, Option.bind_some, ne_eq, not_true_eq_false, if_false]

/-- The change of directory in `vfs_set_bootfs`: the root of the volume is the working
directory, and the table of files holds the only reference to it. -/
theorem vfsChdir_fresh (works : ∀ call, disk call = 0) (room : ∀ call, memory call = true)
    (fresh : Fresh state files devname) (plain : PlainName devname) :
    ∃ changed, vfsChdir disk memory state files (devname ++ [colon]) = some (0, changed) ∧ Went state changed ∧
      changed.counts = bump state.counts (.sfs sfsBlknRoot) 1 0 ∧
      (changed.files.files files).pwd = some (.sfs sfsBlknRoot) ∧ changed.bootfsNode = none := by
  obtain ⟨found, looked, went, bumps⟩ := vfsLookup_device works room fresh plain
  have count : found.counts (.sfs sfsBlknRoot) = ⟨1, 0⟩ := by
    rw [bumps.counts, bump_self, fresh.counts]
    rfl
  have small : (1 : Int) < maxInodeCount := by decide
  have noPwd : (found.files.files files).pwd = none := by rw [bumps.files, fresh.pwd]
  have rootDir := (went.tree.din _ fresh.root.1).type.trans fresh.root.2
  have tested := vopIsDir_fit went.fit (by rw [count]; decide : 0 < (found.counts (.sfs sfsBlknRoot)).refCount)
    (by rw [count]; exact small)
  rw [decide_eq_true rootDir] at tested
  -- the table takes its reference, and the one of the lookup goes
  obtain ⟨raised, isRaised, wentRaised, _⟩ := vopRefInc_fit went.fit (by
    rw [count]
    decide : 0 < (found.counts (.sfs sfsBlknRoot)).refCount)
  have raisedBumps := vopRefInc_bumps isRaised
  obtain ⟨setFit, setCounts⟩ := @setCwdNolock_fit _ _ raised files wentRaised.fit (some (.sfs sfsBlknRoot))
  have wentSet : Went raised (setCwdNolock raised files (some (.sfs sfsBlknRoot))) :=
    ⟨setFit, SameTree.refl _, Nat.le_refl _⟩
  have raisedCount : (setCwdNolock raised files (some (.sfs sfsBlknRoot))).counts (.sfs sfsBlknRoot) = ⟨2, 0⟩ := by
    rw [setCounts, raisedBumps.counts, bump_self, count]
    rfl
  have set : vfsSetCurdir disk found files (.sfs sfsBlknRoot) =
      some (0, setCwdNolock raised files (some (.sfs sfsBlknRoot))) := by
    simp only [vfsSetCurdir, noPwd, reduceCtorEq, if_false, tested, Bool.true_eq_false, isRaised, Option.bind_eq_bind,
      Option.bind_some]
  obtain ⟨changed, lowered, wentChanged⟩ := vopRefDec_fit works setFit (by
    rw [raisedCount]
    decide : ((setCwdNolock raised files (some (.sfs sfsBlknRoot))).counts (.sfs sfsBlknRoot)).openCount <
      ((setCwdNolock raised files (some (.sfs sfsBlknRoot))).counts (.sfs sfsBlknRoot)).refCount)
  have loweredBumps := vopRefDec_bumps lowered
  refine ⟨changed, ?_, ((went.trans wentRaised).trans wentSet).trans wentChanged, ?_, ?_, ?_⟩
  · simp only [vfsChdir, looked, set, lowered, Option.bind_eq_bind, Option.bind_some, Option.map_some]
  · rw [loweredBumps.counts, setCounts, raisedBumps.counts, bumps.counts, bump_bump, bump_bump]
    rfl
  · rw [loweredBumps.files, setCwdNolock_pwd]
  · have steadyFound : Steady (fun _ => False) state found := vfsLookup_steady looked
    have steadyRaised : Steady (fun _ => False) found raised := vopRefInc_steady isRaised
    rw [(vopRefDec_sane lowered).2]
    exact steadyRaised.bootfs.trans (steadyFound.bootfs.trans fresh.boot)

/-- `vfs_set_bootfs` after the start succeeds: the root of the volume is the working
directory and the boot file system, and each of them holds a reference to it. -/
theorem vfsSetBootfs_fresh (works : ∀ call, disk call = 0) (room : ∀ call, memory call = true)
    (fresh : Fresh state files devname) (plain : PlainName devname) :
    ∃ after, vfsSetBootfs disk memory state files (some (devname ++ [colon])) = some (0, after) ∧
      Resting after files ∧ SameTree state.volume after.volume ∧
      (after.files.files files).pwd = some (.sfs sfsBlknRoot) ∧ after.bootfsNode = some (.sfs sfsBlknRoot) ∧
      after.counts = bump state.counts (.sfs sfsBlknRoot) 2 0 := by
  obtain ⟨changed, chdir, wentChanged, changedCounts, isPwd, isUnset⟩ := vfsChdir_fresh works room fresh plain
  -- the boot file system takes its reference
  obtain ⟨last, isLast, wentLast, _⟩ := vopRefInc_fit wentChanged.fit (by
    rw [changedCounts, bump_self, fresh.counts]
    decide : 0 < (changed.counts (.sfs sfsBlknRoot)).refCount)
  have lastBumps := vopRefInc_bumps isLast
  have noBoot : last.bootfsNode = none := by
    have steadyLast : Steady (fun _ => False) changed last := vopRefInc_steady isLast
    rw [steadyLast.bootfs, isUnset]
  have endsInColon : ((devname ++ [colon]).dropWhile fun byte => byte ≠ colon) = [colon] := by
    rw [List.dropWhile_append_of_pos]
    · simp
    · intro byte member
      simpa using fun same : byte = colon => plain.noColon (same ▸ member)
  have counts : VfsState.counts { last with bootfsNode := some (.sfs sfsBlknRoot) } =
      bump state.counts (.sfs sfsBlknRoot) 2 0 := by
    have same : VfsState.counts { last with bootfsNode := some (.sfs sfsBlknRoot) } = last.counts := rfl
    rw [same, lastBumps.counts, changedCounts, bump_bump]
    rfl
  have afterPwd : (last.files.files files).pwd = some (.sfs sfsBlknRoot) := by rw [lastBumps.files, isPwd]
  have tree := (wentChanged.trans wentLast).tree
  refine ⟨{ last with bootfsNode := some (.sfs sfsBlknRoot) }, ?_, ⟨?_, ?_, ?_⟩, tree, afterPwd, rfl, counts⟩
  · simp only [vfsSetBootfs, endsInColon, ne_eq, not_true_eq_false, if_false, chdir, vfsGetCurdir, isPwd, isLast,
      Option.map_some, changeBootfs, noBoot, Option.bind_eq_bind, Option.bind_some]
  · exact ⟨wentLast.fit.tree, wentLast.fit.cached, wentLast.fit.counted, wentLast.fit.reclaims⟩
  · exact ⟨sfsBlknRoot, afterPwd, fresh.root.same tree⟩
  · intro node
    rw [spareRefs, counts]
    by_cases isRoot : node = .sfs sfsBlknRoot
    · rw [isRoot, bump_self, fresh.counts, if_pos afterPwd]
      decide
    · have notPwd : (last.files.files files).pwd ≠ some node := fun same =>
        isRoot (Option.some.inj (same.symm.trans afterPwd))
      rw [bump_other isRoot, if_neg notPwd]
      cases node with
      | sfs ino =>
        rw [fresh.counts ino]
        decide
      | device index =>
        have device := fresh.devices index
        have isCounts : state.counts (.device index) = state.files.inodes (.device index) := if_pos trivial
        rw [isCounts]
        omega

omit [DecidableEq F] in
theorem changeBootfs_stays (called : changeBootfs disk state node = some after) :
    Stays state.volume after.volume := by
  unfold changeBootfs at called
  split at called
  · have lowered := vopRefDec_stays called
    exact lowered
  · cases called
    exact Stays.refl _

/-- `vfs_set_bootfs` keeps every file what it is. -/
theorem vfsSetBootfs_stays {ret : Int} {fsname : Option Name}
    (called : vfsSetBootfs disk memory state files fsname = some (ret, after)) : Stays state.volume after.volume := by
  unfold vfsSetBootfs at called
  split at called
  · obtain ⟨changed, isChanged, same⟩ := Option.map_eq_some_iff.mp called
    cases same
    exact changeBootfs_stays isChanged
  · split at called
    · cases called
      exact Stays.refl _
    · obtain ⟨⟨code, moved⟩, isMoved, rest⟩ := Option.bind_eq_some_iff.mp called
      have first := vfsChdir_stays isMoved
      simp only at rest
      split at rest
      · cases rest
        exact first
      · obtain ⟨⟨current, got⟩, isGot, rest⟩ := Option.bind_eq_some_iff.mp rest
        have second := first.trans (kept_stays isGot)
        cases current with
        | error code =>
          cases rest
          exact second
        | ok node =>
          obtain ⟨changed, isChanged, same⟩ := Option.map_eq_some_iff.mp rest
          cases same
          exact second.trans (changeBootfs_stays isChanged)

end Ucore.Vfs
