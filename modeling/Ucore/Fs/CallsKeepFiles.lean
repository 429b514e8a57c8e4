import Ucore.Fs.FailedOpen
import Ucore.Fs.FileCalls
import Ucore.Sfs.FileContents

/-!
# Which calls keep the files

References are taken and given back, directories are searched, and inodes are opened and
closed: all of it keeps every file of the volume what it is. The length of a file is the one
thing that calls on it can change, by an open with `O_CREAT` and by a seek.
-/

namespace Ucore.Vfs

open Volume

variable {F : Type} {disk : Nat → Int} {memory : Nat → Bool} {state middle after : VfsState F} {node : Node}
  {files : F} {ino : Nat} {path : Name} {openFlags : BitVec 32} {result : Except Int Node} {ret : Int}

/-! ## The inode layer -/

theorem vopRefInc_stays (called : vopRefInc state node = some after) : Stays state.volume after.volume := by
  unfold vopRefInc at called
  split at called
  · rw [← Option.some.inj called]
    exact Stays.refl _
  · cases called

theorem vopOpenInc_stays (called : vopOpenInc state node = some after) : Stays state.volume after.volume := by
  unfold vopOpenInc at called
  split at called
  · rw [← Option.some.inj called]
    exact Stays.refl _
  · cases called

theorem vopReclaim_stays (called : vopReclaim disk state node = some after) : Stays state.volume after.volume := by
  obtain ⟨_, _, rest⟩ := Option.bind_eq_some_iff.mp called
  cases node with
  | device => cases rest
  | sfs ino =>
    obtain ⟨volume, taken, rest⟩ := Option.bind_eq_some_iff.mp rest
    split at rest
    · cases rest
    · rw [← Option.some.inj rest]
      exact reclaim_stays taken

theorem vopRefDec_stays (called : vopRefDec disk state node = some after) : Stays state.volume after.volume := by
  unfold vopRefDec at called
  split at called
  · obtain ⟨table, _, rest⟩ := Option.bind_eq_some_iff.mp called
    simp only at rest
    split at rest
    · have reclaimed := vopReclaim_stays rest
      exact reclaimed
    · rw [← Option.some.inj rest]
      exact Stays.refl _
  · cases called

theorem vopClose_stays (called : vopClose disk state node = some after) : Stays state.volume after.volume := by
  obtain ⟨_, _, rest⟩ := Option.bind_eq_some_iff.mp called
  cases node with
  | device =>
    rw [← Option.some.inj rest]
    exact Stays.refl _
  | sfs ino =>
    obtain ⟨volume, taken, isAfter⟩ := Option.map_eq_some_iff.mp rest
    rw [← isAfter]
    exact fsync_stays taken

theorem vopOpenDec_stays (called : vopOpenDec disk state node = some after) : Stays state.volume after.volume := by
  unfold vopOpenDec at called
  split at called
  · obtain ⟨table, _, rest⟩ := Option.bind_eq_some_iff.mp called
    simp only at rest
    split at rest
    · have closed := vopClose_stays rest
      exact closed
    · rw [← Option.some.inj rest]
      exact Stays.refl _
  · cases called

theorem vfsClose_stays (called : vfsClose disk state node = some after) : Stays state.volume after.volume := by
  obtain ⟨middle, lowered, rest⟩ := Option.bind_eq_some_iff.mp called
  exact (vopOpenDec_stays lowered).trans (vopRefDec_stays rest)

/-! ## Lookups -/

theorem createInode_stays {calls : Nat} (notIn : state.volume.inodes ino = none)
    (linked : (DiskInode.ofWords (state.volume.fs.disk ino)).nlinks ≠ 0)
    (called : createInode memory state { state.volume.fs with calls } ino (.ofWords (state.volume.fs.disk ino)) =
      some (result, after)) : Stays state.volume after.volume := by
  simp only [createInode] at called
  split at called
  · split at called
    · cases called
    · obtain ⟨_, rfl⟩ := Prod.mk.inj (Option.some.inj called)
      exact stays_loaded notIn linked
  · obtain ⟨_, rfl⟩ := Prod.mk.inj (Option.some.inj called)
    exact stays_called _ calls

theorem readInode_stays (notIn : state.volume.inodes ino = none)
    (called : readInode disk memory state ino = some (result, after)) : Stays state.volume after.volume := by
  obtain ⟨_, _, rest⟩ := Option.bind_eq_some_iff.mp called
  obtain ⟨⟨read, fs⟩, isRead, rest⟩ := Option.bind_eq_some_iff.mp rest
  obtain ⟨⟨calls, rfl⟩, words⟩ := sfsRbuf_cases isRead
  cases read with
  | error code =>
    obtain ⟨_, rfl⟩ := Prod.mk.inj (Option.some.inj rest)
    exact stays_called _ calls
  | ok buf =>
    have isBlock : buf = state.volume.fs.disk ino := by simpa only [Nat.zero_add] using words buf rfl
    subst isBlock
    simp only at rest
    split at rest
    · cases rest
    · rename_i linked
      exact createInode_stays notIn linked rest

theorem sfsLoadInode_stays (called : sfsLoadInode disk memory state ino = some (result, after)) :
    Stays state.volume after.volume := by
  unfold sfsLoadInode at called
  split at called
  · rename_i sin isIn
    obtain ⟨_, rfl⟩ := Prod.mk.inj (Option.some.inj called)
    exact stays_fields isIn rfl rfl rfl
  · rename_i notIn
    simp only at called
    split at called
    · have read := @readInode_stays _ _ _ { state with allocs := state.allocs + 1 } _ _ _ notIn called
      exact read
    · obtain ⟨_, rfl⟩ := Prod.mk.inj (Option.some.inj called)
      exact Stays.refl _

theorem sfsLookupOnce_stays {name : Name} (called : sfsLookupOnce disk memory state ino name = some (result, after)) :
    Stays state.volume after.volume := by
  obtain ⟨sin, isIn, rest⟩ := Option.bind_eq_some_iff.mp called
  obtain ⟨⟨found, emptySlot, fs, sinAfter⟩, isFound, rest⟩ := Option.bind_eq_some_iff.mp rest
  obtain ⟨rfl, calls, rfl⟩ := sfsDirentSearchNolock_reads isFound
  have searched : Stays state.volume (state.volume.put ino { state.volume.fs with calls } (some sinAfter)) :=
    stays_fields isIn rfl rfl rfl
  cases found with
  | error code =>
    obtain ⟨_, rfl⟩ := Prod.mk.inj (Option.some.inj rest)
    exact searched
  | ok slot => exact searched.trans (sfsLoadInode_stays rest)

theorem sfsLookup_stays (called : sfsLookup disk memory state ino path = some (result, after)) :
    Stays state.volume after.volume := by
  unfold sfsLookup at called
  split at called
  · cases called
  · obtain ⟨held, raised, rest⟩ := Option.bind_eq_some_iff.mp called
    obtain ⟨sin, _, rest⟩ := Option.bind_eq_some_iff.mp rest
    have first := vopRefInc_stays raised
    split at rest
    · obtain ⟨last, lowered, isLast⟩ := Option.map_eq_some_iff.mp rest
      obtain ⟨_, rfl⟩ := Prod.mk.inj isLast
      exact first.trans (vopRefDec_stays lowered)
    · obtain ⟨⟨found, middle⟩, looked, rest⟩ := Option.bind_eq_some_iff.mp rest
      obtain ⟨last, lowered, isLast⟩ := Option.map_eq_some_iff.mp rest
      obtain ⟨_, rfl⟩ := Prod.mk.inj isLast
      exact (first.trans (sfsLookupOnce_stays looked)).trans (vopRefDec_stays lowered)

theorem vopLookup_stays (called : vopLookup disk memory state node path = some (result, after)) :
    Stays state.volume after.volume := by
  obtain ⟨_, _, rest⟩ := Option.bind_eq_some_iff.mp called
  cases node with
  | device index =>
    simp only [devLookup] at rest
    split at rest
    · obtain ⟨_, rfl⟩ := Prod.mk.inj (Option.some.inj rest)
      exact Stays.refl _
    · obtain ⟨last, raised, same⟩ := Option.map_eq_some_iff.mp rest
      obtain ⟨_, rfl⟩ := Prod.mk.inj same
      exact vopRefInc_stays raised
  | sfs ino =>
    obtain ⟨sin, _, rest⟩ := Option.bind_eq_some_iff.mp rest
    split at rest
    · exact sfsLookup_stays rest
    · cases rest

theorem sfsGetRoot_stays (called : sfsGetRoot disk memory state = some (node, after)) :
    Stays state.volume after.volume := by
  obtain ⟨⟨loaded, middle⟩, isLoaded, rest⟩ := Option.bind_eq_some_iff.mp called
  cases loaded with
  | error => cases rest
  | ok root =>
    obtain ⟨_, rfl⟩ := Prod.mk.inj (Option.some.inj rest)
    exact sfsLoadInode_stays isLoaded

theorem getVdevRoot_stays {vdev : VfsDev} (called : getVdevRoot disk memory state vdev = some (result, after)) :
    Stays state.volume after.volume := by
  unfold getVdevRoot at called
  split at called
  · obtain ⟨⟨root, last⟩, isRoot, same⟩ := Option.map_eq_some_iff.mp called
    obtain ⟨_, rfl⟩ := Prod.mk.inj same
    exact sfsGetRoot_stays isRoot
  · split at called
    · obtain ⟨index, _, rest⟩ := Option.bind_eq_some_iff.mp called
      obtain ⟨last, raised, same⟩ := Option.map_eq_some_iff.mp rest
      obtain ⟨_, rfl⟩ := Prod.mk.inj same
      exact vopRefInc_stays raised
    · obtain ⟨_, rfl⟩ := Prod.mk.inj (Option.some.inj called)
      exact Stays.refl _

theorem kept_stays {kept : Option Node} {missing : Int}
    (called : (match kept with
      | some node => (vopRefInc state node).map fun state => (.ok node, state)
      | none => some (.error missing, state)) = some (result, after)) : Stays state.volume after.volume := by
  cases kept with
  | some node =>
    obtain ⟨last, raised, same⟩ := Option.map_eq_some_iff.mp called
    obtain ⟨_, rfl⟩ := Prod.mk.inj same
    exact vopRefInc_stays raised
  | none =>
    obtain ⟨_, rfl⟩ := Prod.mk.inj (Option.some.inj called)
    exact Stays.refl _

theorem currentRoot_stays (called : currentRoot disk memory state files = some (result, after)) :
    Stays state.volume after.volume := by
  obtain ⟨⟨current, middle⟩, got, rest⟩ := Option.bind_eq_some_iff.mp called
  have first : Stays state.volume middle.volume := kept_stays got
  cases current with
  | error code =>
    obtain ⟨_, rfl⟩ := Prod.mk.inj (Option.some.inj rest)
    exact first
  | ok node =>
    cases node with
    | device => cases rest
    | sfs ino =>
      obtain ⟨⟨root, loaded⟩, isRoot, rest⟩ := Option.bind_eq_some_iff.mp rest
      obtain ⟨last, lowered, same⟩ := Option.map_eq_some_iff.mp rest
      obtain ⟨_, rfl⟩ := Prod.mk.inj same
      exact (first.trans (sfsGetRoot_stays isRoot)).trans (vopRefDec_stays lowered)

theorem getDevice_stays (called : getDevice disk memory state files path = some (result, after)) :
    Stays state.volume after.volume := by
  simp only [getDevice] at called
  split at called
  · exact kept_stays called
  · split at called
    · unfold vfsGetRoot at called
      split at called
      · exact getVdevRoot_stays called
      · obtain ⟨_, rfl⟩ := Prod.mk.inj (Option.some.inj called)
        exact Stays.refl _
    · split at called
      · exact kept_stays called
      · exact currentRoot_stays called

theorem vfsLookup_stays (called : vfsLookup disk memory state files path = some (result, after)) :
    Stays state.volume after.volume := by
  obtain ⟨⟨start, middle⟩, started, rest⟩ := Option.bind_eq_some_iff.mp called
  have first := getDevice_stays started
  cases start with
  | error code =>
    obtain ⟨_, rfl⟩ := Prod.mk.inj (Option.some.inj rest)
    exact first
  | ok node =>
    simp only at rest
    split at rest
    · obtain ⟨⟨found, looked⟩, isFound, rest⟩ := Option.bind_eq_some_iff.mp rest
      obtain ⟨last, lowered, same⟩ := Option.map_eq_some_iff.mp rest
      obtain ⟨_, rfl⟩ := Prod.mk.inj same
      exact (first.trans (vopLookup_stays isFound)).trans (vopRefDec_stays lowered)
    · obtain ⟨_, rfl⟩ := Prod.mk.inj (Option.some.inj rest)
      exact first

/-! ## Opens -/

/-- A file that is empty already is not changed when it is emptied. -/
theorem vopTruncate_stays (called : vopTruncate disk state (.sfs ino) 0 = some (ret, after))
    (empty : (state.volume.din ino).type = sfsTypeFile → (state.volume.din ino).size = 0) :
    Stays state.volume after.volume := by
  obtain ⟨_, _, rest⟩ := Option.bind_eq_some_iff.mp called
  obtain ⟨sin, isIn, rest⟩ := Option.bind_eq_some_iff.mp rest
  obtain ⟨⟨code, fs, sinAfter⟩, truncated, isLast⟩ := Option.bind_eq_some_iff.mp rest
  obtain ⟨_, rfl⟩ := Prod.mk.inj (Option.some.inj isLast)
  rw [din_of isIn] at empty
  unfold Volume.vopTruncate at truncated
  split at truncated
  · rename_i isFile
    have same : (sin.din.size : Int) = 0 := by
      rw [empty isFile]
      rfl
    unfold sfsTruncfile at truncated
    rw [if_neg (by decide)] at truncated
    simp only [same, if_true] at truncated
    split at truncated
    · obtain ⟨_, rfl, rfl⟩ := truncated
      exact stays_fields isIn rfl rfl rfl
    · cases truncated
  · cases truncated

/-- `vfs_open` from `vop_open` on keeps the files when it has nothing to empty. -/
theorem openNode_stays (called : openNode disk state node openFlags = some (result, after))
    (harmless : hasFlag openFlags oTrunc ∨ hasFlag openFlags oCreat →
      ∀ ino, node = .sfs ino → (state.volume.din ino).type = sfsTypeFile → (state.volume.din ino).size = 0) :
    Stays state.volume after.volume := by
  obtain ⟨ret, _, rest⟩ := Option.bind_eq_some_iff.mp called
  split at rest
  · obtain ⟨last, lowered, same⟩ := Option.map_eq_some_iff.mp rest
    obtain ⟨_, rfl⟩ := Prod.mk.inj same
    exact vopRefDec_stays lowered
  · obtain ⟨opened, raised, rest⟩ := Option.bind_eq_some_iff.mp rest
    have first := vopOpenInc_stays raised
    split at rest
    · rename_i empties
      obtain ⟨⟨code, truncated⟩, isTruncated, rest⟩ := Option.bind_eq_some_iff.mp rest
      have second : Stays opened.volume truncated.volume := by
        cases node with
        | device =>
          obtain ⟨_, _, rest⟩ := Option.bind_eq_some_iff.mp isTruncated
          cases rest
        | sfs ino =>
          apply vopTruncate_stays isTruncated
          have sameVolume : opened.volume = state.volume := by
            unfold vopOpenInc at raised
            split at raised
            · rw [← Option.some.inj raised]
            · cases raised
          rw [sameVolume]
          exact harmless empties ino rfl
      simp only at rest
      split at rest
      · obtain ⟨last, closed, isLast⟩ := Option.map_eq_some_iff.mp rest
        obtain ⟨_, rfl⟩ := Prod.mk.inj isLast
        exact (first.trans second).trans (vfsClose_stays closed)
      · obtain ⟨_, rfl⟩ := Prod.mk.inj (Option.some.inj rest)
        exact first.trans second
    · obtain ⟨_, rfl⟩ := Prod.mk.inj (Option.some.inj rest)
      exact first

theorem openMissing_stays (called : openMissing disk memory state files path openFlags ret = some (result, after)) :
    Stays state.volume after.volume := by
  unfold openMissing at called
  split at called
  · obtain ⟨⟨parent, middle⟩, got, rest⟩ := Option.bind_eq_some_iff.mp called
    cases parent with
    | error code =>
      obtain ⟨_, rfl⟩ := Prod.mk.inj (Option.some.inj rest)
      exact getDevice_stays got
    | ok => cases rest
  · obtain ⟨_, rfl⟩ := Prod.mk.inj (Option.some.inj called)
    exact Stays.refl _

/-- An open for which a file that is there is emptied. -/
def EmptiesNode (disk : Nat → Int) (memory : Nat → Bool) (state : VfsState F) (files : F) (path : Name)
    (openFlags : BitVec 32) : Prop :=
  (hasFlag openFlags oTrunc ∨ hasFlag openFlags oCreat) ∧ ¬ (hasFlag openFlags oExcl ∧ hasFlag openFlags oCreat) ∧
    ∃ ino looked, vfsLookup disk memory state files path = some (.ok (.sfs ino), looked) ∧
      (looked.volume.din ino).type = sfsTypeFile ∧ (looked.volume.din ino).size ≠ 0

theorem vfsOpen_stays (called : vfsOpen disk memory state files path openFlags = some (result, after))
    (harmless : flagsAllowed openFlags = true → ¬ EmptiesNode disk memory state files path openFlags) :
    Stays state.volume after.volume := by
  unfold vfsOpen at called
  split at called
  · obtain ⟨_, rfl⟩ := Prod.mk.inj (Option.some.inj called)
    exact Stays.refl _
  · rename_i allowed
    obtain ⟨⟨found, looked⟩, isFound, rest⟩ := Option.bind_eq_some_iff.mp called
    have first := vfsLookup_stays isFound
    cases found with
    | error code => exact first.trans (openMissing_stays rest)
    | ok node =>
      simp only at rest
      split at rest
      · obtain ⟨_, rfl⟩ := Prod.mk.inj (Option.some.inj rest)
        exact first
      · rename_i notExclusive
        apply first.trans
        apply openNode_stays rest
        rintro empties ino rfl isFile
        by_contra nonzero
        exact harmless (by simpa using allowed) ⟨empties, notExclusive, ino, looked, isFound, isFile, nonzero⟩

end Ucore.Vfs
