import Ucore.Fs.CallsKeepFiles
import Ucore.Fs.FailedOpen
import Ucore.Sfs.SizeBlocks

/-!
# Inodes that are held

An inode to which there is a reference stays in memory. Lookups and opens give back no more
references than they have taken, and so every inode that is held before them is what it was,
but for the one that an open empties.
-/

namespace Ucore.Vfs

open Volume

variable {F : Type}

/-- A disk inode is as it was. One that may change keeps its type, and its size or none. -/
structure Retains (changes : Prop) (din after : DiskInode) : Prop where
  type : after.type = din.type
  size : after.size = din.size ∨ after.size = 0
  same : ¬ changes → after = din

/-- A file, or a directory with a link. -/
def Sane (din : DiskInode) : Prop := din.type = sfsTypeFile ∨ din.type = sfsTypeDir ∧ din.nlinks ≠ 0

/-- Every inode in memory is a file or a directory with a link. -/
def AllSane (volume : Mounted) : Prop := ∀ ino sin, volume.inodes ino = some sin → Sane sin.din

/-- No inode has lost references, and one that had some is in memory as it was, unless it may
change. -/
structure Steady (changed : Node → Prop) (state after : VfsState F) : Prop where
  grows : ∀ node, (state.counts node).refCount ≤ (after.counts node).refCount
  keeps : ∀ ino sin, state.volume.inodes ino = some sin → 0 < (state.counts (.sfs ino)).refCount →
    ∃ sinAfter, after.volume.inodes ino = some sinAfter ∧ Retains (changed (.sfs ino)) sin.din sinAfter.din
  sane : AllSane state.volume → AllSane after.volume
  bootfs : after.bootfsNode = state.bootfsNode

variable {disk : Nat → Int} {memory : Nat → Bool} {state middle after start : VfsState F} {node : Node}
  {files : F} {ino : Nat} {path : Name} {openFlags : BitVec 32} {result : Except Int Node} {ret : Int}
  {changed : Node → Prop}

/-! ## The inode layer -/

theorem AllSane.put {volume : Mounted} (sane : AllSane volume) (fs : SfsFs) (left : Option SfsInode)
    (isSane : ∀ sin, left = some sin → Sane sin.din) : AllSane (volume.put ino fs left) := by
  intro other sin isIn
  by_cases same : other = ino
  · subst same
    exact isSane sin (by simpa [Mounted.put] using isIn)
  · exact sane other sin (by simpa [Mounted.put, same] using isIn)

theorem Retains.refl (changes : Prop) (din : DiskInode) : Retains changes din din := ⟨rfl, Or.inl rfl, fun _ => rfl⟩

theorem Retains.of {changes : Prop} {din dinAfter : DiskInode} (same : dinAfter = din) : Retains changes din dinAfter :=
  same ▸ Retains.refl changes din

theorem Retains.trans {changes : Prop} {din dinMiddle dinAfter : DiskInode} (first : Retains changes din dinMiddle)
    (second : Retains changes dinMiddle dinAfter) : Retains changes din dinAfter where
  type := second.type.trans first.type
  size := by
    rcases second.size with same | empty
    · rw [same]
      exact first.size
    · exact Or.inr empty
  same := fun kept => (second.same kept).trans (first.same kept)

theorem Steady.trans (first : Steady changed state middle) (second : Steady changed middle after) :
    Steady changed state after where
  grows := fun node => Int.le_trans (first.grows node) (second.grows node)
  keeps := by
    intro ino sin isIn held
    obtain ⟨sinMiddle, isMiddle, kept⟩ := first.keeps ino sin isIn held
    obtain ⟨sinAfter, isAfter, keptAfter⟩ :=
      second.keeps ino sinMiddle isMiddle (Int.lt_of_lt_of_le held (first.grows _))
    exact ⟨sinAfter, isAfter, kept.trans keptAfter⟩
  sane := fun sane => second.sane (first.sane sane)
  bootfs := second.bootfs.trans first.bootfs

theorem Steady.mono {wider : Node → Prop} (steady : Steady changed state after) (less : ∀ node, changed node → wider node) :
    Steady wider state after where
  grows := steady.grows
  keeps := by
    intro ino sin isIn held
    obtain ⟨sinAfter, isAfter, kept⟩ := steady.keeps ino sin isIn held
    exact ⟨sinAfter, isAfter, kept.type, kept.size, fun same => kept.same fun changes => same (less _ changes)⟩
  sane := steady.sane
  bootfs := steady.bootfs

/-- Nothing happens to the inodes in memory. -/
theorem Steady.same (grows : ∀ node, (state.counts node).refCount ≤ (after.counts node).refCount)
    (inodes : after.volume.inodes = state.volume.inodes) (bootfs : after.bootfsNode = state.bootfsNode) :
    Steady changed state after where
  grows := grows
  keeps := fun ino sin isIn _ => ⟨sin, by rw [inodes, isIn], Retains.refl _ _⟩
  sane := fun sane ino sin isIn => sane ino sin (by rw [← inodes, isIn])
  bootfs := bootfs

/-- Fields of an inode change that are not on disk. -/
theorem Steady.put {fs : SfsFs} {sin sinAfter : SfsInode}
    (grows : ∀ node, (state.counts node).refCount ≤ (after.counts node).refCount)
    (isIn : state.volume.inodes ino = some sin) (kept : Retains (changed (.sfs ino)) sin.din sinAfter.din)
    (stays : Sane sin.din → Sane sinAfter.din) (volume : after.volume = state.volume.put ino fs (some sinAfter))
    (bootfs : after.bootfsNode = state.bootfsNode) : Steady changed state after where
  grows := grows
  keeps := by
    intro other sinOther isOther _
    by_cases same : other = ino
    · subst same
      obtain rfl := Option.some.inj (isIn.symm.trans isOther)
      exact ⟨sinAfter, by simp [volume, Mounted.put], kept⟩
    · exact ⟨sinOther, by simp [volume, Mounted.put, same, isOther], Retains.refl _ _⟩
  sane := fun sane => volume ▸ sane.put fs (some sinAfter) fun _ isLeft => Option.some.inj isLeft ▸ stays (sane ino sin isIn)
  bootfs := bootfs

theorem SameCounts.grows (same : SameCounts state after) (node : Node) :
    (state.counts node).refCount ≤ (after.counts node).refCount := by
  rw [same.counts]

theorem Bumps.grows {refs opens : Int} (bumps : Bumps state after node refs opens) (positive : 0 ≤ refs) (other : Node) :
    (state.counts other).refCount ≤ (after.counts other).refCount := by
  rw [bumps.counts, bump]
  by_cases same : other = node
  · subst same
    simpa using positive
  · rw [Function.update_of_ne same]

theorem Hands.grows (hands : Hands state result after) (node : Node) :
    (state.counts node).refCount ≤ (after.counts node).refCount := by
  cases result with
  | ok handed => exact Bumps.grows hands (by decide) node
  | error => exact SameCounts.grows hands node

theorem Bumps.refs {refs opens : Int} (bumps : Bumps state after node refs opens) :
    (after.counts node).refCount = (state.counts node).refCount + refs := by
  rw [bumps.counts, bump, Function.update_self]

theorem Bumps.refs_ne {refs opens : Int} {other : Node} (bumps : Bumps state after node refs opens)
    (different : other ≠ node) : (after.counts other).refCount = (state.counts other).refCount := by
  rw [bumps.counts, bump, Function.update_of_ne different]

theorem vopRefInc_steady (called : vopRefInc state node = some after) : Steady changed state after := by
  have grows := (vopRefInc_bumps called).grows (by decide)
  unfold vopRefInc at called
  split at called
  · obtain rfl := Option.some.inj called
    exact Steady.same grows rfl rfl
  · cases called

theorem vopOpenInc_steady (called : vopOpenInc state node = some after) : Steady changed state after := by
  have grows := (vopOpenInc_bumps called).grows (by decide)
  unfold vopOpenInc at called
  split at called
  · obtain rfl := Option.some.inj called
    exact Steady.same grows rfl rfl
  · cases called

/-- A file that is emptied stays a file. -/
theorem vopTruncate_retains {fs fsAfter : SfsFs} {sin sinAfter : SfsInode} {changes : Prop} (changing : changes)
    (called : Volume.vopTruncate disk fs sin 0 = some (ret, fsAfter, sinAfter)) :
    Retains changes sin.din sinAfter.din := by
  unfold Volume.vopTruncate at called
  split at called
  · obtain ⟨type, size⟩ := sfsTruncfile_size called
    exact ⟨type, by omega, fun kept => absurd changing kept⟩
  · cases called

theorem vopTruncate_sane {fs fsAfter : SfsFs} {sin sinAfter : SfsInode} {len : Int}
    (called : Volume.vopTruncate disk fs sin len = some (ret, fsAfter, sinAfter)) : Sane sinAfter.din := by
  unfold Volume.vopTruncate at called
  split at called
  · rename_i isFile
    exact Or.inl ((sfsTruncfile_size called).1.trans isFile)
  · cases called

/-- `sfs_fsync` writes the inode and leaves it as it is. -/
theorem sfsFsync_din {fs fsAfter : SfsFs} {sin sinAfter : SfsInode}
    (called : sfsFsync disk fs sin = some (ret, fsAfter, sinAfter)) : sinAfter.din = sin.din := by
  unfold sfsFsync at called
  split at called
  · obtain ⟨_, _, rest⟩ := Option.bind_eq_some_iff.mp called
    obtain ⟨_, _, rfl⟩ := rest
    rfl
  · obtain ⟨_, _, rfl⟩ := called
    rfl

/-- What `sfs_reclaim` leaves in memory is still a file or a directory. -/
theorem sfsReclaim_sane {fs fsAfter : SfsFs} {sin left : SfsInode} {refCount : Int} (sane : Sane sin.din)
    (called : sfsReclaim disk fs sin refCount = some (ret, fsAfter, some left)) : Sane left.din := by
  unfold sfsReclaim at called
  split at called
  · simp only at called
    split at called
    · obtain ⟨_, _, isLeft⟩ := called
      exact sane
    · obtain ⟨⟨code, fsSync, sinSync⟩, synced, rest⟩ := Option.bind_eq_some_iff.mp called
      simp only at rest
      split at rest
      · obtain ⟨_, _, rfl⟩ := rest
        obtain ⟨⟨ret, fsTrunc, sinTrunc⟩, truncated, rest⟩ := Option.bind_eq_some_iff.mp synced
        have saneTrunc : Sane sinTrunc.din := by
          unfold reclaimTruncate at truncated
          split at truncated
          · exact vopTruncate_sane truncated
          · obtain ⟨_, _, rfl⟩ := truncated
            exact sane
        simp only at rest
        split at rest
        · obtain ⟨_, _, rfl⟩ := rest
          exact saneTrunc
        · split at rest
          · rw [sfsFsync_din rest]
            exact saneTrunc
          · obtain ⟨_, _, rfl⟩ := rest
            exact saneTrunc
      · obtain ⟨_, _, isNone⟩ := Option.bind_eq_some_iff.mp rest
        cases isNone
  · cases called

/-- A reference that goes leaves files and directories in memory. -/
theorem vopRefDec_sane (called : vopRefDec disk state node = some after) :
    (AllSane state.volume → AllSane after.volume) ∧ after.bootfsNode = state.bootfsNode := by
  unfold vopRefDec at called
  split at called
  · obtain ⟨table, _, rest⟩ := Option.bind_eq_some_iff.mp called
    simp only at rest
    split at rest
    · obtain ⟨_, _, rest⟩ := Option.bind_eq_some_iff.mp rest
      cases node with
      | device => cases rest
      | sfs ino =>
        obtain ⟨volume, taken, rest⟩ := Option.bind_eq_some_iff.mp rest
        split at rest
        · cases rest
        · obtain rfl := Option.some.inj rest
          refine ⟨fun sane => ?_, rfl⟩
          obtain ⟨sin, isIn, rest⟩ := Option.bind_eq_some_iff.mp taken
          obtain ⟨⟨code, fs, left⟩, reclaimed, isNext⟩ := Option.bind_eq_some_iff.mp rest
          obtain rfl := Option.some.inj isNext
          have kept : AllSane (state.volume.put ino fs left) := sane.put fs left fun sinLeft isLeft =>
            sfsReclaim_sane (sane ino sin isIn) (isLeft ▸ reclaimed)
          exact kept
    · obtain rfl := Option.some.inj rest
      exact ⟨id, rfl⟩
  · cases called

/-- The reclaim of an inode leaves the others. -/
theorem vopReclaim_inodes (called : vopReclaim disk state node = some after) {other : Nat} (different : .sfs other ≠ node) :
    after.volume.inodes other = state.volume.inodes other := by
  obtain ⟨_, _, rest⟩ := Option.bind_eq_some_iff.mp called
  cases node with
  | device => cases rest
  | sfs ino =>
    obtain ⟨volume, taken, rest⟩ := Option.bind_eq_some_iff.mp rest
    split at rest
    · cases rest
    · rw [← Option.some.inj rest]
      exact reclaim_inodes taken other fun same => different (congrArg Node.sfs same)

/-- A reference goes, and every inode stays in memory that has another one. -/
theorem vopRefDec_inodes (called : vopRefDec disk state node = some after) {other : Nat}
    (held : .sfs other = node → 1 < (state.counts node).refCount) :
    after.volume.inodes other = state.volume.inodes other := by
  unfold vopRefDec at called
  split at called
  · rename_i present
    obtain ⟨table, lowered, rest⟩ := Option.bind_eq_some_iff.mp called
    simp only at rest
    by_cases same : .sfs other = node
    · have more := held same
      rw [counts_present present] at more
      simp only [Fs.inodeRefDec] at lowered
      split at lowered
      · rw [← Option.some.inj lowered] at rest
        simp only [Fs.FileState.setInode, Function.update_self] at rest
        rw [if_neg (by omega)] at rest
        rw [← Option.some.inj rest]
      · cases lowered
    · split at rest
      · have reclaimed := vopReclaim_inodes rest same
        exact reclaimed
      · rw [← Option.some.inj rest]
  · cases called

/-- A reference goes that was taken before. -/
theorem Steady.give (first : Steady changed start state)
    (taken : (start.counts node).refCount + 1 ≤ (state.counts node).refCount)
    (called : vopRefDec disk state node = some after) : Steady changed start after where
  grows := by
    intro other
    have bumps := vopRefDec_bumps called
    by_cases same : other = node
    · subst same
      rw [bumps.refs]
      omega
    · rw [bumps.refs_ne same]
      exact first.grows other
  keeps := by
    intro ino sin isIn held
    obtain ⟨sinMiddle, isMiddle, kept⟩ := first.keeps ino sin isIn held
    refine ⟨sinMiddle, ?_, kept⟩
    rw [vopRefDec_inodes called fun same => ?_, isMiddle]
    rw [same] at held
    omega
  sane := fun sane => (vopRefDec_sane called).1 (first.sane sane)
  bootfs := (vopRefDec_sane called).2.trans first.bootfs

/-- A close synchronizes an inode and leaves all of them in memory. -/
theorem vopClose_inodes (called : vopClose disk state node = some after) {sin : SfsInode}
    (isIn : state.volume.inodes ino = some sin) :
    ∃ sinAfter, after.volume.inodes ino = some sinAfter ∧ sinAfter.din = sin.din := by
  obtain ⟨_, _, rest⟩ := Option.bind_eq_some_iff.mp called
  cases node with
  | device =>
    rw [← Option.some.inj rest]
    exact ⟨sin, isIn, rfl⟩
  | sfs closed =>
    obtain ⟨volume, taken, rfl⟩ := Option.map_eq_some_iff.mp rest
    obtain ⟨others, _⟩ := fsync_inodes taken
    by_cases same : ino = closed
    · subst same
      obtain ⟨found, isFound, rest⟩ := Option.bind_eq_some_iff.mp taken
      obtain rfl := Option.some.inj (isIn.symm.trans isFound)
      obtain ⟨⟨code, fs, sinAfter⟩, synced, isVolume⟩ := Option.bind_eq_some_iff.mp rest
      exact ⟨sinAfter, by simp [← Option.some.inj isVolume, Mounted.put], sfsFsync_din synced⟩
    · exact ⟨sin, (others ino same).trans isIn, rfl⟩

/-- A close leaves files and directories in memory. -/
theorem vopClose_sane (called : vopClose disk state node = some after) :
    (AllSane state.volume → AllSane after.volume) ∧ after.bootfsNode = state.bootfsNode := by
  obtain ⟨_, _, rest⟩ := Option.bind_eq_some_iff.mp called
  cases node with
  | device =>
    rw [← Option.some.inj rest]
    exact ⟨id, rfl⟩
  | sfs ino =>
    obtain ⟨volume, taken, rfl⟩ := Option.map_eq_some_iff.mp rest
    refine ⟨fun sane => ?_, rfl⟩
    obtain ⟨sin, isIn, rest⟩ := Option.bind_eq_some_iff.mp taken
    obtain ⟨⟨code, fs, sinAfter⟩, synced, isVolume⟩ := Option.bind_eq_some_iff.mp rest
    obtain rfl := Option.some.inj isVolume
    refine sane.put fs (some sinAfter) fun _ isLeft => ?_
    rw [← Option.some.inj isLeft, sfsFsync_din synced]
    exact sane ino sin isIn

/-- An opening goes, and every inode stays in memory. -/
theorem vopOpenDec_inodes (called : vopOpenDec disk state node = some after) {sin : SfsInode}
    (isIn : state.volume.inodes ino = some sin) :
    ∃ sinAfter, after.volume.inodes ino = some sinAfter ∧ sinAfter.din = sin.din := by
  unfold vopOpenDec at called
  split at called
  · obtain ⟨table, lowered, rest⟩ := Option.bind_eq_some_iff.mp called
    simp only at rest
    split at rest
    · exact vopClose_inodes rest isIn
    · rw [← Option.some.inj rest]
      exact ⟨sin, isIn, rfl⟩
  · cases called

theorem vopOpenDec_sane (called : vopOpenDec disk state node = some after) :
    (AllSane state.volume → AllSane after.volume) ∧ after.bootfsNode = state.bootfsNode := by
  unfold vopOpenDec at called
  split at called
  · obtain ⟨table, lowered, rest⟩ := Option.bind_eq_some_iff.mp called
    simp only at rest
    split at rest
    · have closed := vopClose_sane rest
      exact closed
    · rw [← Option.some.inj rest]
      exact ⟨id, rfl⟩
  · cases called

theorem vopOpenDec_steady (called : vopOpenDec disk state node = some after) : Steady changed state after where
  grows := (vopOpenDec_bumps called).grows (by decide)
  keeps := by
    intro ino sin isIn _
    obtain ⟨sinAfter, isAfter, same⟩ := vopOpenDec_inodes called isIn
    exact ⟨sinAfter, isAfter, Retains.of same⟩
  sane := (vopOpenDec_sane called).1
  bootfs := (vopOpenDec_sane called).2

/-! ## Lookups -/

theorem createInode_steady {fs : SfsFs} {din : DiskInode} (notIn : state.volume.inodes ino = none)
    (linked : din.nlinks ≠ 0) (called : createInode memory state fs ino din = some (result, after)) :
    Steady changed state after where
  grows := (createInode_hands notIn called).grows
  keeps := by
    intro other sin isIn _
    refine ⟨sin, ?_, Retains.refl _ _⟩
    have different : other ≠ ino := by
      rintro rfl
      rw [notIn] at isIn
      cases isIn
    simp only [createInode] at called
    split at called
    · split at called
      · cases called
      · obtain ⟨_, rfl⟩ := Prod.mk.inj (Option.some.inj called)
        simp [Mounted.put, different, isIn]
    · obtain ⟨_, rfl⟩ := Prod.mk.inj (Option.some.inj called)
      exact isIn
  sane := by
    intro sane
    simp only [createInode] at called
    split at called
    · split at called
      · cases called
      · rename_i isKind
        obtain ⟨_, rfl⟩ := Prod.mk.inj (Option.some.inj called)
        refine sane.put fs _ fun _ isLeft => ?_
        rw [← Option.some.inj isLeft]
        simp only [sfsGetOps] at isKind
        split at isKind
        · rename_i isDir
          exact Or.inr ⟨isDir, linked⟩
        · split at isKind
          · rename_i isFile
            exact Or.inl isFile
          · exact absurd rfl isKind
    · obtain ⟨_, rfl⟩ := Prod.mk.inj (Option.some.inj called)
      exact sane
  bootfs := by
    simp only [createInode] at called
    split at called
    · split at called
      · cases called
      · obtain ⟨_, rfl⟩ := Prod.mk.inj (Option.some.inj called)
        rfl
    · obtain ⟨_, rfl⟩ := Prod.mk.inj (Option.some.inj called)
      rfl

theorem readInode_steady (notIn : state.volume.inodes ino = none)
    (called : readInode disk memory state ino = some (result, after)) : Steady changed state after := by
  obtain ⟨_, _, rest⟩ := Option.bind_eq_some_iff.mp called
  obtain ⟨⟨read, fs⟩, _, rest⟩ := Option.bind_eq_some_iff.mp rest
  cases read with
  | error code =>
    obtain ⟨_, rfl⟩ := Prod.mk.inj (Option.some.inj rest)
    exact Steady.same (fun _ => Int.le_refl _) rfl rfl
  | ok words =>
    simp only at rest
    split at rest
    · cases rest
    · rename_i linked
      exact createInode_steady notIn linked rest

theorem sfsLoadInode_steady (called : sfsLoadInode disk memory state ino = some (result, after)) :
    Steady changed state after := by
  have grows := (sfsLoadInode_hands called).grows
  unfold sfsLoadInode at called
  split at called
  · rename_i sin isIn
    obtain ⟨_, rfl⟩ := Prod.mk.inj (Option.some.inj called)
    refine Steady.put grows isIn ?_ ?_ rfl rfl
    · exact Retains.refl _ _
    · exact id
  · rename_i notIn
    simp only at called
    split at called
    · have loading : Steady changed state { state with allocs := state.allocs + 1 } :=
        Steady.same (fun _ => Int.le_refl _) rfl rfl
      exact loading.trans (readInode_steady notIn called)
    · obtain ⟨_, rfl⟩ := Prod.mk.inj (Option.some.inj called)
      exact Steady.same (fun _ => Int.le_refl _) rfl rfl

theorem sfsLookupOnce_steady {name : Name} (called : sfsLookupOnce disk memory state ino name = some (result, after)) :
    Steady changed state after := by
  obtain ⟨sin, isIn, rest⟩ := Option.bind_eq_some_iff.mp called
  obtain ⟨⟨found, emptySlot, fs, sinAfter⟩, isFound, rest⟩ := Option.bind_eq_some_iff.mp rest
  obtain ⟨rfl, calls, rfl⟩ := sfsDirentSearchNolock_reads isFound
  have same : SameCounts state { state with
      allocs := state.allocs + 1
      volume := state.volume.put ino { state.volume.fs with calls } (some sinAfter) } := by
    apply counts_put
    · exact fun other different => Function.update_of_ne different _ _
    · simp [Mounted.put, isIn]
  have searched : Steady changed state { state with
      allocs := state.allocs + 1
      volume := state.volume.put ino { state.volume.fs with calls } (some sinAfter) } :=
    Steady.put same.grows isIn (Retains.refl _ _) id rfl rfl
  cases found with
  | error code =>
    obtain ⟨_, rfl⟩ := Prod.mk.inj (Option.some.inj rest)
    exact searched
  | ok slot => exact searched.trans (sfsLoadInode_steady rest)

theorem sfsLookup_steady (called : sfsLookup disk memory state ino path = some (result, after)) :
    Steady changed state after := by
  unfold sfsLookup at called
  split at called
  · cases called
  · obtain ⟨held, raised, rest⟩ := Option.bind_eq_some_iff.mp called
    obtain ⟨sin, _, rest⟩ := Option.bind_eq_some_iff.mp rest
    have first : Steady changed state held := vopRefInc_steady raised
    have taken := (vopRefInc_bumps raised).refs
    split at rest
    · obtain ⟨last, lowered, isLast⟩ := Option.map_eq_some_iff.mp rest
      obtain ⟨_, rfl⟩ := Prod.mk.inj isLast
      exact first.give (Int.le_of_eq taken.symm) lowered
    · obtain ⟨⟨found, middle⟩, looked, rest⟩ := Option.bind_eq_some_iff.mp rest
      obtain ⟨last, lowered, isLast⟩ := Option.map_eq_some_iff.mp rest
      obtain ⟨_, rfl⟩ := Prod.mk.inj isLast
      have second : Steady changed held middle := sfsLookupOnce_steady looked
      have more := second.grows (.sfs ino)
      exact (first.trans second).give (by omega) lowered

theorem vopLookup_steady (called : vopLookup disk memory state node path = some (result, after)) :
    Steady changed state after := by
  obtain ⟨_, _, rest⟩ := Option.bind_eq_some_iff.mp called
  cases node with
  | device index =>
    simp only [devLookup] at rest
    split at rest
    · obtain ⟨_, rfl⟩ := Prod.mk.inj (Option.some.inj rest)
      exact Steady.same (fun _ => Int.le_refl _) rfl rfl
    · obtain ⟨last, raised, same⟩ := Option.map_eq_some_iff.mp rest
      obtain ⟨_, rfl⟩ := Prod.mk.inj same
      exact vopRefInc_steady raised
  | sfs ino =>
    obtain ⟨sin, _, rest⟩ := Option.bind_eq_some_iff.mp rest
    split at rest
    · exact sfsLookup_steady rest
    · cases rest

theorem sfsGetRoot_steady (called : sfsGetRoot disk memory state = some (node, after)) : Steady changed state after := by
  obtain ⟨⟨loaded, middle⟩, isLoaded, rest⟩ := Option.bind_eq_some_iff.mp called
  cases loaded with
  | error => cases rest
  | ok root =>
    obtain ⟨_, rfl⟩ := Prod.mk.inj (Option.some.inj rest)
    exact sfsLoadInode_steady isLoaded

theorem getVdevRoot_steady {vdev : VfsDev} (called : getVdevRoot disk memory state vdev = some (result, after)) :
    Steady changed state after := by
  unfold getVdevRoot at called
  split at called
  · obtain ⟨⟨root, last⟩, isRoot, same⟩ := Option.map_eq_some_iff.mp called
    obtain ⟨_, rfl⟩ := Prod.mk.inj same
    exact sfsGetRoot_steady isRoot
  · split at called
    · obtain ⟨index, _, rest⟩ := Option.bind_eq_some_iff.mp called
      obtain ⟨last, raised, same⟩ := Option.map_eq_some_iff.mp rest
      obtain ⟨_, rfl⟩ := Prod.mk.inj same
      exact vopRefInc_steady raised
    · obtain ⟨_, rfl⟩ := Prod.mk.inj (Option.some.inj called)
      exact Steady.same (fun _ => Int.le_refl _) rfl rfl

theorem kept_steady {kept : Option Node} {missing : Int}
    (called : (match kept with
      | some node => (vopRefInc state node).map fun state => (.ok node, state)
      | none => some (.error missing, state)) = some (result, after)) : Steady changed state after := by
  cases kept with
  | some node =>
    obtain ⟨last, raised, same⟩ := Option.map_eq_some_iff.mp called
    obtain ⟨_, rfl⟩ := Prod.mk.inj same
    exact vopRefInc_steady raised
  | none =>
    obtain ⟨_, rfl⟩ := Prod.mk.inj (Option.some.inj called)
    exact Steady.same (fun _ => Int.le_refl _) rfl rfl

theorem currentRoot_steady (called : currentRoot disk memory state files = some (result, after)) :
    Steady changed state after := by
  obtain ⟨⟨current, middle⟩, got, rest⟩ := Option.bind_eq_some_iff.mp called
  have first : Steady changed state middle := kept_steady got
  have hands : Hands state current middle := kept_hands got
  cases current with
  | error code =>
    obtain ⟨_, rfl⟩ := Prod.mk.inj (Option.some.inj rest)
    exact first
  | ok node =>
    cases node with
    | device => cases rest
    | sfs ino =>
      obtain ⟨⟨root, loaded⟩, isRoot, rest⟩ := Option.bind_eq_some_iff.mp rest
      obtain ⟨last, lowered, same⟩ := Option.map_eq_some_iff.mp rest
      obtain ⟨_, rfl⟩ := Prod.mk.inj same
      have second : Steady changed middle loaded := sfsGetRoot_steady isRoot
      have more := second.grows (.sfs ino)
      have taken := Bumps.refs hands
      exact (first.trans second).give (by omega) lowered

theorem getDevice_steady (called : getDevice disk memory state files path = some (result, after)) :
    Steady changed state after := by
  simp only [getDevice] at called
  split at called
  · exact kept_steady called
  · split at called
    · unfold vfsGetRoot at called
      split at called
      · exact getVdevRoot_steady called
      · obtain ⟨_, rfl⟩ := Prod.mk.inj (Option.some.inj called)
        exact Steady.same (fun _ => Int.le_refl _) rfl rfl
    · split at called
      · exact kept_steady called
      · exact currentRoot_steady called

theorem vfsLookup_steady (called : vfsLookup disk memory state files path = some (result, after)) :
    Steady changed state after := by
  obtain ⟨⟨begun, middle⟩, started, rest⟩ := Option.bind_eq_some_iff.mp called
  have first : Steady changed state middle := getDevice_steady started
  have hands := getDevice_hands started
  cases begun with
  | error code =>
    obtain ⟨_, rfl⟩ := Prod.mk.inj (Option.some.inj rest)
    exact first
  | ok node =>
    simp only at rest
    split at rest
    · obtain ⟨⟨found, looked⟩, isFound, rest⟩ := Option.bind_eq_some_iff.mp rest
      obtain ⟨last, lowered, same⟩ := Option.map_eq_some_iff.mp rest
      obtain ⟨_, rfl⟩ := Prod.mk.inj same
      have second : Steady changed middle looked := vopLookup_steady isFound
      have more := second.grows node
      have taken := Bumps.refs hands
      exact (first.trans second).give (by omega) lowered
    · obtain ⟨_, rfl⟩ := Prod.mk.inj (Option.some.inj rest)
      exact first

/-! ## Opens -/

theorem vopTruncate_steady (called : vopTruncate disk state node 0 = some (ret, after))
    (changes : changed node) : Steady changed state after := by
  have grows := (vopTruncate_same called).grows
  obtain ⟨_, _, rest⟩ := Option.bind_eq_some_iff.mp called
  cases node with
  | device => cases rest
  | sfs ino =>
    obtain ⟨sin, isIn, rest⟩ := Option.bind_eq_some_iff.mp rest
    obtain ⟨⟨code, fs, sinAfter⟩, truncated, isLast⟩ := Option.bind_eq_some_iff.mp rest
    obtain ⟨_, rfl⟩ := Prod.mk.inj (Option.some.inj isLast)
    exact Steady.put grows isIn (vopTruncate_retains changes truncated) (fun _ => vopTruncate_sane truncated) rfl rfl

/-- `vfs_open` from `vop_open` on gives back the reference of the lookup at most. -/
theorem openNode_steady (first : Steady changed start state)
    (taken : (start.counts node).refCount + 1 ≤ (state.counts node).refCount)
    (called : openNode disk state node openFlags = some (result, after))
    (changes : hasFlag openFlags oTrunc ∨ hasFlag openFlags oCreat → changed node) : Steady changed start after := by
  obtain ⟨code, _, rest⟩ := Option.bind_eq_some_iff.mp called
  split at rest
  · obtain ⟨last, lowered, same⟩ := Option.map_eq_some_iff.mp rest
    obtain ⟨_, rfl⟩ := Prod.mk.inj same
    exact first.give taken lowered
  · obtain ⟨opened, raised, rest⟩ := Option.bind_eq_some_iff.mp rest
    have second : Steady changed state opened := vopOpenInc_steady raised
    split at rest
    · rename_i empties
      obtain ⟨⟨failed, truncated⟩, isTruncated, rest⟩ := Option.bind_eq_some_iff.mp rest
      have third := vopTruncate_steady isTruncated (changes empties)
      simp only at rest
      split at rest
      · obtain ⟨last, closed, isLast⟩ := Option.map_eq_some_iff.mp rest
        obtain ⟨_, rfl⟩ := Prod.mk.inj isLast
        obtain ⟨middle, lowered, closing⟩ := Option.bind_eq_some_iff.mp closed
        have fourth : Steady changed truncated middle := vopOpenDec_steady lowered
        have more := ((second.trans third).trans fourth).grows node
        exact (((first.trans second).trans third).trans fourth).give (by omega) closing
      · obtain ⟨_, rfl⟩ := Prod.mk.inj (Option.some.inj rest)
        exact (first.trans second).trans third
    · obtain ⟨_, rfl⟩ := Prod.mk.inj (Option.some.inj rest)
      exact first.trans second

theorem openMissing_steady (called : openMissing disk memory state files path openFlags ret = some (result, after)) :
    Steady changed state after := by
  unfold openMissing at called
  split at called
  · obtain ⟨⟨parent, middle⟩, got, rest⟩ := Option.bind_eq_some_iff.mp called
    cases parent with
    | error code =>
      obtain ⟨_, rfl⟩ := Prod.mk.inj (Option.some.inj rest)
      exact getDevice_steady got
    | ok => cases rest
  · obtain ⟨_, rfl⟩ := Prod.mk.inj (Option.some.inj called)
    exact Steady.same (fun _ => Int.le_refl _) rfl rfl

/-- The inode that an open empties: the one that the path names, when `O_TRUNC` or `O_CREAT`
is set and the file does not have to be new. -/
def Emptied (disk : Nat → Int) (memory : Nat → Bool) (state : VfsState F) (files : F) (path : Name)
    (openFlags : BitVec 32) (node : Node) : Prop :=
  flagsAllowed openFlags = true ∧ (hasFlag openFlags oTrunc ∨ hasFlag openFlags oCreat) ∧
    ¬ (hasFlag openFlags oExcl ∧ hasFlag openFlags oCreat) ∧
      ∃ looked, vfsLookup disk memory state files path = some (.ok node, looked)

/-- An open keeps every inode that is held, but for the one that it empties. -/
theorem vfsOpen_steady (called : vfsOpen disk memory state files path openFlags = some (result, after)) :
    Steady (Emptied disk memory state files path openFlags) state after := by
  unfold vfsOpen at called
  split at called
  · obtain ⟨_, rfl⟩ := Prod.mk.inj (Option.some.inj called)
    exact Steady.same (fun _ => Int.le_refl _) rfl rfl
  · rename_i allowed
    obtain ⟨⟨found, looked⟩, isFound, rest⟩ := Option.bind_eq_some_iff.mp called
    have first : Steady (Emptied disk memory state files path openFlags) state looked := vfsLookup_steady isFound
    have hands := vfsLookup_hands isFound
    cases found with
    | error code => exact first.trans (openMissing_steady rest)
    | ok node =>
      simp only at rest
      split at rest
      · obtain ⟨_, rfl⟩ := Prod.mk.inj (Option.some.inj rest)
        exact first
      · rename_i notExclusive
        refine openNode_steady first (Int.le_of_eq (Bumps.refs hands).symm) rest fun empties => ?_
        exact ⟨by simpa using allowed, empties, notExclusive, looked, isFound⟩

end Ucore.Vfs
