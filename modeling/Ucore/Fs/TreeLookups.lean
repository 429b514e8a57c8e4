import Ucore.Fs.NodeCounts
import Ucore.Sfs.DirectoryTree

/-!
# Lookups in a tree

A state of the file system whose counts are in order and whose volume has a tree. With a
disk that works, references are taken and given back without failed assertions, inodes of
the tree are loaded, and a name is looked up in the entries of its directory. All of it
leaves the tree as it is.
-/

namespace Ucore.Vfs

open Volume

variable {F : Type}

/-- The tree is in order, an inode has no more openings than references, and an inode with
references can be reclaimed. -/
structure Fit (state : VfsState F) : Prop where
  tree : Tree state.volume
  cached : Cached state.volume
  counted : ∀ node, 0 ≤ (state.counts node).openCount ∧ (state.counts node).openCount ≤ (state.counts node).refCount
  reclaims : ∀ ino sin, state.volume.inodes ino = some sin → 0 ≤ sin.reclaimCount ∧
    (0 < (state.counts (.sfs ino)).refCount → 0 < sin.reclaimCount)

/-- An operation that leaves the tree and goes on with the memory. -/
structure Went (state after : VfsState F) : Prop where
  fit : Fit after
  tree : SameTree state.volume after.volume
  allocs : state.allocs ≤ after.allocs

/-- A call of `kmalloc` has found no memory. -/
def NoMemory (memory : Nat → Bool) (state after : VfsState F) : Prop :=
  ∃ call, state.allocs ≤ call ∧ call < after.allocs ∧ memory call = false

/-- The outcome of an operation that allocates: the expected one, or there was no memory. -/
def Allocated (memory : Nat → Bool) (state : VfsState F) (result expected : Except Int Node) (after : VfsState F) :
    Prop :=
  result = expected ∨ result = .error (-eNoMem) ∧ NoMemory memory state after

variable {disk : Nat → Int} {memory : Nat → Bool} {state middle after : VfsState F} {node : Node} {ino : Nat}
  {sin : SfsInode}

theorem Went.refl (fit : Fit state) : Went state state := ⟨fit, SameTree.refl _, Nat.le_refl _⟩

theorem Went.trans (first : Went state middle) (second : Went middle after) : Went state after :=
  ⟨second.fit, first.tree.trans second.tree, Nat.le_trans first.allocs second.allocs⟩

theorem NoMemory.within {first last : VfsState F} (lacks : NoMemory memory middle last) (begun : Went first middle)
    (ended : Went last after) : NoMemory memory first after := by
  obtain ⟨call, behind, before, failed⟩ := lacks
  exact ⟨call, Nat.le_trans begun.allocs behind, Nat.lt_of_lt_of_le before ended.allocs, failed⟩

/-- An inode with references is in memory. -/
theorem present_of_held (held : 0 < (state.counts node).refCount) : state.present node := by
  by_contra absent
  simp [VfsState.counts, absent] at held

theorem inMemory_of_held (held : 0 < (state.counts (.sfs ino)).refCount) :
    ∃ sin, state.volume.inodes ino = some sin :=
  Option.isSome_iff_exists.mp (present_of_held held)

/-- Counts after more references to one inode are in order when they were. -/
theorem counted_bump {counts : Node → Fs.Inode} {refs opens : Int}
    (counted : ∀ node, 0 ≤ (counts node).openCount ∧ (counts node).openCount ≤ (counts node).refCount)
    (here : 0 ≤ (counts node).openCount + opens ∧ (counts node).openCount + opens ≤ (counts node).refCount + refs) :
    ∀ other, 0 ≤ (bump counts node refs opens other).openCount ∧
      (bump counts node refs opens other).openCount ≤ (bump counts node refs opens other).refCount := by
  intro other
  by_cases same : other = node
  · subst same
    simpa only [bump, Function.update_self] using here
  · simpa only [bump, Function.update_of_ne same] using counted other

theorem bump_self (counts : Node → Fs.Inode) (node : Node) (refs opens : Int) :
    bump counts node refs opens node =
      { refCount := (counts node).refCount + refs, openCount := (counts node).openCount + opens } :=
  Function.update_self ..

theorem bump_other {counts : Node → Fs.Inode} {other : Node} {refs opens : Int} (different : other ≠ node) :
    bump counts node refs opens other = counts other :=
  Function.update_of_ne different ..

/-- A reference that is not for an opening stays so when an inode is handed out. -/
theorem Hands.spare {result : Except Int Node} (hands : Hands state result after)
    (spare : (state.counts node).openCount < (state.counts node).refCount) :
    (after.counts node).openCount < (after.counts node).refCount := by
  cases result with
  | error ret => rwa [hands.counts]
  | ok found =>
    rw [hands.counts]
    by_cases same : node = found
    · subst same
      rw [bump_self]
      dsimp only
      omega
    · rwa [bump_other same]

/-- Another reference to an inode that has one. -/
theorem vopRefInc_fit (fit : Fit state) (held : 0 < (state.counts node).refCount) :
    ∃ after, vopRefInc state node = some after ∧ Went state after ∧ after.volume = state.volume := by
  have present := present_of_held held
  obtain ⟨after, raised⟩ : ∃ after, vopRefInc state node = some after := ⟨_, if_pos present⟩
  have bumps := vopRefInc_bumps raised
  simp only [vopRefInc, if_pos present] at raised
  have isAfter := Option.some.inj raised
  have volume : after.volume = state.volume := by rw [← isAfter]
  have allocs : after.allocs = state.allocs := by rw [← isAfter]
  refine ⟨after, by simp only [vopRefInc, if_pos present, raised], ⟨⟨?_, ?_, ?_, ?_⟩, ?_, ?_⟩, volume⟩
  · exact volume ▸ fit.tree
  · exact volume ▸ fit.cached
  · rw [bumps.counts]
    apply counted_bump fit.counted
    have := fit.counted node
    omega
  · intro ino sin isIn
    rw [volume] at isIn
    obtain ⟨positive, reclaims⟩ := fit.reclaims ino sin isIn
    refine ⟨positive, fun referenced => reclaims ?_⟩
    rw [bumps.counts] at referenced
    by_cases same : Node.sfs ino = node
    · exact same ▸ held
    · rwa [bump_other same] at referenced
  · exact volume ▸ SameTree.refl _
  · exact Nat.le_of_eq allocs.symm

/-- The counts and the reclaims of a state whose volume has changed at one inode. -/
theorem Fit.put (fit : Fit state) {calls : Nat} (counts : after.counts = bump state.counts (.sfs ino) 1 0)
    (volume : after.volume = state.volume.put ino { state.volume.fs with calls } (some sin))
    (tree : SameTree state.volume after.volume) (cached : Cached after.volume) (positive : 0 < sin.reclaimCount) :
    Fit after where
  tree := tree.tree fit.tree
  cached := cached
  counted := by
    rw [counts]
    apply counted_bump fit.counted
    have := fit.counted (.sfs ino)
    omega
  reclaims := by
    intro other sin isIn
    rw [volume] at isIn
    by_cases same : other = ino
    · subst same
      obtain rfl : _ = sin := by simpa [Mounted.put] using isIn
      exact ⟨Int.le_of_lt positive, fun _ => positive⟩
    · have different : Node.sfs other ≠ .sfs ino := fun equal => same (Node.sfs.inj equal)
      rw [counts, bump_other different]
      exact fit.reclaims other sin (by simpa [Mounted.put, same] using isIn)

/-- Only calls of the disk and of `kmalloc` are counted. -/
theorem Fit.called (fit : Fit state) {calls allocs : Nat} {volume : Mounted}
    (isVolume : volume = { state.volume with fs := { state.volume.fs with calls } })
    (counts : VfsState.counts { state with volume, allocs } = state.counts) : Fit { state with volume, allocs } := by
  subst isVolume
  refine ⟨(sameTree_called calls).tree fit.tree, ⟨fit.cached.loaded, fit.cached.synced⟩, ?_, ?_⟩
  · rw [counts]
    exact fit.counted
  · rw [counts]
    exact fit.reclaims

/-- An inode of the tree is loaded, when there is memory. -/
theorem sfsLoadInode_fit (works : ∀ call, disk call = 0) (fit : Fit state) (member : ino ∈ state.volume.files) :
    ∃ result after, sfsLoadInode disk memory state ino = some (result, after) ∧ Went state after ∧
      Allocated memory state result (.ok (.sfs ino)) after := by
  cases isIn : state.volume.inodes ino with
  | some sin =>
    obtain ⟨_, isIno⟩ := fit.cached.loaded ino sin isIn
    have called : sfsLoadInode disk memory state ino = some (.ok (.sfs ino), { state with
        files := Fs.inodeRefInc state.files (.sfs ino)
        volume := state.volume.put ino state.volume.fs (some { sin with
          reclaimCount := if ((Fs.inodeRefInc state.files (.sfs ino)).inodes (.sfs ino)).refCount = 1 then
            sin.reclaimCount + 1 else sin.reclaimCount }) }) := by
      simp only [sfsLoadInode, isIn]
    have bumps : Bumps state _ (.sfs ino) 1 0 := sfsLoadInode_hands called
    have tree := @sameTree_put state.volume { sin with
      reclaimCount := if ((Fs.inodeRefInc state.files (.sfs ino)).inodes (.sfs ino)).refCount = 1 then
        sin.reclaimCount + 1 else sin.reclaimCount } ino state.volume.fs.calls (din_of isIn).symm
    refine ⟨_, _, called, ⟨?_, tree, Nat.le_refl _⟩, Or.inl rfl⟩
    refine fit.put bumps.counts rfl tree (fit.cached.put member isIno (fit.cached.synced ino sin isIn)) ?_
    obtain ⟨atLeast, reclaims⟩ := fit.reclaims ino sin isIn
    have present : state.present (.sfs ino) := by simp [VfsState.present, isIn]
    have counted := fit.counted (.sfs ino)
    rw [counts_present present] at counted reclaims
    simp only [Fs.inodeRefInc, Fs.FileState.setInode, Function.update_self]
    split
    · omega
    · apply reclaims
      omega
  | none =>
    by_cases room : memory state.allocs = true
    · have usable := fit.tree.usable ino member
      have isDin : state.volume.din ino = .ofWords (state.volume.fs.disk ino) := by simp [Mounted.din, isIn]
      have read : sfsRbuf disk state.volume.fs diskInodeWords ino 0 = _ :=
        sfsRbuf_works works ⟨by decide, by decide⟩ usable.range
      have isWords : (fun index => state.volume.fs.disk ino (0 + index)) = state.volume.fs.disk ino := by
        funext index
        rw [Nat.zero_add]
      rw [isWords] at read
      have linked := fit.tree.linked ino member
      have typed := fit.tree.typed ino member
      rw [isDin] at linked typed
      have ops : sfsGetOps (DiskInode.ofWords (state.volume.fs.disk ino)).type ≠ none := by
        rcases typed with isType | isType <;> rw [isType] <;> decide
      have asserted : assertInuse state.volume.fs ino = some () := usable
      by_cases more : memory (state.allocs + 1) = true
      · have called : sfsLoadInode disk memory state ino = some (.ok (.sfs ino), { state with
            allocs := state.allocs + 1 + 1
            files := state.files.setInode (.sfs ino) { refCount := 1, openCount := 0 }
            volume := state.volume.put ino { state.volume.fs with calls := state.volume.fs.calls + 1 } (some {
              din := .ofWords (state.volume.fs.disk ino), ino, dirty := false, reclaimCount := 1 }) }) := by
          simp only [sfsLoadInode, isIn, room, if_true, readInode, asserted, read, Option.bind_eq_bind,
            Option.bind_some, linked, if_false, createInode, more, ops]
        have bumps : Bumps state _ (.sfs ino) 1 0 := sfsLoadInode_hands called
        have tree := @sameTree_put state.volume {
          din := .ofWords (state.volume.fs.disk ino), ino, dirty := false, reclaimCount := 1 } ino
          (state.volume.fs.calls + 1) isDin.symm
        refine ⟨_, _, called, ⟨?_, tree, by simp only; omega⟩, Or.inl rfl⟩
        have positive : (0 : Int) < 1 := by decide
        exact fit.put bumps.counts rfl tree (fit.cached.put member rfl fun _ => Alike.refl _) positive
      · have called : sfsLoadInode disk memory state ino = some (.error (-eNoMem), { state with
            allocs := state.allocs + 1 + 1
            volume := { state.volume with fs := { state.volume.fs with calls := state.volume.fs.calls + 1 } } }) := by
          simp only [sfsLoadInode, isIn, room, if_true, readInode, asserted, read, Option.bind_eq_bind,
            Option.bind_some, linked, if_false, createInode, more]
          rfl
        have same : SameCounts state _ := sfsLoadInode_hands called
        refine ⟨_, _, called, ⟨fit.called rfl same.counts, sameTree_called _, by simp only; omega⟩, Or.inr ⟨rfl, ?_⟩⟩
        exact ⟨state.allocs + 1, by omega, by simp only; omega, by simpa using more⟩
    · have called : sfsLoadInode disk memory state ino = some (.error (-eNoMem), { state with
          allocs := state.allocs + 1 }) := by
        simp only [sfsLoadInode, isIn, room]
        rfl
      refine ⟨_, _, called, ⟨⟨fit.tree, fit.cached, fit.counted, fit.reclaims⟩, SameTree.refl _, by simp only; omega⟩,
        Or.inr ⟨rfl, ?_⟩⟩
      exact ⟨state.allocs, Nat.le_refl _, by simp only; omega, by simpa using room⟩

/-- A search in a directory leaves the directory in memory as it is. -/
theorem Fit.searched (fit : Fit state) (isIn : state.volume.inodes ino = some sin) (calls more : Nat) :
    Went state { state with
      allocs := state.allocs + more
      volume := state.volume.put ino { state.volume.fs with calls } (some sin) } := by
  have tree : SameTree state.volume (state.volume.put ino { state.volume.fs with calls } (some sin)) :=
    sameTree_put (din_of isIn).symm
  have same : ∀ other, (state.volume.put ino { state.volume.fs with calls } (some sin)).inodes other =
      state.volume.inodes other := by
    intro other
    by_cases isOther : other = ino
    · subst isOther
      simp [Mounted.put, isIn]
    · simp [Mounted.put, isOther]
  have counts := (@counts_put _ state (state.volume.put ino { state.volume.fs with calls } (some sin)) ino
    (state.allocs + more) (fun other _ => same other) (by rw [same ino])).counts
  obtain ⟨member, isIno⟩ := fit.cached.loaded ino sin isIn
  refine ⟨⟨tree.tree fit.tree, fit.cached.put member isIno (fit.cached.synced ino sin isIn), ?_, ?_⟩, tree,
    Nat.le_add_right _ _⟩
  · rw [counts]
    exact fit.counted
  · intro other sin isOther
    rw [counts]
    exact fit.reclaims other sin (same other ▸ isOther)

/-- The inode that a directory names. -/
def dirFind (volume : Mounted) (ino : Nat) (name : Name) : Except Int Node :=
  match firstSlot volume.fs.disk (volume.din ino) 0 (volume.din ino).blocks (isNamed name) with
  | some slot => .ok (.sfs (entryAt volume.fs.disk (volume.din ino) slot).ino)
  | none => .error (-eNoent)

/-- The first slot that passes a test is a slot and passes it. -/
theorem firstSlot_some {blocks : Nat → Block} {din : DiskInode} {test : DiskEntry → Bool} {slot : Nat}
    (isFirst : firstSlot blocks din 0 din.blocks test = some slot) :
    slot < din.blocks ∧ test (entryAt blocks din slot) = true := by
  unfold firstSlot at isFirst
  have passes := @List.find?_some _ (fun slot => test (entryAt blocks din slot)) _ _ isFirst
  refine ⟨?_, passes⟩
  have member := List.mem_of_find?_eq_some isFirst
  simpa using member

/-- A name is looked up in a directory in memory. -/
theorem sfsLookupOnce_fit {name : Name} (works : ∀ call, disk call = 0) (fit : Fit state)
    (isIn : state.volume.inodes ino = some sin) (isDir : sin.din.type = sfsTypeDir)
    (short : name.length ≤ sfsMaxFnameLen) :
    ∃ result after, sfsLookupOnce disk memory state ino name = some (result, after) ∧ Went state after ∧
      Allocated memory state result (dirFind state.volume ino name) after := by
  obtain ⟨member, _⟩ := fit.cached.loaded ino sin isIn
  have isDin := din_of isIn
  have dirType : (state.volume.din ino).type = sfsTypeDir := isDin ▸ isDir
  have readable : Readable state.volume.fs sin.din := isDin ▸ fit.tree.readable ino member dirType
  by_cases room : memory state.allocs = true
  · obtain ⟨found, left, calls, isFound, outcome⟩ := sfsDirentSearchNolock_expected disk readable short
    obtain rfl := outcome.works works
    have went := fit.searched isIn calls 1
    simp only [sfsLookupOnce, isIn, room, isFound, Option.bind_eq_bind, Option.bind_some, searched, dirFind, isDin]
    cases isFirst : firstSlot state.volume.fs.disk sin.din 0 sin.din.blocks (isNamed name) with
    | none => exact ⟨_, _, rfl, went, Or.inl rfl⟩
    | some slot =>
      obtain ⟨small, named⟩ := firstSlot_some isFirst
      have nonzero : (entryAt state.volume.fs.disk sin.din slot).ino ≠ 0 := by
        simp only [isNamed, decide_eq_true_eq] at named
        exact named.1
      have entry : (entryAt state.volume.fs.disk sin.din slot).ino ∈ state.volume.files := by
        have entries := fit.tree.entries ino member dirType slot
        rw [isDin] at entries
        exact entries small nonzero
      obtain ⟨result, after, isLoaded, wentOn, allocated⟩ :=
        @sfsLoadInode_fit _ disk memory _ (entryAt state.volume.fs.disk sin.din slot).ino works went.fit entry
      refine ⟨result, after, isLoaded, went.trans wentOn, ?_⟩
      rcases allocated with same | ⟨same, lacks⟩
      · exact Or.inl same
      · exact Or.inr ⟨same, lacks.within went (Went.refl wentOn.fit)⟩
  · have went := fit.searched isIn state.volume.fs.calls 1
    have called : sfsLookupOnce disk memory state ino name = some (.error (-eNoMem), { state with
        allocs := state.allocs + 1
        volume := state.volume.put ino state.volume.fs (some sin) }) := by
      have noRoom : memory state.allocs = false := by simpa using room
      simp only [sfsLookupOnce, isIn, noRoom, sfsDirentSearchNolock, if_pos short, if_true, Option.bind_eq_bind,
        Option.bind_some]
    exact ⟨_, _, called, went, Or.inr ⟨rfl, state.allocs, Nat.le_refl _, Nat.lt_succ_self _, by simpa using room⟩⟩

/-- A reference that is one more than the openings is given back. -/
theorem vopRefDec_fit (works : ∀ call, disk call = 0) (fit : Fit state)
    (held : (state.counts (.sfs ino)).openCount < (state.counts (.sfs ino)).refCount) :
    ∃ after, vopRefDec disk state (.sfs ino) = some after ∧ Went state after := by
  have opened := fit.counted (.sfs ino)
  obtain ⟨sin, isIn⟩ := inMemory_of_held (by omega : 0 < (state.counts (.sfs ino)).refCount)
  have present : state.present (.sfs ino) := by simp [VfsState.present, isIn]
  have positive := (fit.reclaims ino sin isIn).2 (by omega)
  have isCounts := counts_present present
  rw [isCounts] at held opened
  have referenced : 0 < (state.files.inodes (.sfs ino)).refCount := by omega
  let inode := state.files.inodes (.sfs ino)
  let files := state.files.setInode (.sfs ino) { inode with refCount := inode.refCount - 1 }
  let lowered : VfsState F := { state with files }
  have here : lowered.files.inodes (.sfs ino) =
      ⟨(state.files.inodes (.sfs ino)).refCount - 1, (state.files.inodes (.sfs ino)).openCount⟩ := by
    simp [lowered, files, inode, Fs.FileState.setInode]
  have decs : vopRefDec disk state (.sfs ino) =
      if (state.files.inodes (.sfs ino)).refCount - 1 = 0 then vopReclaim disk lowered (.sfs ino)
      else some lowered := by
    simp only [vopRefDec, if_pos present, Fs.inodeRefDec, if_pos referenced, Option.bind_eq_bind, Option.bind_some]
    rw [show files.inodes (.sfs ino) = _ from here]
  -- what follows once it is known which state is reached
  have fits : ∀ after, vopRefDec disk state (.sfs ino) = some after → Dropped ino state.volume after.volume →
      (∀ sin, after.volume.inodes ino = some sin → 0 ≤ sin.reclaimCount ∧
        (0 < (state.files.inodes (.sfs ino)).refCount - 1 → 0 < sin.reclaimCount)) →
      after.allocs = state.allocs → Went state after := by
    intro after called dropped reclaims allocs
    have counts := (vopRefDec_bumps called).counts
    refine ⟨⟨dropped.tree.tree fit.tree, dropped.cached, ?_, ?_⟩, dropped.tree, Nat.le_of_eq allocs.symm⟩
    · rw [counts]
      apply counted_bump fit.counted
      rw [isCounts]
      omega
    · intro other sin isOther
      rw [counts]
      by_cases same : other = ino
      · subst same
        rw [bump_self, isCounts]
        exact reclaims sin isOther
      · have different : Node.sfs other ≠ .sfs ino := fun equal => same (Node.sfs.inj equal)
        rw [bump_other different]
        exact fit.reclaims other sin (dropped.elsewhere other same ▸ isOther)
  by_cases last : (state.files.inodes (.sfs ino)).refCount - 1 = 0
  · obtain ⟨next, reclaimed, dropped, ends⟩ := reclaim_works works fit.tree fit.cached isIn positive
    have checked : inodeCheck lowered (.sfs ino) = some () := by
      have isPresent : lowered.present (.sfs ino) := present
      simp only [inodeCheck, here, maxInodeCount]
      rw [if_pos]
      refine ⟨isPresent, ?_, ?_, ?_, ?_⟩ <;> omega
    have closed : (state.files.inodes (.sfs ino)).openCount = 0 := by omega
    have called : vopRefDec disk state (.sfs ino) = some { lowered with volume := next } := by
      rw [decs, if_pos last]
      simp only [vopReclaim, checked, here, last, Option.bind_eq_bind, Option.bind_some, closed, ne_eq,
        not_true_eq_false, and_false, if_false]
      rw [show volumeStep disk lowered.volume (.reclaim ino 0) = some next from reclaimed]
      rfl
    refine ⟨_, called, fits _ called dropped ?_ rfl⟩
    intro sinAfter isAfter
    rcases ends with gone | stays
    · simp [gone] at isAfter
    · simp only [stays, Option.some.injEq] at isAfter
      subst isAfter
      simp only
      omega
  · have called : vopRefDec disk state (.sfs ino) = some lowered := by rw [decs, if_neg last]
    refine ⟨_, called, fits _ called ⟨SameTree.refl _, fit.cached, fun _ _ => rfl⟩ ?_ rfl⟩
    intro sinAfter isAfter
    obtain rfl : sin = sinAfter := Option.some.inj (isIn.symm.trans isAfter)
    exact ⟨Int.le_of_lt positive, fun _ => positive⟩

end Ucore.Vfs
