import Ucore.Fs.VfsFile

/-!
# What operations do to the counts of inodes

Each operation on inodes adds to the counts of one inode, or to none. An inode that comes
into memory or leaves it has no references outside memory, so that loading and reclaiming
need no cases of their own.
-/

namespace Ucore.Vfs

open Volume

/-- The counts with so many references and openings more for one inode. -/
def bump (counts : Node → Fs.Inode) (node : Node) (refs opens : Int) : Node → Fs.Inode :=
  Function.update counts node
    { refCount := (counts node).refCount + refs, openCount := (counts node).openCount + opens }

variable {F : Type} {disk : Nat → Int} {memory : Nat → Bool}
  {state middle after : VfsState F} {node : Node} {refs opens : Int}

/-- Only the counts of one inode change, and no slot of a table. -/
structure Bumps (state after : VfsState F) (node : Node) (refs opens : Int) : Prop where
  counts : after.counts = bump state.counts node refs opens
  files : after.files.files = state.files.files

/-- No count changes and no slot of a table. -/
structure SameCounts (state after : VfsState F) : Prop where
  counts : after.counts = state.counts
  files : after.files.files = state.files.files

theorem bump_zero (counts : Node → Fs.Inode) (node : Node) : bump counts node 0 0 = counts := by
  simp [bump]

theorem bump_bump (counts : Node → Fs.Inode) (node : Node) (refs opens moreRefs moreOpens : Int) :
    bump (bump counts node refs opens) node moreRefs moreOpens =
      bump counts node (refs + moreRefs) (opens + moreOpens) := by
  simp [bump, Int.add_assoc]

theorem bump_comm (counts : Node → Fs.Inode) (node other : Node) (refs opens moreRefs moreOpens : Int) :
    bump (bump counts node refs opens) other moreRefs moreOpens =
      bump (bump counts other moreRefs moreOpens) node refs opens := by
  by_cases same : other = node
  · subst same
    rw [bump_bump, bump_bump, Int.add_comm refs, Int.add_comm opens]
  · simp only [bump, Function.update_of_ne same, Function.update_of_ne (Ne.symm same)]
    exact Function.update_comm (Ne.symm same) _ _ _

/-- One reference more is seen. -/
theorem bump_ne (counts : Node → Fs.Inode) (node : Node) {refs : Int} (changes : refs ≠ 0) :
    bump counts node refs 0 ≠ counts := by
  intro same
  have here := congrArg Fs.Inode.refCount (congrFun same node)
  simp only [bump, Function.update_self] at here
  omega

theorem SameCounts.refl (state : VfsState F) : SameCounts state state := ⟨rfl, rfl⟩

theorem SameCounts.trans (first : SameCounts state middle) (second : SameCounts middle after) :
    SameCounts state after :=
  ⟨second.counts.trans first.counts, second.files.trans first.files⟩

theorem SameCounts.bumps (same : SameCounts state middle) (bumps : Bumps middle after node refs opens) :
    Bumps state after node refs opens :=
  ⟨same.counts ▸ bumps.counts, bumps.files.trans same.files⟩

theorem Bumps.trans {moreRefs moreOpens : Int} (first : Bumps state middle node refs opens)
    (second : Bumps middle after node moreRefs moreOpens) :
    Bumps state after node (refs + moreRefs) (opens + moreOpens) where
  counts := by rw [second.counts, first.counts, bump_bump]
  files := second.files.trans first.files

theorem Bumps.same (bumps : Bumps state after node 0 0) : SameCounts state after :=
  ⟨bumps.counts.trans (bump_zero _ _), bumps.files⟩

/-- A reference to one inode goes after another inode has got one. -/
theorem Bumps.exchange {other : Node} (first : Bumps state middle node 1 0) {last : VfsState F}
    (second : Bumps middle after other refs opens) (third : Bumps after last node (-1) 0) :
    Bumps state last other refs opens where
  counts := by
    rw [third.counts, second.counts, first.counts, bump_comm, bump_bump]
    simp [bump_zero]
  files := third.files.trans (second.files.trans first.files)

/-- Counts that change at one inode only. -/
theorem Bumps.of (present : ∀ other, other ≠ node → (after.present other ↔ state.present other))
    (elsewhere : ∀ other, other ≠ node → after.files.inodes other = state.files.inodes other)
    (ref : (after.counts node).refCount = (state.counts node).refCount + refs)
    (opened : (after.counts node).openCount = (state.counts node).openCount + opens)
    (files : after.files.files = state.files.files) : Bumps state after node refs opens where
  counts := by
    funext other
    by_cases same : other = node
    · subst same
      simp only [bump, Function.update_self, ← ref, ← opened]
    · simp only [bump, Function.update_of_ne same, VfsState.counts, present other same, elsewhere other same]
  files := files

theorem counts_present (present : state.present node) : state.counts node = state.files.inodes node :=
  if_pos present

/-! ## The inode layer -/

theorem vopRefInc_bumps (called : vopRefInc state node = some after) : Bumps state after node 1 0 := by
  unfold vopRefInc at called
  split at called
  · rename_i present
    obtain rfl := Option.some.inj called
    have presentAfter : VfsState.present { state with files := Fs.inodeRefInc state.files node } node := present
    apply Bumps.of
    · exact fun _ _ => Iff.rfl
    · intro other different
      simp [Fs.inodeRefInc, Fs.FileState.setInode, different]
    · rw [counts_present presentAfter, counts_present present]
      simp [Fs.inodeRefInc, Fs.FileState.setInode]
    · rw [counts_present presentAfter, counts_present present]
      simp [Fs.inodeRefInc, Fs.FileState.setInode]
    · rfl
  · cases called

theorem vopOpenInc_bumps (called : vopOpenInc state node = some after) : Bumps state after node 0 1 := by
  unfold vopOpenInc at called
  split at called
  · rename_i present
    obtain rfl := Option.some.inj called
    have presentAfter : VfsState.present { state with files := Fs.inodeOpenInc state.files node } node := present
    apply Bumps.of
    · exact fun _ _ => Iff.rfl
    · intro other different
      simp [Fs.inodeOpenInc, Fs.FileState.setInode, different]
    · rw [counts_present presentAfter, counts_present present]
      simp [Fs.inodeOpenInc, Fs.FileState.setInode]
    · rw [counts_present presentAfter, counts_present present]
      simp [Fs.inodeOpenInc, Fs.FileState.setInode]
    · rfl
  · cases called

/-- An operation of the volume on one inode leaves the counts of all inodes, when that
inode stays in memory. -/
theorem counts_put {volume : Mounted} {ino : Nat} {allocs : Nat}
    (others : ∀ other, other ≠ ino → volume.inodes other = state.volume.inodes other)
    (here : (volume.inodes ino).isSome ↔ (state.volume.inodes ino).isSome) :
    SameCounts state { state with volume, allocs } := by
  have present : ∀ node, VfsState.present { state with volume, allocs } node ↔ state.present node := by
    intro node
    cases node with
    | device => exact Iff.rfl
    | sfs other =>
      by_cases same : other = ino
      · exact same ▸ here
      · simp [VfsState.present, others other same]
  refine ⟨?_, rfl⟩
  funext node
  simp only [VfsState.counts, present]

/-- `sfs_fsync` keeps every inode in memory. -/
theorem fsync_inodes {volume next : Mounted} {ino : Nat}
    (taken : volumeStep disk volume (.fsync ino) = some next) :
    (∀ other, other ≠ ino → next.inodes other = volume.inodes other) ∧
      ((next.inodes ino).isSome ↔ (volume.inodes ino).isSome) := by
  obtain ⟨sin, isIn, rest⟩ := Option.bind_eq_some_iff.mp taken
  obtain ⟨result, _, isNext⟩ := Option.bind_eq_some_iff.mp rest
  obtain rfl := Option.some.inj isNext
  exact ⟨fun other different => Function.update_of_ne different _ _, by simp [Mounted.put, isIn]⟩

theorem reclaim_inodes {volume next : Mounted} {ino : Nat} {refCount : Int}
    (taken : volumeStep disk volume (.reclaim ino refCount) = some next) :
    ∀ other, other ≠ ino → next.inodes other = volume.inodes other := by
  obtain ⟨sin, _, rest⟩ := Option.bind_eq_some_iff.mp taken
  obtain ⟨⟨ret, fs, left⟩, _, isNext⟩ := Option.bind_eq_some_iff.mp rest
  obtain rfl := Option.some.inj isNext
  exact fun other different => Function.update_of_ne different _ _

/-- An inode without references that is reclaimed has no counts afterwards, in memory or
not. -/
theorem vopReclaim_same (present : state.present node) (unused : (state.files.inodes node).refCount = 0)
    (called : vopReclaim disk state node = some after) : SameCounts state after := by
  obtain ⟨_, _, rest⟩ := Option.bind_eq_some_iff.mp called
  cases node with
  | device => cases rest
  | sfs ino =>
    obtain ⟨volume, taken, rest⟩ := Option.bind_eq_some_iff.mp rest
    have others := reclaim_inodes taken
    split at rest
    · cases rest
    · rename_i closed
      obtain rfl := Option.some.inj rest
      by_cases stays : (volume.inodes ino).isSome
      · exact counts_put others (iff_of_true stays present)
      · have gone : ¬ VfsState.present { state with volume } (.sfs ino) := stays
        have shut : (state.files.inodes (.sfs ino)).openCount = 0 := by
          by_contra isOpen
          exact closed ⟨by simpa using stays, isOpen⟩
        suffices bumps : Bumps state { state with volume } (.sfs ino) 0 0 from bumps.same
        apply Bumps.of
        · intro other different
          cases other with
          | device => exact Iff.rfl
          | sfs other =>
            have apart : other ≠ ino := fun same => different (congrArg Node.sfs same)
            simp [VfsState.present, others other apart]
        · exact fun _ _ => rfl
        · rw [counts_present present, unused, VfsState.counts, if_neg gone, Int.add_zero]
        · rw [counts_present present, shut, VfsState.counts, if_neg gone, Int.add_zero]
        · rfl

theorem vopRefDec_bumps (called : vopRefDec disk state node = some after) : Bumps state after node (-1) 0 := by
  unfold vopRefDec at called
  split at called
  · rename_i present
    obtain ⟨files, lowered, rest⟩ := Option.bind_eq_some_iff.mp called
    simp only [Fs.inodeRefDec] at lowered
    split at lowered
    · obtain rfl := Option.some.inj lowered
      generalize isFiles : state.files.setInode node
        { state.files.inodes node with refCount := (state.files.inodes node).refCount - 1 } = files at rest
      have presentAfter : VfsState.present { state with files } node := present
      have bumps : Bumps state { state with files } node (-1) 0 := by
        subst isFiles
        apply Bumps.of
        · exact fun _ _ => Iff.rfl
        · intro other different
          simp [Fs.FileState.setInode, different]
        · rw [counts_present presentAfter, counts_present present]
          simp [Fs.FileState.setInode, Int.sub_eq_add_neg]
        · rw [counts_present presentAfter, counts_present present]
          simp [Fs.FileState.setInode]
        · rfl
      simp only at rest
      split at rest
      · rename_i unused
        have same := vopReclaim_same presentAfter unused rest
        exact ⟨same.counts.trans bumps.counts, same.files.trans bumps.files⟩
      · exact Option.some.inj rest ▸ bumps
    · cases lowered
  · cases called

theorem vopClose_same (called : vopClose disk state node = some after) : SameCounts state after := by
  obtain ⟨_, _, rest⟩ := Option.bind_eq_some_iff.mp called
  cases node with
  | device => exact Option.some.inj rest ▸ SameCounts.refl _
  | sfs ino =>
    obtain ⟨volume, taken, isAfter⟩ := Option.map_eq_some_iff.mp rest
    obtain ⟨others, here⟩ := fsync_inodes taken
    exact isAfter ▸ counts_put others here

theorem vopOpenDec_bumps (called : vopOpenDec disk state node = some after) : Bumps state after node 0 (-1) := by
  unfold vopOpenDec at called
  split at called
  · rename_i present
    obtain ⟨files, lowered, rest⟩ := Option.bind_eq_some_iff.mp called
    simp only [Fs.inodeOpenDec] at lowered
    split at lowered
    · obtain rfl := Option.some.inj lowered
      generalize isFiles : state.files.setInode node
        { state.files.inodes node with openCount := (state.files.inodes node).openCount - 1 } = files at rest
      have presentAfter : VfsState.present { state with files } node := present
      have bumps : Bumps state { state with files } node 0 (-1) := by
        subst isFiles
        apply Bumps.of
        · exact fun _ _ => Iff.rfl
        · intro other different
          simp [Fs.FileState.setInode, different]
        · rw [counts_present presentAfter, counts_present present]
          simp [Fs.FileState.setInode]
        · rw [counts_present presentAfter, counts_present present]
          simp [Fs.FileState.setInode, Int.sub_eq_add_neg]
        · rfl
      simp only at rest
      split at rest
      · have same := vopClose_same rest
        exact ⟨same.counts.trans bumps.counts, same.files.trans bumps.files⟩
      · exact Option.some.inj rest ▸ bumps
    · cases lowered
  · cases called

/-! ## Lookups -/

/-- An operation that hands back an inode has taken a reference to it, and one that fails
has taken none. -/
def Hands (state : VfsState F) (result : Except Int Node) (after : VfsState F) : Prop :=
  match result with
  | .ok node => Bumps state after node 1 0
  | .error _ => SameCounts state after

theorem SameCounts.hands {result : Except Int Node} (same : SameCounts state middle)
    (hands : Hands middle result after) : Hands state result after := by
  cases result with
  | ok node => exact same.bumps hands
  | error => exact same.trans hands

/-- A reference held during an operation goes after it. -/
theorem Bumps.hands {result : Except Int Node} {last : VfsState F} (first : Bumps state middle node 1 0)
    (hands : Hands middle result after) (third : Bumps after last node (-1) 0) : Hands state result last := by
  cases result with
  | ok other => exact first.exchange hands third
  | error =>
    have held : Bumps state after node 1 0 :=
      ⟨hands.counts.trans first.counts, hands.files.trans first.files⟩
    exact (held.trans third).same

/-- An inode that comes into memory has one reference. -/
theorem createInode_hands {fs : SfsFs} {ino : Nat} {din : DiskInode} {result : Except Int Node}
    (notIn : state.volume.inodes ino = none)
    (called : createInode memory state fs ino din = some (result, after)) : Hands state result after := by
  simp only [createInode] at called
  split at called
  · split at called
    · cases called
    · obtain ⟨rfl, rfl⟩ := Prod.mk.inj (Option.some.inj called)
      apply Bumps.of
      · intro other different
        cases other with
        | device => exact Iff.rfl
        | sfs other =>
          have apart : other ≠ ino := fun same => different (congrArg Node.sfs same)
          simp [VfsState.present, Mounted.put, apart]
      · intro other different
        simp [Fs.FileState.setInode, different]
      · simp [VfsState.counts, VfsState.present, notIn, Mounted.put, Fs.FileState.setInode]
      · simp [VfsState.counts, VfsState.present, notIn, Mounted.put, Fs.FileState.setInode]
      · rfl
  · obtain ⟨rfl, rfl⟩ := Prod.mk.inj (Option.some.inj called)
    exact ⟨rfl, rfl⟩

theorem readInode_hands {ino : Nat} {result : Except Int Node} (notIn : state.volume.inodes ino = none)
    (called : readInode disk memory state ino = some (result, after)) : Hands state result after := by
  obtain ⟨_, _, rest⟩ := Option.bind_eq_some_iff.mp called
  obtain ⟨⟨read, fs⟩, _, rest⟩ := Option.bind_eq_some_iff.mp rest
  cases read with
  | error ret =>
    obtain ⟨rfl, rfl⟩ := Prod.mk.inj (Option.some.inj rest)
    exact ⟨rfl, rfl⟩
  | ok words =>
    simp only at rest
    split at rest
    · cases rest
    · exact createInode_hands notIn rest

theorem sfsLoadInode_hands {ino : Nat} {result : Except Int Node}
    (called : sfsLoadInode disk memory state ino = some (result, after)) : Hands state result after := by
  unfold sfsLoadInode at called
  split at called
  · rename_i sin isIn
    obtain ⟨rfl, rfl⟩ := Prod.mk.inj (Option.some.inj called)
    have present : state.present (.sfs ino) := by simp [VfsState.present, isIn]
    apply Bumps.of
    · intro other different
      cases other with
      | device => exact Iff.rfl
      | sfs other =>
        have apart : other ≠ ino := fun same => different (congrArg Node.sfs same)
        simp [VfsState.present, Mounted.put, apart]
    · intro other different
      simp [Fs.inodeRefInc, Fs.FileState.setInode, different]
    · rw [counts_present present]
      simp [VfsState.counts, VfsState.present, Mounted.put, Fs.inodeRefInc, Fs.FileState.setInode]
    · rw [counts_present present]
      simp [VfsState.counts, VfsState.present, Mounted.put, Fs.inodeRefInc, Fs.FileState.setInode]
    · rfl
  · rename_i notIn
    simp only at called
    split at called
    · have same : SameCounts state { state with allocs := state.allocs + 1 } := ⟨rfl, rfl⟩
      exact same.hands (readInode_hands notIn called)
    · obtain ⟨rfl, rfl⟩ := Prod.mk.inj (Option.some.inj called)
      exact ⟨rfl, rfl⟩

theorem sfsLookupOnce_hands {ino : Nat} {name : Name} {result : Except Int Node}
    (called : sfsLookupOnce disk memory state ino name = some (result, after)) : Hands state result after := by
  obtain ⟨sin, isIn, rest⟩ := Option.bind_eq_some_iff.mp called
  obtain ⟨⟨found, emptySlot, fs, sinAfter⟩, _, rest⟩ := Option.bind_eq_some_iff.mp rest
  have same : SameCounts state
      { state with allocs := state.allocs + 1, volume := state.volume.put ino fs (some sinAfter) } := by
    apply counts_put
    · exact fun other different => Function.update_of_ne different _ _
    · simp [Mounted.put, isIn]
  cases found with
  | error ret =>
    obtain ⟨rfl, rfl⟩ := Prod.mk.inj (Option.some.inj rest)
    exact same
  | ok slot => exact same.hands (sfsLoadInode_hands rest)

theorem sfsLookup_hands {ino : Nat} {path : Name} {result : Except Int Node}
    (called : sfsLookup disk memory state ino path = some (result, after)) : Hands state result after := by
  unfold sfsLookup at called
  split at called
  · cases called
  · obtain ⟨held, raised, rest⟩ := Option.bind_eq_some_iff.mp called
    obtain ⟨sin, _, rest⟩ := Option.bind_eq_some_iff.mp rest
    have first := vopRefInc_bumps raised
    split at rest
    · obtain ⟨last, lowered, isLast⟩ := Option.map_eq_some_iff.mp rest
      obtain ⟨rfl, rfl⟩ := Prod.mk.inj isLast
      exact (first.trans (vopRefDec_bumps lowered)).same
    · obtain ⟨⟨found, middle⟩, looked, rest⟩ := Option.bind_eq_some_iff.mp rest
      obtain ⟨last, lowered, isLast⟩ := Option.map_eq_some_iff.mp rest
      obtain ⟨rfl, rfl⟩ := Prod.mk.inj isLast
      exact first.hands (sfsLookupOnce_hands looked) (vopRefDec_bumps lowered)

theorem vopLookup_hands {path : Name} {result : Except Int Node}
    (called : vopLookup disk memory state node path = some (result, after)) : Hands state result after := by
  obtain ⟨_, _, rest⟩ := Option.bind_eq_some_iff.mp called
  cases node with
  | device index =>
    simp only [devLookup] at rest
    split at rest
    · obtain ⟨rfl, rfl⟩ := Prod.mk.inj (Option.some.inj rest)
      exact SameCounts.refl _
    · obtain ⟨last, raised, isLast⟩ := Option.map_eq_some_iff.mp rest
      obtain ⟨rfl, rfl⟩ := Prod.mk.inj isLast
      exact vopRefInc_bumps raised
  | sfs ino =>
    obtain ⟨sin, _, rest⟩ := Option.bind_eq_some_iff.mp rest
    split at rest
    · exact sfsLookup_hands rest
    · cases rest

/-! ## Paths -/

variable {files : F}

theorem sfsGetRoot_bumps (called : sfsGetRoot disk memory state = some (node, after)) :
    Bumps state after node 1 0 := by
  obtain ⟨⟨loaded, middle⟩, isLoaded, rest⟩ := Option.bind_eq_some_iff.mp called
  have hands := sfsLoadInode_hands isLoaded
  cases loaded with
  | error => cases rest
  | ok root =>
    obtain ⟨rfl, rfl⟩ := Prod.mk.inj (Option.some.inj rest)
    exact hands

theorem getVdevRoot_hands {vdev : VfsDev} {result : Except Int Node}
    (called : getVdevRoot disk memory state vdev = some (result, after)) : Hands state result after := by
  unfold getVdevRoot at called
  split at called
  · obtain ⟨⟨root, last⟩, isRoot, same⟩ := Option.map_eq_some_iff.mp called
    obtain ⟨rfl, rfl⟩ := Prod.mk.inj same
    exact sfsGetRoot_bumps isRoot
  · split at called
    · obtain ⟨index, _, rest⟩ := Option.bind_eq_some_iff.mp called
      obtain ⟨last, raised, same⟩ := Option.map_eq_some_iff.mp rest
      obtain ⟨rfl, rfl⟩ := Prod.mk.inj same
      exact vopRefInc_bumps raised
    · obtain ⟨rfl, rfl⟩ := Prod.mk.inj (Option.some.inj called)
      exact SameCounts.refl _

/-- A pointer that is kept somewhere is handed out with a reference. -/
theorem kept_hands {kept : Option Node} {missing : Int} {result : Except Int Node}
    (called : (match kept with
      | some node => (vopRefInc state node).map fun state => (.ok node, state)
      | none => some (.error missing, state)) = some (result, after)) : Hands state result after := by
  cases kept with
  | some node =>
    obtain ⟨last, raised, same⟩ := Option.map_eq_some_iff.mp called
    obtain ⟨rfl, rfl⟩ := Prod.mk.inj same
    exact vopRefInc_bumps raised
  | none =>
    obtain ⟨rfl, rfl⟩ := Prod.mk.inj (Option.some.inj called)
    exact SameCounts.refl _

theorem currentRoot_hands {result : Except Int Node}
    (called : currentRoot disk memory state files = some (result, after)) : Hands state result after := by
  obtain ⟨⟨current, middle⟩, got, rest⟩ := Option.bind_eq_some_iff.mp called
  have hands : Hands state current middle := kept_hands got
  cases current with
  | error ret =>
    obtain ⟨rfl, rfl⟩ := Prod.mk.inj (Option.some.inj rest)
    exact hands
  | ok node =>
    cases node with
    | device => cases rest
    | sfs ino =>
      obtain ⟨⟨root, loaded⟩, isRoot, rest⟩ := Option.bind_eq_some_iff.mp rest
      obtain ⟨last, lowered, same⟩ := Option.map_eq_some_iff.mp rest
      obtain ⟨rfl, rfl⟩ := Prod.mk.inj same
      exact Bumps.exchange hands (sfsGetRoot_bumps isRoot) (vopRefDec_bumps lowered)

theorem getDevice_hands {path : Name} {result : Except Int Node}
    (called : getDevice disk memory state files path = some (result, after)) : Hands state result after := by
  simp only [getDevice] at called
  split at called
  · exact kept_hands called
  · split at called
    · unfold vfsGetRoot at called
      split at called
      · exact getVdevRoot_hands called
      · obtain ⟨rfl, rfl⟩ := Prod.mk.inj (Option.some.inj called)
        exact SameCounts.refl _
    · split at called
      · exact kept_hands called
      · exact currentRoot_hands called

/-- `vfs_lookup` hands back an inode with one reference more, or changes no count. -/
theorem vfsLookup_hands {path : Name} {result : Except Int Node}
    (called : vfsLookup disk memory state files path = some (result, after)) : Hands state result after := by
  obtain ⟨⟨start, middle⟩, started, rest⟩ := Option.bind_eq_some_iff.mp called
  have hands := getDevice_hands started
  cases start with
  | error ret =>
    obtain ⟨rfl, rfl⟩ := Prod.mk.inj (Option.some.inj rest)
    exact hands
  | ok node =>
    simp only at rest
    split at rest
    · obtain ⟨⟨found, looked⟩, isFound, rest⟩ := Option.bind_eq_some_iff.mp rest
      obtain ⟨last, lowered, same⟩ := Option.map_eq_some_iff.mp rest
      obtain ⟨rfl, rfl⟩ := Prod.mk.inj same
      exact Bumps.hands hands (vopLookup_hands isFound) (vopRefDec_bumps lowered)
    · obtain ⟨rfl, rfl⟩ := Prod.mk.inj (Option.some.inj rest)
      exact hands

end Ucore.Vfs
