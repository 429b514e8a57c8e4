import Ucore.Library.PathNames
import Ucore.Fs.FailedOpen
import Ucore.Fs.TreeLookups

/-!
# Path names

A path starts at a device, at the root of the boot file system, at the root of the current
file system or in the current directory, and its components are looked up from there. The
lookup of a directory takes all that is left of the path for one name: `vfs_lookup` agrees
with the components as long as there is only one of them.
-/

namespace Ucore.Vfs

open Volume PathNames

variable {F : Type}

/-! ## What a path means -/

/-- A path up to its first colon or slash. -/
def pathHead (path : Name) : Name := path.takeWhile fun byte => byte ≠ colon ∧ byte ≠ slash

/-- A path behind its device or its leading slash, if it has one. -/
def pathRest (path : Name) : Name :=
  match path.drop (pathHead path).length with
  | [] => path
  | mark :: rest => if mark = slash ∧ pathHead path ≠ [] then path else rest

/-- The inode behind the name of a device: the root of the file system on it, or its own. -/
def deviceRoot (state : VfsState F) (devname : Name) : Option Node :=
  (state.vdevList.find? fun vdev => vdev.devname = devname).bind fun vdev =>
    if vdev.fs then some (.sfs sfsBlknRoot) else if vdev.mountable then none else vdev.devnode.map .device

/-- Where a path starts. -/
def pathStart (state : VfsState F) (files : F) (path : Name) : Option Node :=
  let current := (state.files.files files).pwd
  match path.drop (pathHead path).length with
  | [] => current
  | mark :: _ =>
      if mark = colon then
        if pathHead path = [] then current.map fun _ => .sfs sfsBlknRoot else deviceRoot state (pathHead path)
      else if pathHead path = [] then state.bootfsNode else current

/-- The lookup of one component. -/
def dirStep (volume : Mounted) (node : Node) (name : Name) : Option Node :=
  match node with
  | .device _ => none
  | .sfs ino => if (volume.din ino).type = sfsTypeDir then (dirFind volume ino name).toOption else none

/-- The inode that the components of a path lead to, one after the other. -/
def resolve (state : VfsState F) (files : F) (path : Name) : Option Node :=
  (pathStart state files path).bind fun start =>
    walk (dirStep state.volume) start (components slash (pathRest path))

/-- An inode from which a lookup can start. -/
def Startable (state : VfsState F) (node : Node) : Prop :=
  match node with
  | .sfs ino => ino ∈ state.volume.files ∧ (state.volume.din ino).type = sfsTypeDir
  | .device _ => 0 < (state.counts node).refCount

/-- A state in which paths can be looked up: the tree has a root, which is held, and names
without slashes, the inodes where paths start are held, and no count is near its limit. -/
structure Settled (state : VfsState F) (files : F) : Prop where
  fit : Fit state
  root : Startable state (.sfs sfsBlknRoot)
  rooted : 0 < (state.counts (.sfs sfsBlknRoot)).refCount
  names : ∀ ino ∈ state.volume.files, (state.volume.din ino).type = sfsTypeDir →
    ∀ slot < (state.volume.din ino).blocks, slash ∉ (entryAt state.volume.fs.disk (state.volume.din ino) slot).string
  roomy : ∀ node, (state.counts node).refCount + 1 < maxInodeCount
  current : ∀ node, (state.files.files files).pwd = some node →
    ∃ ino, node = .sfs ino ∧ Startable state node ∧ 0 < (state.counts node).refCount
  boot : ∀ node, state.bootfsNode = some node → Startable state node ∧ 0 < (state.counts node).refCount
  vdevs : ∀ vdev ∈ state.vdevList, vdev.fs = false → vdev.mountable = false →
    ∃ index, vdev.devnode = some index ∧ 0 < (state.counts (.device index)).refCount

variable {disk : Nat → Int} {memory : Nat → Bool} {state middle after : VfsState F} {files : F} {node : Node}
  {path : Name}

/-! ## `get_device` -/

theorem pathHead_cons (byte : NameByte) (rest : Name) :
    pathHead (byte :: rest) = if byte = colon ∨ byte = slash then [] else byte :: pathHead rest := by
  by_cases mark : byte = colon ∨ byte = slash
  · rw [if_pos mark]
    rcases mark with rfl | rfl <;> simp [pathHead]
  · rw [if_neg mark]
    rw [not_or] at mark
    simp [pathHead, mark]

theorem colon_ne_slash : colon ≠ slash := by decide

/-- The loop of `get_device` stops at the first colon or slash. -/
theorem scanDevice_exact (path : Name) (index : Int) :
    scanDevice path index =
      match path.drop (pathHead path).length with
      | [] => (-1, -1)
      | mark :: _ =>
          if mark = colon then (index + (pathHead path).length, -1) else (-1, index + (pathHead path).length) := by
  induction path generalizing index with
  | nil => rfl
  | cons byte rest ih =>
    rw [pathHead_cons]
    by_cases isColon : byte = colon
    · simp [scanDevice, isColon]
    · by_cases isSlash : byte = slash
      · simp [scanDevice, isSlash, Ne.symm colon_ne_slash]
      · simp only [scanDevice, isColon, isSlash, or_self, if_false, List.length_cons, List.drop_succ_cons, ih]
        have length : index + 1 + ((pathHead rest).length : Int) = index + (((pathHead rest).length + 1 : Nat) : Int) := by
          omega
        rw [length]

/-- The byte that ends the head of a path is a colon or a slash. -/
theorem mark_cases {mark : NameByte} {rest : Name} (behind : path.drop (pathHead path).length = mark :: rest) :
    mark = colon ∨ mark = slash := by
  induction path with
  | nil => simp at behind
  | cons byte path ih =>
    rw [pathHead_cons] at behind
    by_cases isMark : byte = colon ∨ byte = slash
    · rw [if_pos isMark, List.length_nil, List.drop_zero] at behind
      obtain ⟨rfl, _⟩ := List.cons.inj behind
      exact isMark
    · rw [if_neg isMark, List.length_cons, List.drop_succ_cons] at behind
      exact ih behind

/-- The head of a path is in front of the byte that ends it. -/
theorem pathHead_take (path : Name) : path.take (pathHead path).length = pathHead path := by
  exact (List.prefix_iff_eq_take.mp (List.takeWhile_prefix _)).symm

theorem skipSlashes_head (nonempty : pathHead path ≠ []) : skipSlashes path = path := by
  cases path with
  | nil => rfl
  | cons byte rest =>
    rw [pathHead_cons] at nonempty
    have notSlash : byte ≠ slash := by
      rintro rfl
      simp at nonempty
    simp [skipSlashes, notSlash]

/-- The path that `get_device` leaves to the lookup. -/
theorem subpath_exact (path : Name) : subpath path = skipSlashes (pathRest path) := by
  have scanned := scanDevice_exact path 0
  unfold subpath pathRest
  cases behind : path.drop (pathHead path).length with
  | nil =>
    rw [behind] at scanned
    have whole : pathHead path = path := by
      have all := List.drop_eq_nil_iff.mp behind
      rw [← pathHead_take, List.take_of_length_le all]
    simp only [scanned]
    rw [if_pos (by decide)]
    cases path with
    | nil => rfl
    | cons byte rest => exact (skipSlashes_head (by simp [whole])).symm
  | cons mark rest =>
    rw [behind] at scanned
    have isRest : path.drop ((pathHead path).length + 1) = rest := by
      rw [← List.drop_drop, behind]
      rfl
    rcases mark_cases behind with rfl | rfl
    · simp only [if_true] at scanned
      simp only [scanned, colon_ne_slash, false_and, if_false]
      by_cases empty : pathHead path = []
      · rw [empty] at isRest
        simpa [empty] using congrArg skipSlashes isRest
      · have positive : 0 < (pathHead path).length := List.length_pos_iff.mpr empty
        have notNegative : ¬ ((0 : Int) + (pathHead path).length < 0 ∧ (-1 : Int) ≠ 0) := by omega
        have isPositive : (0 : Int) < 0 + (pathHead path).length := by omega
        rw [if_neg notNegative, if_pos isPositive]
        have length : ((0 : Int) + (pathHead path).length).toNat = (pathHead path).length := by omega
        rw [length, isRest]
    · simp only [Ne.symm colon_ne_slash, if_false] at scanned
      simp only [scanned, true_and]
      by_cases empty : pathHead path = []
      · rw [empty] at isRest
        simpa [empty] using congrArg skipSlashes isRest
      · have positive : 0 < (pathHead path).length := List.length_pos_iff.mpr empty
        have isRelative : (-1 : Int) < 0 ∧ (0 : Int) + (pathHead path).length ≠ 0 := by omega
        rw [if_pos isRelative, if_pos empty, skipSlashes_head empty]

/-- `get_device` hands out the inode where the path starts, or fails when there is none. -/
def Begun (state : VfsState F) (start : Option Node) (result : Except Int Node) (after : VfsState F) : Prop :=
  Went state after ∧ after.allocs = state.allocs ∧
    match start with
    | some node => result = .ok node ∧ Startable state node
    | none => ∃ code, result = .error code

theorem vopRefInc_allocs (called : vopRefInc state node = some after) : after.allocs = state.allocs := by
  unfold vopRefInc at called
  split at called
  · rw [← Option.some.inj called]
  · cases called

theorem vopRefDec_allocs (called : vopRefDec disk state node = some after) : after.allocs = state.allocs := by
  unfold vopRefDec at called
  split at called
  · obtain ⟨table, _, rest⟩ := Option.bind_eq_some_iff.mp called
    simp only at rest
    split at rest
    · unfold vopReclaim at rest
      obtain ⟨_, _, rest⟩ := Option.bind_eq_some_iff.mp rest
      cases node with
      | device index => cases rest
      | sfs ino =>
        obtain ⟨next, _, rest⟩ := Option.bind_eq_some_iff.mp rest
        simp only at rest
        split at rest
        · cases rest
        · rw [← Option.some.inj rest]
    · rw [← Option.some.inj rest]
  · cases called

/-- An inode that is held somewhere is handed out. -/
theorem kept_begun (fit : Fit state) {kept : Option Node} {missing : Int}
    (holds : ∀ node, kept = some node → Startable state node ∧ 0 < (state.counts node).refCount) :
    ∃ result after, (match kept with
      | some node => (vopRefInc state node).map fun state => (.ok node, state)
      | none => some (.error missing, state)) = some (result, after) ∧ Begun state kept result after := by
  cases kept with
  | none => exact ⟨_, _, rfl, Went.refl fit, rfl, missing, rfl⟩
  | some node =>
    obtain ⟨startable, held⟩ := holds node rfl
    obtain ⟨after, raised, went, _⟩ := vopRefInc_fit fit held
    exact ⟨.ok node, after, by simp [raised], went, vopRefInc_allocs raised, rfl, startable⟩

/-- The root of the file system is in memory. -/
theorem sfsGetRoot_went (works : ∀ call, disk call = 0) (fit : Fit state) {sin : SfsInode}
    (isIn : state.volume.inodes sfsBlknRoot = some sin) :
    ∃ after, sfsGetRoot disk memory state = some (.sfs sfsBlknRoot, after) ∧ Went state after ∧
      after.allocs = state.allocs := by
  obtain ⟨member, _⟩ := fit.cached.loaded sfsBlknRoot sin isIn
  obtain ⟨result, after, loaded, went, _⟩ := @sfsLoadInode_fit _ disk memory state _ works fit member
  have called := loaded
  simp only [sfsLoadInode, isIn, Option.some.injEq, Prod.mk.injEq] at called
  obtain ⟨rfl, isAfter⟩ := called
  refine ⟨after, ?_, went, by rw [← isAfter]⟩
  simp only [sfsGetRoot, loaded, Option.bind_eq_bind, Option.bind_some]

variable (memory) in
theorem currentRoot_begun (works : ∀ call, disk call = 0) (settled : Settled state files) :
    ∃ result after, currentRoot disk memory state files = some (result, after) ∧
      Begun state ((state.files.files files).pwd.map fun _ => .sfs sfsBlknRoot) result after := by
  cases isCurrent : (state.files.files files).pwd with
  | none =>
    refine ⟨.error (-eNoent), state, ?_, Went.refl settled.fit, rfl, _, rfl⟩
    simp only [currentRoot, vfsGetCurdir, isCurrent, Option.bind_eq_bind, Option.bind_some]
  | some node =>
    obtain ⟨ino, rfl, _, held⟩ := settled.current node isCurrent
    obtain ⟨current, raised, went, volume⟩ := vopRefInc_fit settled.fit held
    obtain ⟨sin, isIn⟩ := inMemory_of_held settled.rooted
    rw [← volume] at isIn
    obtain ⟨rooted, isRoot, wentOn, allocs⟩ := @sfsGetRoot_went _ disk memory current works went.fit _ isIn
    have counted := settled.fit.counted (.sfs ino)
    have first := (vopRefInc_bumps raised).counts
    have second := (sfsGetRoot_bumps isRoot).counts
    have counts : (rooted.counts (.sfs ino)).openCount < (rooted.counts (.sfs ino)).refCount := by
      rw [second, first]
      by_cases same : Node.sfs ino = .sfs sfsBlknRoot
      · rw [same] at counted held ⊢
        simp only [bump_self]
        omega
      · rw [bump_other same]
        simp only [bump_self]
        omega
    obtain ⟨after, lowered, wentLast⟩ := vopRefDec_fit works wentOn.fit counts
    refine ⟨.ok (.sfs sfsBlknRoot), after, ?_, (went.trans wentOn).trans wentLast, ?_, rfl, settled.root⟩
    case refine_2 => rw [vopRefDec_allocs lowered, allocs, vopRefInc_allocs raised]
    simp only [currentRoot, vfsGetCurdir, isCurrent, raised, Option.map_some, isRoot, lowered, Option.bind_eq_bind,
      Option.bind_some]

variable (memory) in
theorem getVdevRoot_begun (works : ∀ call, disk call = 0) (settled : Settled state files) (devname : Name) :
    ∃ result after, vfsGetRoot disk memory state devname = some (result, after) ∧
      Begun state (deviceRoot state devname) result after := by
  unfold vfsGetRoot deviceRoot
  cases isFound : state.vdevList.find? fun vdev => vdev.devname = devname with
  | none => exact ⟨_, _, rfl, Went.refl settled.fit, rfl, _, rfl⟩
  | some vdev =>
    have member := List.mem_of_find?_eq_some isFound
    simp only [Option.bind_some, getVdevRoot]
    by_cases mounted : vdev.fs = true
    · obtain ⟨sin, isIn⟩ := inMemory_of_held settled.rooted
      obtain ⟨after, isRoot, went, allocs⟩ := @sfsGetRoot_went _ disk memory state works settled.fit _ isIn
      simp only [mounted, if_true, isRoot, Option.map_some]
      exact ⟨_, _, rfl, went, allocs, rfl, settled.root⟩
    · have noFs : vdev.fs = false := by simpa using mounted
      by_cases mountable : vdev.mountable = true
      · simp only [noFs, mountable, Bool.false_eq_true, if_false, Bool.true_eq_false, if_true]
        exact ⟨_, _, rfl, Went.refl settled.fit, rfl, _, rfl⟩
      · have notMountable : vdev.mountable = false := by simpa using mountable
        obtain ⟨index, isIndex, held⟩ := settled.vdevs vdev member noFs notMountable
        obtain ⟨after, raised, went, _⟩ := vopRefInc_fit settled.fit held
        simp only [noFs, notMountable, Bool.false_eq_true, if_false, if_true, isIndex, Option.bind_eq_bind,
          Option.bind_some, raised, Option.map_some]
        exact ⟨_, _, rfl, went, vopRefInc_allocs raised, rfl, held⟩

variable (memory) in
theorem getDevice_begun (works : ∀ call, disk call = 0) (settled : Settled state files) (path : Name) :
    ∃ result after, getDevice disk memory state files path = some (result, after) ∧
      Begun state (pathStart state files path) result after := by
  have current := @kept_begun _ state settled.fit (state.files.files files).pwd (-eNoent) fun node isCurrent => by
    obtain ⟨_, _, startable, held⟩ := settled.current node isCurrent
    exact ⟨startable, held⟩
  have scanned := scanDevice_exact path 0
  unfold getDevice pathStart
  cases behind : path.drop (pathHead path).length with
  | nil =>
    rw [behind] at scanned
    simp only [scanned]
    rw [if_pos (by decide)]
    exact current
  | cons mark rest =>
    rw [behind] at scanned
    have positive : pathHead path ≠ [] → 0 < (pathHead path).length := List.length_pos_iff.mpr
    rcases mark_cases behind with rfl | rfl
    · simp only [if_true] at scanned
      simp only [scanned, if_true]
      have notNegative : ¬ ((0 : Int) + (pathHead path).length < 0 ∧ (-1 : Int) ≠ 0) := by omega
      rw [if_neg notNegative]
      by_cases empty : pathHead path = []
      · rw [if_pos empty, empty]
        exact currentRoot_begun memory works settled
      · have isPositive : (0 : Int) < 0 + (pathHead path).length := by have := positive empty; omega
        have length : ((0 : Int) + (pathHead path).length).toNat = (pathHead path).length := by omega
        rw [if_neg empty, if_pos isPositive, length, pathHead_take]
        exact getVdevRoot_begun memory works settled _
    · simp only [Ne.symm colon_ne_slash, if_false] at scanned
      simp only [scanned, Ne.symm colon_ne_slash, if_false]
      by_cases empty : pathHead path = []
      · rw [if_pos empty, empty]
        exact @kept_begun _ state settled.fit state.bootfsNode (-eNoent) settled.boot
      · have isRelative : (-1 : Int) < 0 ∧ (0 : Int) + (pathHead path).length ≠ 0 := by
          have := positive empty
          omega
        rw [if_neg empty, if_pos isRelative]
        exact current

/-! ## `vop_lookup` -/

/-- A name with a slash is not in a directory. -/
theorem dirFind_slash {ino : Nat} (settled : Settled state files) (member : ino ∈ state.volume.files)
    (isDir : (state.volume.din ino).type = sfsTypeDir) {name : Name} (hasSlash : slash ∈ name) :
    dirFind state.volume ino name = .error (-eNoent) := by
  unfold dirFind
  cases isFirst : firstSlot state.volume.fs.disk (state.volume.din ino) 0 (state.volume.din ino).blocks
      (isNamed name) with
  | none => rfl
  | some slot =>
    obtain ⟨small, named⟩ := firstSlot_some isFirst
    simp only [isNamed, decide_eq_true_eq] at named
    exact absurd (named.2 ▸ hasSlash) (settled.names ino member isDir slot small)

/-- The same tree has the same entries. -/
theorem dirFind_same {volume next : Mounted} {ino : Nat} (same : SameTree volume next) (tree : Tree volume)
    (member : ino ∈ volume.files) (isDir : (volume.din ino).type = sfsTypeDir) (name : Name) :
    dirFind next ino name = dirFind volume ino name := by
  unfold dirFind
  rw [same.firstSlot tree member isDir]
  cases isFirst : firstSlot volume.fs.disk (volume.din ino) 0 (volume.din ino).blocks (isNamed name) with
  | none => rfl
  | some slot =>
    obtain ⟨small, _⟩ := firstSlot_some isFirst
    simp only [same.entryAt tree member isDir small]

/-- A path that is too long for a name is a failed assertion. -/
theorem vopLookup_long {ino : Nat} {sin : SfsInode} (isIn : state.volume.inodes ino = some sin)
    (isDir : sin.din.type = sfsTypeDir) (long : sfsMaxFnameLen < path.length) :
    vopLookup disk memory state (.sfs ino) path = none := by
  have notShort : ¬ path.length ≤ sfsMaxFnameLen := Nat.not_le.mpr long
  have present : state.present (.sfs ino) := by simp [VfsState.present, isIn]
  unfold vopLookup inodeCheck sfsLookup sfsLookupOnce sfsDirentSearchNolock
  simp only [vopRefInc, if_pos present, isIn, isDir, if_neg notShort, Option.bind_eq_bind, Option.bind_some,
    Option.bind_none, ne_eq, not_true_eq_false, if_false, ite_self, Option.bind_fun_none]

/-- The lookup of a name that a directory does not have. -/
theorem sfsLookupOnce_absent {ino : Nat} {sin : SfsInode} {result : Except Int Node} (works : ∀ call, disk call = 0)
    (fit : Fit state) (isIn : state.volume.inodes ino = some sin) (isDir : sin.din.type = sfsTypeDir)
    (short : path.length ≤ sfsMaxFnameLen) (absent : dirFind state.volume ino path = .error (-eNoent))
    (called : sfsLookupOnce disk memory state ino path = some (result, after)) :
    result = if memory state.allocs then .error (-eNoent) else .error (-eNoMem) := by
  obtain ⟨member, _⟩ := fit.cached.loaded ino sin isIn
  have isDin := din_of isIn
  have readable : Readable state.volume.fs sin.din := isDin ▸ fit.tree.readable ino member (isDin ▸ isDir)
  by_cases room : memory state.allocs = true
  · obtain ⟨found, left, calls, isFound, outcome⟩ := sfsDirentSearchNolock_expected disk readable short
    obtain rfl := outcome.works works
    simp only [dirFind, isDin] at absent
    cases isFirst : firstSlot state.volume.fs.disk sin.din 0 sin.din.blocks (isNamed path) with
    | some slot => simp [isFirst] at absent
    | none =>
      simp only [sfsLookupOnce, isIn, room, isFound, Option.bind_eq_bind, Option.bind_some, searched, isFirst,
        Option.some.injEq, Prod.mk.injEq] at called
      simpa only [room, if_true] using called.1.symm
  · have noRoom : memory state.allocs = false := by simpa using room
    simp only [sfsLookupOnce, isIn, noRoom, sfsDirentSearchNolock, if_pos short, if_true, Option.bind_eq_bind,
      Option.bind_some, Option.some.injEq, Prod.mk.injEq] at called
    simpa only [noRoom, Bool.false_eq_true, if_false] using called.1.symm

/-- A directory with a reference looks up a name. -/
theorem vopLookup_fit {ino : Nat} (works : ∀ call, disk call = 0) (fit : Fit state)
    (isDir : (state.volume.din ino).type = sfsTypeDir) (held : 0 < (state.counts (.sfs ino)).refCount)
    (roomy : (state.counts (.sfs ino)).refCount < maxInodeCount) (nonempty : path ≠ [])
    (noSlash : path.head? ≠ some slash) (short : path.length ≤ sfsMaxFnameLen) :
    ∃ result after, vopLookup disk memory state (.sfs ino) path = some (result, after) ∧ Went state after ∧
      Allocated memory state result (dirFind state.volume ino path) after ∧
      (dirFind state.volume ino path = .error (-eNoent) →
        result = if memory state.allocs then .error (-eNoent) else .error (-eNoMem)) := by
  obtain ⟨sin, isIn⟩ := inMemory_of_held held
  obtain ⟨member, _⟩ := fit.cached.loaded ino sin isIn
  have sinDir : sin.din.type = sfsTypeDir := din_of isIn ▸ isDir
  have ops : sfsGetOps sfsTypeDir = some true := by decide
  have present := present_of_held held
  have counted := fit.counted (.sfs ino)
  obtain ⟨raised, isRaised, went, volume⟩ := vopRefInc_fit fit held
  have raisedIn : raised.volume.inodes ino = some sin := volume ▸ isIn
  obtain ⟨result, looked, isLooked, wentOn, allocated⟩ :=
    @sfsLookupOnce_fit _ disk memory raised ino sin path works went.fit raisedIn sinDir short
  have spare : (raised.counts (.sfs ino)).openCount < (raised.counts (.sfs ino)).refCount := by
    rw [(vopRefInc_bumps isRaised).counts, bump_self]
    dsimp only
    omega
  obtain ⟨after, lowered, wentLast⟩ := vopRefDec_fit works wentOn.fit ((sfsLookupOnce_hands isLooked).spare spare)
  have checked : inodeCheck state (.sfs ino) = some () := by
    rw [counts_present present] at counted roomy
    unfold inodeCheck
    rw [if_pos]
    refine ⟨present, ?_, ?_, ?_, ?_⟩ <;> omega
  refine ⟨result, after, ?_, (went.trans wentOn).trans wentLast, ?_, fun absent => ?_⟩
  · simp only [vopLookup, checked, isIn, sinDir, ops, sfsLookup, nonempty, noSlash, or_self, isRaised, raisedIn,
      isLooked, lowered, Option.bind_eq_bind, Option.bind_some, Option.map_some, if_true, if_false, ne_eq,
      not_true_eq_false]
  · rw [volume] at allocated
    rcases allocated with same | ⟨same, lacks⟩
    · exact Or.inl same
    · exact Or.inr ⟨same, lacks.within went wentLast⟩
  · rw [← vopRefInc_allocs isRaised]
    rw [← volume] at absent
    exact sfsLookupOnce_absent works went.fit raisedIn sinDir short absent isLooked

/-- The inode of a device finds nothing. -/
theorem vopLookup_device {index : Nat} (held : 1 < (state.counts (.device index)).refCount)
    (roomy : (state.counts (.device index)).refCount < maxInodeCount) (nonempty : path ≠ [])
    (counted : 0 ≤ (state.counts (.device index)).openCount ∧
      (state.counts (.device index)).openCount ≤ (state.counts (.device index)).refCount) :
    vopLookup disk memory state (.device index) path = some (.error (-eNoent), state) ∧
      ∃ after, vopRefDec disk state (.device index) = some after := by
  have present : state.present (.device index) := trivial
  rw [counts_present present] at held roomy counted
  constructor
  · have checked : inodeCheck state (.device index) = some () := by
      unfold inodeCheck
      rw [if_pos]
      refine ⟨present, ?_, ?_, ?_, ?_⟩ <;> omega
    simp only [vopLookup, checked, devLookup, nonempty, Option.bind_eq_bind, Option.bind_some, ne_eq,
      not_false_eq_true, if_true]
  · have positive : 0 < (state.files.inodes (.device index)).refCount := by omega
    have notLast : (state.files.inodes (.device index)).refCount - 1 ≠ 0 := by omega
    apply Option.isSome_iff_exists.mp
    simp only [vopRefDec, if_pos present, Fs.inodeRefDec, if_pos positive, Option.bind_eq_bind, Option.bind_some,
      Fs.FileState.setInode, Function.update_self, if_neg notLast, Option.isSome_some]

/-! ## The components of a path -/

/-- What is left of a path does not start with a slash. -/
theorem subpath_head (path : Name) : (subpath path).head? ≠ some slash := by
  rw [subpath_exact]
  intro isSlash
  have passes := List.head?_dropWhile_not (fun byte => decide (byte = slash)) (pathRest path)
  simp only [skipSlashes] at isSlash
  simp [isSlash] at passes

/-- The components of a path are those of what is left of it. -/
theorem resolve_subpath (isStart : pathStart state files path = some node) :
    resolve state files path = walk (dirStep state.volume) node (components slash (subpath path)) := by
  simp only [resolve, isStart, Option.bind_some, subpath_exact, skipSlashes, components_dropWhile]

theorem resolve_plain (isStart : pathStart state files path = some node) (nonempty : subpath path ≠ [])
    (plain : slash ∉ subpath path) : resolve state files path = dirStep state.volume node (subpath path) := by
  rw [resolve_subpath isStart, components_plain nonempty plain, walk_single]

theorem resolve_device {index : Nat} (isStart : pathStart state files path = some (.device index))
    (nonempty : subpath path ≠ []) : resolve state files path = none := by
  rw [resolve_subpath isStart]
  obtain ⟨first, rest, isComponents⟩ := List.exists_cons_of_ne_nil (components_ne_nil nonempty (subpath_head path))
  rw [isComponents]
  rfl

/-! ## `vfs_lookup` -/

/-- The outcome of the lookup of a path: the inode that its components lead to, or an error
where one of them leads nowhere; or there was no memory. -/
def Resolved (memory : Nat → Bool) (state : VfsState F) (files : F) (path : Name) (result : Except Int Node)
    (after : VfsState F) : Prop :=
  result = .error (-eNoMem) ∧ NoMemory memory state after ∨
    match resolve state files path with
    | some node => result = .ok node
    | none => ∃ code, result = .error code ∧ (pathStart state files path = none ∨ code = -eNoent ∨ code = -eNotdir)

/-- `vfs_lookup` follows the components of a path, and gives a reference to the inode it
returns and to no other. -/
def ByComponents (disk : Nat → Int) (memory : Nat → Bool) (state : VfsState F) (files : F) (path : Name) : Prop :=
  ∃ result after, vfsLookup disk memory state files path = some (result, after) ∧ Hands state result after ∧
    Resolved memory state files path result after

/-- What is left of a path for a directory can be one name: it is short enough, and has no
slash unless the path leads nowhere anyway. The memory for the first entry may lack, too. -/
def PlainPath (memory : Nat → Bool) (state : VfsState F) (files : F) (path : Name) : Prop :=
  ∀ ino, pathStart state files path = some (.sfs ino) → (subpath path).length ≤ sfsMaxFnameLen ∧
    (slash ∈ subpath path → resolve state files path = none ∨ memory state.allocs = false)

/-- A lookup that returns has handed out what it found. -/
theorem Resolved.byComponents {result : Except Int Node}
    (called : vfsLookup disk memory state files path = some (result, after))
    (resolved : Resolved memory state files path result after) : ByComponents disk memory state files path :=
  ⟨result, after, called, vfsLookup_hands called, resolved⟩

variable (memory) in
/-- A lookup that ends where it starts, or cannot start, or starts at a device. -/
theorem vfsLookup_begins (works : ∀ call, disk call = 0) (settled : Settled state files)
    (begins : subpath path = [] ∨ ∀ ino, pathStart state files path ≠ some (.sfs ino)) :
    ByComponents disk memory state files path := by
  obtain ⟨start, begun, isBegun, went, _, expected⟩ := getDevice_begun memory works settled path
  cases isStart : pathStart state files path with
  | none =>
    simp only [isStart] at expected
    obtain ⟨code, rfl⟩ := expected
    have called : vfsLookup disk memory state files path = some (.error code, begun) := by
      simp only [vfsLookup, isBegun, Option.bind_eq_bind, Option.bind_some]
    apply Resolved.byComponents called
    right
    simp only [resolve, isStart, Option.bind_none]
    exact ⟨code, rfl, Or.inl trivial⟩
  | some node =>
    simp only [isStart] at expected
    obtain ⟨rfl, startable⟩ := expected
    by_cases empty : subpath path = []
    · have called : vfsLookup disk memory state files path = some (.ok node, begun) := by
        simp only [vfsLookup, isBegun, empty, Option.bind_eq_bind, Option.bind_some, ne_eq, not_true_eq_false,
          if_false]
      apply Resolved.byComponents called
      right
      simp only [resolve_subpath isStart, empty, components_nil, walk]
    · obtain ⟨index, rfl⟩ : ∃ index, node = .device index := by
        cases node with
        | device index => exact ⟨index, rfl⟩
        | sfs ino =>
          rcases begins with isEmpty | noSfs
          · exact absurd isEmpty empty
          · exact absurd isStart (noSfs ino)
      have counts := congrFun (getDevice_hands isBegun).counts (.device index)
      rw [bump_self] at counts
      have held : 0 < (state.counts (.device index)).refCount := startable
      have roomy := settled.roomy (.device index)
      have counted := went.fit.counted (.device index)
      obtain ⟨looked, after, lowered⟩ := @vopLookup_device _ disk memory begun (subpath path) index
        (by rw [counts]; dsimp only; omega) (by rw [counts]; exact roomy) empty counted
      have called : vfsLookup disk memory state files path = some (.error (-eNoent), after) := by
        simp only [vfsLookup, isBegun, empty, looked, lowered, Option.bind_eq_bind, Option.bind_some, Option.map_some,
          ne_eq, not_false_eq_true, if_true]
      apply Resolved.byComponents called
      right
      simp only [resolve_device isStart empty]
      exact ⟨_, rfl, Or.inr (Or.inl rfl)⟩

variable (memory) in
/-- A lookup that starts in a directory looks up all that is left of the path as one name. -/
theorem vfsLookup_dir (works : ∀ call, disk call = 0) (settled : Settled state files) {ino : Nat}
    (isStart : pathStart state files path = some (.sfs ino)) (nonempty : subpath path ≠ []) :
    (sfsMaxFnameLen < (subpath path).length → vfsLookup disk memory state files path = none) ∧
      ((subpath path).length ≤ sfsMaxFnameLen →
        ∃ result after, vfsLookup disk memory state files path = some (result, after) ∧
          Allocated memory state result (dirFind state.volume ino (subpath path)) after ∧
          (dirFind state.volume ino (subpath path) = .error (-eNoent) →
            result = if memory state.allocs then .error (-eNoent) else .error (-eNoMem))) := by
  obtain ⟨start, begun, isBegun, went, allocs, expected⟩ := getDevice_begun memory works settled path
  simp only [isStart] at expected
  obtain ⟨rfl, member, isDir⟩ := expected
  have counts := congrFun (getDevice_hands isBegun).counts (.sfs ino)
  rw [bump_self] at counts
  have counted := settled.fit.counted (.sfs ino)
  have roomy := settled.roomy (.sfs ino)
  have held : 0 < (begun.counts (.sfs ino)).refCount := by
    rw [counts]
    dsimp only
    omega
  have sameDir : (begun.volume.din ino).type = sfsTypeDir := by rw [(went.tree.din ino member).type, isDir]
  constructor
  · intro long
    obtain ⟨sin, isIn⟩ := inMemory_of_held held
    have panics := @vopLookup_long _ disk memory begun _ ino sin isIn (din_of isIn ▸ sameDir) long
    simp only [vfsLookup, isBegun, nonempty, panics, Option.bind_eq_bind, Option.bind_some, Option.bind_none, ne_eq,
      not_false_eq_true, if_true]
  · intro short
    have beginsRoomy : (begun.counts (.sfs ino)).refCount < maxInodeCount := by
      rw [counts]
      exact roomy
    obtain ⟨result, looked, isLooked, wentOn, allocated, absent⟩ := @vopLookup_fit _ disk memory begun _ ino works
      went.fit sameDir held beginsRoomy nonempty (subpath_head path) short
    rw [dirFind_same went.tree settled.fit.tree member isDir] at allocated absent
    rw [allocs] at absent
    have spare : (begun.counts (.sfs ino)).openCount < (begun.counts (.sfs ino)).refCount := by
      rw [counts]
      dsimp only
      omega
    obtain ⟨after, lowered, wentLast⟩ := vopRefDec_fit works wentOn.fit ((vopLookup_hands isLooked).spare spare)
    refine ⟨result, after, ?_, ?_, absent⟩
    · simp only [vfsLookup, isBegun, nonempty, isLooked, lowered, Option.bind_eq_bind, Option.bind_some,
        Option.map_some, ne_eq, not_false_eq_true, if_true]
    · rcases allocated with same | ⟨same, lacks⟩
      · exact Or.inl same
      · exact Or.inr ⟨same, lacks.within went wentLast⟩

/-- The inode that a name leads to is the one that its directory names. -/
theorem dirFind_ok {volume : Mounted} {ino : Nat} {name : Name} {found : Node}
    (isFound : dirFind volume ino name = .ok found) (isDir : (volume.din ino).type = sfsTypeDir) :
    dirStep volume (.sfs ino) name = some found := by
  simp only [dirStep, isDir, if_true, isFound]
  rfl

theorem dirFind_error {volume : Mounted} {ino : Nat} {name : Name} {code : Int}
    (absent : dirFind volume ino name = .error code) : dirStep volume (.sfs ino) name = none := by
  simp only [dirStep, absent]
  split <;> rfl

/-- The only error of a directory is that it does not have the name. -/
theorem dirFind_code {volume : Mounted} {ino : Nat} {name : Name} {code : Int}
    (absent : dirFind volume ino name = .error code) : code = -eNoent := by
  unfold dirFind at absent
  split at absent
  · cases absent
  · exact (Except.error.inj absent).symm

/-- With a device that works, `vfs_lookup` follows the components of a path exactly when
what is left of it for a directory can be one name. -/
theorem lookup_by_components (disk : Nat → Int) (memory : Nat → Bool) (state : VfsState F) (files : F) (path : Name)
    (works : ∀ call, disk call = 0) (settled : Settled state files) :
    ByComponents disk memory state files path ↔ PlainPath memory state files path := by
  by_cases begins : subpath path = [] ∨ ∀ ino, pathStart state files path ≠ some (.sfs ino)
  · refine ⟨fun _ ino isStart => ?_, fun _ => vfsLookup_begins memory works settled begins⟩
    rcases begins with empty | noSfs
    · simp [empty]
    · exact absurd isStart (noSfs ino)
  simp only [not_or, not_forall, not_not] at begins
  obtain ⟨nonempty, ino, isStart⟩ := begins
  obtain ⟨panics, looks⟩ := vfsLookup_dir memory works settled isStart nonempty
  obtain ⟨_, _, _, _, _, started⟩ := getDevice_begun memory works settled path
  simp only [isStart] at started
  obtain ⟨_, member, isDir⟩ := started
  constructor
  · rintro ⟨result, after, called, _, resolved⟩ other isOther
    obtain rfl : ino = other := Node.sfs.inj (Option.some.inj (isStart.symm.trans isOther))
    have short : (subpath path).length ≤ sfsMaxFnameLen := by
      by_contra long
      rw [panics (Nat.not_le.mp long)] at called
      cases called
    refine ⟨short, fun hasSlash => ?_⟩
    obtain ⟨same, last, calledSame, _, absent⟩ := looks short
    obtain ⟨rfl, rfl⟩ := Prod.mk.inj (Option.some.inj (called.symm.trans calledSame))
    have isResult := absent (dirFind_slash settled member isDir hasSlash)
    by_contra neither
    simp only [not_or, Bool.not_eq_false] at neither
    obtain ⟨leads, room⟩ := neither
    obtain ⟨found, isFound⟩ := Option.ne_none_iff_exists'.mp leads
    rw [room, if_pos rfl] at isResult
    rcases resolved with ⟨noMem, _⟩ | resolved
    · rw [isResult] at noMem
      cases noMem
    · simp only [isFound, isResult] at resolved
      cases resolved
  · intro plain
    obtain ⟨short, noSlash⟩ := plain ino isStart
    obtain ⟨result, after, called, allocated, absent⟩ := looks short
    apply Resolved.byComponents called
    rcases allocated with rfl | ⟨noMem, lacks⟩
    · right
      cases isFound : dirFind state.volume ino (subpath path) with
      | ok found =>
        have plain : slash ∉ subpath path := by
          intro hasSlash
          rw [dirFind_slash settled member isDir hasSlash] at isFound
          cases isFound
        simp only [resolve_plain isStart nonempty plain, dirFind_ok isFound isDir]
      | error code =>
        have isNoent := dirFind_code isFound
        subst isNoent
        have leadsNowhere : resolve state files path = none := by
          by_cases hasSlash : slash ∈ subpath path
          · rcases noSlash hasSlash with nowhere | noRoom
            · exact nowhere
            · have isResult := absent isFound
              rw [isFound, noRoom, if_neg (by decide)] at isResult
              cases isResult
          · rw [resolve_plain isStart nonempty hasSlash, dirFind_error isFound]
        simp only [leadsNowhere]
        exact ⟨_, rfl, Or.inr (Or.inl rfl)⟩
    · exact Or.inl ⟨noMem, lacks⟩

/-! ## A path of two components -/

theorem smallTree_tree : Tree smallTree where
  usable := by
    unfold SfsFs.Usable
    decide +kernel
  linked := by decide +kernel
  typed := by decide +kernel
  readable := by
    have dirs : ∀ ino ∈ smallTree.files, (smallTree.din ino).type = sfsTypeDir →
        (smallTree.din ino).blocks ≤ sfsNdirect ∧ ∀ slot < (smallTree.din ino).blocks,
          assertInuse smallTree.fs (slotBlock smallTree.fs.disk (smallTree.din ino) slot) = some () := by
      decide +kernel
    intro ino member isDir
    obtain ⟨few, usable⟩ := dirs ino member isDir
    exact ⟨isDir, by omega, by omega, usable⟩
  apart := by
    have dirs : ∀ ino ∈ smallTree.files, (smallTree.din ino).type = sfsTypeDir →
        (smallTree.din ino).blocks ≤ sfsNdirect ∧ ∀ slot < (smallTree.din ino).blocks,
          slotBlock smallTree.fs.disk (smallTree.din ino) slot ∉ smallTree.files := by
      decide +kernel
    intro ino member isDir
    obtain ⟨few, apart⟩ := dirs ino member isDir
    exact ⟨by omega, apart⟩
  entries := by decide +kernel

theorem smallTree_cached : Cached smallTree where
  loaded := by
    intro ino sin isIn
    by_cases isRoot : ino = 1
    · subst isRoot
      obtain rfl := Option.some.inj isIn
      decide
    · simp [smallTree, isRoot] at isIn
  synced := by
    intro ino sin isIn _
    by_cases isRoot : ino = 1
    · subst isRoot
      obtain rfl := Option.some.inj isIn
      refine ⟨by decide +kernel, by decide +kernel, by decide +kernel, ?_, by decide +kernel⟩
      decide +kernel
    · simp [smallTree, isRoot] at isIn

theorem smallState_settled : Settled smallState () where
  fit := {
    tree := smallTree_tree
    cached := smallTree_cached
    counted := by
      intro node
      unfold VfsState.counts
      split
      · simp only [smallState]
        split <;> decide
      · decide
    reclaims := by
      intro ino sin isIn
      by_cases isRoot : ino = 1
      · subst isRoot
        obtain rfl := Option.some.inj isIn
        decide
      · simp [smallState, smallTree, isRoot] at isIn }
  root := by
    unfold Startable
    decide +kernel
  rooted := by decide
  names := by decide +kernel
  roomy := by
    intro node
    unfold VfsState.counts
    split
    · simp only [smallState]
      split <;> decide
    · decide
  current := by
    rintro node isNode
    obtain rfl := Option.some.inj isNode
    exact ⟨1, rfl, by unfold Startable; decide +kernel, by decide⟩
  boot := by
    rintro node isNode
    obtain rfl := Option.some.inj isNode
    exact ⟨by unfold Startable; decide +kernel, by decide⟩
  vdevs := by decide

/-- The path `a` is one name, and its inode is found. -/
theorem lookup_by_components_name : ByComponents (fun _ => 0) (fun _ => true) smallState () nameA := by
  apply (lookup_by_components (fun _ => 0) (fun _ => true) smallState () nameA (fun _ => rfl) smallState_settled).mpr
  intro ino _
  exact ⟨by decide, fun hasSlash => absurd hasSlash (by decide)⟩

/-- The path `d/..`. -/
def pathUp : Name := [letterD, slash, dot, dot]

/-- The components of `d/..` lead back to the root, and `vfs_lookup` finds nothing. -/
theorem lookup_of_two_components :
    Settled smallState () ∧ resolve smallState () pathUp = some (.sfs 1) ∧
      (vfsLookup (fun _ => 0) (fun _ => true) smallState () pathUp).map Prod.fst = some (.error (-eNoent)) ∧
      ¬ ByComponents (fun _ => 0) (fun _ => true) smallState () pathUp := by
  have leads : resolve smallState () pathUp = some (.sfs 1) := by decide +kernel
  have looked : (vfsLookup (fun _ => 0) (fun _ => true) smallState () pathUp).map Prod.fst =
      some (.error (-eNoent)) := by
    decide +kernel
  refine ⟨smallState_settled, leads, looked, ?_⟩
  rintro ⟨result, after, called, _, resolved⟩
  rw [called] at looked
  obtain rfl := Option.some.inj looked
  rcases resolved with ⟨_, _, _, _, failed⟩ | resolved
  · cases failed
  · simp only [leads] at resolved
    cases resolved

end Ucore.Vfs
