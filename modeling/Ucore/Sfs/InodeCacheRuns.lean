import Mathlib.Data.Finset.Insert
import Ucore.Sfs.InodeCache
import Ucore.Library.Transition

/-!
# Runs of the inode cache

Threads load inodes, take further references while they hold one, drop them, and
reclaim what they have dropped to 0. A reclaim waits for `fs_sem` after the count
has reached 0, and the load and the reclaim that have `fs_sem` may sleep in a disk
operation while all others go on.
-/

namespace Ucore.Sfs

open Transition

universe u
variable {N : Type u} [DecidableEq N]

/-- What the thread that has `fs_sem` sleeps in. -/
inductive CriticalSection (N : Type u) where
  | loading (ino : BitVec 32)
  | reclaiming (node : N)
deriving DecidableEq

/-- An inode as `vop_kill` finds it, with the other reclaims of it that have begun. -/
structure Kill (N : Type u) where
  node : N
  refCount : Int
  others : Nat

/-- The cache, the owner of `fs_sem`, the references held and the reclaims waiting
for `fs_sem`, and the history: the inodes allocated so far and those freed. -/
structure SfsSystem (N : Type u) where
  cache : SfsCache N
  inside : Option (CriticalSection N)
  holds : N → Nat
  waiting : N → Nat
  used : Finset N
  kills : List (Kill N)

/-- The cache after the mount. -/
def mounted (nodes : N → SfsInode) : SfsSystem N where
  cache := { nodes, inodeList := [], hashList := fun _ => [] }
  inside := none
  holds _ := 0
  waiting _ := 0
  used := ∅
  kills := []

inductive SfsOperation (N : Type u) where
  | load (ino : BitVec 32) (din : Bool)
  | loadRead (read : Except Int (BitVec 16)) (node : Option N)
  | refInc (node : N)
  | refDec (node : N)
  | modify (node : N) (dirty : Bool) (nlinks : BitVec 16)
  | reclaim (node : N)
  | reclaimIo (io : ReclaimIo)

def SfsSystem.hold (system : SfsSystem N) (node : N) : SfsSystem N :=
  { system with holds := Function.update system.holds node (system.holds node + 1) }

/-- One operation; `none` is a failed assertion. -/
def sfsStep (system : SfsSystem N) : SfsOperation N → Option (SfsSystem N)
  | .load ino din =>
      match sfsLoadInodeEnter system.cache ino din with
      | (.returned (.ok node), cache) => some ({ system with cache }.hold node)
      | (.returned (.error _), cache) => some { system with cache }
      | (.reading, cache) => some { system with cache, inside := some (.loading ino) }
  | .loadRead read node =>
      match system.inside with
      | some (.loading ino) =>
          match sfsLoadInodeFinish system.cache ino read node with
          | some (.ok node, cache) =>
              some ({ system with cache, inside := none, used := insert node system.used }.hold node)
          | some (.error _, cache) => some { system with cache, inside := none }
          | none => none
      | _ => none
  | .refInc node => some ({ system with cache := (inodeRefInc system.cache node).2 }.hold node)
  | .refDec node => do
      let (refCount, cache) ← inodeRefDec system.cache node
      let holds := Function.update system.holds node (system.holds node - 1)
      if refCount = 0 then
        some { system with
          cache, holds
          waiting := Function.update system.waiting node (system.waiting node + 1) }
      else some { system with cache, holds }
  | .modify node dirty nlinks =>
      let sin := system.cache.nodes node
      some { system with cache := system.cache.setNode node { sin with dirty, nlinks } }
  | .reclaim node => do
      let (ret, cache) ← sfsReclaimEnter system.cache node
      let waiting := Function.update system.waiting node (system.waiting node - 1)
      match ret with
      | some _ => some { system with cache, waiting }
      | none => some { system with cache, waiting, inside := some (.reclaiming node) }
  | .reclaimIo io =>
      match system.inside with
      | some (.reclaiming node) => do
          let (ret, cache) ← sfsReclaimFinish system.cache node io
          if ret = 0 then
            let kill := ⟨node, (system.cache.nodes node).refCount, system.waiting node⟩
            some { system with cache, inside := none, kills := kill :: system.kills }
          else some { system with cache, inside := none }
      | _ => none

/-- `fs_sem` has one owner at a time; a reference is taken and dropped by a thread that
holds one; a new inode is not one of those allocated before. A holder changes the
disk inode, and `sfs_sync` what `inode_list` leads to. -/
def SfsLegal (system : SfsSystem N) : SfsOperation N → Prop
  | .load _ _ => system.inside = none
  | .loadRead _ node => (∃ ino, system.inside = some (.loading ino)) ∧ ∀ new ∈ node, new ∉ system.used
  | .refInc node => 0 < system.holds node
  | .refDec node => 0 < system.holds node
  | .modify node _ _ => 0 < system.holds node ∨ system.inside = none ∧ node ∈ system.cache.inodeList
  | .reclaim node => system.inside = none ∧ 0 < system.waiting node
  | .reclaimIo _ => ∃ node, system.inside = some (.reclaiming node)

instance (inside : Option (CriticalSection N)) : Decidable (∃ ino, inside = some (.loading ino)) :=
  match inside with
  | some (.loading ino) => isTrue ⟨ino, rfl⟩
  | some (.reclaiming _) => isFalse fun ⟨_, same⟩ => by cases same
  | none => isFalse fun ⟨_, same⟩ => by cases same

instance (inside : Option (CriticalSection N)) : Decidable (∃ node, inside = some (.reclaiming node)) :=
  match inside with
  | some (.reclaiming node) => isTrue ⟨node, rfl⟩
  | some (.loading _) => isFalse fun ⟨_, same⟩ => by cases same
  | none => isFalse fun ⟨_, same⟩ => by cases same

instance (system : SfsSystem N) : ∀ operation, Decidable (SfsLegal system operation)
  | .load _ _ => inferInstanceAs (Decidable (_ = _))
  | .loadRead _ node => inferInstanceAs (Decidable (_ ∧ ∀ new ∈ node, _))
  | .refInc _ => inferInstanceAs (Decidable (_ < _))
  | .refDec _ => inferInstanceAs (Decidable (_ < _))
  | .modify _ _ _ => inferInstanceAs (Decidable (_ ∨ _ ∧ _))
  | .reclaim _ => inferInstanceAs (Decidable (_ ∧ _))
  | .reclaimIo _ =>
      inferInstanceAs (Decidable (∃ node, system.inside = some (CriticalSection.reclaiming node)))

/-- The lists hold each inode once, one inode for each number. -/
structure Indexed (cache : SfsCache N) : Prop where
  distinct : cache.inodeList.Nodup
  unique : ∀ node ∈ cache.inodeList, ∀ other ∈ cache.inodeList,
    (cache.nodes node).ino = (cache.nodes other).ino → node = other
  bucketDistinct : ∀ bucket, (cache.hashList bucket).Nodup
  bucket : ∀ bucket node, node ∈ cache.hashList bucket ↔
    node ∈ cache.inodeList ∧ sinHashfn (cache.nodes node).ino = bucket

/-- The counts of the inodes in memory agree with the references and the reclaims. -/
structure Counted (system : SfsSystem N) : Prop where
  indexed : Indexed system.cache
  references : ∀ node ∈ system.cache.inodeList, (system.cache.nodes node).refCount = system.holds node
  reclaims : ∀ node ∈ system.cache.inodeList, (system.cache.nodes node).reclaimCount =
    (if 0 < system.holds node then 1 else 0) + system.waiting node
  outside : ∀ node, node ∉ system.cache.inodeList → system.holds node = 0 ∧ system.waiting node = 0
  loading : ∀ ino, system.inside = some (.loading ino) →
    ∀ node ∈ system.cache.inodeList, (system.cache.nodes node).ino ≠ ino
  reclaiming : ∀ node, system.inside = some (.reclaiming node) →
    node ∈ system.cache.inodeList ∧ system.holds node = 0 ∧ system.waiting node = 0
  used : ∀ node ∈ system.cache.inodeList, node ∈ system.used
  killed : ∀ kill ∈ system.kills, kill.node ∈ system.used ∧ kill.node ∉ system.cache.inodeList ∧
    kill.refCount = 0 ∧ kill.others = 0
  once : (system.kills.map Kill.node).Nodup

section CacheFacts

variable {cache : SfsCache N} {node : N} {ino : BitVec 32}

/-- The lists do not change with the fields of an inode, the number of a listed one apart. -/
theorem Indexed.setNode {sin : SfsInode} (indexed : Indexed cache)
    (sameIno : node ∈ cache.inodeList → sin.ino = (cache.nodes node).ino) :
    Indexed (cache.setNode node sin) := by
  have inos : ∀ other ∈ cache.inodeList,
      ((cache.setNode node sin).nodes other).ino = (cache.nodes other).ino := by
    intro other member
    rw [SfsCache.setNode_nodes]
    split
    · rename_i same
      rw [sameIno (same ▸ member), same]
    · rfl
  constructor
  · exact indexed.distinct
  · intro first firstMember second secondMember same
    rw [inos first firstMember, inos second secondMember] at same
    exact indexed.unique first firstMember second secondMember same
  · exact indexed.bucketDistinct
  · intro bucket other
    simp only [SfsCache.setNode_inodeList, SfsCache.setNode_hashList, indexed.bucket bucket other]
    exact and_congr_right fun member => by rw [inos other member]

omit [DecidableEq N] in
/-- A new inode enters both lists. -/
theorem Indexed.setLinks (indexed : Indexed cache) (fresh : node ∉ cache.inodeList)
    (newIno : ∀ other ∈ cache.inodeList, (cache.nodes other).ino ≠ (cache.nodes node).ino) :
    Indexed (sfsSetLinks cache node) where
  distinct := List.nodup_cons.mpr ⟨fresh, indexed.distinct⟩
  unique := by
    intro first firstMember second secondMember same
    rcases List.mem_cons.mp firstMember with rfl | firstOld <;>
      rcases List.mem_cons.mp secondMember with rfl | secondOld
    · rfl
    · exact absurd same.symm (newIno second secondOld)
    · exact absurd same (newIno first firstOld)
    · exact indexed.unique first firstOld second secondOld same
  bucketDistinct := by
    intro bucket
    by_cases same : bucket = sinHashfn (cache.nodes node).ino
    · subst same
      simp only [sfsSetLinks, Function.update_self]
      exact List.nodup_cons.mpr ⟨fun member => fresh ((indexed.bucket _ node).mp member).1,
        indexed.bucketDistinct _⟩
    · simpa only [sfsSetLinks, Function.update_of_ne same] using indexed.bucketDistinct bucket
  bucket := by
    intro bucket other
    have old := indexed.bucket bucket other
    by_cases same : bucket = sinHashfn (cache.nodes node).ino
    · subst same
      simp only [sfsSetLinks, Function.update_self, List.mem_cons, old]
      constructor
      · rintro (rfl | ⟨member, hash⟩)
        · exact ⟨Or.inl rfl, rfl⟩
        · exact ⟨Or.inr member, hash⟩
      · rintro ⟨rfl | member, hash⟩
        · exact Or.inl rfl
        · exact Or.inr ⟨member, hash⟩
    · simp only [sfsSetLinks, Function.update_of_ne same, List.mem_cons, old]
      constructor
      · exact fun facts => ⟨Or.inr facts.1, facts.2⟩
      · rintro ⟨rfl | member, hash⟩
        · exact absurd hash.symm same
        · exact ⟨member, hash⟩

/-- An inode leaves both lists. -/
theorem Indexed.removeLinks (indexed : Indexed cache) : Indexed (sfsRemoveLinks cache node) where
  distinct := indexed.distinct.erase node
  unique := fun first firstMember second secondMember =>
    indexed.unique first (List.mem_of_mem_erase firstMember) second (List.mem_of_mem_erase secondMember)
  bucketDistinct := by
    intro bucket
    by_cases same : bucket = sinHashfn (cache.nodes node).ino
    · subst same
      simpa only [sfsRemoveLinks, Function.update_self] using (indexed.bucketDistinct _).erase node
    · simpa only [sfsRemoveLinks, Function.update_of_ne same] using indexed.bucketDistinct bucket
  bucket := by
    intro bucket other
    have old := indexed.bucket bucket other
    by_cases same : bucket = sinHashfn (cache.nodes node).ino
    · subst same
      simp only [sfsRemoveLinks, Function.update_self, (indexed.bucketDistinct _).mem_erase_iff,
        indexed.distinct.mem_erase_iff, old, and_assoc]
    · simp only [sfsRemoveLinks, Function.update_of_ne same, indexed.distinct.mem_erase_iff, old, and_assoc]
      constructor
      · rintro ⟨member, hash⟩
        refine ⟨?_, member, hash⟩
        rintro rfl
        exact same hash.symm
      · exact fun facts => facts.2

/-- A lookup finds the inode of the number if it is in memory, and takes a reference;
the first one is a reason more to keep the inode. -/
theorem lookupSfsNolock_exact (indexed : Indexed cache) (ino : BitVec 32) :
    (∃ node ∈ cache.inodeList, (cache.nodes node).ino = ino ∧ lookupSfsNolock cache ino =
      (some node, cache.setNode node { cache.nodes node with
        refCount := (cache.nodes node).refCount + 1
        reclaimCount := (cache.nodes node).reclaimCount +
          if (cache.nodes node).refCount + 1 = 1 then 1 else 0 })) ∨
    (∀ node ∈ cache.inodeList, (cache.nodes node).ino ≠ ino) ∧ lookupSfsNolock cache ino = (none, cache) := by
  unfold lookupSfsNolock
  split
  · rename_i node found
    have member := List.mem_of_find?_eq_some found
    refine Or.inl ⟨node, ((indexed.bucket _ node).mp member).1, by simpa using List.find?_some found, ?_⟩
    by_cases first : (cache.nodes node).refCount + 1 = 1
    · simp [inodeRefInc, first, SfsCache.setNode]
    · simp [inodeRefInc, first, SfsCache.setNode]
  · rename_i missing
    refine Or.inr ⟨?_, rfl⟩
    intro node member same
    have inBucket := (indexed.bucket (sinHashfn ino) node).mpr ⟨member, by rw [same]⟩
    simpa [same] using List.find?_eq_none.mp missing node inBucket

/-- The end of a reclaim changes at most the dirty flag, unless it takes the inode
out of the lists. Without references the assertion of `inode_kill` holds. -/
theorem sfsReclaimFinish_exact (io : ReclaimIo) (unreferenced : (cache.nodes node).refCount = 0) :
    ∃ ret dirty, (ret ≠ 0 ∧ sfsReclaimFinish cache node io =
        some (ret, cache.setNode node { cache.nodes node with dirty })) ∨
      sfsReclaimFinish cache node io =
        some (0, sfsRemoveLinks (cache.setNode node { cache.nodes node with dirty }) node) := by
  have alive : ∀ dirty, ((sfsRemoveLinks (cache.setNode node { cache.nodes node with dirty }) node).nodes
      node).refCount = 0 := by
    intro dirty
    simpa [sfsRemoveLinks, SfsCache.setNode_nodes] using unreferenced
  simp only [sfsReclaimFinish]
  generalize (if (cache.nodes node).nlinks = 0 then (io.truncate, io.truncateDirty)
    else (0, (cache.nodes node).dirty)) = truncated
  generalize (if truncated.2 = true then (io.fsync, decide (io.fsync ≠ 0)) else (0, false)) = synced
  by_cases truncateFailed : truncated.1 ≠ 0
  · exact ⟨truncated.1, truncated.2, Or.inl ⟨truncateFailed, if_pos truncateFailed⟩⟩
  · rw [if_neg truncateFailed]
    by_cases fsyncFailed : synced.1 ≠ 0
    · exact ⟨synced.1, synced.2, Or.inl ⟨fsyncFailed, if_pos fsyncFailed⟩⟩
    · rw [if_neg fsyncFailed, if_pos (alive synced.2)]
      exact ⟨0, synced.2, Or.inr rfl⟩

end CacheFacts

variable {system next : SfsSystem N}

/-- The counts of one inode change with its references and its waiting reclaims. -/
theorem Counted.setNode (counted : Counted system) (node : N) (sin : SfsInode) (holds waiting : Nat)
    (sameIno : sin.ino = (system.cache.nodes node).ino) (references : sin.refCount = holds)
    (reclaims : sin.reclaimCount = (if 0 < holds then 1 else 0) + (waiting : Int))
    (member : node ∈ system.cache.inodeList)
    (quiet : system.inside = some (.reclaiming node) → holds = 0 ∧ waiting = 0) :
    Counted { system with
      cache := system.cache.setNode node sin
      holds := Function.update system.holds node holds
      waiting := Function.update system.waiting node waiting } where
  indexed := counted.indexed.setNode fun _ => sameIno
  references := by
    intro other listed
    by_cases same : other = node
    · subst same
      simpa [SfsCache.setNode_nodes] using references
    · simpa [SfsCache.setNode_nodes, same] using counted.references other listed
  reclaims := by
    intro other listed
    by_cases same : other = node
    · subst same
      simpa [SfsCache.setNode_nodes] using reclaims
    · simpa [SfsCache.setNode_nodes, same] using counted.reclaims other listed
  outside := by
    intro other unlisted
    have different : other ≠ node := fun same => unlisted (same ▸ member)
    simpa [different] using counted.outside other unlisted
  loading := by
    intro ino loading other listed
    rw [SfsCache.setNode_nodes]
    split
    · rename_i same
      rw [sameIno]
      exact counted.loading ino loading node member
    · exact counted.loading ino loading other listed
  reclaiming := by
    intro other reclaiming
    obtain ⟨listed, zero⟩ := counted.reclaiming other reclaiming
    refine ⟨listed, ?_⟩
    by_cases same : other = node
    · subst same
      simpa using quiet reclaiming
    · simpa [same] using zero
  used := counted.used
  killed := counted.killed
  once := counted.once

omit [DecidableEq N] in
/-- `fs_sem` is released. -/
theorem Counted.leave (counted : Counted system) : Counted { system with inside := none } :=
  { counted with
    loading := by simp
    reclaiming := by simp }

/-- A load finds the inode in memory, or goes on to read it. -/
theorem load_keeps {ino : BitVec 32} {din : Bool} (counted : Counted system)
    (legal : SfsLegal system (.load ino din)) (taken : sfsStep system (.load ino din) = some next) :
    Counted next := by
  have free : system.inside = none := legal
  rcases lookupSfsNolock_exact counted.indexed ino with ⟨node, member, _, found⟩ | ⟨missing, found⟩
  · simp only [sfsStep, sfsLoadInodeEnter, found, Option.some.injEq] at taken
    subst taken
    have references := counted.references node member
    have reclaims := counted.reclaims node member
    have kept := counted.setNode node { system.cache.nodes node with
        refCount := (system.cache.nodes node).refCount + 1
        reclaimCount := (system.cache.nodes node).reclaimCount +
          if (system.cache.nodes node).refCount + 1 = 1 then 1 else 0 }
      (system.holds node + 1) (system.waiting node) rfl (by simp [references])
      (by simp [references, reclaims]; split_ifs <;> omega) member (by simp [free])
    simpa [SfsSystem.hold] using kept
  · simp only [sfsStep, sfsLoadInodeEnter, found] at taken
    split at taken
    · rename_i same
      split at same <;> cases same
    · rename_i same
      split at same <;> cases same
      obtain rfl := Option.some.inj taken
      exact counted
    · rename_i same
      split at same <;> cases same
      obtain rfl := Option.some.inj taken
      exact { counted with
        loading := by
          intro other loading node member
          obtain rfl : ino = other := by simpa using loading
          exact missing node member
        reclaiming := by simp }

/-- A new inode with one reference. -/
theorem Counted.create (counted : Counted system) {ino : BitVec 32} {nlinks : BitVec 16} {node : N}
    (loading : system.inside = some (.loading ino)) (fresh : node ∉ system.used) :
    Counted ({ system with
      cache := sfsSetLinks (sfsCreateInode system.cache node ino nlinks) node
      inside := none
      used := insert node system.used }.hold node) := by
  have unlisted : node ∉ system.cache.inodeList := fun member => fresh (counted.used node member)
  obtain ⟨noHolds, noWaiting⟩ := counted.outside node unlisted
  have different : ∀ other ∈ system.cache.inodeList, other ≠ node :=
    fun other member same => unlisted (same ▸ member)
  have old : ∀ other ∈ system.cache.inodeList,
      (sfsCreateInode system.cache node ino nlinks).nodes other = system.cache.nodes other := by
    intro other member
    rw [sfsCreateInode, SfsCache.setNode_nodes, if_neg (different other member)]
  have new : (sfsCreateInode system.cache node ino nlinks).nodes node =
      { refCount := 1, ino, dirty := false, reclaimCount := 1, nlinks } := by
    rw [sfsCreateInode, SfsCache.setNode_nodes, if_pos rfl]
  exact {
    indexed := by
      apply Indexed.setLinks
      · exact counted.indexed.setNode fun member => absurd member unlisted
      · exact unlisted
      · intro other member
        rw [old other member, new]
        exact counted.loading ino loading other member
    references := by
      intro other listed
      rcases List.mem_cons.mp listed with rfl | member
      · simp [SfsSystem.hold, sfsSetLinks, new, noHolds]
      · simpa [SfsSystem.hold, sfsSetLinks, old other member, different other member] using
          counted.references other member
    reclaims := by
      intro other listed
      rcases List.mem_cons.mp listed with rfl | member
      · simp [SfsSystem.hold, sfsSetLinks, new, noWaiting]
      · simpa [SfsSystem.hold, sfsSetLinks, old other member, different other member] using
          counted.reclaims other member
    outside := by
      intro other unlisted
      obtain ⟨notNode, absent⟩ : other ≠ node ∧ other ∉ system.cache.inodeList := by
        simpa [SfsSystem.hold, sfsSetLinks, sfsCreateInode] using unlisted
      simpa [SfsSystem.hold, notNode] using counted.outside other absent
    loading := by simp [SfsSystem.hold]
    reclaiming := by simp [SfsSystem.hold]
    used := by
      intro other listed
      rcases List.mem_cons.mp listed with rfl | member
      · exact Finset.mem_insert_self _ _
      · exact Finset.mem_insert_of_mem (counted.used other member)
    killed := by
      intro kill member
      obtain ⟨used, gone, facts⟩ := counted.killed kill member
      refine ⟨Finset.mem_insert_of_mem used, ?_, facts⟩
      intro listed
      rcases List.mem_cons.mp listed with same | member
      · exact fresh (same ▸ used)
      · exact gone member
    once := counted.once }

/-- The end of a load adds the inode that the lookup has not found. -/
theorem loadRead_keeps {read : Except Int (BitVec 16)} {node : Option N} (counted : Counted system)
    (legal : SfsLegal system (.loadRead read node))
    (taken : sfsStep system (.loadRead read node) = some next) : Counted next := by
  obtain ⟨⟨ino, loading⟩, fresh⟩ := legal
  simp only [sfsStep, loading, sfsLoadInodeFinish] at taken
  cases read with
  | error ret =>
    obtain rfl := Option.some.inj taken
    exact counted.leave
  | ok nlinks =>
    by_cases dead : nlinks = 0
    · simp [dead] at taken
    · cases node with
      | none =>
        simp only [dead, if_false, Option.some.injEq] at taken
        exact taken ▸ counted.leave
      | some node =>
        simp only [dead, if_false, Option.some.injEq] at taken
        exact taken ▸ counted.create loading (fresh node rfl)

/-- A node with a reference is in memory. -/
theorem Counted.held_mem (counted : Counted system) {node : N} (held : 0 < system.holds node) :
    node ∈ system.cache.inodeList := by
  by_contra unlisted
  have zero := (counted.outside node unlisted).1
  omega

theorem refInc_keeps {node : N} (counted : Counted system) (legal : SfsLegal system (.refInc node))
    (taken : sfsStep system (.refInc node) = some next) : Counted next := by
  have held : 0 < system.holds node := legal
  have member := counted.held_mem held
  have references := counted.references node member
  have reclaims := counted.reclaims node member
  obtain rfl := Option.some.inj taken
  have kept := counted.setNode node { system.cache.nodes node with
      refCount := (system.cache.nodes node).refCount + 1 } (system.holds node + 1) (system.waiting node) rfl
    (by simp [references]) (by simp [reclaims, held])
    member (fun reclaiming => by have zero := (counted.reclaiming node reclaiming).2; omega)
  simpa [SfsSystem.hold, inodeRefInc] using kept

/-- A reference goes; with the last one a reclaim begins. -/
theorem refDec_keeps {node : N} (counted : Counted system) (legal : SfsLegal system (.refDec node))
    (taken : sfsStep system (.refDec node) = some next) : Counted next := by
  have held : 0 < system.holds node := legal
  have member := counted.held_mem held
  have references := counted.references node member
  have reclaims := counted.reclaims node member
  have busy : system.inside ≠ some (.reclaiming node) := by
    intro reclaiming
    have zero := (counted.reclaiming node reclaiming).2
    omega
  have positive : 0 < (system.cache.nodes node).refCount := by omega
  simp only [sfsStep, inodeRefDec, positive, if_true, Option.bind_eq_bind, Option.bind_some] at taken
  by_cases last : (system.cache.nodes node).refCount - 1 = 0
  · simp only [last, if_true, Option.some.injEq] at taken
    subst taken
    have one : system.holds node = 1 := by omega
    have kept := counted.setNode node { system.cache.nodes node with refCount := 0 } 0
      (system.waiting node + 1) rfl (by simp) (by simp [reclaims, held]; omega) member
      (fun reclaiming => absurd reclaiming busy)
    simpa [one] using kept
  · simp only [last, if_false, Option.some.injEq] at taken
    subst taken
    have more : 0 < system.holds node - 1 := by omega
    have kept := counted.setNode node { system.cache.nodes node with
        refCount := (system.cache.nodes node).refCount - 1 } (system.holds node - 1) (system.waiting node) rfl
      (by simp; omega) (by simp [reclaims, held, more]) member (fun reclaiming => absurd reclaiming busy)
    simpa using kept

theorem modify_keeps {node : N} {dirty : Bool} {nlinks : BitVec 16} (counted : Counted system)
    (legal : SfsLegal system (.modify node dirty nlinks))
    (taken : sfsStep system (.modify node dirty nlinks) = some next) : Counted next := by
  have member : node ∈ system.cache.inodeList := by
    rcases legal with held | ⟨_, listed⟩
    · exact counted.held_mem held
    · exact listed
  obtain rfl := Option.some.inj taken
  have kept := counted.setNode node { system.cache.nodes node with dirty, nlinks } (system.holds node)
    (system.waiting node) rfl (counted.references node member) (counted.reclaims node member) member
    (fun reclaiming => (counted.reclaiming node reclaiming).2)
  simpa using kept

/-- A reclaim that has `fs_sem` gives up its reason to keep the inode. When no other
is left the inode has no reference and no other reclaim, and is about to be freed. -/
theorem reclaim_keeps {node : N} (counted : Counted system) (legal : SfsLegal system (.reclaim node))
    (taken : sfsStep system (.reclaim node) = some next) : Counted next := by
  obtain ⟨free, pending⟩ := legal
  have member : node ∈ system.cache.inodeList := by
    by_contra unlisted
    have zero := (counted.outside node unlisted).2
    omega
  have references := counted.references node member
  have reclaims := counted.reclaims node member
  have positive : 0 < (system.cache.nodes node).reclaimCount := by
    rw [reclaims]
    split_ifs <;> omega
  have kept := counted.setNode node { system.cache.nodes node with
      reclaimCount := (system.cache.nodes node).reclaimCount - 1 } (system.holds node)
    (system.waiting node - 1) rfl references (by simp [reclaims]; omega) member (by simp [free])
  rw [Function.update_eq_self] at kept
  simp only [sfsStep, sfsReclaimEnter, positive, if_true, Option.bind_eq_bind] at taken
  by_cases busy : (system.cache.nodes node).reclaimCount - 1 ≠ 0 ∨ (system.cache.nodes node).refCount ≠ 0
  · simp only [busy, if_true, Option.bind_some, Option.some.injEq] at taken
    exact taken ▸ kept
  · simp only [busy, if_false, Option.bind_some, Option.some.injEq] at taken
    subst taken
    exact { kept with
      loading := by simp
      reclaiming := by
        intro other same
        obtain rfl : node = other := by simpa using same
        refine ⟨member, ?_, ?_⟩
        · have zero : system.holds node = 0 := by omega
          exact zero
        · have last : system.waiting node - 1 = 0 := by
            split_ifs at reclaims <;> omega
          simpa using last }

/-- The inode that is about to be freed leaves the cache. -/
theorem Counted.free (counted : Counted system) {node : N} {refCount : Int}
    (reclaiming : system.inside = some (.reclaiming node)) (unreferenced : refCount = 0) :
    Counted { system with
      cache := sfsRemoveLinks system.cache node
      inside := none
      kills := ⟨node, refCount, system.waiting node⟩ :: system.kills } where
  indexed := counted.indexed.removeLinks
  references := fun other listed => counted.references other (List.mem_of_mem_erase listed)
  reclaims := fun other listed => counted.reclaims other (List.mem_of_mem_erase listed)
  outside := by
    intro other unlisted
    by_cases same : other = node
    · exact same ▸ (counted.reclaiming node reclaiming).2
    · exact counted.outside other fun listed => unlisted ((List.mem_erase_of_ne same).mpr listed)
  loading := by simp
  reclaiming := by simp
  used := fun other listed => counted.used other (List.mem_of_mem_erase listed)
  killed := by
    intro kill member
    rcases List.mem_cons.mp member with rfl | earlier
    · obtain ⟨listed, _, noWaiting⟩ := counted.reclaiming node reclaiming
      refine ⟨counted.used node listed, ?_, unreferenced, noWaiting⟩
      exact counted.indexed.distinct.not_mem_erase
    · obtain ⟨used, gone, facts⟩ := counted.killed kill earlier
      exact ⟨used, fun listed => gone (List.mem_of_mem_erase listed), facts⟩
  once := by
    refine List.nodup_cons.mpr ⟨?_, counted.once⟩
    intro again
    obtain ⟨kill, earlier, same⟩ := List.mem_map.mp again
    exact (counted.killed kill earlier).2.1 (same ▸ (counted.reclaiming node reclaiming).1)

/-- The end of a reclaim frees the inode or leaves it in the cache. -/
theorem reclaimIo_keeps {io : ReclaimIo} (counted : Counted system) (legal : SfsLegal system (.reclaimIo io))
    (taken : sfsStep system (.reclaimIo io) = some next) : Counted next := by
  obtain ⟨node, reclaiming⟩ := legal
  obtain ⟨member, noHolds, noWaiting⟩ := counted.reclaiming node reclaiming
  have references := counted.references node member
  have unreferenced : (system.cache.nodes node).refCount = 0 := by simp [references, noHolds]
  have kept : ∀ dirty, Counted { system with
      cache := system.cache.setNode node { system.cache.nodes node with dirty } } := by
    intro dirty
    have same := counted.setNode node { system.cache.nodes node with dirty } (system.holds node)
      (system.waiting node) rfl references (counted.reclaims node member) member
      (fun _ => ⟨noHolds, noWaiting⟩)
    simpa using same
  obtain ⟨ret, dirty, ⟨failed, ends⟩ | ends⟩ := sfsReclaimFinish_exact io unreferenced
  · simp only [sfsStep, reclaiming, ends, Option.bind_eq_bind, Option.bind_some, failed, if_false,
      Option.some.injEq] at taken
    exact taken ▸ (kept dirty).leave
  · simp only [sfsStep, reclaiming, ends, Option.bind_eq_bind, Option.bind_some, if_true,
      Option.some.injEq] at taken
    subst taken
    exact (kept dirty).free reclaiming unreferenced

/-- Every legal operation keeps the counts. -/
theorem sfsStep_counted (system : SfsSystem N) (operation : SfsOperation N) (next : SfsSystem N)
    (counted : Counted system) (legal : SfsLegal system operation)
    (taken : sfsStep system operation = some next) : Counted next := by
  cases operation with
  | load ino din => exact load_keeps counted legal taken
  | loadRead read node => exact loadRead_keeps counted legal taken
  | refInc node => exact refInc_keeps counted legal taken
  | refDec node => exact refDec_keeps counted legal taken
  | modify node dirty nlinks => exact modify_keeps counted legal taken
  | reclaim node => exact reclaim_keeps counted legal taken
  | reclaimIo io => exact reclaimIo_keeps counted legal taken

/-- No assertion on the counts fails; only a disk inode without links stops the run. -/
theorem Counted.taken {operation : SfsOperation N} (counted : Counted system)
    (legal : SfsLegal system operation) (linked : ∀ node, operation ≠ .loadRead (.ok 0) node) :
    (sfsStep system operation).isSome := by
  cases operation with
  | load ino din =>
    simp only [sfsStep]
    split <;> rfl
  | loadRead read node =>
    obtain ⟨⟨ino, loading⟩, _⟩ := legal
    simp only [sfsStep, loading, sfsLoadInodeFinish]
    cases read with
    | error ret => rfl
    | ok nlinks =>
      have live : nlinks ≠ 0 := fun dead => linked node (by rw [dead])
      simp only [live, if_false]
      cases node <;> rfl
  | refInc node => rfl
  | refDec node =>
    have held : 0 < system.holds node := legal
    have references := counted.references node (counted.held_mem held)
    have positive : 0 < (system.cache.nodes node).refCount := by omega
    simp only [sfsStep, inodeRefDec, positive, if_true, Option.bind_eq_bind, Option.bind_some]
    split <;> rfl
  | modify node dirty nlinks => rfl
  | reclaim node =>
    obtain ⟨_, pending⟩ := legal
    have member : node ∈ system.cache.inodeList := by
      by_contra unlisted
      have zero := (counted.outside node unlisted).2
      omega
    have reclaims := counted.reclaims node member
    have positive : 0 < (system.cache.nodes node).reclaimCount := by
      rw [reclaims]
      split_ifs <;> omega
    simp only [sfsStep, sfsReclaimEnter, positive, if_true, Option.bind_eq_bind]
    split_ifs <;> rfl
  | reclaimIo io =>
    obtain ⟨node, reclaiming⟩ := legal
    obtain ⟨member, noHolds, _⟩ := counted.reclaiming node reclaiming
    have unreferenced : (system.cache.nodes node).refCount = 0 := by
      simp [counted.references node member, noHolds]
    obtain ⟨ret, dirty, ⟨failed, ends⟩ | ends⟩ := sfsReclaimFinish_exact io unreferenced
    · simp [sfsStep, reclaiming, ends, failed]
    · simp [sfsStep, reclaiming, ends]

omit [DecidableEq N] in
/-- An empty cache. -/
theorem mounted_counted (nodes : N → SfsInode) : Counted (mounted nodes) := by
  constructor
  · constructor <;> simp [mounted]
  all_goals simp [mounted]

/-- The reclaims of an inode that have begun and not returned. -/
def SfsSystem.unfinished (system : SfsSystem N) (node : N) : Nat :=
  system.waiting node + if system.inside = some (.reclaiming node) then 1 else 0

/-- What the cache promises. The reclaim that frees an inode has given up its count
when its critical section begins; at all other times the count is exact. -/
structure CacheExact (system : SfsSystem N) : Prop where
  unique : ∀ node ∈ system.cache.inodeList, ∀ other ∈ system.cache.inodeList,
    (system.cache.nodes node).ino = (system.cache.nodes other).ino → node = other
  count : ∀ node ∈ system.cache.inodeList, system.inside ≠ some (.reclaiming node) →
    (system.cache.nodes node).reclaimCount =
      (if 0 < (system.cache.nodes node).refCount then 1 else 0) + system.unfinished node
  freeing : ∀ node, system.inside = some (.reclaiming node) →
    (system.cache.nodes node).refCount = 0 ∧ (system.cache.nodes node).reclaimCount = 0 ∧
      system.unfinished node = 1
  live : ∀ node, 0 < system.holds node ∨ 0 < system.unfinished node → node ∈ system.cache.inodeList
  freed : ∀ kill ∈ system.kills, kill.refCount = 0 ∧ kill.others = 0
  once : (system.kills.map Kill.node).Nodup

theorem Counted.exact (counted : Counted system) : CacheExact system where
  unique := counted.indexed.unique
  count := by
    intro node member quiet
    have positive : 0 < (system.cache.nodes node).refCount ↔ 0 < system.holds node := by
      rw [counted.references node member]
      omega
    simp only [counted.reclaims node member, positive, SfsSystem.unfinished, quiet, if_false, Nat.add_zero]
  freeing := by
    intro node reclaiming
    obtain ⟨member, noHolds, noWaiting⟩ := counted.reclaiming node reclaiming
    refine ⟨?_, ?_, ?_⟩
    · simp [counted.references node member, noHolds]
    · simp [counted.reclaims node member, noHolds, noWaiting]
    · simp [SfsSystem.unfinished, noWaiting, reclaiming]
  live := by
    rintro node (held | begun)
    · exact counted.held_mem held
    · by_cases reclaiming : system.inside = some (.reclaiming node)
      · exact (counted.reclaiming node reclaiming).1
      · by_contra unlisted
        have zero := (counted.outside node unlisted).2
        simp [SfsSystem.unfinished, reclaiming, zero] at begun
  freed := fun kill member => (counted.killed kill member).2.2
  once := counted.once

/-- In every run the cache keeps its promises, and no assertion on a count fails. -/
theorem inode_cache_correct (nodes : N → SfsInode) (system : SfsSystem N)
    (reached : Reaches sfsStep SfsLegal (mounted nodes) system) :
    CacheExact system ∧ ∀ operation, SfsLegal system operation →
      (∀ node, operation ≠ .loadRead (.ok 0) node) → (sfsStep system operation).isSome := by
  have counted := reached.invariant (mounted_counted nodes) sfsStep_counted
  exact ⟨counted.exact, fun _ legal linked => counted.taken legal linked⟩

/-- Inode 5 is loaded and dropped, loaded again while its reclaim waits, and dropped
again: of the two reclaims the second one tries to free it and fails in its `fsync`.
After one more load and drop it is freed. -/
theorem inode_cache_correct_resurrected :
    ∃ system, Reaches sfsStep SfsLegal (mounted fun _ : Nat => ⟨0, 0, false, 0, 0⟩) system ∧
      system.kills.map Kill.node = [0] ∧ CacheExact system := by
  have completed : (run (guarded sfsStep fun system operation => decide (SfsLegal system operation))
      [.load 5 true, .loadRead (.ok 1) (some 0), .modify 0 true 1, .refDec 0, .load 5 true, .refInc 0,
        .refDec 0, .refDec 0, .reclaim 0, .reclaim 0, .reclaimIo ⟨0, false, 1⟩, .load 5 false, .refDec 0,
        .reclaim 0, .reclaimIo ⟨0, false, 0⟩]
      (mounted fun _ : Nat => ⟨0, 0, false, 0, 0⟩)).map (fun system => system.kills.map Kill.node) =
        some [0] := by
    decide +kernel
  obtain ⟨system, last, kills⟩ := Option.map_eq_some_iff.mp completed
  have reached := guarded_reaches (fun _ _ => of_decide_eq_true) _ _ _ last
  exact ⟨system, reached, kills, (inode_cache_correct _ system reached).1⟩

end Ucore.Sfs
