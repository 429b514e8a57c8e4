import Ucore.Sfs.VolumeRuns

/-!
# Sizes and blocks of files

`sfs_truncfile` adds and removes blocks one after the other and sets the size when it is
done with all of them. A call that fails at a later block has moved blocks and not the
size. An inode has as many blocks as its size needs until a call fails in this way.
-/

namespace Ucore.Volume

open Transition

/-- `ROUNDUP_DIV(len, SFS_BLKSIZE)` -/
def blocksFor (len : Nat) : Nat := (len + sfsBlksize - 1) / sfsBlksize

/-- The blocks of an inode are those that its size needs. -/
def DiskInode.Agrees (din : DiskInode) : Prop := din.blocks = blocksFor din.size

/-- The inode has no pointer on the way to a block of the file. -/
def DiskInode.Missing (din : DiskInode) (index : Nat) : Prop :=
  index < sfsNdirect ∧ din.direct index = 0 ∨ sfsNdirect ≤ index ∧ din.indirect = 0

instance (din : DiskInode) (index : Nat) : Decidable (din.Missing index) :=
  inferInstanceAs (Decidable (_ ∨ _))

variable (device : Nat → Int)

/-- How many blocks `sfs_bmap_load_nolock` adds at the end of the file before it fails. -/
def blocksAdded (fs : SfsFs) (sin : SfsInode) : Nat → Nat
  | 0 => 0
  | rounds + 1 =>
      match sfsBmapLoadNolock device fs sin sin.din.blocks with
      | some (.ok _, fs, sin) => blocksAdded fs sin rounds + 1
      | _ => 0

/-- How many blocks `sfs_bmap_truncate_nolock` takes from the end of the file before it
fails. -/
def blocksRemoved (fs : SfsFs) (sin : SfsInode) : Nat → Nat
  | 0 => 0
  | rounds + 1 =>
      match sfsBmapTruncateNolock device fs sin with
      | some (ret, fs, sin) => if ret = 0 then blocksRemoved fs sin rounds + 1 else 0
      | none => 0

/-- A loop that does all of its rounds or fails in the first one. -/
def AllOrNone (done rounds : Nat) : Prop := done = 0 ∨ done = rounds

instance (done rounds : Nat) : Decidable (AllOrNone done rounds) := inferInstanceAs (Decidable (_ ∨ _))

/-- A resize does not fail behind the first block that it adds or removes. -/
def WholeResize (fs : SfsFs) (sin : SfsInode) (tblks : Nat) : Prop :=
  if sin.din.blocks < tblks then
    AllOrNone (blocksAdded device fs sin (tblks - sin.din.blocks)) (tblks - sin.din.blocks)
  else AllOrNone (blocksRemoved device fs sin (sin.din.blocks - tblks)) (sin.din.blocks - tblks)

/-- No call of `sfs_truncfile` fails behind the first block that it adds or removes. -/
def WholeTruncfile (fs : SfsFs) (sin : SfsInode) (len : Int) : Prop :=
  0 ≤ len ∧ len ≤ sfsMaxFileSize ∧ sin.din.size ≠ len → WholeResize device fs sin (blocksFor len.toNat)

instance (fs : SfsFs) (sin : SfsInode) (tblks : Nat) : Decidable (WholeResize device fs sin tblks) := by
  unfold WholeResize
  infer_instance

instance (fs : SfsFs) (sin : SfsInode) (len : Int) : Decidable (WholeTruncfile device fs sin len) :=
  inferInstanceAs (Decidable (_ → _))

/-- Files in memory are resized, by their length or by a seek behind their end, and no
call fails behind the first block that it adds or removes. -/
def Resizing (volume : Mounted) : VolumeOperation → Prop
  | .truncfile ino len => ∀ sin ∈ volume.inodes ino,
      sin.din.type = sfsTypeFile ∧ WholeTruncfile device volume.fs sin len
  | .tryseek ino pos => ∀ sin ∈ volume.inodes ino,
      sin.din.type = sfsTypeFile ∧ (sin.din.size < pos → WholeTruncfile device volume.fs sin pos)
  | _ => False

instance (volume : Mounted) (operation : VolumeOperation) : Decidable (Resizing device volume operation) :=
  match operation with
  | .truncfile ino _ => inferInstanceAs (Decidable (∀ sin ∈ volume.inodes ino, _ ∧ WholeTruncfile _ _ sin _))
  | .tryseek ino _ => inferInstanceAs (Decidable (∀ sin ∈ volume.inodes ino, _ ∧ (_ → WholeTruncfile _ _ sin _)))
  | .load .. | .fsync .. | .bmapLoad .. | .written .. | .reclaim .. => inferInstanceAs (Decidable False)

/-- Every regular file in memory has the blocks that its size needs. -/
def Mounted.Agrees (volume : Mounted) : Prop :=
  ∀ ino sin, volume.inodes ino = some sin → sin.din.type = sfsTypeFile → sin.din.Agrees

variable {device} {volume next : Mounted} {fs middle after : SfsFs} {sin sinMiddle sinAfter : SfsInode}
  {index ino rounds tblks : Nat} {ret : Int}

/-! ## One block -/

theorem found_block {result : Except Int Nat} (called : found fs sin ino = some (result, after, sinAfter)) :
    result = .ok ino ∧ sinAfter = sin := by
  unfold found at called
  split at called
  · obtain ⟨rfl, rfl, rfl⟩ := called
    exact ⟨rfl, rfl⟩
  · obtain ⟨_, _, rest⟩ := Option.bind_eq_some_iff.mp called
    obtain ⟨rfl, rfl, rfl⟩ := rest
    exact ⟨rfl, rfl⟩

/-- A failed entry gives no block. -/
theorem failedCleanup_error {ent entp : Nat} {result : Except Int (Nat × Nat)}
    (called : failedCleanup fs entp ent ret = some (result, after)) : result = .error ret := by
  unfold failedCleanup at called
  split at called
  · obtain ⟨last, _, same⟩ := Option.map_eq_some_iff.mp called
    exact (Prod.mk.inj same).1.symm
  · exact (Prod.mk.inj (Option.some.inj called)).1.symm

theorem newEntry_ent {ent entp got block : Nat}
    (called : newEntry device fs entp ent index = some (.ok (got, block), after)) : got = ent := by
  obtain ⟨⟨allocated, middle⟩, _, rest⟩ := Option.bind_eq_some_iff.mp called
  cases allocated with
  | error code => cases failedCleanup_error rest
  | ok ino =>
    obtain ⟨⟨code, last⟩, _, rest⟩ := Option.bind_eq_some_iff.mp rest
    simp only at rest
    split at rest
    · obtain ⟨undone, _, rest⟩ := Option.bind_eq_some_iff.mp rest
      cases failedCleanup_error rest
    · exact (Prod.mk.inj (Except.ok.inj (Prod.mk.inj (Option.some.inj rest)).1)).1.symm

/-- The entry block stays, or a first one is allocated. -/
theorem sfsBmapGetSubNolock_ent {create : Bool} {entp got block : Nat}
    (called : sfsBmapGetSubNolock device fs entp index create = some (.ok (got, block), after)) :
    (entp ≠ 0 ∨ create = false) ∧ got = entp ∨ create = true ∧ entp = 0 ∧ got ≠ 0 := by
  unfold sfsBmapGetSubNolock at called
  split at called
  · split at called
    · rename_i nonzero
      obtain ⟨⟨read, middle⟩, _, rest⟩ := Option.bind_eq_some_iff.mp called
      cases read with
      | error code => cases (Prod.mk.inj (Option.some.inj rest)).1
      | ok words =>
        simp only at rest
        split at rest
        · exact Or.inl ⟨Or.inl nonzero, (Prod.mk.inj (Except.ok.inj (Prod.mk.inj (Option.some.inj rest)).1)).1.symm⟩
        · exact Or.inl ⟨Or.inl nonzero, newEntry_ent rest⟩
    · rename_i zero
      split at called
      · rename_i noCreate
        have same := (Prod.mk.inj (Except.ok.inj (Prod.mk.inj (Option.some.inj called)).1)).1
        exact Or.inl ⟨Or.inr noCreate, same.symm⟩
      · rename_i isCreate
        obtain ⟨⟨allocated, middle⟩, alloc, rest⟩ := Option.bind_eq_some_iff.mp called
        cases allocated with
        | error code => cases (Prod.mk.inj (Option.some.inj rest)).1
        | ok ent =>
          have nonzero : ent ≠ 0 := ((sfsBlockAlloc_cases alloc).2 ent rfl).1
          exact Or.inr ⟨by simpa using isCreate, not_not.mp zero, newEntry_ent rest ▸ nonzero⟩
  · cases called

/-- What the map of blocks does to an inode: nothing when it fails or finds a pointer, and
a new pointer leaves the inode dirty. -/
theorem sfsBmapGetNolock_inode {create : Bool} {result : Except Int Nat}
    (called : sfsBmapGetNolock device fs sin index create = some (result, after, sinAfter)) :
    (∃ code, result = .error code) ∧ sinAfter = sin ∨
      (∃ block, result = .ok block) ∧ (create = true → ¬ sin.din.Missing index) ∧ sinAfter = sin ∨
      (∃ block, result = .ok block) ∧ (create = true ∧ sin.din.Missing index) ∧
        ∃ direct indirect, sinAfter = sin.modify { sin.din with direct, indirect } := by
  unfold sfsBmapGetNolock at called
  split at called
  · rename_i small
    unfold getDirect at called
    split at called
    · rename_i missing
      obtain ⟨⟨allocated, middle⟩, _, rest⟩ := Option.bind_eq_some_iff.mp called
      cases allocated with
      | error code =>
        obtain ⟨rfl, rfl, rfl⟩ := rest
        exact Or.inl ⟨⟨code, rfl⟩, rfl⟩
      | ok block =>
        obtain ⟨rfl, rfl⟩ := found_block rest
        exact Or.inr (Or.inr ⟨⟨block, rfl⟩, ⟨missing.2, Or.inl ⟨small, missing.1⟩⟩, _, _, rfl⟩)
    · rename_i present
      obtain ⟨rfl, rfl⟩ := found_block called
      refine Or.inr (Or.inl ⟨⟨_, rfl⟩, ?_, rfl⟩)
      rintro isCreate (⟨_, zero⟩ | ⟨large, _⟩)
      · exact present ⟨zero, isCreate⟩
      · omega
  · rename_i large
    split at called
    · obtain ⟨⟨sub, middle⟩, got, rest⟩ := Option.bind_eq_some_iff.mp called
      cases sub with
      | error code =>
        obtain ⟨rfl, rfl, rfl⟩ := rest
        exact Or.inl ⟨⟨code, rfl⟩, rfl⟩
      | ok both =>
        obtain ⟨ent, block⟩ := both
        simp only at rest
        rcases sfsBmapGetSubNolock_ent got with ⟨stays, rfl⟩ | ⟨isCreate, zero, nonzero⟩
        · rw [if_pos rfl] at rest
          obtain ⟨rfl, rfl⟩ := found_block rest
          refine Or.inr (Or.inl ⟨⟨_, rfl⟩, ?_, rfl⟩)
          rintro isCreate (⟨small, _⟩ | ⟨_, zero⟩)
          · exact large small
          · rcases stays with nonzero | noCreate
            · exact nonzero zero
            · simp [noCreate] at isCreate
        · have different : ent ≠ sin.din.indirect := fun same => nonzero (same.trans zero)
          rw [if_neg different, if_pos zero] at rest
          obtain ⟨rfl, rfl⟩ := found_block rest
          exact Or.inr (Or.inr ⟨⟨block, rfl⟩, ⟨isCreate, Or.inr ⟨not_lt.mp large, zero⟩⟩, _, _, rfl⟩)
    · cases called

/-- The next block behind the last one: nothing changes, or the file has one more block,
and a new pointer leaves the inode dirty. -/
theorem sfsBmapLoadNolock_next {result : Except Int Nat}
    (called : sfsBmapLoadNolock device fs sin sin.din.blocks = some (result, after, sinAfter)) :
    (∃ code, result = .error code) ∧ sinAfter = sin ∨
      (∃ block, result = .ok block) ∧ ¬ sin.din.Missing sin.din.blocks ∧
        sinAfter = { sin with din := { sin.din with blocks := sin.din.blocks + 1 } } ∨
      (∃ block, result = .ok block) ∧ sin.din.Missing sin.din.blocks ∧ ∃ direct indirect,
        sinAfter = sin.modify { sin.din with blocks := sin.din.blocks + 1, direct, indirect } := by
  simp only [sfsBmapLoadNolock, le_refl, if_true, decide_true] at called
  obtain ⟨⟨got, middle, sinMiddle⟩, isGot, rest⟩ := Option.bind_eq_some_iff.mp called
  rcases sfsBmapGetNolock_inode isGot with ⟨⟨code, rfl⟩, rfl⟩ | ⟨⟨block, rfl⟩, present, rfl⟩ |
    ⟨⟨block, rfl⟩, missing, direct, indirect, rfl⟩
  · obtain ⟨rfl, rfl, rfl⟩ := rest
    exact Or.inl ⟨⟨code, rfl⟩, rfl⟩
  · obtain ⟨_, _, rest⟩ := Option.bind_eq_some_iff.mp rest
    obtain ⟨rfl, rfl, rfl⟩ := rest
    exact Or.inr (Or.inl ⟨⟨block, rfl⟩, present rfl, rfl⟩)
  · obtain ⟨_, _, rest⟩ := Option.bind_eq_some_iff.mp rest
    obtain ⟨rfl, rfl, rfl⟩ := rest
    exact Or.inr (Or.inr ⟨⟨block, rfl⟩, missing.2, direct, indirect, rfl⟩)

/-- `sfs_bmap_free_nolock` fails before it changes the inode. -/
theorem sfsBmapFreeNolock_inode
    (called : sfsBmapFreeNolock device fs sin index = some (ret, after, sinAfter)) :
    sinAfter = sin ∨ ret = 0 ∧ ∃ direct, sinAfter = sin.modify { sin.din with direct } := by
  unfold sfsBmapFreeNolock at called
  split at called
  · split at called
    · obtain ⟨_, _, rest⟩ := Option.bind_eq_some_iff.mp called
      obtain ⟨rfl, rfl, rfl⟩ := rest
      exact Or.inr ⟨rfl, _, rfl⟩
    · obtain ⟨_, rfl, rfl⟩ := called
      exact Or.inl rfl
  · split at called
    · obtain ⟨_, _, same⟩ := Option.map_eq_some_iff.mp called
      obtain ⟨_, rfl, rfl⟩ := same
      exact Or.inl rfl
    · obtain ⟨_, rfl, rfl⟩ := called
      exact Or.inl rfl

/-- The last block: nothing changes, or the file has one block less and is dirty. -/
theorem sfsBmapTruncateNolock_inode
    (called : sfsBmapTruncateNolock device fs sin = some (ret, after, sinAfter)) :
    ret ≠ 0 ∧ sinAfter = sin ∨
      ret = 0 ∧ sin.din.blocks ≠ 0 ∧ ∃ direct,
        sinAfter = sin.modify { sin.din with blocks := sin.din.blocks - 1, direct } := by
  unfold sfsBmapTruncateNolock at called
  split at called
  · rename_i nonzero
    obtain ⟨⟨code, middle, sinMiddle⟩, freed, rest⟩ := Option.bind_eq_some_iff.mp called
    have cases := sfsBmapFreeNolock_inode freed
    simp only at rest
    split at rest
    · rename_i failed
      obtain ⟨rfl, rfl, rfl⟩ := rest
      rcases cases with rfl | ⟨zero, _⟩
      · exact Or.inl ⟨failed, rfl⟩
      · exact absurd zero failed
    · obtain ⟨rfl, rfl, rfl⟩ := rest
      rcases cases with rfl | ⟨_, direct, rfl⟩
      · exact Or.inr ⟨rfl, nonzero, sinMiddle.din.direct, rfl⟩
      · exact Or.inr ⟨rfl, nonzero, direct, rfl⟩
  · cases called

/-! ## The loops -/

/-- What a resize has done to an inode when it ends after moving `moved` blocks. -/
structure Resized (sin : SfsInode) (blocks moved rounds : Nat) (ret : Int) (sinAfter : SfsInode) : Prop where
  ino : sinAfter.ino = sin.ino
  size : sinAfter.din.size = sin.din.size
  type : sinAfter.din.type = sin.din.type
  count : sinAfter.din.blocks = blocks
  inside : moved ≤ rounds
  failed : ret ≠ 0 → moved < rounds
  unmoved : moved = 0 → sinAfter = sin

/-- The growing loop adds a block in each round until it fails. -/
theorem growBlocks_exact
    (called : growBlocks device fs sin sin.din.blocks rounds = some (ret, after, sinAfter)) :
    Resized sin (sin.din.blocks + blocksAdded device fs sin rounds) (blocksAdded device fs sin rounds) rounds
      ret sinAfter := by
  induction rounds generalizing fs sin with
  | zero =>
    obtain ⟨rfl, rfl, rfl⟩ := called
    exact ⟨rfl, rfl, rfl, rfl, le_refl _, fun failed => absurd rfl failed, fun _ => rfl⟩
  | succ rounds ih =>
    obtain ⟨⟨result, middle, sinMiddle⟩, loaded, rest⟩ := Option.bind_eq_some_iff.mp called
    have next : ∀ direct indirect dirty,
        sinMiddle = { sin with din := { sin.din with blocks := sin.din.blocks + 1, direct, indirect }, dirty } →
        growBlocks device middle sinMiddle (sin.din.blocks + 1) rounds = some (ret, after, sinAfter) →
        Resized sin (sin.din.blocks + (blocksAdded device middle sinMiddle rounds + 1))
          (blocksAdded device middle sinMiddle rounds + 1) (rounds + 1) ret sinAfter := by
      rintro direct indirect dirty rfl goesOn
      obtain ⟨ino, size, type, count, inside, failed, _⟩ := ih goesOn
      dsimp only at count inside failed ⊢
      exact ⟨ino, size, type, by omega, by omega, fun code => Nat.succ_lt_succ (failed code), by omega⟩
    rcases sfsBmapLoadNolock_next loaded with ⟨⟨code, rfl⟩, rfl⟩ | ⟨⟨block, rfl⟩, _, isNext⟩ |
      ⟨⟨block, rfl⟩, _, direct, indirect, isNext⟩
    · obtain ⟨rfl, rfl, rfl⟩ := rest
      simp only [blocksAdded, loaded]
      exact ⟨rfl, rfl, rfl, rfl, Nat.zero_le _, fun _ => Nat.succ_pos _, fun _ => rfl⟩
    · simp only [blocksAdded, loaded]
      exact next _ _ _ isNext rest
    · simp only [blocksAdded, loaded]
      exact next _ _ _ isNext rest

/-- The shrinking loop removes a block in each round until it fails. -/
theorem shrinkBlocks_exact
    (called : shrinkBlocks device fs sin rounds = some (ret, after, sinAfter)) :
    Resized sin (sin.din.blocks - blocksRemoved device fs sin rounds) (blocksRemoved device fs sin rounds)
      rounds ret sinAfter ∧ blocksRemoved device fs sin rounds ≤ sin.din.blocks := by
  induction rounds generalizing fs sin with
  | zero =>
    obtain ⟨rfl, rfl, rfl⟩ := called
    exact ⟨⟨rfl, rfl, rfl, rfl, le_refl _, fun failed => absurd rfl failed, fun _ => rfl⟩, Nat.zero_le _⟩
  | succ rounds ih =>
    obtain ⟨⟨code, middle, sinMiddle⟩, truncated, rest⟩ := Option.bind_eq_some_iff.mp called
    simp only [blocksRemoved, truncated]
    rcases sfsBmapTruncateNolock_inode truncated with ⟨failed, rfl⟩ | ⟨rfl, nonzero, direct, rfl⟩
    · simp only [ne_eq, failed, not_false_eq_true, if_true] at rest
      obtain ⟨rfl, rfl, rfl⟩ := rest
      simp only [failed, if_false]
      exact ⟨⟨rfl, rfl, rfl, rfl, Nat.zero_le _, fun _ => Nat.succ_pos _, fun _ => rfl⟩, Nat.zero_le _⟩
    · simp only [ne_eq, not_true_eq_false, if_false] at rest
      obtain ⟨⟨ino, size, type, count, inside, failed, _⟩, within⟩ := ih rest
      simp only [SfsInode.modify] at count inside failed within
      simp only [if_true, SfsInode.modify]
      refine ⟨⟨ino, size, type, ?_, ?_, fun code => Nat.succ_lt_succ (failed code), ?_⟩, ?_⟩ <;> omega

/-- A resize has all blocks when it succeeds. When it fails, it is whole if and only if it
has changed nothing. -/
theorem resize_exact (called : resize device fs sin tblks = some (ret, after, sinAfter)) :
    sinAfter.din.size = sin.din.size ∧ sinAfter.din.type = sin.din.type ∧
      (ret ≠ 0 → (WholeResize device fs sin tblks ↔ sinAfter.din.blocks = sin.din.blocks)) ∧
      (ret = 0 → sinAfter.din.blocks = tblks → WholeResize device fs sin tblks) := by
  unfold resize at called
  unfold WholeResize AllOrNone
  split at called
  · rename_i grows
    obtain ⟨_, size, type, blocks, moved, failed, _⟩ := growBlocks_exact called
    rw [if_pos grows]
    refine ⟨size, type, ?_, ?_⟩
    · intro code
      have := failed code
      omega
    · omega
  · rename_i shrinks
    obtain ⟨⟨_, size, type, blocks, moved, failed, _⟩, inside⟩ := shrinkBlocks_exact called
    rw [if_neg shrinks]
    refine ⟨size, type, ?_, ?_⟩
    · intro code
      have := failed code
      omega
    · omega

/-! ## Sizes -/

/-- `sfs_truncfile` sets the size, or fails and leaves it; a file stays a file. -/
theorem sfsTruncfile_size {len : Int} (called : sfsTruncfile device fs sin len = some (ret, after, sinAfter)) :
    sinAfter.din.type = sin.din.type ∧
      (ret = 0 ∧ sinAfter.din.size = len ∨ ret ≠ 0 ∧ sinAfter.din.size = sin.din.size) := by
  unfold sfsTruncfile at called
  split at called
  · obtain ⟨rfl, rfl, rfl⟩ := called
    exact ⟨rfl, Or.inr ⟨by decide, rfl⟩⟩
  · rename_i accepted
    simp only at called
    split at called
    · rename_i same
      split at called
      · obtain ⟨rfl, rfl, rfl⟩ := called
        exact ⟨rfl, Or.inl ⟨rfl, same⟩⟩
      · cases called
    · obtain ⟨⟨code, middle, sinMiddle⟩, resized, rest⟩ := Option.bind_eq_some_iff.mp called
      obtain ⟨size, type, _⟩ := resize_exact resized
      simp only at rest
      split at rest
      · rename_i failed
        obtain ⟨rfl, rfl, rfl⟩ := rest
        exact ⟨type, Or.inr ⟨failed, size⟩⟩
      · split at rest
        · obtain ⟨rfl, rfl, rfl⟩ := rest
          refine ⟨type, Or.inl ⟨rfl, ?_⟩⟩
          simp only [SfsInode.modify]
          omega
        · cases rest

/-- Where size and blocks agree, `sfs_truncfile` for the length that the file has does
nothing. -/
theorem sfsTruncfile_same (agrees : sin.din.Agrees) :
    ∃ ret, sfsTruncfile device fs sin sin.din.size = some (ret, fs, sin) := by
  unfold sfsTruncfile
  split
  · exact ⟨_, rfl⟩
  · have same : ((sin.din.size : Int).toNat + sfsBlksize - 1) / sfsBlksize = sin.din.blocks := agrees.symm
    simp only [if_true, same]
    exact ⟨0, rfl⟩

/-- After `sfs_truncfile` size and blocks agree if and only if it does not fail behind the
first block that it adds or removes. -/
theorem sfsTruncfile_agrees {len : Int} (agrees : sin.din.Agrees)
    (called : sfsTruncfile device fs sin len = some (ret, after, sinAfter)) :
    sinAfter.din.type = sin.din.type ∧ (sinAfter.din.Agrees ↔ WholeTruncfile device fs sin len) := by
  unfold sfsTruncfile at called
  unfold WholeTruncfile
  split at called
  · rename_i outside
    obtain ⟨_, rfl, rfl⟩ := called
    refine ⟨rfl, fun _ inside => ?_, fun _ => agrees⟩
    omega
  · rename_i inside
    simp only at called
    split at called
    · rename_i same
      split at called
      · obtain ⟨_, rfl, rfl⟩ := called
        exact ⟨rfl, fun _ resized => absurd same resized.2.2, fun _ => agrees⟩
      · cases called
    · rename_i different
      have resizes : 0 ≤ len ∧ len ≤ sfsMaxFileSize ∧ (sin.din.size : Int) ≠ len := by
        refine ⟨?_, ?_, different⟩ <;> omega
      rw [forall_prop_of_true resizes]
      obtain ⟨⟨code, middle, sinMiddle⟩, resized, rest⟩ := Option.bind_eq_some_iff.mp called
      obtain ⟨size, type, fails, succeeds⟩ := resize_exact resized
      simp only at rest
      split at rest
      · rename_i failed
        obtain ⟨rfl, rfl, rfl⟩ := rest
        refine ⟨type, ?_⟩
        rw [show WholeResize device fs sin (blocksFor len.toNat) ↔ _ from fails failed, DiskInode.Agrees, size,
          ← show sin.din.blocks = blocksFor sin.din.size from agrees]
      · rename_i done
        split at rest
        · rename_i isBlocks
          obtain ⟨_, rfl, rfl⟩ := rest
          exact ⟨type, fun _ => succeeds (not_not.mp done) isBlocks, fun _ => isBlocks⟩
        · cases rest

theorem vopTruncate_file {len : Int} (called : vopTruncate device fs sin len = some (ret, after, sinAfter)) :
    sfsTruncfile device fs sin len = some (ret, after, sinAfter) := by
  unfold vopTruncate at called
  split at called
  · exact called
  · cases called

/-- After `sfs_tryseek` size and blocks agree if and only if it does not fail behind the
first block that it adds. -/
theorem sfsTryseek_agrees {pos : Int} (agrees : sin.din.Agrees)
    (called : sfsTryseek device fs sin pos = some (ret, after, sinAfter)) :
    sinAfter.din.type = sin.din.type ∧
      (sinAfter.din.Agrees ↔ (pos < sfsMaxFileSize → sin.din.size < pos → WholeTruncfile device fs sin pos)) := by
  unfold sfsTryseek at called
  split at called
  · rename_i outside
    obtain ⟨_, rfl, rfl⟩ := called
    exact ⟨rfl, fun _ small larger => by omega, fun _ => agrees⟩
  · rename_i inside
    split at called
    · rename_i larger
      obtain ⟨type, same⟩ := sfsTruncfile_agrees agrees (vopTruncate_file called)
      exact ⟨type, fun after _ _ => same.mp after, fun whole => same.mpr (whole (by omega) larger)⟩
    · rename_i smaller
      obtain ⟨_, rfl, rfl⟩ := called
      exact ⟨rfl, fun _ _ larger => absurd larger smaller, fun _ => agrees⟩

/-- An operation on one inode keeps the agreement of the volume. -/
theorem Mounted.Agrees.put (agrees : volume.Agrees) (here : sinAfter.din.type = sfsTypeFile → sinAfter.din.Agrees) :
    (volume.put ino after (some sinAfter)).Agrees := by
  intro other sin isIn isFile
  by_cases same : other = ino
  · subst same
    obtain rfl : sinAfter = sin := by simpa [Mounted.put] using isIn
    exact here isFile
  · exact agrees other sin (by simpa [Mounted.put, same] using isIn) isFile

/-- A resize that is whole keeps the agreement of every file. -/
theorem resizing_keeps (volume : Mounted) (operation : VolumeOperation) (next : Mounted) (agrees : volume.Agrees)
    (allowed : Resizing device volume operation) (taken : volumeStep device volume operation = some next) :
    next.Agrees := by
  cases operation with
  | truncfile ino len =>
    obtain ⟨sin, isIn, rest⟩ := Option.bind_eq_some_iff.mp taken
    obtain ⟨⟨ret, after, sinAfter⟩, called, isNext⟩ := Option.bind_eq_some_iff.mp rest
    obtain rfl := Option.some.inj isNext
    obtain ⟨isFile, whole⟩ := allowed sin isIn
    obtain ⟨_, same⟩ := sfsTruncfile_agrees (agrees ino sin isIn isFile) called
    exact agrees.put fun _ => same.mpr whole
  | tryseek ino pos =>
    obtain ⟨sin, isIn, rest⟩ := Option.bind_eq_some_iff.mp taken
    obtain ⟨⟨ret, after, sinAfter⟩, called, isNext⟩ := Option.bind_eq_some_iff.mp rest
    obtain rfl := Option.some.inj isNext
    obtain ⟨isFile, whole⟩ := allowed sin isIn
    obtain ⟨_, same⟩ := sfsTryseek_agrees (agrees ino sin isIn isFile) called
    exact agrees.put fun _ => same.mpr fun _ => whole
  | _ => cases allowed

/-- In every run of resizes none of which fails behind its first block, every file has the
blocks that its size needs, and a resize to the size that it has returns. -/
theorem size_blocks_agree (device : Nat → Int) (start volume : Mounted) (agrees : start.Agrees)
    (reached : Reaches (volumeStep device) (Resizing device) start volume) :
    ∀ ino sin, volume.inodes ino = some sin → sin.din.type = sfsTypeFile →
      sin.din.blocks = blocksFor sin.din.size ∧
        ∃ ret, sfsTruncfile device volume.fs sin sin.din.size = some (ret, volume.fs, sin) := by
  intro ino sin isIn isFile
  have kept : volume.Agrees := reached.invariant agrees resizing_keeps
  exact ⟨kept ino sin isIn isFile, sfsTruncfile_same (kept ino sin isIn isFile)⟩

theorem twoFiles_agrees : twoFiles.Agrees := by
  intro ino sin isIn _
  simp only [twoFiles] at isIn
  split at isIn
  · obtain rfl := Option.some.inj isIn
    rfl
  · split at isIn
    · obtain rfl := Option.some.inj isIn
      rfl
    · cases isIn

/-- A file grows, fails at the first block of another growth, grows by a seek and shrinks. -/
theorem size_blocks_agree_resizes :
    ∃ volume, Reaches (volumeStep fun call => if call = 2 then -1 else 0)
        (Resizing fun call => if call = 2 then -1 else 0) twoFiles volume ∧
      (volume.inodes 3).map (fun sin => (sin.din.size, sin.din.blocks)) = some (5000, 2) ∧
      ∀ ino sin, volume.inodes ino = some sin → sin.din.type = sfsTypeFile →
        sin.din.blocks = blocksFor sin.din.size ∧
          ∃ ret, sfsTruncfile (fun call => if call = 2 then -1 else 0) volume.fs sin sin.din.size =
            some (ret, volume.fs, sin) := by
  have completed : (run (guarded (volumeStep fun call => if call = 2 then -1 else 0)
        fun volume operation => decide (Resizing (fun call => if call = 2 then -1 else 0) volume operation))
        [.truncfile 3 8000, .truncfile 3 16384, .tryseek 3 20000, .truncfile 3 5000] twoFiles).map
      (fun volume => (volume.inodes 3).map (fun sin => (sin.din.size, sin.din.blocks))) =
      some (some (5000, 2)) := by
    decide +kernel
  obtain ⟨volume, last, results⟩ := Option.map_eq_some_iff.mp completed
  have reached : Reaches (volumeStep fun call => if call = 2 then -1 else 0)
      (Resizing fun call => if call = 2 then -1 else 0) twoFiles volume := by
    exact guarded_reaches (fun _ _ tested => of_decide_eq_true tested) _ _ _ last
  exact ⟨volume, reached, results, size_blocks_agree _ twoFiles volume twoFiles_agrees reached⟩

/-- The second block of a growth fails: the file of size 0 has a block, and the assertion
of a resize to 0 fails. -/
theorem late_failure_disagrees :
    ∃ volume sin, Reaches (volumeStep fun call => if call = 1 then -1 else 0)
        (fun _ operation => operation = .truncfile 3 8192) twoFiles volume ∧
      twoFiles.Agrees ∧ volume.inodes 3 = some sin ∧ sin.din.type = sfsTypeFile ∧ sin.din.size = 0 ∧
      sin.din.blocks ≠ blocksFor sin.din.size ∧
      sfsTruncfile (fun call => if call = 1 then -1 else 0) volume.fs sin sin.din.size = none := by
  have completed : (volumeStep (fun call => if call = 1 then -1 else 0) twoFiles (.truncfile 3 8192)).bind
      (fun volume => (volume.inodes 3).map fun sin => (sin.din.type, sin.din.size, sin.din.blocks)) =
      some (sfsTypeFile, 0, 1) := by
    decide +kernel
  obtain ⟨volume, taken, rest⟩ := Option.bind_eq_some_iff.mp completed
  obtain ⟨sin, isIn, results⟩ := Option.map_eq_some_iff.mp rest
  obtain ⟨isFile, size, blocks⟩ : _ ∧ _ ∧ _ := by simpa using results
  refine ⟨volume, sin, .step .start rfl taken, twoFiles_agrees, isIn, isFile, size, ?_, ?_⟩
  · rw [size, blocks]
    decide
  · simp [sfsTruncfile, size, blocks, sfsMaxFileSize, sfsBlksize]

end Ucore.Volume
