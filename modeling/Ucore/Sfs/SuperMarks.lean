import Ucore.Library.Carried
import Ucore.Sfs.VolumeRuns

/-!
# Changes of the superblock

The superblock and the freemap in memory change when blocks are taken and freed. Whoever changes
them marks the superblock as dirty, and no operation on inodes takes the mark back.
-/

namespace Ucore.Volume

open Carried

/-- Only the number of free blocks and the bits of the freemap change, and a change is marked. -/
structure Marks (fs after : SfsFs) : Prop where
  super : after.super = { fs.super with unusedBlocks := after.super.unusedBlocks }
  nbits : after.freemap.nbits = fs.freemap.nbits
  nwords : after.freemap.nwords = fs.freemap.nwords
  marked : after.superDirty = true ∨
    after.super = fs.super ∧ after.freemap = fs.freemap ∧ after.superDirty = fs.superDirty

variable {device : Nat → Int} {fs middle after : SfsFs} {sin : SfsInode} {index ino ent entp : Nat} {create : Bool}

/-- Neither the superblock nor the freemap changes. -/
theorem Marks.same (super : after.super = fs.super) (freemap : after.freemap = fs.freemap)
    (dirty : after.superDirty = fs.superDirty) : Marks fs after :=
  ⟨by rw [super], by rw [freemap], by rw [freemap], Or.inr ⟨super, freemap, dirty⟩⟩

theorem Marks.refl (fs : SfsFs) : Marks fs fs := .same rfl rfl rfl

theorem Marks.trans (first : Marks fs middle) (second : Marks middle after) : Marks fs after where
  super := by
    rw [second.super, first.super]
  nbits := second.nbits.trans first.nbits
  nwords := second.nwords.trans first.nwords
  marked := by
    rcases second.marked with dirty | ⟨super, freemap, dirty⟩
    · exact Or.inl dirty
    · rw [super, freemap, dirty]
      exact first.marked

instance : IsTrans SfsFs Marks := ⟨fun _ _ _ => Marks.trans⟩

/-! ## Blocks -/

theorem sfsRbuf_marks {len blkno offset : Nat} : Carries Marks fs Prod.snd (sfsRbuf device fs len blkno offset) := by
  intro result called
  obtain ⟨⟨calls, isAfter⟩, _⟩ := sfsRbuf_cases called
  rw [isAfter]
  exact .same rfl rfl rfl

theorem sfsWbuf_marks {buf : Block} {len blkno offset : Nat} :
    Carries Marks fs Prod.snd (sfsWbuf device fs buf len blkno offset) := by
  intro result called
  obtain ⟨calls, ⟨_, isAfter⟩ | ⟨_, isAfter⟩⟩ := sfsWbuf_cases called
  · rw [isAfter]
    exact .same rfl rfl rfl
  · rw [isAfter]
    exact .same rfl rfl rfl

theorem sfsClearBlock_marks : Carries Marks fs Prod.snd (sfsClearBlock device fs ino 1) := by
  intro result called
  obtain ⟨calls, ⟨_, isAfter⟩ | ⟨_, isAfter⟩⟩ := sfsClearBlock_cases called
  · rw [isAfter]
    exact .same rfl rfl rfl
  · rw [isAfter]
    exact .same rfl rfl rfl

theorem sfsBlockAlloc_marks : Carries Marks fs Prod.snd (sfsBlockAlloc device fs) := by
  intro result called
  obtain ⟨⟨found, freemap⟩, allocated, rest⟩ := Option.bind_eq_some_iff.mp called
  rcases bitmapAlloc_exact fs.freemap with none | ⟨index, taken, isTaken, _, _, _, nbits, nwords⟩
  · rw [none] at allocated
    obtain ⟨rfl, rfl⟩ := Prod.mk.inj (Option.some.inj allocated)
    obtain rfl := Option.some.inj rest
    exact .refl fs
  · rw [isTaken] at allocated
    obtain ⟨rfl, rfl⟩ := Prod.mk.inj (Option.some.inj allocated)
    simp only [takeBlock] at rest
    split at rest
    · have marks : Marks fs { fs with
          super := { fs.super with unusedBlocks := fs.super.unusedBlocks - 1 }, freemap := taken, superDirty := true } :=
        ⟨rfl, nbits, nwords, Or.inl rfl⟩
      obtain ⟨_, _, rest⟩ := Option.bind_eq_some_iff.mp rest
      obtain ⟨cleared, clearing, isLast⟩ := Option.bind_eq_some_iff.mp rest
      obtain rfl := Option.some.inj isLast
      exact marks.trans (sfsClearBlock_marks cleared clearing)
    · cases rest

theorem sfsBlockFree_marks : Carries Marks fs id (sfsBlockFree fs ino) := by
  intro result called
  obtain ⟨_, asserted, rest⟩ := Option.bind_eq_some_iff.mp called
  obtain ⟨freemap, freed, isAfter⟩ := Option.bind_eq_some_iff.mp rest
  obtain rfl := Option.some.inj isAfter
  obtain ⟨inside, clear⟩ := bitmapFree_some freed
  obtain ⟨_, same, _, nbits, nwords⟩ := bitmapFree_exact inside clear
  obtain rfl := Option.some.inj (freed.symm.trans same)
  exact ⟨rfl, nbits, nwords, Or.inl rfl⟩

/-! ## The blocks of an inode -/

theorem failedCleanup_marks {ret : Int} : Carries Marks fs Prod.snd (failedCleanup fs entp ent ret) := by
  unfold failedCleanup
  split
  · exact sfsBlockFree_marks.map fun _ => rfl
  · exact .done (.refl fs)

theorem newEntry_marks : Carries Marks fs Prod.snd (newEntry device fs entp ent index) := by
  unfold newEntry
  refine sfsBlockAlloc_marks.bind fun ⟨allocated, middle⟩ => ?_
  cases allocated with
  | error ret => exact failedCleanup_marks
  | ok ino =>
    refine sfsWbuf_marks.bind fun ⟨ret, last⟩ => ?_
    dsimp only
    split
    · exact sfsBlockFree_marks.bind fun _ => failedCleanup_marks
    · exact .done (.refl last)

theorem sfsBmapGetSubNolock_marks : Carries Marks fs Prod.snd (sfsBmapGetSubNolock device fs entp index create) := by
  unfold sfsBmapGetSubNolock
  split
  · split
    · refine sfsRbuf_marks.bind fun ⟨read, middle⟩ => ?_
      cases read with
      | error ret => exact .done (.refl middle)
      | ok words =>
        dsimp only
        split
        · exact .done (.refl middle)
        · exact newEntry_marks
    · split
      · exact .done (.refl fs)
      · refine sfsBlockAlloc_marks.bind fun ⟨allocated, middle⟩ => ?_
        cases allocated with
        | error ret => exact .done (.refl middle)
        | ok ent => exact newEntry_marks
  · exact .refused

/-- The state of the file system among the results for an inode. -/
def leftFs {α : Type} (result : α × SfsFs × SfsInode) : SfsFs := result.2.1

theorem found_marks : Carries Marks fs leftFs (found fs sin ino) := by
  unfold found
  split
  · exact .done (.refl fs)
  · exact .after fun _ => .done (.refl fs)

theorem getDirect_marks : Carries Marks fs leftFs (getDirect device fs sin index create) := by
  unfold getDirect
  split
  · refine sfsBlockAlloc_marks.bind fun ⟨allocated, middle⟩ => ?_
    cases allocated with
    | error ret => exact .done (.refl middle)
    | ok ino => exact found_marks
  · exact found_marks

theorem getIndirect_marks : Carries Marks fs leftFs (getIndirect device fs sin index create) := by
  unfold getIndirect
  refine sfsBmapGetSubNolock_marks.bind fun ⟨result, middle⟩ => ?_
  cases result with
  | error ret => exact .done (.refl middle)
  | ok blocks =>
    dsimp only
    split
    · exact found_marks
    · split
      · exact found_marks
      · exact .refused

theorem sfsBmapGetNolock_marks : Carries Marks fs leftFs (sfsBmapGetNolock device fs sin index create) := by
  unfold sfsBmapGetNolock
  split
  · exact getDirect_marks
  · split
    · exact getIndirect_marks
    · exact .refused

theorem sfsBmapFreeSubNolock_marks : Carries Marks fs Prod.snd (sfsBmapFreeSubNolock device fs ent index) := by
  unfold sfsBmapFreeSubNolock
  refine .after fun _ => sfsRbuf_marks.bind fun ⟨read, middle⟩ => ?_
  cases read with
  | error ret => exact .done (.refl middle)
  | ok words =>
    dsimp only
    split
    · exact .done (.refl middle)
    · refine sfsWbuf_marks.bind fun ⟨ret, last⟩ => ?_
      dsimp only
      split
      · exact .done (.refl last)
      · exact sfsBlockFree_marks.map fun _ => rfl

theorem sfsBmapFreeNolock_marks : Carries Marks fs leftFs (sfsBmapFreeNolock device fs sin index) := by
  unfold sfsBmapFreeNolock
  split
  · split
    · exact sfsBlockFree_marks.bind fun freed => .done (.refl freed)
    · exact .done (.refl fs)
  · split
    · exact sfsBmapFreeSubNolock_marks.map fun _ => rfl
    · exact .done (.refl fs)

theorem sfsBmapLoadNolock_marks : Carries Marks fs leftFs (sfsBmapLoadNolock device fs sin index) := by
  unfold sfsBmapLoadNolock
  split
  · refine sfsBmapGetNolock_marks.bind fun ⟨result, middle, sinMiddle⟩ => ?_
    cases result with
    | error ret => exact .done (.refl middle)
    | ok ino => exact .after fun _ => .done (.refl middle)
  · exact .refused

theorem sfsBmapTruncateNolock_marks : Carries Marks fs leftFs (sfsBmapTruncateNolock device fs sin) := by
  unfold sfsBmapTruncateNolock
  split
  · refine sfsBmapFreeNolock_marks.bind fun ⟨ret, middle, sinMiddle⟩ => ?_
    dsimp only
    split
    · exact .done (.refl middle)
    · exact .done (.refl middle)
  · exact .refused

theorem growBlocks_marks {nblks rounds : Nat} : Carries Marks fs leftFs (growBlocks device fs sin nblks rounds) := by
  induction rounds generalizing fs sin nblks with
  | zero => exact .done (.refl fs)
  | succ rounds ih =>
    refine sfsBmapLoadNolock_marks.bind fun ⟨result, middle, sinMiddle⟩ => ?_
    cases result with
    | error ret => exact .done (.refl middle)
    | ok block => exact ih

theorem shrinkBlocks_marks {rounds : Nat} : Carries Marks fs leftFs (shrinkBlocks device fs sin rounds) := by
  induction rounds generalizing fs sin with
  | zero => exact .done (.refl fs)
  | succ rounds ih =>
    refine sfsBmapTruncateNolock_marks.bind fun ⟨ret, middle, sinMiddle⟩ => ?_
    dsimp only
    split
    · exact .done (.refl middle)
    · exact ih

theorem sfsTruncfile_marks {len : Int} : Carries Marks fs leftFs (sfsTruncfile device fs sin len) := by
  have resized : ∀ tblks, Carries Marks fs leftFs (resize device fs sin tblks) := by
    intro tblks
    unfold resize
    split
    · exact growBlocks_marks
    · exact shrinkBlocks_marks
  unfold sfsTruncfile
  split
  · exact .done (.refl fs)
  · dsimp only
    split
    · split
      · exact .done (.refl fs)
      · exact .refused
    · refine (resized _).bind fun ⟨ret, middle, sinMiddle⟩ => ?_
      dsimp only
      split
      · exact .done (.refl middle)
      · split
        · exact .done (.refl middle)
        · exact .refused

theorem vopTruncate_marks {len : Int} : Carries Marks fs leftFs (vopTruncate device fs sin len) := by
  unfold vopTruncate
  split
  · exact sfsTruncfile_marks
  · exact .refused

theorem sfsTryseek_marks {pos : Int} : Carries Marks fs leftFs (sfsTryseek device fs sin pos) := by
  unfold sfsTryseek
  split
  · exact .done (.refl fs)
  · split
    · exact vopTruncate_marks
    · exact .done (.refl fs)

theorem sfsFsync_marks : Carries Marks fs leftFs (sfsFsync device fs sin) := by
  unfold sfsFsync
  split
  · exact sfsWbuf_marks.bind fun ⟨ret, middle⟩ => .done (.refl middle)
  · exact .done (.refl fs)

theorem reclaimFree_marks : Carries Marks fs id (reclaimFree fs sin) := by
  unfold reclaimFree
  split
  · refine sfsBlockFree_marks.bind fun middle => ?_
    split
    · exact sfsBlockFree_marks
    · exact .done (.refl middle)
  · exact .done (.refl fs)

theorem reclaimSync_marks : Carries Marks fs leftFs (reclaimSync device fs sin) := by
  have truncated : Carries Marks fs leftFs (reclaimTruncate device fs sin) := by
    unfold reclaimTruncate
    split
    · exact vopTruncate_marks
    · exact .done (.refl fs)
  unfold reclaimSync
  refine truncated.bind fun ⟨ret, middle, sinMiddle⟩ => ?_
  dsimp only
  split
  · exact .done (.refl middle)
  · split
    · exact sfsFsync_marks
    · exact .done (.refl middle)

theorem sfsReclaim_marks {refCount : Int} :
    Carries Marks fs (fun result : Int × SfsFs × Option SfsInode => result.2.1) (sfsReclaim device fs sin refCount) := by
  unfold sfsReclaim
  split
  · dsimp only
    split
    · exact .done (.refl fs)
    · refine reclaimSync_marks.bind fun ⟨ret, middle, sinMiddle⟩ => ?_
      dsimp only
      split
      · exact .done (.refl middle)
      · exact reclaimFree_marks.bind fun last => .done (.refl last)
  · exact .refused

/-! ## The whole volume -/

theorem loadInode_marks {volume : Mounted} {refCount : Int} {din node : Bool} :
    Carries Marks volume.fs Mounted.fs (loadInode device volume ino refCount din node) := by
  unfold loadInode
  split
  · exact .done (.refl _)
  · split
    · exact .done (.refl _)
    · refine .after fun _ => sfsRbuf_marks.bind fun ⟨read, middle⟩ => ?_
      cases read with
      | error code => exact .done (.refl middle)
      | ok words =>
        dsimp only
        split
        · exact .refused
        · split
          · exact .done (.refl middle)
          · split
            · exact .refused
            · exact .done (.refl middle)

/-- No operation on an inode changes the superblock or the freemap without a mark. -/
theorem volumeStep_marks {volume : Mounted} {operation : VolumeOperation} :
    Carries Marks volume.fs Mounted.fs (volumeStep device volume operation) := by
  cases operation with
  | load ino refCount din node => exact loadInode_marks
  | fsync ino => exact .after fun sin => sfsFsync_marks.bind fun ⟨_, middle, _⟩ => .done (.refl middle)
  | truncfile ino len => exact .after fun sin => sfsTruncfile_marks.bind fun ⟨_, middle, _⟩ => .done (.refl middle)
  | tryseek ino pos => exact .after fun sin => sfsTryseek_marks.bind fun ⟨_, middle, _⟩ => .done (.refl middle)
  | bmapLoad ino index => exact .after fun sin => sfsBmapLoadNolock_marks.bind fun ⟨_, middle, _⟩ => .done (.refl middle)
  | written ino endpos => exact .after fun sin => .done (.refl volume.fs)
  | reclaim ino refCount => exact .after fun sin => sfsReclaim_marks.bind fun ⟨_, middle, _⟩ => .done (.refl middle)

end Ucore.Volume
