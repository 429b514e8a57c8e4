import Ucore.Sfs.FailedMapping

/-!
# Files at the end of the block map

`sfs_tryseek` and `sfs_truncfile` accept lengths of up to 128 MiB, and the block map ends
behind 12 direct pointers and 1024 entries of the indirect block. A file grows block after
block, so it comes to the end of the map when there are free blocks for all of the map and
the device works for as long.
-/

namespace Ucore.Volume

open Ownership

/-- The blocks that the map of an inode can hold. -/
def mapBlocks : Nat := sfsNdirect + sfsBlkNentry

/-- The place of a block of a file. -/
def filePlace (index : Nat) : Place := if index < sfsNdirect then .direct index else .entry (index - sfsNdirect)

/-- The blocks of an inode, against those of other inodes: the free blocks lie on the disk and
are counted, the blocks named are in use, each named once, and the inode names the blocks of
the file and none behind them. -/
structure Sound (fs : SfsFs) (sin : SfsInode) (frame : Nat → Prop) : Prop extends fs.Accounted where
  owns : Owns (names fs.disk sin.ino sin.din) fs.InUse frame
  named : ∀ place block, names fs.disk sin.ino sin.din place = some block → fs.Usable block
  few : sin.din.blocks ≤ mapBlocks
  mapped : ∀ index < mapBlocks, (names fs.disk sin.ino sin.din (filePlace index)).isSome = decide (index < sin.din.blocks)

/-- A regular file of a consistent volume. -/
structure ConsistentFile (fs : SfsFs) (sin : SfsInode) (frame : Nat → Prop) : Prop extends Sound fs sin frame where
  isFile : sin.din.type = sfsTypeFile
  agrees : sin.din.Agrees

/-- The blocks that a file takes until its map is full. -/
def SfsInode.blocksLeft (sin : SfsInode) : Nat :=
  mapBlocks - sin.din.blocks + if sin.din.indirect = 0 then 1 else 0

/-- The calls of the device until the map of a file is full: one for each direct block and four
for each block behind them. -/
def SfsInode.callsLeft (sin : SfsInode) : Nat :=
  sfsNdirect - sin.din.blocks + 4 * (mapBlocks - max sin.din.blocks sfsNdirect)

variable (device : Nat → Int)

/-- There are free blocks for all of the map, and the device works until it is full. -/
def FillsMap (fs : SfsFs) (sin : SfsInode) : Prop :=
  sin.blocksLeft ≤ fs.super.unusedBlocks ∧ ∀ call < sin.callsLeft, device (fs.calls + call) = 0

/-- A length needs more blocks than the map holds, and the map can be filled. -/
def PassesMap (fs : SfsFs) (sin : SfsInode) (len : Int) : Prop :=
  mapBlocks < blocksFor len.toNat ∧ FillsMap device fs sin

/-- `sfs_truncfile` sets the length asked for, or returns an error. -/
def TruncfileReturns (fs : SfsFs) (sin : SfsInode) (len : Int) : Prop :=
  ∃ ret after sinAfter, sfsTruncfile device fs sin len = some (ret, after, sinAfter) ∧
    (ret = 0 → sinAfter.din.size = len)

/-- `sfs_tryseek` leaves a file that reaches up to the position, or returns an error. -/
def TryseekReturns (fs : SfsFs) (sin : SfsInode) (pos : Int) : Prop :=
  ∃ ret after sinAfter, sfsTryseek device fs sin pos = some (ret, after, sinAfter) ∧
    (ret = 0 → sinAfter.din.size = max (sin.din.size : Int) pos)

variable {device} {fs middle after : SfsFs} {sin sinAfter : SfsInode} {frame : Nat → Prop}
  {block ino index rounds tblks : Nat}

theorem filePlace_inj {first second : Nat} (same : filePlace first = filePlace second) : first = second := by
  unfold filePlace at same
  split at same
  · split at same
    · exact Place.direct.inj same
    · cases same
  · split at same
    · cases same
    · have entry := Place.entry.inj same
      omega

theorem filePlace_indirect (index : Nat) : filePlace index ≠ .indirect := by
  unfold filePlace
  split <;> exact fun same => nomatch same

theorem filePlace_direct (small : index < sfsNdirect) : filePlace index = .direct index := if_pos small

theorem filePlace_entry (large : ¬ index < sfsNdirect) : filePlace index = .entry (index - sfsNdirect) := if_neg large

theorem Sound.holds (sound : Sound fs sin frame) : Holds fs sin frame := ⟨sound.owns, sound.counted⟩

theorem Sound.indirect (sound : Sound fs sin frame) (nonzero : sin.din.indirect ≠ 0) : fs.Usable sin.din.indirect :=
  sound.named .indirect _ (pointer_nonzero nonzero)

/-- Only calls of the device have been made. -/
theorem Sound.calls (sound : Sound fs sin frame) (calls : Nat) : Sound { fs with calls } sin frame :=
  ⟨⟨sound.counted, sound.onDisk⟩, sound.owns, sound.named, sound.few, sound.mapped⟩

/-! ## A block more -/

/-- The next block of a file is added. -/
theorem Sound.grown (sound : Sound fs sin frame) (accounted : after.Accounted) (holds : Holds after sinAfter frame)
    (keeps : ∀ block, fs.Usable block → after.Usable block) (usable : after.Usable ino)
    (small : sin.din.blocks < mapBlocks) (more : sinAfter.din.blocks = sin.din.blocks + 1)
    (indirect : ∀ block, names after.disk sinAfter.ino sinAfter.din .indirect = some block → after.Usable block)
    (others : ∀ place, place ≠ .indirect → names after.disk sinAfter.ino sinAfter.din place =
      if place = filePlace sin.din.blocks then some ino else names fs.disk sin.ino sin.din place) :
    Sound after sinAfter frame where
  toAccounted := accounted
  owns := holds.owns
  named := by
    intro place block named
    by_cases isIndirect : place = .indirect
    · exact indirect block (isIndirect ▸ named)
    · rw [others place isIndirect] at named
      split at named
      · exact Option.some.inj named ▸ usable
      · exact keeps block (sound.named place block named)
  few := by omega
  mapped := by
    intro index inside
    rw [others _ (filePlace_indirect index), more]
    by_cases isLast : index = sin.din.blocks
    · subst isLast
      simp
    · rw [if_neg fun same => isLast (filePlace_inj same), sound.mapped index inside]
      exact decide_eq_decide.mpr (by omega)

/-- The blocks and the calls of the device that the next block of a file takes. -/
def SfsInode.nextBlocks (sin : SfsInode) : Nat := if sin.din.blocks < sfsNdirect ∨ sin.din.indirect ≠ 0 then 1 else 2

def SfsInode.nextCalls (sin : SfsInode) : Nat := if sin.din.blocks < sfsNdirect then 1 else 4

variable (device) in
/-- There are free blocks for the next block of a file, and the device works until it is there. -/
def FitsNext (fs : SfsFs) (sin : SfsInode) : Prop :=
  sin.nextBlocks ≤ fs.super.unusedBlocks ∧ ∀ call < sin.nextCalls, device (fs.calls + call) = 0

theorem load_error {code : Int}
    (failed : sfsBmapGetNolock device fs sin sin.din.blocks true = some (.error code, after, sinAfter)) :
    sfsBmapLoadNolock device fs sin sin.din.blocks = some (.error code, after, sinAfter) := by
  simp only [sfsBmapLoadNolock, le_refl, if_true, decide_true, failed]
  rfl

theorem load_ok (got : sfsBmapGetNolock device fs sin sin.din.blocks true = some (.ok ino, after, sinAfter))
    (usable : after.Usable ino) : sfsBmapLoadNolock device fs sin sin.din.blocks = some (.ok ino, after,
      { sinAfter with din := { sinAfter.din with blocks := sinAfter.din.blocks + 1 } }) := by
  rw [SfsFs.Usable] at usable
  simp only [sfsBmapLoadNolock, le_refl, if_true, decide_true, got, Option.bind_eq_bind, Option.bind_some, usable]

/-- What it takes to add a block, and what is there when it is added. -/
structure Added (frame : Nat → Prop) (fs : SfsFs) (sin : SfsInode) (after : SfsFs) (sinAfter : SfsInode) : Prop where
  sound : Sound after sinAfter frame
  blocks : sinAfter.din.blocks = sin.din.blocks + 1
  indirect : sinAfter.din.indirect = 0 ↔ sin.din.indirect = 0 ∧ sin.din.blocks < sfsNdirect
  unused : after.super.unusedBlocks + sin.nextBlocks = fs.super.unusedBlocks
  calls : after.calls = fs.calls + sin.nextCalls

/-- The next block of a file is added, or there is no block for it, or the device fails. -/
def NextBlock (device : Nat → Int) (frame : Nat → Prop) (fs : SfsFs) (sin : SfsInode) : Prop :=
  ¬ FitsNext device fs sin ∧ (∃ code after, code ≠ 0 ∧
      sfsBmapLoadNolock device fs sin sin.din.blocks = some (.error code, after, sin)) ∨
    FitsNext device fs sin ∧ ∃ ino after sinAfter,
      sfsBmapLoadNolock device fs sin sin.din.blocks = some (.ok ino, after, sinAfter) ∧
      Added frame fs sin after sinAfter

/-- The next block is one of the direct blocks. -/
theorem Sound.next_direct (sound : Sound fs sin frame) (direct : sin.din.blocks < sfsNdirect) :
    NextBlock device frame fs sin := by
  have small : sin.din.blocks < mapBlocks := by
    simp only [mapBlocks]
    omega
  have isEmpty : sin.din.direct sin.din.blocks = 0 := by
    have none := sound.mapped _ small
    rw [filePlace_direct direct] at none
    by_contra nonzero
    simp [names, direct, pointer_nonzero nonzero] at none
  have blocks : sin.nextBlocks = 1 := if_pos (Or.inl direct)
  have calls : sin.nextCalls = 1 := if_pos direct
  have got : sfsBmapGetNolock device fs sin sin.din.blocks true = getDirect device fs sin sin.din.blocks true :=
    if_pos direct
  have fits : FitsNext device fs sin ↔ 0 < fs.super.unusedBlocks ∧ device fs.calls = 0 := by
    rw [FitsNext, blocks, calls]
    simp [Nat.succ_le_iff]
  rcases @getDirect_new device fs sin sin.din.blocks sound.toAccounted isEmpty with
    ⟨fails, code, ino, after, isCode, failed, _⟩ | ⟨none, code, after, isCode, failed, _⟩ |
    ⟨works, ino, after, isCalls, made, holding⟩
  · exact Or.inl ⟨fun all => fails.2 (fits.mp all).2, code, after, isCode, load_error (got.trans failed)⟩
  · exact Or.inl ⟨fun all => absurd none (Nat.pos_iff_ne_zero.mp (fits.mp all).1), code, after, isCode,
      load_error (got.trans failed)⟩
  · have usable := holding.taken_usable sound.toAccounted (Finset.mem_singleton_self ino)
    have loaded := load_ok (got.trans made) usable
    refine Or.inr ⟨fits.mpr works, ino, after, _, loaded, ?_, rfl, ?_, ?_, ?_⟩
    · refine sound.grown (holding.accounted sound.toAccounted) (sound.holds.load_steps loaded).holds
        (fun _ => holding.usable) usable small rfl ?_ ?_
      · intro block named
        exact holding.usable (sound.named .indirect block named)
      · intro place _
        have same : names after.disk sin.ino sin.din = names fs.disk sin.ino sin.din :=
          names_congr fun nonzero => holding.disk _ ((usable_iff fs _).mp (sound.indirect nonzero)).2.2.2
        have named : names after.disk sin.ino
            { sin.din with direct := Function.update sin.din.direct sin.din.blocks ino } place =
            Function.update (names after.disk sin.ino sin.din) (.direct sin.din.blocks) (pointer ino) place :=
          congrFun (names_setDirect direct) place
        rw [same, pointer_nonzero usable.range.1] at named
        rw [filePlace_direct direct]
        refine Eq.trans ?_ (named.trans ?_)
        · cases place <;> rfl
        · rw [Function.update_apply]
    · simp [SfsInode.modify, direct]
    · rw [blocks]
      exact holding.unused
    · rw [calls]
      exact isCalls

/-- A write of an entry has no part in which blocks are in use. -/
theorem Holding.entered (holding : Holding fs {ino} middle) (accounted : fs.Accounted) (calls : Nat)
    (disk : Nat → Block) : SfsFs.Accounted { middle with calls, disk } where
  counted := (holding.accounted accounted).counted
  onDisk := (holding.accounted accounted).onDisk

theorem calls_four (calls : Nat) : (∀ call < 4, device (calls + call) = 0) ↔
    device calls = 0 ∧ device (calls + 1) = 0 ∧ device (calls + 2) = 0 ∧ device (calls + 3) = 0 := by
  constructor
  · intro all
    exact ⟨all 0 (by omega), all 1 (by omega), all 2 (by omega), all 3 (by omega)⟩
  · rintro ⟨first, second, third, fourth⟩ call inside
    obtain rfl | rfl | rfl | rfl : call = 0 ∨ call = 1 ∨ call = 2 ∨ call = 3 := by omega
    · exact first
    · exact second
    · exact third
    · exact fourth

/-- The next block is an entry of the indirect block. -/
theorem Sound.next_entry (sound : Sound fs sin frame) (large : ¬ sin.din.blocks < sfsNdirect)
    (small : sin.din.blocks < mapBlocks) (nonzero : sin.din.indirect ≠ 0) : NextBlock device frame fs sin := by
  have entry : sin.din.blocks - sfsNdirect < sfsBlkNentry := by
    simp only [mapBlocks] at small
    omega
  have isEmpty : fs.disk sin.din.indirect (sin.din.blocks - sfsNdirect) = 0 := by
    have none := sound.mapped _ small
    rw [filePlace_entry large] at none
    by_contra entered
    simp [names, nonzero, entry, pointer_nonzero entered] at none
  have blocks : sin.nextBlocks = 1 := if_pos (Or.inr nonzero)
  have calls : sin.nextCalls = 4 := if_neg large
  have got : sfsBmapGetNolock device fs sin sin.din.blocks true =
      getIndirect device fs sin (sin.din.blocks - sfsNdirect) true := by
    rw [sfsBmapGetNolock, if_neg large, if_pos entry]
  have fits : FitsNext device fs sin ↔ 0 < fs.super.unusedBlocks ∧ device fs.calls = 0 ∧
      device (fs.calls + 1) = 0 ∧ device (fs.calls + 2) = 0 ∧ device (fs.calls + 3) = 0 := by
    rw [FitsNext, blocks, calls, calls_four, Nat.succ_le_iff]
  have usable := sound.indirect nonzero
  rcases @sfsBmapGetSubNolock_empty device fs _ _ sound.toAccounted usable entry isEmpty with
    ⟨fails, code, ino, after, isCode, failed, _⟩ | ⟨fails, code, after, isCode, failed, _⟩ |
    ⟨works, ino, after, made, holding⟩
  · exact Or.inl ⟨fun all => fails.2.2 (fits.mp all).2.2.1, code, after, isCode,
      load_error (got.trans (getIndirect_error failed))⟩
  · refine Or.inl ⟨fun all => ?_, code, after, isCode, load_error (got.trans (getIndirect_error failed))⟩
    obtain ⟨positive, read, cleared, second, third⟩ := fits.mp all
    rcases fails with notRead | none | ⟨_, late | later⟩
    · exact notRead read
    · exact absurd none (Nat.pos_iff_ne_zero.mp positive)
    · exact late second
    · exact later third
  · let last : SfsFs := { after with
      calls := fs.calls + 4
      disk := Function.update after.disk sin.din.indirect
        (Function.update (fs.disk sin.din.indirect) (sin.din.blocks - sfsNdirect) ino) }
    have isIno : last.Usable ino := holding.taken_usable sound.toAccounted (Finset.mem_singleton_self ino)
    have entered : getIndirect device fs sin (sin.din.blocks - sfsNdirect) true = some (.ok ino, last, sin) := by
      simp only [getIndirect, made, Option.bind_eq_bind, Option.bind_some, if_true]
      exact found_usable isIno
    have loaded := load_ok (got.trans entered) isIno
    refine Or.inr ⟨fits.mpr works, ino, last, _, loaded, ?_, rfl, ?_, ?_, ?_⟩
    · refine sound.grown (holding.entered sound.toAccounted _ _) (sound.holds.load_steps loaded).holds
        (fun _ => holding.usable) isIno small rfl ?_ ?_
      · intro block named
        exact holding.usable (sound.named .indirect block named)
      · intro place _
        have entries : last.disk sin.din.indirect =
            Function.update (fs.disk sin.din.indirect) (sin.din.blocks - sfsNdirect) ino :=
          Function.update_self _ _ _
        have named : names last.disk sin.ino sin.din place =
            Function.update (names fs.disk sin.ino sin.din) (.entry (sin.din.blocks - sfsNdirect)) (pointer ino) place :=
          congrFun (names_setEntry nonzero entry entries) place
        rw [pointer_nonzero isIno.range.1] at named
        rw [filePlace_entry large]
        refine Eq.trans ?_ (named.trans ?_)
        · cases place <;> rfl
        · rw [Function.update_apply]
    · simp [nonzero]
    · rw [blocks]
      exact holding.unused
    · rw [calls]

/-- The next block is the first entry of a new indirect block. -/
theorem Sound.next_indirect (sound : Sound fs sin frame) (large : ¬ sin.din.blocks < sfsNdirect)
    (small : sin.din.blocks < mapBlocks) (zero : sin.din.indirect = 0) : NextBlock device frame fs sin := by
  have entry : sin.din.blocks - sfsNdirect < sfsBlkNentry := by
    simp only [mapBlocks] at small
    omega
  have blocks : sin.nextBlocks = 2 := if_neg fun either => either.elim large fun nonzero => nonzero zero
  have calls : sin.nextCalls = 4 := if_neg large
  have got : sfsBmapGetNolock device fs sin sin.din.blocks true =
      getIndirect device fs sin (sin.din.blocks - sfsNdirect) true := by
    rw [sfsBmapGetNolock, if_neg large, if_pos entry]
  have fits : FitsNext device fs sin ↔ 1 < fs.super.unusedBlocks ∧ device fs.calls = 0 ∧
      device (fs.calls + 1) = 0 ∧ device (fs.calls + 2) = 0 ∧ device (fs.calls + 3) = 0 := by
    rw [FitsNext, blocks, calls, calls_four, Nat.succ_le_iff]
  rcases @sfsBmapGetSubNolock_new device fs _ sound.toAccounted entry with
    ⟨fails, code, ino, after, isCode, failed, _⟩ | ⟨fails, code, after, isCode, failed, _⟩ |
    ⟨works, ent, ino, after, nonzero, different, made, holding⟩
  · rw [← zero] at failed
    refine Or.inl ⟨fun all => ?_, code, after, isCode, load_error (got.trans (getIndirect_error failed))⟩
    obtain ⟨_, first, second, _⟩ := fits.mp all
    rcases fails.2 with fails | ⟨_, fails⟩
    · exact fails first
    · exact fails second
  · rw [← zero] at failed
    refine Or.inl ⟨fun all => ?_, code, after, isCode, load_error (got.trans (getIndirect_error failed))⟩
    obtain ⟨more, _, _, third, fourth⟩ := fits.mp all
    rcases fails with none | ⟨_, one | ⟨_, late | later⟩⟩
    · omega
    · omega
    · exact late third
    · exact later fourth
  · let last : SfsFs := { after with
      calls := fs.calls + 4
      disk := Function.update after.disk ent (Function.update (fun _ => 0) (sin.din.blocks - sfsNdirect) ino) }
    have isIno : last.Usable ino := holding.taken_usable sound.toAccounted (by simp)
    have isEnt : last.Usable ent := holding.taken_usable sound.toAccounted (by simp)
    have accounted : last.Accounted :=
      ⟨(holding.accounted sound.toAccounted).counted, (holding.accounted sound.toAccounted).onDisk⟩
    have entered : getIndirect device fs sin (sin.din.blocks - sfsNdirect) true =
        some (.ok ino, last, sin.modify { sin.din with indirect := ent }) := by
      have isNew : ent ≠ sin.din.indirect := fun same => nonzero (same.trans zero)
      simp only [getIndirect, zero, made, Option.bind_eq_bind, Option.bind_some, if_neg nonzero, if_true]
      exact found_usable isIno
    have loaded := load_ok (got.trans entered) isIno
    refine Or.inr ⟨fits.mpr works, ino, last, _, loaded, ?_, rfl, ?_, ?_, ?_⟩
    · refine sound.grown accounted (sound.holds.load_steps loaded).holds (fun _ => holding.usable) isIno small rfl ?_ ?_
      · intro block named
        have isBlock : pointer ent = some block := named
        rw [pointer_nonzero nonzero] at isBlock
        exact Option.some.inj isBlock ▸ isEnt
      · intro place notIndirect
        -- the new indirect block is empty before the entry is written
        let empty : Nat → Block := Function.update fs.disk ent fun _ => 0
        have isEmpty : empty ent = fun _ => 0 := Function.update_self _ _ _
        have entries : last.disk ent = Function.update (empty ent) (sin.din.blocks - sfsNdirect) ino := by
          rw [isEmpty]
          exact Function.update_self _ _ _
        let din : DiskInode := { sin.din with indirect := ent }
        have isNamed : names last.disk sin.ino din place =
            Function.update (names empty sin.ino din) (.entry (sin.din.blocks - sfsNdirect)) (pointer ino) place :=
          congrFun (names_setEntry nonzero entry entries) place
        have before : names empty sin.ino din = Function.update (names fs.disk sin.ino sin.din) .indirect (some ent) :=
          names_setIndirect fs.disk zero nonzero isEmpty
        rw [before, pointer_nonzero isIno.range.1] at isNamed
        rw [filePlace_entry large]
        refine Eq.trans ?_ (isNamed.trans ?_)
        · cases place <;> rfl
        · rw [Function.update_apply, Function.update_of_ne notIndirect]
    · simp [SfsInode.modify, nonzero, large]
    · rw [blocks]
      have unused := holding.unused
      rwa [Finset.card_pair different] at unused
    · rw [calls]

/-- One round of the loop that enlarges a file. -/
theorem Sound.next (sound : Sound fs sin frame) (small : sin.din.blocks < mapBlocks) : NextBlock device frame fs sin := by
  by_cases direct : sin.din.blocks < sfsNdirect
  · exact sound.next_direct direct
  · by_cases zero : sin.din.indirect = 0
    · exact sound.next_indirect direct small zero
    · exact sound.next_entry direct small zero

/-! ## The loops -/

/-- The device works for some calls and then for some more. -/
theorem calls_split (calls first second : Nat) : (∀ call < first + second, device (calls + call) = 0) ↔
    (∀ call < first, device (calls + call) = 0) ∧ ∀ call < second, device (calls + first + call) = 0 := by
  constructor
  · intro works
    refine ⟨fun call small => works call (by omega), fun call small => ?_⟩
    rw [Nat.add_assoc]
    exact works (first + call) (by omega)
  · rintro ⟨early, late⟩ call small
    by_cases isEarly : call < first
    · exact early call isEarly
    · have isLate := late (call - first) (by omega)
      rwa [show calls + first + (call - first) = calls + call by omega] at isLate

/-- The map is filled by the next block and what follows it. -/
theorem Added.fills (added : Added frame fs sin after sinAfter) (small : sin.din.blocks < mapBlocks) :
    FillsMap device fs sin ↔ FitsNext device fs sin ∧ FillsMap device after sinAfter := by
  obtain ⟨_, blocks, indirect, unused, calls⟩ := added
  have blocksLeft : sin.blocksLeft = sin.nextBlocks + sinAfter.blocksLeft := by
    simp only [SfsInode.blocksLeft, SfsInode.nextBlocks, blocks, indirect]
    by_cases zero : sin.din.indirect = 0
    · by_cases direct : sin.din.blocks < sfsNdirect
      · simp only [zero, direct, true_and, true_or, if_true]
        omega
      · simp only [zero, direct, true_and, ne_eq, not_true_eq_false, or_false, if_true, if_false]
        omega
    · simp only [zero, false_and, ne_eq, not_false_eq_true, or_true, if_true, if_false]
      omega
  have callsLeft : sin.callsLeft = sin.nextCalls + sinAfter.callsLeft := by
    simp only [SfsInode.callsLeft, SfsInode.nextCalls, blocks]
    by_cases direct : sin.din.blocks < sfsNdirect
    · rw [if_pos direct]
      simp only [mapBlocks, sfsNdirect] at small direct ⊢
      omega
    · rw [if_neg direct]
      simp only [mapBlocks, sfsNdirect] at small direct ⊢
      omega
  rw [FillsMap, FitsNext, FillsMap, blocksLeft, callsLeft, calls_split, calls]
  constructor
  · rintro ⟨enough, early, late⟩
    exact ⟨⟨by omega, early⟩, by omega, late⟩
  · rintro ⟨⟨_, early⟩, enough, late⟩
    exact ⟨by omega, early, late⟩

/-- What fills the map is enough for the next block. -/
theorem FillsMap.fits (fills : FillsMap device fs sin) (small : sin.din.blocks < mapBlocks) :
    FitsNext device fs sin := by
  obtain ⟨enough, works⟩ := fills
  refine ⟨?_, fun call inside => works call ?_⟩
  · simp only [SfsInode.blocksLeft] at enough
    simp only [SfsInode.nextBlocks]
    by_cases zero : sin.din.indirect = 0
    · rw [if_pos zero] at enough
      split <;> omega
    · rw [if_pos (Or.inr zero)]
      omega
  · simp only [SfsInode.nextCalls] at inside
    simp only [SfsInode.callsLeft]
    by_cases direct : sin.din.blocks < sfsNdirect
    · rw [if_pos direct] at inside
      omega
    · rw [if_neg direct] at inside
      omega

/-- A full map cannot take a block more. -/
theorem Sound.full (sound : Sound fs sin frame) (full : sin.din.blocks = mapBlocks) :
    FillsMap device fs sin ∧ sfsBmapLoadNolock device fs sin sin.din.blocks = none := by
  have last : mapBlocks - 1 < mapBlocks := by decide
  have nonzero : sin.din.indirect ≠ 0 := by
    intro zero
    have isThere := sound.mapped _ last
    rw [filePlace_entry (by decide), full] at isThere
    simp [names, zero, last] at isThere
  refine ⟨⟨?_, ?_⟩, ?_⟩
  · simp [SfsInode.blocksLeft, full, nonzero]
  · intro call small
    have none : sin.callsLeft = 0 := by
      simp only [SfsInode.callsLeft, full]
      rfl
    omega
  · have large : ¬ mapBlocks < sfsNdirect := by decide
    have behind : ¬ mapBlocks - sfsNdirect < sfsBlkNentry := by decide
    simp [sfsBmapLoadNolock, full, sfsBmapGetNolock, large, behind]

/-- The loop that enlarges a file runs behind the map when it asks for more than the map holds
and the map can be filled. Otherwise it adds the blocks or fails. -/
theorem Sound.grow (sound : Sound fs sin frame) :
    (mapBlocks < sin.din.blocks + rounds ∧ FillsMap device fs sin) ∧
        growBlocks device fs sin sin.din.blocks rounds = none ∨
      ¬ (mapBlocks < sin.din.blocks + rounds ∧ FillsMap device fs sin) ∧ ∃ ret after sinAfter,
        growBlocks device fs sin sin.din.blocks rounds = some (ret, after, sinAfter) ∧
        (ret = 0 → sinAfter.din.blocks = sin.din.blocks + rounds) := by
  induction rounds generalizing fs sin with
  | zero =>
    have few := sound.few
    exact Or.inr ⟨fun more => by omega, 0, fs, sin, rfl, fun _ => rfl⟩
  | succ rounds ih =>
    by_cases small : sin.din.blocks < mapBlocks
    · have next : NextBlock device frame fs sin := sound.next small
      rcases next with ⟨fails, code, after, isCode, loaded⟩ | ⟨fits, ino, after, sinAfter, loaded, added⟩
      · refine Or.inr ⟨fun all => fails (all.2.fits small), code, after, sin, ?_, fun zero => absurd zero isCode⟩
        rw [growBlocks, loaded]
        rfl
      · have step : growBlocks device fs sin sin.din.blocks (rounds + 1) =
            growBlocks device after sinAfter sinAfter.din.blocks rounds := by
          rw [growBlocks, loaded, added.blocks]
          rfl
        have same : mapBlocks < sin.din.blocks + (rounds + 1) ↔ mapBlocks < sinAfter.din.blocks + rounds := by
          rw [added.blocks]
          omega
        rw [step, added.fills small, same]
        rcases ih added.sound with ⟨⟨more, fills⟩, panics⟩ | ⟨stops, ret, last, sinLast, done, isDone⟩
        · exact Or.inl ⟨⟨more, fits, fills⟩, panics⟩
        · refine Or.inr ⟨fun all => stops ⟨all.1, all.2.2⟩, ret, last, sinLast, done, fun zero => ?_⟩
          rw [isDone zero, added.blocks]
          omega
    · have full : sin.din.blocks = mapBlocks := Nat.le_antisymm sound.few (Nat.not_lt.mp small)
      obtain ⟨fills, none⟩ : FillsMap device fs sin ∧ sfsBmapLoadNolock device fs sin sin.din.blocks = none :=
        sound.full full
      refine Or.inl ⟨⟨by omega, fills⟩, ?_⟩
      rw [growBlocks, none]
      rfl

/-! ## A block less -/

/-- The place that names the last block of a file. -/
theorem Sound.last (sound : Sound fs sin frame) (positive : 0 < sin.din.blocks) :
    ∃ block, names fs.disk sin.ino sin.din (filePlace (sin.din.blocks - 1)) = some block := by
  have inside : sin.din.blocks - 1 < mapBlocks := by
    have few := sound.few
    omega
  have isThere := sound.mapped _ inside
  rw [decide_eq_true (by omega : sin.din.blocks - 1 < sin.din.blocks)] at isThere
  exact Option.isSome_iff_exists.mp isThere

/-- A block in use is freed. -/
theorem sfsBlockFree_exact (usable : fs.Usable block) : ∃ after, sfsBlockFree fs block = some after ∧
    after.freemap.bit = Function.update fs.freemap.bit block true ∧ after.freemap.nbits = fs.freemap.nbits ∧
    after.freemap.nwords = fs.freemap.nwords ∧ after.super.blocks = fs.super.blocks ∧ after.disk = fs.disk := by
  obtain ⟨_, _, inside, used⟩ := (usable_iff fs block).mp usable
  obtain ⟨freemap, freed, bit, nbits, nwords⟩ := bitmapFree_exact inside used
  refine ⟨{ fs with
      super := { fs.super with unusedBlocks := fs.super.unusedBlocks + 1 }
      freemap
      superDirty := true }, ?_, bit, nbits, nwords, rfl, rfl⟩
  rw [SfsFs.Usable] at usable
  rw [sfsBlockFree, usable, Option.bind_eq_bind, Option.bind_some, freed]
  rfl

/-- The last block of a file goes. -/
theorem Sound.shrunk (sound : Sound fs sin frame) (holds : Holds after sinAfter frame) (usable : fs.Usable block)
    (bit : after.freemap.bit = Function.update fs.freemap.bit block true)
    (nbits : after.freemap.nbits = fs.freemap.nbits) (nwords : after.freemap.nwords = fs.freemap.nwords)
    (blocks : after.super.blocks = fs.super.blocks) (positive : 0 < sin.din.blocks)
    (less : sinAfter.din.blocks = sin.din.blocks - 1)
    (others : ∀ place, names after.disk sinAfter.ino sinAfter.din place =
      if place = filePlace (sin.din.blocks - 1) then none else names fs.disk sin.ino sin.din place) :
    Sound after sinAfter frame where
  counted := holds.counted
  onDisk := by
    intro other inside free
    rw [blocks, nbits]
    by_cases same : other = block
    · obtain ⟨nonzero, small, inBits, _⟩ := (usable_iff fs block).mp usable
      exact same ▸ ⟨nonzero, small, inBits⟩
    · rw [bit, Function.update_of_ne same] at free
      exact sound.onDisk other (nwords ▸ inside) free
  owns := holds.owns
  named := by
    intro place other named
    have inUse := holds.owns.inUse place other named
    rw [others] at named
    split at named
    · cases named
    · obtain ⟨nonzero, small, inBits, _⟩ := (usable_iff fs other).mp (sound.named place other named)
      exact (usable_iff after other).mpr ⟨nonzero, blocks.symm ▸ small, nbits.symm ▸ inBits, inUse⟩
  few := by
    have few := sound.few
    omega
  mapped := by
    intro index inside
    rw [others, less]
    by_cases isLast : index = sin.din.blocks - 1
    · subst isLast
      simp
    · rw [if_neg fun same => isLast (filePlace_inj same), sound.mapped index inside]
      exact decide_eq_decide.mpr (by omega)

/-- The last block of a file goes, or the device fails. -/
def LastBlock (device : Nat → Int) (frame : Nat → Prop) (fs : SfsFs) (sin : SfsInode) : Prop :=
  (∃ code after, code ≠ 0 ∧ sfsBmapTruncateNolock device fs sin = some (code, after, sin)) ∨
    ∃ after sinAfter, sfsBmapTruncateNolock device fs sin = some (0, after, sinAfter) ∧
      Sound after sinAfter frame ∧ sinAfter.din.blocks = sin.din.blocks - 1

theorem truncate_error {code : Int} (isCode : code ≠ 0) (positive : 0 < sin.din.blocks)
    (failed : sfsBmapFreeNolock device fs sin (sin.din.blocks - 1) = some (code, after, sin)) :
    sfsBmapTruncateNolock device fs sin = some (code, after, sin) := by
  simp [sfsBmapTruncateNolock, Nat.ne_of_gt positive, failed, isCode]

theorem truncate_ok (positive : 0 < sin.din.blocks)
    (freed : sfsBmapFreeNolock device fs sin (sin.din.blocks - 1) = some (0, after, sinAfter)) :
    sfsBmapTruncateNolock device fs sin = some (0, after,
      sinAfter.modify { sinAfter.din with blocks := sinAfter.din.blocks - 1 }) := by
  simp [sfsBmapTruncateNolock, Nat.ne_of_gt positive, freed]

/-- The last block is one of the direct blocks. -/
theorem Sound.last_direct (sound : Sound fs sin frame) (positive : 0 < sin.din.blocks)
    (direct : sin.din.blocks - 1 < sfsNdirect) : LastBlock device frame fs sin := by
  obtain ⟨block, isBlock⟩ := sound.last positive
  have usable := sound.named _ block isBlock
  rw [filePlace_direct direct] at isBlock
  have isDirect : sin.din.direct (sin.din.blocks - 1) = block := by
    simp only [names, if_pos direct] at isBlock
    exact (pointer_eq_some.mp isBlock).1
  have nonzero : sin.din.direct (sin.din.blocks - 1) ≠ 0 := isDirect ▸ usable.range.1
  obtain ⟨after, freed, bit, nbits, nwords, blocks, disk⟩ := sfsBlockFree_exact usable
  have done : sfsBmapFreeNolock device fs sin (sin.din.blocks - 1) = some (0, after,
      sin.modify { sin.din with direct := Function.update sin.din.direct (sin.din.blocks - 1) 0 }) := by
    rw [sfsBmapFreeNolock, if_pos direct, if_pos nonzero, isDirect, freed]
    rfl
  have truncated := truncate_ok positive done
  refine Or.inr ⟨after, _, truncated, ?_, rfl⟩
  refine sound.shrunk (sound.holds.truncate_steps truncated).holds usable bit nbits nwords blocks positive rfl ?_
  intro place
  have isNamed : names fs.disk sin.ino
      { sin.din with direct := Function.update sin.din.direct (sin.din.blocks - 1) 0 } place =
      Function.update (names fs.disk sin.ino sin.din) (.direct (sin.din.blocks - 1)) (pointer 0) place :=
    congrFun (names_setDirect direct) place
  rw [disk, filePlace_direct direct]
  refine Eq.trans ?_ (isNamed.trans ?_)
  · cases place <;> rfl
  · rw [Function.update_apply, pointer_zero]

/-- The last block is an entry of the indirect block. -/
theorem Sound.last_entry (sound : Sound fs sin frame) (positive : 0 < sin.din.blocks)
    (large : ¬ sin.din.blocks - 1 < sfsNdirect) : LastBlock device frame fs sin := by
  obtain ⟨block, isBlock⟩ := sound.last positive
  have usable := sound.named _ block isBlock
  rw [filePlace_entry large] at isBlock
  have entry : sin.din.blocks - 1 - sfsNdirect < sfsBlkNentry := by
    have few := sound.few
    simp only [mapBlocks] at few
    omega
  have nonzero : sin.din.indirect ≠ 0 := by
    intro zero
    simp [names, zero] at isBlock
  have isEntry : fs.disk sin.din.indirect (sin.din.blocks - 1 - sfsNdirect) = block := by
    simp only [names, nonzero, entry, ne_eq, not_false_eq_true, and_self, if_true] at isBlock
    exact (pointer_eq_some.mp isBlock).1
  have isIndirect := sound.indirect nonzero
  have fits : sin.din.blocks - 1 - sfsNdirect < sfsBlkNentry ∧ sin.din.blocks - 1 - sfsNdirect + 1 ≤ sfsBlkNentry :=
    ⟨entry, entry⟩
  have free : sfsBmapFreeNolock device fs sin (sin.din.blocks - 1) =
      (sfsBmapFreeSubNolock device fs sin.din.indirect (sin.din.blocks - 1 - sfsNdirect)).map
        fun freed => (freed.1, freed.2, sin) := by
    rw [sfsBmapFreeNolock, if_neg large, if_pos ⟨entry, nonzero⟩]
  have asserted : assertInuse fs sin.din.indirect = some () := isIndirect
  by_cases read : device fs.calls = 0
  · have isRead : sfsRbuf device fs 1 sin.din.indirect (sin.din.blocks - 1 - sfsNdirect) =
        some (.ok fun index => fs.disk sin.din.indirect (sin.din.blocks - 1 - sfsNdirect + index),
          { fs with calls := fs.calls + 1 }) := by
      simp [sfsRbuf, fits, sfsRwblockNolock, isIndirect.range, read]
    have isThere : fs.disk sin.din.indirect (sin.din.blocks - 1 - sfsNdirect + 0) ≠ 0 := by
      rw [Nat.add_zero, isEntry]
      exact usable.range.1
    rcases @sfsWbuf_word device { fs with calls := fs.calls + 1 } sin.din.indirect _ entry isIndirect.range 0 with
      ⟨code, calls, isCode, _, wrote⟩ | ⟨_, _, wrote⟩
    · refine Or.inl ⟨code, { fs with calls }, isCode, truncate_error isCode positive ?_⟩
      simp only [free, sfsBmapFreeSubNolock, asserted, isRead, Option.bind_eq_bind, Option.bind_some, if_neg isThere,
        wrote, ne_eq, isCode, not_false_eq_true, if_true, Option.map_some]
    · let written : SfsFs := { fs with
        calls := fs.calls + 1 + 2
        disk := Function.update fs.disk sin.din.indirect
          (Function.update (fs.disk sin.din.indirect) (sin.din.blocks - 1 - sfsNdirect) 0) }
      have isUsable : written.Usable block := usable
      obtain ⟨after, freed, bit, nbits, nwords, blocks, disk⟩ := sfsBlockFree_exact isUsable
      have done : sfsBmapFreeNolock device fs sin (sin.din.blocks - 1) = some (0, after, sin) := by
        have isFreed : sfsBlockFree written
            (fs.disk sin.din.indirect (sin.din.blocks - 1 - sfsNdirect + 0)) = some after := by
          rw [Nat.add_zero, isEntry]
          exact freed
        simp only [free, sfsBmapFreeSubNolock, asserted, isRead, Option.bind_eq_bind, Option.bind_some, if_neg isThere,
          wrote, ne_eq, not_true_eq_false, if_false]
        rw [isFreed]
        rfl
      have truncated := truncate_ok positive done
      refine Or.inr ⟨after, _, truncated, ?_, rfl⟩
      refine sound.shrunk (sound.holds.truncate_steps truncated).holds usable bit nbits nwords blocks positive rfl ?_
      intro place
      have entries : after.disk sin.din.indirect =
          Function.update (fs.disk sin.din.indirect) (sin.din.blocks - 1 - sfsNdirect) 0 := by
        rw [disk]
        exact Function.update_self _ _ _
      have isNamed : names after.disk sin.ino sin.din place =
          Function.update (names fs.disk sin.ino sin.din) (.entry (sin.din.blocks - 1 - sfsNdirect)) (pointer 0) place :=
        congrFun (names_setEntry nonzero entry entries) place
      rw [filePlace_entry large]
      refine Eq.trans ?_ (isNamed.trans ?_)
      · cases place <;> rfl
      · rw [Function.update_apply, pointer_zero]
  · refine Or.inl ⟨device fs.calls, { fs with calls := fs.calls + 1 }, read, truncate_error read positive ?_⟩
    have isRead : sfsRbuf device fs 1 sin.din.indirect (sin.din.blocks - 1 - sfsNdirect) =
        some (.error (device fs.calls), { fs with calls := fs.calls + 1 }) := by
      simp [sfsRbuf, fits, sfsRwblockNolock, isIndirect.range, read]
    simp only [free, sfsBmapFreeSubNolock, asserted, isRead, Option.bind_eq_bind, Option.bind_some, Option.map_some]

/-- The loop that reduces a file removes the blocks or fails. -/
theorem Sound.shrink (sound : Sound fs sin frame) (inside : rounds ≤ sin.din.blocks) :
    ∃ ret after sinAfter, shrinkBlocks device fs sin rounds = some (ret, after, sinAfter) ∧
      (ret = 0 → sinAfter.din.blocks = sin.din.blocks - rounds) := by
  induction rounds generalizing fs sin with
  | zero => exact ⟨0, fs, sin, rfl, fun _ => rfl⟩
  | succ rounds ih =>
    have positive : 0 < sin.din.blocks := by omega
    have last : LastBlock device frame fs sin := by
      by_cases direct : sin.din.blocks - 1 < sfsNdirect
      · exact sound.last_direct positive direct
      · exact sound.last_entry positive direct
    rcases last with ⟨code, after, isCode, truncated⟩ | ⟨after, sinAfter, truncated, smaller, less⟩
    · refine ⟨code, after, sin, ?_, fun zero => absurd zero isCode⟩
      simp only [shrinkBlocks, truncated, Option.bind_eq_bind, Option.bind_some, ne_eq, isCode, not_false_eq_true,
        if_true]
    · obtain ⟨ret, done, sinDone, shrunk, isDone⟩ := ih smaller (by omega)
      refine ⟨ret, done, sinDone, ?_, fun zero => ?_⟩
      · simp only [shrinkBlocks, truncated, Option.bind_eq_bind, Option.bind_some, ne_eq, not_true_eq_false, if_false]
        exact shrunk
      · rw [isDone zero, less]
        omega

/-! ## Lengths and positions -/

/-- A file that is resized runs behind its map when its new length needs more blocks than the
map holds and the map can be filled. Otherwise it has the blocks of its new length, or the call
fails. -/
theorem Sound.resize (sound : Sound fs sin frame) (tblks : Nat) :
    (mapBlocks < tblks ∧ FillsMap device fs sin) ∧ Volume.resize device fs sin tblks = none ∨
      ¬ (mapBlocks < tblks ∧ FillsMap device fs sin) ∧ ∃ ret after sinAfter,
        Volume.resize device fs sin tblks = some (ret, after, sinAfter) ∧ (ret = 0 → sinAfter.din.blocks = tblks) := by
  by_cases more : sin.din.blocks < tblks
  · have isTotal : sin.din.blocks + (tblks - sin.din.blocks) = tblks := by omega
    rw [Volume.resize, if_pos more]
    have grows := @Sound.grow device fs sin frame (tblks - sin.din.blocks) sound
    rwa [isTotal] at grows
  · obtain ⟨ret, after, sinAfter, shrunk, isDone⟩ :=
      @Sound.shrink device fs sin frame (sin.din.blocks - tblks) sound (Nat.sub_le _ _)
    refine Or.inr ⟨fun all => ?_, ret, after, sinAfter, ?_, fun zero => ?_⟩
    · have few := sound.few
      omega
    · rw [Volume.resize, if_neg more, shrunk]
    · rw [isDone zero]
      omega

/-- `sfs_truncfile` returns, with the length set or an error, unless it runs behind the map. -/
theorem ConsistentFile.truncfile (file : ConsistentFile fs sin frame) (len : Int) :
    TruncfileReturns device fs sin len ↔ ¬ (0 ≤ len ∧ len ≤ sfsMaxFileSize ∧ PassesMap device fs sin len) := by
  have agrees : sin.din.blocks = blocksFor sin.din.size := file.agrees
  have few := file.few
  by_cases refused : len < 0 ∨ sfsMaxFileSize < len
  · refine iff_of_true ⟨-eInval, fs, sin, if_pos refused, fun zero => absurd zero (by decide)⟩ ?_
    rintro ⟨nonneg, small, _⟩
    omega
  by_cases same : sin.din.size = len
  · have isLength : len.toNat = sin.din.size := by omega
    refine iff_of_true ⟨0, fs, sin, ?_, fun _ => same⟩ ?_
    · have tblks : (len.toNat + sfsBlksize - 1) / sfsBlksize = sin.din.blocks := by rw [isLength, agrees]; rfl
      simp only [sfsTruncfile, if_neg refused, if_pos same, tblks, if_true]
    · rintro ⟨_, _, passes, _⟩
      rw [isLength] at passes
      omega
  rcases @Sound.resize device fs sin frame file.toSound (blocksFor len.toNat) with
    ⟨passes, none⟩ | ⟨stops, ret, after, sinAfter, resized, isDone⟩
  · refine iff_of_false ?_ (not_not.mpr ⟨by omega, by omega, passes⟩)
    rintro ⟨ret, after, sinAfter, returned, _⟩
    simp only [sfsTruncfile, if_neg refused, if_neg same] at returned
    have stops : resize device fs sin ((len.toNat + sfsBlksize - 1) / sfsBlksize) = Option.none := none
    rw [stops] at returned
    cases returned
  · refine iff_of_true ?_ fun all => stops all.2.2
    have resizes : resize device fs sin ((len.toNat + sfsBlksize - 1) / sfsBlksize) = some (ret, after, sinAfter) := resized
    by_cases failed : ret = 0
    · refine ⟨0, after, sinAfter.modify { sinAfter.din with size := len.toNat }, ?_, fun _ => ?_⟩
      · have isBlocks : sinAfter.din.blocks = (len.toNat + sfsBlksize - 1) / sfsBlksize := isDone failed
        simp [sfsTruncfile, refused, same, resizes, failed, isBlocks]
      · simp only [SfsInode.modify]
        omega
    · refine ⟨ret, after, sinAfter, ?_, fun zero => absurd zero failed⟩
      simp [sfsTruncfile, refused, same, resizes, failed]

/-- `sfs_tryseek` returns, with a file up to the position or an error, unless it runs behind
the map. -/
theorem ConsistentFile.tryseek (file : ConsistentFile fs sin frame) (pos : Int) :
    TryseekReturns device fs sin pos ↔ ¬ (0 ≤ pos ∧ pos < sfsMaxFileSize ∧ PassesMap device fs sin pos) := by
  have agrees : sin.din.blocks = blocksFor sin.din.size := file.agrees
  have few := file.few
  by_cases refused : pos < 0 ∨ sfsMaxFileSize ≤ pos
  · refine iff_of_true ⟨-eInval, fs, sin, if_pos refused, fun zero => absurd zero (by decide)⟩ ?_
    rintro ⟨nonneg, small, _⟩
    omega
  rw [TryseekReturns, sfsTryseek, if_neg refused]
  by_cases behind : sin.din.size < pos
  · have isMax : max (sin.din.size : Int) pos = pos := max_eq_right (Int.le_of_lt behind)
    rw [if_pos behind, vopTruncate, if_pos file.isFile, isMax]
    refine Iff.trans (file.truncfile pos) (not_congr ?_)
    constructor
    · rintro ⟨nonneg, _, passes⟩
      exact ⟨nonneg, by omega, passes⟩
    · rintro ⟨nonneg, small, passes⟩
      exact ⟨nonneg, by omega, passes⟩
  · have isMax : max (sin.din.size : Int) pos = sin.din.size := max_eq_left (Int.not_lt.mp behind)
    rw [if_neg behind, isMax]
    refine iff_of_true ⟨0, fs, sin, rfl, fun _ => rfl⟩ ?_
    rintro ⟨_, _, passes, _⟩
    have fewer : blocksFor pos.toNat ≤ blocksFor sin.din.size := by
      unfold blocksFor
      exact Nat.div_le_div_right (by omega)
    omega

/-- For every regular file of a consistent volume, whatever calls of the device fail,
`sfs_truncfile` and `sfs_tryseek` return, but for lengths that pass the map while the map can be
filled. -/
theorem size_calls_return (device : Nat → Int) (fs : SfsFs) (sin : SfsInode) (frame : Nat → Prop)
    (file : ConsistentFile fs sin frame) :
    (∀ len, TruncfileReturns device fs sin len ↔
      ¬ (0 ≤ len ∧ len ≤ sfsMaxFileSize ∧ PassesMap device fs sin len)) ∧
    ∀ pos, TryseekReturns device fs sin pos ↔
      ¬ (0 ≤ pos ∧ pos < sfsMaxFileSize ∧ PassesMap device fs sin pos) :=
  ⟨file.truncfile, file.tryseek⟩

/-! ## A full map -/

/-- Two words of a bitmap. -/
theorem fullWords_cover : 2016 ≤ wordBits * 63 := by decide

/-- A volume without free blocks whose file of 1036 blocks has its inode in block 2, its
indirect block in block 3 and its blocks from block 4 on. -/
def fullFile : SfsInode where
  din := {
    size := 4243456
    type := sfsTypeFile
    nlinks := 1
    blocks := 1036
    direct := fun index => 4 + index
    indirect := 3 }
  ino := 2
  dirty := false
  reclaimCount := 1

def fullVolume : SfsFs where
  super := { magic := 0x2f8dbe2a, blocks := 2016, unusedBlocks := 0, info := fun _ => 0 }
  superDirty := false
  freemap := { nbits := 2016, nwords := 63, map := fun _ => 0#32, covered := fullWords_cover }
  disk := fun block index => if block = 3 then 16 + index else 0
  calls := 0

theorem fullVolume_bit (block : Nat) : fullVolume.freemap.bit block = false := BitVec.getLsbD_zero

theorem fullFile_names {place : Place} {block : Nat}
    (named : names fullVolume.disk fullFile.ino fullFile.din place = some block) :
    match place with
      | .inode => block = 2
      | .direct index => block = 4 + index ∧ index < sfsNdirect
      | .indirect => block = 3
      | .entry index => block = 16 + index ∧ index < sfsBlkNentry := by
  cases place with
  | inode => exact (Option.some.inj named).symm
  | direct index =>
    simp only [names] at named
    split at named
    · rename_i small
      exact ⟨(pointer_eq_some.mp named).1.symm, small⟩
    · cases named
  | indirect => exact (pointer_eq_some.mp named).1.symm
  | entry index =>
    simp only [names] at named
    split at named
    · rename_i small
      exact ⟨(pointer_eq_some.mp named).1.symm, small.2⟩
    · cases named

theorem fullFile_once {place other : Place} {block : Nat}
    (named : names fullVolume.disk fullFile.ino fullFile.din place = some block)
    (same : names fullVolume.disk fullFile.ino fullFile.din other = some block) : place = other := by
  have isNamed := fullFile_names named
  have isSame := fullFile_names same
  cases place <;> cases other <;> simp only [sfsNdirect] at isNamed isSame <;>
    first | rfl | (congr 1; omega)

theorem fullFile_consistent : ConsistentFile fullVolume fullFile fun _ => False where
  counted := by
    rw [SfsFs.Counted, Bitmap.setBits, eq_comm]
    refine Finset.card_eq_zero.mpr (Finset.filter_eq_empty_iff.mpr fun block _ => ?_)
    simp [fullVolume_bit]
  onDisk := by
    intro block _ free
    rw [fullVolume_bit] at free
    cases free
  owns := ⟨fun _ block _ => fullVolume_bit block, fun _ _ _ => fullFile_once, fun _ _ _ inside => inside,
    fun _ inside => inside.elim⟩
  named := by
    intro place block named
    have isNamed := fullFile_names named
    have small : block ≠ 0 ∧ block < 2016 := by
      cases place <;> simp only [sfsNdirect, sfsBlkNentry] at isNamed <;> omega
    exact (usable_iff fullVolume block).mpr ⟨small.1, small.2, small.2, fullVolume_bit block⟩
  few := by decide
  mapped := by
    intro index inside
    have all : index < fullFile.din.blocks := inside
    rw [decide_eq_true all]
    by_cases direct : index < sfsNdirect
    · rw [filePlace_direct direct]
      simp [names, direct, fullFile, pointer]
    · have entry : index - sfsNdirect < sfsBlkNentry := by
        simp only [mapBlocks] at inside
        omega
      rw [filePlace_entry direct]
      simp [names, entry, fullFile, fullVolume, pointer]
  isFile := rfl
  agrees := by
    unfold DiskInode.Agrees
    decide

/-- The file can be sought up to its end. -/
theorem size_calls_return_end :
    ConsistentFile fullVolume fullFile (fun _ => False) ∧ TryseekReturns (fun _ => 0) fullVolume fullFile 4243456 := by
  refine ⟨fullFile_consistent, ((size_calls_return _ _ _ _ fullFile_consistent).2 _).mpr ?_⟩
  rintro ⟨_, _, passes, _⟩
  exact absurd passes (by decide)

/-- A seek to the first byte behind the map is below the largest size, and it is a panic. -/
theorem seek_passes_map : ConsistentFile fullVolume fullFile (fun _ => False) ∧
    ((4243457 : Int) < sfsMaxFileSize ∧ sfsTryseek (fun _ => 0) fullVolume fullFile 4243457 = none) ∧
    ¬ TryseekReturns (fun _ => 0) fullVolume fullFile 4243457 := by
  have none : sfsTryseek (fun _ => 0) fullVolume fullFile 4243457 = none := by
    decide +kernel
  refine ⟨fullFile_consistent, ⟨by decide, none⟩, ?_⟩
  rintro ⟨ret, after, sinAfter, returned, _⟩
  rw [none] at returned
  cases returned

end Ucore.Volume
