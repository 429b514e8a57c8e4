import Ucore.Sfs.BlockOwnership
import Ucore.Tools.Mksfs

/-!
# The pointers of an inode of the builder

Appending a block to an inode may make new blocks of pointers. The inode owns the blocks
it names, and its first pointers record the blocks appended.
-/

namespace Ucore.Mksfs

open Ownership Volume

/-- A block in a hash table. -/
def InBuckets (buckets : BitVec 32 → List Nat) (block : Nat) : Prop :=
  ∃ bucket < 1024, block ∈ buckets (BitVec.ofNat 32 bucket)

/-- A cached block of pointers. -/
def Image.IsCached (sfs : Image) (block : Nat) : Prop := InBuckets sfs.blocks block

/-- Where an inode of the builder names a block. -/
inductive MkPlace where
  | inode
  | data (index : Nat)
  | indirect
  | double
  | table (index : Nat)
deriving DecidableEq

/-- A place that names a cached block. -/
def MkPlace.IsPointers : MkPlace → Prop
  | .inode | .data _ => False
  | .indirect | .double | .table _ => True

/-- The blocks that an inode names. -/
def places (cache : Nat → Block) (file : CacheInode) : MkPlace → Option Nat
  | .inode => some file.ino
  | .data index => file.appended[index]?
  | .indirect => pointer file.din.indirect
  | .double => pointer file.dbIndirect
  | .table index =>
      if file.dbIndirect ≠ 0 ∧ index < sfsBlkNentry then pointer (cache file.dbIndirect index) else none

/-- The blocks that the direct pointers and those of the indirect block name. -/
def firstPointers (cache : Nat → Block) (file : CacheInode) (index : Nat) : Nat :=
  if index < sfsNdirect then file.din.direct index
  else if file.din.indirect = 0 then 0
  else cache file.din.indirect (index - sfsNdirect)

/-- The pointers record the blocks appended. -/
structure FileOk (cache : Nat → Block) (file : CacheInode) : Prop where
  nblks : file.nblks = file.appended.length
  blocks : file.din.blocks = file.appended.length
  small : file.appended.length ≤ sfsLnNblks
  pointers : ∀ index < sfsL1Nblks, firstPointers cache file index = file.appended.getD index 0

variable {sfs next : Image} {file block ino size index : Nat} {words : Block}

/-- An entry of the indirect block is one of the first pointers. -/
theorem firstPointers_entry {cache : Nat → Block} {fields : CacheInode} (isIndirect : fields.din.indirect = block)
    (nonzero : block ≠ 0) (word : Nat) :
    firstPointers (Function.update cache block (Function.update (cache block) index word)) fields =
      Function.update (firstPointers cache fields) (sfsNdirect + index) word := by
  funext at'
  by_cases here : at' = sfsNdirect + index
  · simp [firstPointers, here, isIndirect, nonzero]
  · by_cases direct : at' < sfsNdirect
    · simp [firstPointers, here, direct]
    · have other : at' - sfsNdirect ≠ index := by omega
      simp [firstPointers, here, direct, isIndirect, nonzero, other]

/-- The first pointers are in the disk inode and the indirect block. -/
theorem firstPointers_congr {cache other : Nat → Block} {fields after : CacheInode}
    (sameDirect : after.din.direct = fields.din.direct) (sameIndirect : after.din.indirect = fields.din.indirect)
    (kept : fields.din.indirect ≠ 0 → other fields.din.indirect = cache fields.din.indirect) :
    firstPointers other after = firstPointers cache fields := by
  funext index
  by_cases none : fields.din.indirect = 0
  · simp [firstPointers, sameDirect, sameIndirect, none]
  · simp [firstPointers, sameDirect, sameIndirect, kept none]

/-- Only the double indirect block matters in the cache. -/
theorem places_congr {cache other : Nat → Block} {fields : CacheInode}
    (same : fields.dbIndirect ≠ 0 → other fields.dbIndirect = cache fields.dbIndirect) :
    places other fields = places cache fields := by
  funext place
  cases place with
  | table index =>
    by_cases nonzero : fields.dbIndirect = 0
    · simp [places, nonzero]
    · simp [places, same nonzero]
  | inode => rfl
  | data index => rfl
  | indirect => rfl
  | double => rfl

theorem hash32_bucket (value : Nat) : ∃ bucket < 1024, hash32 value = BitVec.ofNat 32 bucket := by
  refine ⟨(hash32 value).toNat, ?_, by simp⟩
  simp only [hash32, BitVec.toNat_ushiftRight, Nat.shiftRight_eq_div_pow]
  omega

/-- A block enters a hash table. -/
theorem inBuckets_cons (buckets : BitVec 32 → List Nat) (value : Nat) {other : Nat} :
    InBuckets (Function.update buckets (hash32 value) (block :: buckets (hash32 value))) other ↔
      InBuckets buckets other ∨ other = block := by
  obtain ⟨bucket, isBucket, isHash⟩ := hash32_bucket value
  constructor
  · rintro ⟨at', small, member⟩
    by_cases same : BitVec.ofNat 32 at' = hash32 value
    · rw [same, Function.update_self] at member
      rcases List.mem_cons.mp member with isNew | old
      · exact Or.inr isNew
      · exact Or.inl ⟨at', small, same ▸ old⟩
    · rw [Function.update_of_ne same] at member
      exact Or.inl ⟨at', small, member⟩
  · rintro (⟨at', small, member⟩ | rfl)
    · refine ⟨at', small, ?_⟩
      by_cases same : BitVec.ofNat 32 at' = hash32 value
      · rw [same, Function.update_self, ← same]
        exact List.mem_cons_of_mem _ member
      · rwa [Function.update_of_ne same]
    · refine ⟨bucket, isBucket, ?_⟩
      rw [← isHash, Function.update_self]
      exact List.mem_cons_self

/-- What an allocation does. -/
theorem sfsAllocIno_cases (called : sfsAllocIno sfs = some (ino, next)) :
    ino = sfs.nextIno ∧ sfs.nextIno < sfs.ninos ∧ next = { sfs with
      nextIno := sfs.nextIno + 1
      super := { sfs.super with unusedBlocks := sfs.super.unusedBlocks - 1 }
      allocated := sfs.allocated ++ [sfs.nextIno] } := by
  unfold sfsAllocIno at called
  split at called
  · rename_i small
    obtain ⟨rfl, rfl⟩ := Prod.mk.inj (Option.some.inj called)
    exact ⟨rfl, small, rfl⟩
  · cases called

theorem writeBlock_cases (called : writeBlock sfs words ino = some next) :
    ino < sfs.ninos ∧ next = { sfs with disk := Function.update sfs.disk ino words } := by
  unfold writeBlock at called
  split at called
  · rename_i small
    exact ⟨small, (Option.some.inj called).symm⟩
  · cases called

/-- A block that `update_cache` finds is the one named; otherwise it is new and empty. -/
theorem updateCache_cases {cached : Option Nat} (called : updateCache sfs cached ino = some (block, next)) :
    ino ≠ 0 ∧ block = ino ∧ next = sfs ∨
      ino = 0 ∧ block = sfs.nextIno ∧ next.files = sfs.files ∧
        next.cache = Function.update sfs.cache block (fun _ => 0) ∧
        ∃ allocated, sfsAllocIno sfs = some (block, allocated) ∧ next = cacheBlock allocated 0 block := by
  unfold updateCache at called
  split at called
  · rename_i zero
    simp only [allocCacheBlock, ne_eq, not_true_eq_false, if_false] at called
    obtain ⟨⟨number, allocated⟩, alloc, same⟩ := Option.map_eq_some_iff.mp called
    obtain ⟨rfl, rfl⟩ := Prod.mk.inj same
    obtain ⟨isBlock, small, isAllocated⟩ := sfsAllocIno_cases alloc
    refine Or.inr ⟨zero, isBlock, ?_, ?_, allocated, alloc, rfl⟩
    · rw [isAllocated]
      rfl
    · rw [isAllocated]
      rfl
  · rename_i nonzero
    left
    split at called
    · obtain ⟨rfl, rfl⟩ := Prod.mk.inj (Option.some.inj called)
      exact ⟨nonzero, rfl, rfl⟩
    · obtain ⟨found, isFound, same⟩ := Option.map_eq_some_iff.mp called
      obtain ⟨rfl, rfl⟩ := Prod.mk.inj same
      exact ⟨nonzero, by simpa using List.find?_some isFound, rfl⟩

/-! ## The pointers of one inode -/

section Places

variable {cache other : Nat → Block} {fields : CacheInode}

/-- A block is appended. -/
theorem places_append (fields : CacheInode) (din : DiskInode) (nblks : Nat) (same : din.indirect = fields.din.indirect) :
    places cache { fields with din, nblks, appended := fields.appended ++ [block] } =
      Function.update (places cache fields) (.data fields.appended.length) (some block) := by
  funext place
  cases place with
  | data index =>
    by_cases here : index = fields.appended.length
    · simp [places, here]
    · by_cases inside : index < fields.appended.length
      · simp [places, here, List.getElem?_append_left inside]
      · have behind : (fields.appended ++ [block])[index]? = none := by
          rw [List.getElem?_eq_none]
          simp only [List.length_append, List.length_singleton]
          omega
        simp [places, here, behind, Nat.not_lt.mp inside]
  | indirect => simp [places, same]
  | inode => rfl
  | double => rfl
  | table index => rfl

theorem places_indirect (nonzero : block ≠ 0) (l1 : Option Nat) :
    places cache { fields with l1, din := { fields.din with indirect := block } } =
      Function.update (places cache fields) .indirect (some block) := by
  funext place
  cases place with
  | indirect => simp [places, pointer_nonzero nonzero]
  | inode => rfl
  | data index => rfl
  | double => rfl
  | table index => rfl

/-- An empty block of tables names nothing. -/
theorem places_double (zero : fields.dbIndirect = 0) (nonzero : block ≠ 0) (empty : other block = fun _ => 0)
    (l2 : Option Nat) : places other { fields with l2, dbIndirect := block } =
      Function.update (places cache fields) .double (some block) := by
  funext place
  cases place with
  | double => simp [places, pointer_nonzero nonzero]
  | table index => simp [places, zero, empty]
  | inode => rfl
  | data index => rfl
  | indirect => rfl

theorem places_table (nonzero : fields.dbIndirect ≠ 0) (small : index < sfsBlkNentry) (l1 : Option Nat)
    (entered : other fields.dbIndirect = Function.update (cache fields.dbIndirect) index block) :
    places other { fields with l1 } = Function.update (places cache fields) (.table index) (pointer block) := by
  funext place
  cases place with
  | table index' =>
    by_cases here : index' = index
    · simp [places, here, small, nonzero, entered]
    · simp [places, here, entered]
  | inode => rfl
  | data index => rfl
  | indirect => rfl
  | double => rfl

end Places

/-- Two states of an inode that differ in pointers only. -/
structure SameButPointers (first second : CacheInode) : Prop where
  ino : second.ino = first.ino
  real : second.real = first.real
  nblks : second.nblks = first.nblks
  appended : second.appended = first.appended
  added : second.added = first.added
  size : second.din.size = first.din.size
  type : second.din.type = first.din.type
  nlinks : second.din.nlinks = first.din.nlinks
  blocks : second.din.blocks = first.din.blocks

theorem SameButPointers.refl (fields : CacheInode) : SameButPointers fields fields :=
  ⟨rfl, rfl, rfl, rfl, rfl, rfl, rfl, rfl, rfl⟩

theorem SameButPointers.trans {first second third : CacheInode} (one : SameButPointers first second)
    (two : SameButPointers second third) : SameButPointers first third where
  ino := two.ino.trans one.ino
  real := two.real.trans one.real
  nblks := two.nblks.trans one.nblks
  appended := two.appended.trans one.appended
  added := two.added.trans one.added
  size := two.size.trans one.size
  type := two.type.trans one.type
  nlinks := two.nlinks.trans one.nlinks
  blocks := two.blocks.trans one.blocks

/-- The next blocks are handed out, as many as given. -/
structure Hands (taken : Nat) (sfs next : Image) : Prop where
  nextIno : next.nextIno = sfs.nextIno + taken
  super : next.super = { sfs.super with unusedBlocks := sfs.super.unusedBlocks - taken }
  allocated : next.allocated = sfs.allocated ++ List.range' sfs.nextIno taken

theorem Hands.refl (sfs : Image) : Hands 0 sfs sfs := ⟨rfl, rfl, (List.append_nil _).symm⟩

theorem Hands.trans {middle : Image} {taken more : Nat} (first : Hands taken sfs middle)
    (second : Hands more middle next) : Hands (taken + more) sfs next where
  nextIno := by
    rw [second.nextIno, first.nextIno, Nat.add_assoc]
  super := by
    rw [second.super, first.super]
    simp only [Nat.sub_sub]
  allocated := by
    rw [second.allocated, first.allocated, first.nextIno, List.append_assoc, List.range'_append_1]

/-- The pointers of one inode grow into new blocks, against a frame. -/
structure Grows (file : Nat) (frame : Nat → Prop) (sfs next : Image) : Prop where
  owns : Owns (places next.cache (next.files file)) (· < next.nextIno) frame
  persists : ∀ place block, places sfs.cache (sfs.files file) place = some block →
    places next.cache (next.files file) place = some block
  history : SameButPointers (sfs.files file) (next.files file)
  elsewhere : ∀ other, other ≠ file → next.files other = sfs.files other
  framed : ∀ block, frame block → next.cache block = sfs.cache block
  cached : ∀ block, next.IsCached block ↔ sfs.IsCached block ∨ sfs.nextIno ≤ block ∧ block < next.nextIno
  named : ∀ block, sfs.nextIno ≤ block → block < next.nextIno →
    ∃ place, place.IsPointers ∧ places next.cache (next.files file) place = some block
  fresh : ∀ place block, places next.cache (next.files file) place = some block →
    places sfs.cache (sfs.files file) place = some block ∨ sfs.nextIno ≤ block
  fixed : next.disk = sfs.disk ∧ next.inodes = sfs.inodes ∧ next.ninos = sfs.ninos ∧ next.entryName = sfs.entryName
  counts : sfs.nextIno ≤ next.nextIno ∧ (sfs.nextIno ≤ sfs.ninos → next.nextIno ≤ sfs.ninos) ∧
    ∃ taken, Hands taken sfs next

variable {frame : Nat → Prop} {middle : Image}

theorem Grows.refl (owns : Owns (places sfs.cache (sfs.files file)) (· < sfs.nextIno) frame) :
    Grows file frame sfs sfs where
  owns := owns
  persists := fun _ _ => id
  history := SameButPointers.refl _
  elsewhere := fun _ _ => rfl
  framed := fun _ _ => rfl
  cached := by
    intro block
    have none : ¬ (sfs.nextIno ≤ block ∧ block < sfs.nextIno) := by omega
    simp [none]
  named := fun block lower upper => by omega
  fresh := fun _ _ names => Or.inl names
  fixed := ⟨rfl, rfl, rfl, rfl⟩
  counts := ⟨Nat.le_refl _, id, 0, Hands.refl sfs⟩

theorem Grows.trans (first : Grows file frame sfs middle) (second : Grows file frame middle next) :
    Grows file frame sfs next where
  owns := second.owns
  persists := fun place block names => second.persists place block (first.persists place block names)
  history := first.history.trans second.history
  elsewhere := fun other different => (second.elsewhere other different).trans (first.elsewhere other different)
  framed := fun block inside => (second.framed block inside).trans (first.framed block inside)
  cached := by
    intro block
    have below := first.counts.1
    have above := second.counts.1
    rw [second.cached, first.cached]
    constructor
    · rintro ((old | new) | new)
      · exact Or.inl old
      · exact Or.inr (by omega)
      · exact Or.inr (by omega)
    · rintro (old | new)
      · exact Or.inl (Or.inl old)
      · by_cases small : block < middle.nextIno
        · exact Or.inl (Or.inr ⟨new.1, small⟩)
        · exact Or.inr ⟨by omega, new.2⟩
  named := by
    intro block lower upper
    by_cases small : block < middle.nextIno
    · obtain ⟨place, pointers, names⟩ := first.named block lower small
      exact ⟨place, pointers, second.persists place block names⟩
    · exact second.named block (by omega) upper
  fresh := by
    intro place block names
    rcases second.fresh place block names with old | new
    · exact first.fresh place block old
    · exact Or.inr (first.counts.1.trans new)
  fixed := by
    obtain ⟨disk, inodes, ninos, entryName⟩ := first.fixed
    obtain ⟨disk', inodes', ninos', entryName'⟩ := second.fixed
    exact ⟨disk'.trans disk, inodes'.trans inodes, ninos'.trans ninos, entryName'.trans entryName⟩
  counts := by
    obtain ⟨le, bound, taken, hands⟩ := first.counts
    obtain ⟨le', bound', taken', hands'⟩ := second.counts
    refine ⟨le.trans le', ?_, taken + taken', hands.trans hands'⟩
    intro fits
    have ninos := first.fixed.2.2.1
    have middleFits := bound fits
    rw [ninos] at bound'
    exact bound' middleFits

/-- A new block of pointers: it is empty, and some place of the inode names it. -/
theorem Grows.newPointers (owns : Owns (places sfs.cache (sfs.files file)) (· < sfs.nextIno) frame)
    {fields : CacheInode} (place : MkPlace) (pointers : place.IsPointers) {allocated : Image}
    (alloc : sfsAllocIno sfs = some (block, allocated)) (history : SameButPointers (sfs.files file) fields)
    {cache : Nat → Block} (elsewhere : ∀ other, other ≠ sfs.nextIno → frame other → cache other = sfs.cache other)
    (assigned : places cache fields =
      Function.update (places sfs.cache (sfs.files file)) place (some block))
    (unnamed : places sfs.cache (sfs.files file) place = none) :
    Grows file frame sfs { (cacheBlock allocated 0 block).setFile file fields with cache } := by
  obtain ⟨rfl, small, rfl⟩ := sfsAllocIno_cases alloc
  have newOwns : Owns (places cache fields) (· < sfs.nextIno + 1) frame := by
    rw [assigned]
    refine owns.assign place (Nat.lt_irrefl _) ?_
    rintro other (used | rfl)
    · omega
    · omega
  refine ⟨?_, ?_, ?_, ?_, ?_, ?_, ?_, ?_, ⟨rfl, rfl, rfl, rfl⟩, ?_⟩
  · simpa [Image.setFile, cacheBlock] using newOwns
  · intro other named names
    simp only [Image.setFile, Function.update_self, assigned]
    rw [Function.update_of_ne]
    · exact names
    · rintro rfl
      rw [unnamed] at names
      cases names
  · simpa [Image.setFile] using history
  · exact fun other different => Function.update_of_ne different _ _
  · intro other inside
    refine elsewhere other ?_ inside
    rintro rfl
    exact Nat.lt_irrefl _ (owns.framed _ inside)
  · intro other
    simp only [Image.IsCached, Image.setFile, cacheBlock, inBuckets_cons]
    have isNew : other = sfs.nextIno ↔ sfs.nextIno ≤ other ∧ other < sfs.nextIno + 1 := by omega
    rw [isNew]
  · intro other lower upper
    have isNew : other = sfs.nextIno := by
      simp only [Image.setFile, cacheBlock] at upper
      omega
    subst isNew
    refine ⟨place, pointers, ?_⟩
    simp [Image.setFile, assigned]
  · intro other named names
    simp only [Image.setFile, Function.update_self, assigned] at names
    by_cases here : other = place
    · rw [here, Function.update_self] at names
      exact Or.inr (Nat.le_of_eq (Option.some.inj names))
    · rw [Function.update_of_ne here] at names
      exact Or.inl names
  · exact ⟨Nat.le_succ _, fun _ => small, 1, rfl, rfl, rfl⟩

/-- The inode changes, and none of its places. -/
theorem Grows.setFile (owns : Owns (places sfs.cache (sfs.files file)) (· < sfs.nextIno) frame)
    {fields : CacheInode} (history : SameButPointers (sfs.files file) fields)
    (same : places sfs.cache fields = places sfs.cache (sfs.files file)) :
    Grows file frame sfs (sfs.setFile file fields) := by
  have start := Grows.refl owns
  have here : places (sfs.setFile file fields).cache ((sfs.setFile file fields).files file) =
      places sfs.cache (sfs.files file) := by
    simpa [Image.setFile] using same
  refine ⟨here ▸ owns, ?_, ?_, ?_, start.framed, start.cached, ?_, ?_, start.fixed,
    Nat.le_refl _, id, 0, rfl, rfl, (List.append_nil _).symm⟩
  · intro place named names
    exact here ▸ names
  · simpa [Image.setFile] using history
  · exact fun other different => Function.update_of_ne different _ _
  · intro other lower upper
    exact absurd upper (Nat.not_lt.mpr lower)
  · intro place named names
    exact Or.inl (here ▸ names)

/-- A word is written into a block of the inode that is not its block of tables. -/
theorem Grows.setCache (owns : Owns (places sfs.cache (sfs.files file)) (· < sfs.nextIno) frame)
    (outside : ¬ frame block) (notTable : (sfs.files file).dbIndirect ≠ 0 → (sfs.files file).dbIndirect ≠ block)
    (word : Nat) : Grows file frame sfs (sfs.setCache block index word) := by
  have same : places (sfs.setCache block index word).cache (sfs.files file) = places sfs.cache (sfs.files file) :=
    places_congr fun nonzero => Function.update_of_ne (notTable nonzero) _ _
  have start := Grows.refl owns
  refine ⟨?_, ?_, start.history, start.elsewhere, ?_, start.cached, ?_, ?_, start.fixed,
    Nat.le_refl _, id, 0, rfl, rfl, (List.append_nil _).symm⟩
  · exact same ▸ owns
  · intro place named names
    exact same ▸ names
  · intro other inside
    exact Function.update_of_ne (fun isBlock : other = block => outside (isBlock ▸ inside)) _ _
  · intro other lower upper
    exact absurd upper (Nat.not_lt.mpr lower)
  · intro place named names
    exact Or.inl (same ▸ names)

/-! ## Appending a pointer -/

/-- A new block is none of the inode. -/
theorem pointer_ne_next (owns : Owns (places sfs.cache (sfs.files file)) (· < sfs.nextIno) frame) (place : MkPlace)
    (isPointer : places sfs.cache (sfs.files file) place = pointer block) (nonzero : block ≠ 0) :
    block ≠ sfs.nextIno :=
  Nat.ne_of_lt (owns.inUse place block (isPointer.trans (pointer_nonzero nonzero)))

/-- The block of indirect pointers is not that of tables. -/
theorem indirect_ne_double (owns : Owns (places sfs.cache (sfs.files file)) (· < sfs.nextIno) frame)
    (indirect : (sfs.files file).din.indirect ≠ 0) (double : (sfs.files file).dbIndirect ≠ 0) :
    (sfs.files file).din.indirect ≠ (sfs.files file).dbIndirect := by
  intro same
  have isIndirect : places sfs.cache (sfs.files file) .indirect = some (sfs.files file).dbIndirect :=
    same ▸ pointer_nonzero indirect
  cases owns.once .indirect .double _ isIndirect (pointer_nonzero double)

/-- The block of indirect pointers is there, and records no more than before. -/
theorem linkIndirect_grows (owns : Owns (places sfs.cache (sfs.files file)) (· < sfs.nextIno) frame)
    (positive : sfs.nextIno ≠ 0)
    (called : updateCache sfs (sfs.files file).l1 (sfs.files file).din.indirect = some (block, middle)) :
    Grows file frame sfs (middle.linkIndirect file block) ∧ block ≠ 0 ∧
      firstPointers (middle.linkIndirect file block).cache ((middle.linkIndirect file block).files file) =
        firstPointers sfs.cache (sfs.files file) := by
  rcases updateCache_cases called with
    ⟨nonzero, rfl, same⟩ | ⟨zero, isBlock, sameFiles, newCache, allocated, alloc, isMiddle⟩
  · subst same
    refine ⟨Grows.setFile owns ?_ ?_, nonzero, ?_⟩
    · constructor <;> rfl
    · funext place
      cases place <;> rfl
    · funext index
      simp [firstPointers, Image.linkIndirect, Image.setFile]
  · have nonzero : block ≠ 0 := isBlock ▸ positive
    have grows : Grows file frame sfs (middle.linkIndirect file block) := by
      subst isMiddle
      refine Grows.newPointers owns .indirect trivial alloc ?_ ?_ ?_ ?_
      · rw [sameFiles]
        constructor <;> rfl
      · intro other different _
        rw [newCache, Function.update_of_ne (isBlock ▸ different)]
      · rw [sameFiles, places_indirect nonzero, places_congr]
        intro double
        rw [newCache, Function.update_of_ne (isBlock ▸ pointer_ne_next owns .double rfl double)]
      · simp [places, zero, pointer]
    refine ⟨grows, nonzero, ?_⟩
    funext index
    simp [firstPointers, Image.linkIndirect, Image.setFile, newCache, sameFiles, zero]

/-- The block of tables is there. -/
theorem linkDouble_grows (owns : Owns (places sfs.cache (sfs.files file)) (· < sfs.nextIno) frame)
    (positive : sfs.nextIno ≠ 0)
    (called : updateCache sfs (sfs.files file).l2 (sfs.files file).dbIndirect = some (block, middle)) :
    Grows file frame sfs (middle.linkDouble file block) ∧ block ≠ 0 ∧
      firstPointers (middle.linkDouble file block).cache ((middle.linkDouble file block).files file) =
        firstPointers sfs.cache (sfs.files file) := by
  rcases updateCache_cases called with
    ⟨nonzero, rfl, same⟩ | ⟨zero, isBlock, sameFiles, newCache, allocated, alloc, isMiddle⟩
  · subst same
    refine ⟨Grows.setFile owns ?_ ?_, nonzero, ?_⟩
    · constructor <;> rfl
    · funext place
      cases place <;> rfl
    · funext index
      simp [firstPointers, Image.linkDouble, Image.setFile]
  · have nonzero : block ≠ 0 := isBlock ▸ positive
    have grows : Grows file frame sfs (middle.linkDouble file block) := by
      subst isMiddle
      refine Grows.newPointers owns .double trivial alloc ?_ ?_ ?_ ?_
      · rw [sameFiles]
        constructor <;> rfl
      · intro other different _
        rw [newCache, Function.update_of_ne (isBlock ▸ different)]
      · rw [sameFiles]
        refine places_double zero nonzero ?_ _
        rw [newCache, Function.update_self]
      · simp [places, zero, pointer]
    refine ⟨grows, nonzero, ?_⟩
    funext index
    by_cases none : (sfs.files file).din.indirect = 0
    · simp [firstPointers, Image.linkDouble, Image.setFile, sameFiles, none]
    · have other : (sfs.files file).din.indirect ≠ block := isBlock ▸ pointer_ne_next owns .indirect rfl none
      simp [firstPointers, Image.linkDouble, Image.setFile, newCache, sameFiles, other]

/-- The table is there. -/
theorem linkTable_grows {l2 : Nat} (owns : Owns (places sfs.cache (sfs.files file)) (· < sfs.nextIno) frame)
    (positive : sfs.nextIno ≠ 0) (isDouble : (sfs.files file).dbIndirect = l2) (double : l2 ≠ 0)
    (small : index < sfsBlkNentry)
    (called : updateCache sfs (sfs.files file).l1 (sfs.cache l2 index) = some (block, middle)) :
    Grows file frame sfs (middle.linkTable file l2 index block) ∧
      places (middle.linkTable file l2 index block).cache ((middle.linkTable file l2 index block).files file)
        (.table index) = some block ∧
      firstPointers (middle.linkTable file l2 index block).cache
          ((middle.linkTable file l2 index block).files file) =
        firstPointers sfs.cache (sfs.files file) := by
  subst isDouble
  have namesDouble : places sfs.cache (sfs.files file) .double = some (sfs.files file).dbIndirect :=
    pointer_nonzero double
  rcases updateCache_cases called with
    ⟨nonzero, rfl, same⟩ | ⟨zero, isBlock, sameFiles, newCache, allocated, alloc, isMiddle⟩
  · -- the entry is written again
    subst same
    have unchanged : middle.linkTable file (middle.files file).dbIndirect index
        (middle.cache (middle.files file).dbIndirect index) =
          middle.setFile file { middle.files file with
            l1 := some (middle.cache (middle.files file).dbIndirect index) } := by
      simp [Image.linkTable, Image.setCache, Image.setFile]
    rw [unchanged]
    refine ⟨Grows.setFile owns ?_ ?_, ?_, ?_⟩
    · constructor <;> rfl
    · funext place
      cases place <;> rfl
    · simp [places, Image.setFile, double, small, pointer_nonzero nonzero]
    · exact firstPointers_congr (by simp [Image.setFile]) (by simp [Image.setFile]) fun _ => rfl
  · have nonzero : block ≠ 0 := isBlock ▸ positive
    have notNew : (sfs.files file).dbIndirect ≠ block := isBlock ▸ pointer_ne_next owns .double rfl double
    have cacheAfter : ∀ other, other ≠ block → other ≠ (sfs.files file).dbIndirect →
        (middle.linkTable file (sfs.files file).dbIndirect index block).cache other = sfs.cache other := by
      intro other notBlock notDouble
      simp [Image.linkTable, Image.setCache, Image.setFile, newCache, notBlock, notDouble]
    have names : places (middle.linkTable file (sfs.files file).dbIndirect index block).cache
        ((middle.linkTable file (sfs.files file).dbIndirect index block).files file) =
          Function.update (places sfs.cache (sfs.files file)) (.table index) (some block) := by
      have entered : (middle.linkTable file (sfs.files file).dbIndirect index block).cache
          (sfs.files file).dbIndirect = Function.update (sfs.cache (sfs.files file).dbIndirect) index block := by
        simp [Image.linkTable, Image.setCache, Image.setFile, newCache, notNew]
      have table := places_table double small (some block) entered
      rw [pointer_nonzero nonzero] at table
      rw [← table]
      simp [Image.linkTable, Image.setCache, Image.setFile, sameFiles]
    have grows : Grows file frame sfs (middle.linkTable file (sfs.files file).dbIndirect index block) := by
      subst isMiddle
      refine Grows.newPointers owns (.table index) trivial alloc ?_ ?_ ?_ ?_
      · rw [sameFiles]
        constructor <;> rfl
      · intro other different inside
        refine cacheAfter other (isBlock ▸ different) ?_
        rintro rfl
        exact owns.apart .double _ namesDouble inside
      · rw [← names]
        simp [Image.linkTable, Image.setCache, Image.setFile]
      · simp [places, zero]
    refine ⟨grows, by rw [names, Function.update_self], ?_⟩
    refine firstPointers_congr ?_ ?_ fun indirect => cacheAfter _ ?_ (indirect_ne_double owns indirect double)
    · simp [Image.linkTable, Image.setCache, Image.setFile, sameFiles]
    · simp [Image.linkTable, Image.setCache, Image.setFile, sameFiles]
    · exact isBlock ▸ pointer_ne_next owns .indirect rfl indirect

/-- A pointer is stored in the block that an inode names for it. -/
theorem appendPointer_grows {nblks : Nat} (owns : Owns (places sfs.cache (sfs.files file)) (· < sfs.nextIno) frame)
    (positive : sfs.nextIno ≠ 0) (called : appendPointer sfs file nblks ino = some next) :
    Grows file frame sfs next ∧ ∀ index < sfsL1Nblks, firstPointers next.cache (next.files file) index =
      Function.update (firstPointers sfs.cache (sfs.files file)) nblks ino index := by
  unfold appendPointer at called
  split at called
  · rename_i direct
    cases called
    refine ⟨Grows.setFile owns ?_ ?_, ?_⟩
    · constructor <;> rfl
    · funext place
      cases place <;> rfl
    · intro index _
      by_cases here : index = nblks
      · simp [firstPointers, Image.setFile, here, direct]
      · simp [firstPointers, Image.setFile, here]
  · rename_i notDirect
    split at called
    · rename_i indirect
      simp only [appendIndirect, Option.bind_eq_bind, Option.bind_eq_some_iff] at called
      obtain ⟨⟨block, middle⟩, updated, called⟩ := called
      cases called
      obtain ⟨linked, nonzero, recorded⟩ := linkIndirect_grows owns positive updated
      have isIndirect : ((middle.linkIndirect file block).files file).din.indirect = block := by
        simp [Image.linkIndirect, Image.setFile]
      have names : places (middle.linkIndirect file block).cache ((middle.linkIndirect file block).files file)
          .indirect = some block := by
        simp only [places, isIndirect, pointer_nonzero nonzero]
      refine ⟨linked.trans (Grows.setCache linked.owns (linked.owns.apart .indirect _ names) ?_ ino), ?_⟩
      · intro double same
        exact indirect_ne_double linked.owns (by rwa [isIndirect]) double (isIndirect.trans same.symm)
      · intro index _
        have isPointer : sfsNdirect + (nblks - sfsNdirect) = nblks := by omega
        simp only [Image.setCache]
        rw [firstPointers_entry isIndirect nonzero, recorded, isPointer]
    · rename_i notIndirect
      split at called
      · simp only [appendDouble, Option.bind_eq_bind, Option.bind_eq_some_iff] at called
        obtain ⟨⟨l2, first⟩, updated, ⟨l1, second⟩, updated', called⟩ := called
        cases called
        obtain ⟨linked, double, recorded⟩ := linkDouble_grows owns positive updated
        have isDouble : ((first.linkDouble file l2).files file).dbIndirect = l2 := by
          simp [Image.linkDouble, Image.setFile]
        have positive' : (first.linkDouble file l2).nextIno ≠ 0 := by
          have more := linked.counts.1
          omega
        have inTables : (nblks - sfsL1Nblks) / sfsBlkNentry < sfsBlkNentry := by
          rename_i notDouble
          simp only [sfsL2Nblks, sfsBlkNentry] at notDouble ⊢
          omega
        obtain ⟨tabled, names, recorded'⟩ := linkTable_grows linked.owns positive' isDouble double inTables updated'
        refine ⟨(linked.trans tabled).trans
          (Grows.setCache tabled.owns (tabled.owns.apart _ _ names) ?_ ino), ?_⟩
        · intro nonzero same
          cases tabled.owns.once .double _ _ ((pointer_nonzero nonzero).trans (congrArg some same)) names
        · intro index inside
          have other : index ≠ nblks := by omega
          rw [Function.update_of_ne other, ← recorded, ← recorded']
          refine congrFun (firstPointers_congr rfl rfl ?_) index
          intro nonzero
          refine Function.update_of_ne ?_ _ _
          intro same
          cases tabled.owns.once .indirect _ _ ((pointer_nonzero nonzero).trans (congrArg some same)) names
      · cases called
        refine ⟨Grows.refl owns, ?_⟩
        intro index inside
        have other : index ≠ nblks := by omega
        rw [Function.update_of_ne other]

/-! ## Appending a block -/

/-- The next block is handed out and written. -/
def Image.take (sfs : Image) (words : Block) : Image :=
  { sfs with
    nextIno := sfs.nextIno + 1
    super := { sfs.super with unusedBlocks := sfs.super.unusedBlocks - 1 }
    allocated := sfs.allocated ++ [sfs.nextIno]
    disk := Function.update sfs.disk sfs.nextIno words }

/-- The places and the pointers of an inode after the block is appended. -/
theorem appended_places (cache : Nat → Block) (fields : CacheInode) (size ino : Nat) :
    places cache (fields.append size ino) =
      Function.update (places cache fields) (.data fields.appended.length) (some ino) :=
  places_append fields _ _ rfl

theorem appended_ok {cache other : Nat → Block} {fields after : CacheInode} (ok : FileOk cache fields)
    (history : SameButPointers fields after) (small : fields.nblks < sfsLnNblks)
    (recorded : ∀ index < sfsL1Nblks, firstPointers other after index =
      Function.update (firstPointers cache fields) fields.nblks ino index) :
    FileOk other (after.append size ino) where
  nblks := by simp [CacheInode.append, history.nblks, history.appended, ok.nblks]
  blocks := by simp [CacheInode.append, history.blocks, history.appended, ok.blocks]
  small := by
    rw [ok.nblks] at small
    simp only [CacheInode.append, history.appended, List.length_append, List.length_singleton]
    omega
  pointers := by
    intro index inside
    have same : firstPointers other (after.append size ino) = firstPointers other after :=
      firstPointers_congr rfl rfl fun _ => rfl
    rw [same, recorded index inside, ok.nblks]
    simp only [CacheInode.append, history.appended]
    by_cases here : index = fields.appended.length
    · simp [here]
    · rw [Function.update_of_ne here, ok.pointers index inside]
      by_cases old : index < fields.appended.length
      · simp [List.getD_eq_getElem?_getD, List.getElem?_append_left old]
      · have beyond : (fields.appended ++ [ino])[index]? = none := by
          rw [List.getElem?_eq_none]
          simp only [List.length_append, List.length_singleton]
          omega
        simp [List.getD_eq_getElem?_getD, beyond, Nat.not_lt.mp old]

/-- What appending a block does, against a frame: it is handed out and written, the
inode records it, and its pointers grow. -/
structure Appends (file : Nat) (words : Block) (frame : Nat → Prop) (sfs next : Image) : Prop where
  owns : Owns (places next.cache (next.files file)) (· < next.nextIno) frame
  ok : FileOk next.cache (next.files file)
  appended : (next.files file).appended = (sfs.files file).appended ++ [sfs.nextIno]
  added : (next.files file).added = (sfs.files file).added
  ino : (next.files file).ino = (sfs.files file).ino
  real : (next.files file).real = (sfs.files file).real
  type : (next.files file).din.type = (sfs.files file).din.type
  nlinks : (next.files file).din.nlinks = (sfs.files file).din.nlinks
  elsewhere : ∀ other, other ≠ file → next.files other = sfs.files other
  framed : ∀ block, frame block → next.cache block = sfs.cache block
  cached : ∀ block, next.IsCached block ↔ sfs.IsCached block ∨ sfs.nextIno < block ∧ block < next.nextIno
  persists : ∀ place block, places sfs.cache (sfs.files file) place = some block →
    places next.cache (next.files file) place = some block
  named : ∀ block, sfs.nextIno < block → block < next.nextIno →
    ∃ place, place.IsPointers ∧ places next.cache (next.files file) place = some block
  fresh : ∀ place block, places next.cache (next.files file) place = some block →
    places sfs.cache (sfs.files file) place = some block ∨
      sfs.nextIno ≤ block ∧ (place.IsPointers → sfs.nextIno < block)
  fixed : next.inodes = sfs.inodes ∧ next.ninos = sfs.ninos ∧ next.entryName = sfs.entryName
  disk : next.disk = Function.update sfs.disk sfs.nextIno words
  counts : sfs.nextIno < next.nextIno ∧ next.nextIno ≤ sfs.ninos ∧ ∃ taken, Hands taken sfs next

theorem Grows.appends (owns : Owns (places sfs.cache (sfs.files file)) (· < sfs.nextIno) frame)
    (small : sfs.nextIno < sfs.ninos) (grows : Grows file frame (sfs.take words) middle)
    (ok : FileOk middle.cache ((middle.files file).append size sfs.nextIno)) :
    Appends file words frame sfs (middle.setFile file ((middle.files file).append size sfs.nextIno)) := by
  have here : (middle.setFile file ((middle.files file).append size sfs.nextIno)).files file =
      (middle.files file).append size sfs.nextIno := Function.update_self ..
  have same : places middle.cache ((middle.files file).append size sfs.nextIno) =
      Function.update (places middle.cache (middle.files file)) (.data (middle.files file).appended.length)
        (some sfs.nextIno) := appended_places ..
  obtain ⟨sameDisk, sameInodes, sameNinos, sameName⟩ := grows.fixed
  obtain ⟨more, bound, taken, hands⟩ := grows.counts
  have unframed : ¬ frame sfs.nextIno := fun inside => Nat.lt_irrefl _ (owns.framed _ inside)
  have unnamed : ∀ place, places middle.cache (middle.files file) place ≠ some sfs.nextIno := by
    intro place names
    rcases grows.fresh place _ names with old | new
    · exact Nat.lt_irrefl _ (owns.inUse place _ old)
    · exact Nat.lt_irrefl _ new
  constructor
  case owns =>
    rw [here]
    exact same ▸ grows.owns.enter _ more unnamed unframed
  case ok => rwa [here]
  case appended => rw [here, CacheInode.append, grows.history.appended]; rfl
  case added => rw [here, CacheInode.append, grows.history.added]; rfl
  case ino => rw [here, CacheInode.append, grows.history.ino]; rfl
  case real => rw [here, CacheInode.append, grows.history.real]; rfl
  case type => rw [here, CacheInode.append, grows.history.type]; rfl
  case nlinks => rw [here, CacheInode.append, grows.history.nlinks]; rfl
  case elsewhere =>
    intro other different
    exact (Function.update_of_ne different _ _).trans (grows.elsewhere other different)
  case framed => exact grows.framed
  case cached => exact grows.cached
  case persists =>
    intro place block names
    have kept := grows.persists place block names
    rw [here]
    refine (congrFun same place).trans ?_
    rw [Function.update_of_ne]
    · exact kept
    · rintro rfl
      simp [places] at kept
  case named =>
    intro block lower upper
    obtain ⟨place, pointers, names⟩ := grows.named block lower upper
    refine ⟨place, pointers, ?_⟩
    rw [here]
    refine (congrFun same place).trans ?_
    rw [Function.update_of_ne]
    · exact names
    · rintro rfl
      exact pointers
  case fresh =>
    intro place block names
    rw [here] at names
    replace names := (congrFun same place).symm.trans names
    by_cases isData : place = .data (middle.files file).appended.length
    · rw [isData, Function.update_self] at names
      obtain rfl : sfs.nextIno = block := Option.some.inj names
      refine Or.inr ⟨Nat.le_refl _, fun pointers => ?_⟩
      rw [isData] at pointers
      exact pointers.elim
    · rw [Function.update_of_ne isData] at names
      rcases grows.fresh place block names with old | new
      · exact Or.inl old
      · exact Or.inr ⟨Nat.le_of_succ_le new, fun _ => new⟩
  case fixed => exact ⟨sameInodes, sameNinos, sameName⟩
  case disk => exact sameDisk
  case counts =>
    have one : Hands 1 sfs (sfs.take words) := ⟨rfl, rfl, rfl⟩
    obtain ⟨isNext, isSuper, isAllocated⟩ := one.trans hands
    exact ⟨more, bound small, 1 + taken, isNext, isSuper, isAllocated⟩

theorem appendData_appends (owns : Owns (places sfs.cache (sfs.files file)) (· < sfs.nextIno) frame)
    (ok : FileOk sfs.cache (sfs.files file)) (called : appendData sfs file words size = some next) :
    Appends file words frame sfs next := by
  simp only [appendData, Option.bind_eq_bind, Option.bind_eq_some_iff] at called
  obtain ⟨⟨ino, allocated⟩, alloc, written, write, append⟩ := called
  obtain ⟨rfl, small, isAllocated⟩ := sfsAllocIno_cases alloc
  obtain ⟨_, isWritten⟩ := writeBlock_cases write
  have isTaken : written = sfs.take words := by
    rw [isWritten, isAllocated]
    rfl
  subst isTaken
  unfold appendBlock at append
  split at append
  · rename_i fits
    simp only [Option.bind_eq_bind, Option.bind_eq_some_iff] at append
    obtain ⟨middle, pointed, isNext⟩ := append
    have widened : Owns (places (sfs.take words).cache ((sfs.take words).files file))
        (· < (sfs.take words).nextIno) frame :=
      owns.mono (fun _ _ names => names) fun block inUse => Nat.lt_succ_of_lt inUse
    obtain ⟨grows, recorded⟩ := appendPointer_grows widened (Nat.succ_ne_zero _) pointed
    cases isNext
    exact grows.appends owns small (appended_ok ok grows.history fits.2 recorded)
  · cases append

end Ucore.Mksfs
