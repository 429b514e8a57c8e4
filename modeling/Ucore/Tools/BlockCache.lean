import Ucore.Tools.CloseImage

/-!
# The cache of pointer blocks

`alloc_cache_block` puts a new block into the bucket of the number that it was given, and
`append_block` gives it 0; `search_cache_block` looks into the bucket of the number that the
block got. So only blocks whose number has the hash of 0 are found. `append_block` does not
notice: a file grows at its end only, and the block that it needs next is the one that its
inode remembers, or a new one.
-/

namespace Ucore.Mksfs

open Ownership Transition Volume

/-- Every cached block is found under its number. -/
def Finds (sfs : Image) : Prop := ∀ block, sfs.IsCached block → searchCacheBlock sfs block = some block

/-- The assertion of `update_cache`. -/
def CacheAsserts (sfs : Image) (cached : Option Nat) (ino : Nat) : Prop :=
  ino ≠ 0 → cached ≠ some ino → searchCacheBlock sfs ino = some ino

/-- The assertion in the call of `update_cache` for a block behind the direct ones. -/
def IndirectAsserts (sfs : Image) (file : Nat) : Prop :=
  CacheAsserts sfs (sfs.files file).l1 (sfs.files file).din.indirect

/-- The assertions in the two calls for a block named by the double indirect block. -/
def DoubleAsserts (sfs : Image) (file : Nat) : Prop :=
  CacheAsserts sfs (sfs.files file).l2 (sfs.files file).dbIndirect ∧
    ∀ l2 next, updateCache sfs (sfs.files file).l2 (sfs.files file).dbIndirect = some (l2, next) →
      CacheAsserts (next.linkDouble file l2) ((next.linkDouble file l2).files file).l1
        ((next.linkDouble file l2).cache l2 (((sfs.files file).nblks - sfsL1Nblks) / sfsBlkNentry))

/-- The assertions in the next call of `append_block` for a file. -/
def AppendAsserts (sfs : Image) (file : Nat) : Prop :=
  (sfsNdirect ≤ (sfs.files file).nblks → (sfs.files file).nblks < sfsL1Nblks → IndirectAsserts sfs file) ∧
    (sfsL1Nblks ≤ (sfs.files file).nblks → DoubleAsserts sfs file)

/-- The blocks of pointers that `append_block` takes for a file of so many blocks. -/
def newTables (nblks : Nat) : Nat :=
  if nblks = sfsNdirect then 1
  else if nblks = sfsL1Nblks then 2
  else if sfsL1Nblks < nblks ∧ (nblks - sfsL1Nblks) % sfsBlkNentry = 0 then 1
  else 0

/-- The blocks of pointers for the next block of a file have numbers with the hash of 0. The block itself
gets the first free number. -/
def HashesToZero (sfs : Image) (file : Nat) : Prop :=
  ∀ index < newTables (sfs.files file).nblks, hash32 (sfs.nextIno + 1 + index) = hash32 0

def Findable (sfs : Image) : ImageOperation → Prop
  | .newFile _ _ => True
  | .data file _ _ => HashesToZero sfs file
  | .entry current _ _ => HashesToZero sfs current

/-- The blocks of pointers of a file that has so many blocks, and what its inode remembers of them. -/
structure Linked (cache : Nat → Block) (file : CacheInode) (nblks : Nat) : Prop where
  indirect : file.din.indirect = 0 ↔ nblks ≤ sfsNdirect
  double : file.dbIndirect = 0 ↔ nblks ≤ sfsL1Nblks
  table : file.dbIndirect ≠ 0 → ∀ index, cache file.dbIndirect index = 0 ↔ nblks ≤ sfsL1Nblks + sfsBlkNentry * index
  first : sfsNdirect < nblks → nblks ≤ sfsL1Nblks → file.l1 = some file.din.indirect
  later : sfsL1Nblks < nblks →
    file.l1 = some (cache file.dbIndirect ((nblks - sfsL1Nblks - 1) / sfsBlkNentry))
  second : sfsL1Nblks < nblks → file.l2 = some file.dbIndirect

/-- All cached blocks are in the bucket of 0, and the inodes remember theirs. -/
structure Caching (sfs : Image) : Prop where
  hashed : ∀ bucket, bucket ≠ hash32 0 → sfs.blocks bucket = []
  linked : ∀ file, sfs.IsFile file → Linked sfs.cache (sfs.files file) (sfs.files file).nblks

variable {sfs next middle : Image} {file block ino index nblks ninos size : Nat} {cache : Nat → Block}
  {fields after : CacheInode} {words : Block} {frame : Nat → Prop}

/-! ## The buckets -/

theorem find_self {blocks : List Nat} (member : block ∈ blocks) :
    blocks.find? (fun other => other = block) = some block := by
  cases found : blocks.find? fun other => other = block with
  | none => exact absurd (List.find?_eq_none.mp found block member) (by simp)
  | some other =>
    have same : other = block := by simpa using List.find?_some found
    rw [same]

/-- Blocks in the bucket of 0 are found when their number has its hash. -/
theorem Caching.finds_iff (caching : Caching sfs) :
    Finds sfs ↔ ∀ block, sfs.IsCached block → hash32 block = hash32 0 := by
  constructor
  · intro finds block isCached
    by_contra elsewhere
    have found := finds block isCached
    simp only [searchCacheBlock, caching.hashed _ elsewhere, List.find?_nil, reduceCtorEq] at found
  · rintro hashes block ⟨bucket, small, member⟩
    have here : BitVec.ofNat 32 bucket = hash32 0 := by
      by_contra elsewhere
      rw [caching.hashed _ elsewhere] at member
      cases member
    rw [searchCacheBlock, hashes block ⟨bucket, small, member⟩, ← here]
    exact find_self member

/-! ## The pointers of one inode -/

/-- The words of other blocks do not matter, nor do the other fields. -/
theorem Linked.congr {other : Nat → Block} (linked : Linked cache fields nblks)
    (sameIndirect : after.din.indirect = fields.din.indirect) (sameDouble : after.dbIndirect = fields.dbIndirect)
    (sameFirst : after.l1 = fields.l1) (sameSecond : after.l2 = fields.l2)
    (kept : fields.dbIndirect ≠ 0 → other fields.dbIndirect = cache fields.dbIndirect) : Linked other after nblks where
  indirect := sameIndirect ▸ linked.indirect
  double := sameDouble ▸ linked.double
  table := by
    intro nonzero index
    rw [sameDouble] at nonzero ⊢
    rw [kept nonzero]
    exact linked.table nonzero index
  first := by
    intro lower upper
    rw [sameFirst, sameIndirect]
    exact linked.first lower upper
  later := by
    intro lower
    have nonzero : fields.dbIndirect ≠ 0 := fun zero => by
      have upper := linked.double.mp zero
      omega
    rw [sameFirst, sameDouble, kept nonzero]
    exact linked.later lower
  second := by
    intro lower
    rw [sameSecond, sameDouble]
    exact linked.second lower

/-- An inode without blocks remembers none. -/
theorem Linked.empty (noIndirect : fields.din.indirect = 0) (noDouble : fields.dbIndirect = 0) : Linked cache fields 0 where
  indirect := iff_of_true noIndirect (Nat.zero_le _)
  double := iff_of_true noDouble (Nat.zero_le _)
  table := fun nonzero => absurd noDouble nonzero
  first := fun lower => absurd lower (Nat.not_lt_zero _)
  later := fun lower => absurd lower (Nat.not_lt_zero _)
  second := fun lower => absurd lower (Nat.not_lt_zero _)

/-- Where the regions of the pointers begin. -/
theorem regions : sfsNdirect = 12 ∧ sfsBlkNentry = 1024 ∧ sfsL1Nblks = 1036 := ⟨rfl, rfl, rfl⟩

theorem newTables_direct (small : nblks < sfsNdirect) : newTables nblks = 0 := by
  obtain ⟨direct, _, single⟩ := regions
  rw [newTables, if_neg (by omega), if_neg (by omega), if_neg (by omega)]

theorem newTables_indirect (upper : nblks < sfsL1Nblks) :
    newTables nblks = if nblks = sfsNdirect then 1 else 0 := by
  rw [newTables]
  split
  · rfl
  · rw [if_neg (by omega), if_neg (by omega)]

/-- The direct pointers need no blocks. -/
theorem Linked.direct (linked : Linked cache fields nblks) (small : nblks < sfsNdirect)
    (din : DiskInode) (same : din.indirect = fields.din.indirect) : Linked cache { fields with din } (nblks + 1) := by
  obtain ⟨direct, entries, single⟩ := regions
  have noDouble : fields.dbIndirect = 0 := linked.double.mpr (by omega)
  constructor
  case indirect => exact iff_of_true (same.trans (linked.indirect.mpr (Nat.le_of_lt small))) small
  case double => exact iff_of_true noDouble (by omega)
  case table => exact fun nonzero => absurd noDouble nonzero
  case first => omega
  case later => omega
  case second => omega

/-- The first call of `update_cache` gives the remembered block, or a new one for an empty pointer. -/
theorem updateCache_hands {cached : Option Nat} (called : updateCache sfs cached ino = some (block, next)) :
    next.nextIno = sfs.nextIno + (if ino = 0 then 1 else 0) ∧ next.ninos = sfs.ninos ∧
      (∀ bucket, bucket ≠ hash32 0 → next.blocks bucket = sfs.blocks bucket) := by
  rcases updateCache_cases called with ⟨nonzero, _, rfl⟩ | ⟨zero, _, _, _, allocated, alloc, rfl⟩
  · rw [if_neg nonzero]
    exact ⟨rfl, rfl, fun _ _ => rfl⟩
  · obtain ⟨_, _, rfl⟩ := sfsAllocIno_cases alloc
    rw [if_pos zero]
    exact ⟨rfl, rfl, fun bucket different => Function.update_of_ne different ..⟩

/-- The pointers behind the direct ones take a block of their own at the start. -/
theorem appendIndirect_linked (linked : Linked sfs.cache (sfs.files file) nblks) (lower : sfsNdirect ≤ nblks)
    (upper : nblks < sfsL1Nblks) (positive : sfs.nextIno ≠ 0) (called : appendIndirect sfs file index ino = some next) :
    Linked next.cache (next.files file) (nblks + 1) ∧ next.nextIno = sfs.nextIno + newTables nblks := by
  simp only [appendIndirect, Option.bind_eq_bind, Option.bind_eq_some_iff] at called
  obtain ⟨⟨block, middle⟩, updated, isNext⟩ := called
  cases isNext
  obtain ⟨counted, _⟩ := updateCache_hands updated
  have isZero := linked.indirect
  have noDouble : (sfs.files file).dbIndirect = 0 := linked.double.mpr (Nat.le_of_lt upper)
  have sameFiles : middle.files = sfs.files := by
    rcases updateCache_cases updated with ⟨_, _, rfl⟩ | ⟨_, _, same, _⟩
    · rfl
    · exact same
  have nonzero : block ≠ 0 := by
    rcases updateCache_cases updated with ⟨nonzero, rfl, _⟩ | ⟨_, rfl, _⟩
    · exact nonzero
    · exact positive
  have here : ((middle.linkIndirect file block).setCache block index ino).files file =
      { sfs.files file with l1 := some block, din := { (sfs.files file).din with indirect := block } } := by
    simp [Image.linkIndirect, Image.setFile, Image.setCache, sameFiles]
  rw [here]
  constructor
  · constructor
    case indirect =>
      refine iff_of_false nonzero ?_
      omega
    case double =>
      refine iff_of_true noDouble ?_
      omega
    case table => exact fun nonzero => absurd noDouble nonzero
    case first => exact fun _ _ => rfl
    case later => omega
    case second => omega
  · rw [newTables_indirect upper]
    refine counted.trans ?_
    by_cases isFirst : nblks = sfsNdirect
    · rw [if_pos isFirst, if_pos (isZero.mpr (Nat.le_of_eq isFirst))]
    · rw [if_neg isFirst, if_neg (by omega)]

section Double

variable {l1 l2 : Nat}

theorem newTables_double (index : Nat) :
    newTables (sfsL1Nblks + index) = (if index = 0 then 1 else 0) + if index % sfsBlkNentry = 0 then 1 else 0 := by
  obtain ⟨direct, entries, single⟩ := regions
  rw [newTables, if_neg (by omega), Nat.add_sub_cancel_left]
  by_cases isFirst : index = 0
  · rw [if_pos (by omega), if_pos isFirst, isFirst, if_pos (Nat.zero_mod _)]
  · rw [if_neg (by omega), if_neg isFirst, Nat.zero_add]
    by_cases isStart : index % sfsBlkNentry = 0
    · rw [if_pos isStart, if_pos ⟨by omega, isStart⟩]
    · rw [if_neg isStart, if_neg (fun both => isStart both.2)]

/-- The double indirect block is taken for the first block behind the others, and its words name the blocks that
are in use before. -/
theorem updateDouble_linked (linked : Linked sfs.cache (sfs.files file) (sfsL1Nblks + index))
    (owns : Owns (places sfs.cache (sfs.files file)) (· < sfs.nextIno) frame) (positive : sfs.nextIno ≠ 0)
    (called : updateCache sfs (sfs.files file).l2 (sfs.files file).dbIndirect = some (l2, next)) :
    next.files = sfs.files ∧ l2 ≠ 0 ∧ l2 < next.nextIno ∧ next.nextIno = sfs.nextIno + (if index = 0 then 1 else 0) ∧
      (∀ entry, next.cache l2 entry = 0 ↔ index ≤ sfsBlkNentry * entry) ∧
      ∀ entry < sfsBlkNentry, next.cache l2 entry ≠ 0 → next.cache l2 entry ≠ l2 := by
  have isZero : (sfs.files file).dbIndirect = 0 ↔ index = 0 := linked.double.trans (by omega)
  obtain ⟨counted, _⟩ := updateCache_hands called
  simp only [isZero] at counted
  rcases updateCache_cases called with ⟨nonzero, rfl, rfl⟩ | ⟨zero, rfl, sameFiles, cleared, _⟩
  · have isDouble : places next.cache (next.files file) .double = some (next.files file).dbIndirect :=
      pointer_nonzero nonzero
    refine ⟨rfl, nonzero, owns.inUse .double _ isDouble, counted, fun entry => ?_, fun entry small isTable same => ?_⟩
    · exact (linked.table nonzero entry).trans (by omega)
    · have isEntry : places next.cache (next.files file) (.table entry) = some (next.files file).dbIndirect := by
        simp only [places]
        rw [if_pos ⟨nonzero, small⟩, pointer_nonzero isTable, same]
      cases owns.once .double (.table entry) _ isDouble isEntry
  · have isFirst := isZero.mp zero
    rw [if_pos isFirst] at counted
    refine ⟨sameFiles, positive, by omega, by rw [counted, if_pos isFirst], fun entry => ?_, fun entry _ isTable => ?_⟩
    · rw [cleared, Function.update_self]
      exact iff_of_true rfl (by omega)
    · rw [cleared, Function.update_self] at isTable
      exact absurd rfl isTable

/-- A block named by the double indirect block is found there, or taken; the double indirect block stays. -/
theorem updateTable_linked {cached : Option Nat} {entry : Nat} (inUse : l2 < sfs.nextIno)
    (other : sfs.cache l2 entry ≠ 0 → sfs.cache l2 entry ≠ l2)
    (called : updateCache sfs cached (sfs.cache l2 entry) = some (l1, next)) :
    next.files = sfs.files ∧ l1 ≠ 0 ∧ l1 ≠ l2 ∧ next.cache l2 = sfs.cache l2 ∧
      (sfs.cache l2 entry ≠ 0 → l1 = sfs.cache l2 entry) := by
  rcases updateCache_cases called with ⟨nonzero, rfl, rfl⟩ | ⟨zero, rfl, sameFiles, cleared, _⟩
  · exact ⟨rfl, nonzero, other nonzero, rfl, fun _ => rfl⟩
  · refine ⟨sameFiles, by omega, by omega, ?_, fun nonzero => absurd zero nonzero⟩
    rw [cleared, Function.update_of_ne (by omega)]

/-- The pointers in blocks that the double indirect block names take such a block for every 1024 of them. -/
theorem appendDouble_linked (linked : Linked sfs.cache (sfs.files file) (sfsL1Nblks + index))
    (owns : Owns (places sfs.cache (sfs.files file)) (· < sfs.nextIno) frame) (positive : sfs.nextIno ≠ 0)
    (small : index < sfsBlkNentry * sfsBlkNentry) (called : appendDouble sfs file index ino = some next) :
    Linked next.cache (next.files file) (sfsL1Nblks + index + 1) ∧
      next.nextIno = sfs.nextIno + newTables (sfsL1Nblks + index) := by
  obtain ⟨direct, entries, single⟩ := regions
  simp only [appendDouble, Option.bind_eq_bind, Option.bind_eq_some_iff] at called
  obtain ⟨⟨l2, first⟩, updated, ⟨l1, second⟩, updated', isNext⟩ := called
  cases isNext
  obtain ⟨sameFiles, nonzero, inUse, counted, isTable, apart⟩ := updateDouble_linked linked owns positive updated
  have inTables : index / sfsBlkNentry < sfsBlkNentry := Nat.div_lt_of_lt_mul small
  obtain ⟨sameFiles', nonzero', different, sameTable, _⟩ :=
    @updateTable_linked (first.linkDouble file l2) _ l1 l2 _ _ inUse (apart _ inTables) updated'
  obtain ⟨counted', _⟩ := updateCache_hands updated'
  have here : ((second.linkTable file l2 (index / sfsBlkNentry) l1).setCache l1 (index % sfsBlkNentry) ino).files file =
      { sfs.files file with l1 := some l1, l2 := some l2, dbIndirect := l2 } := by
    simp [Image.linkTable, Image.linkDouble, Image.setFile, Image.setCache, sameFiles, sameFiles']
  have table : ((second.linkTable file l2 (index / sfsBlkNentry) l1).setCache l1 (index % sfsBlkNentry) ino).cache l2 =
      Function.update (first.cache l2) (index / sfsBlkNentry) l1 := by
    simp only [Image.linkTable, Image.setFile, Image.setCache]
    rw [Function.update_of_ne different.symm, Function.update_self, sameTable]
    rfl
  rw [here]
  constructor
  · constructor
    case indirect => exact linked.indirect.trans (by omega)
    case double => exact iff_of_false nonzero (by omega)
    case table =>
      intro _ entry
      rw [table]
      by_cases same : entry = index / sfsBlkNentry
      · rw [same, Function.update_self]
        refine iff_of_false nonzero' ?_
        have below := Nat.mul_div_le index sfsBlkNentry
        omega
      · rw [Function.update_of_ne same, isTable]
        rw [entries] at same ⊢
        omega
    case first => omega
    case later =>
      intro _
      have last : sfsL1Nblks + index + 1 - sfsL1Nblks - 1 = index := by omega
      rw [table, last, Function.update_self]
    case second => exact fun _ => rfl
  · refine counted'.trans ?_
    have isStart : (first.linkDouble file l2).cache l2 (index / sfsBlkNentry) = 0 ↔ index % sfsBlkNentry = 0 := by
      refine (isTable _).trans ?_
      rw [entries]
      omega
    simp only [isStart]
    rw [newTables_double, ← Nat.add_assoc, ← counted]
    rfl

end Double

/-! ## Appending a block -/

theorem appendPointer_linked (linked : Linked sfs.cache (sfs.files file) nblks)
    (owns : Owns (places sfs.cache (sfs.files file)) (· < sfs.nextIno) frame) (positive : sfs.nextIno ≠ 0)
    (small : nblks < sfsLnNblks) (called : appendPointer sfs file nblks ino = some next) :
    Linked next.cache (next.files file) (nblks + 1) ∧ next.nextIno = sfs.nextIno + newTables nblks := by
  have fits : nblks < sfsL2Nblks := Nat.lt_trans small (by decide)
  unfold appendPointer at called
  split at called
  · rename_i direct
    cases called
    rw [newTables_direct direct]
    refine ⟨?_, rfl⟩
    have here := linked.direct direct
      { (sfs.files file).din with direct := Function.update (sfs.files file).din.direct nblks ino } rfl
    simpa [Image.setFile] using here
  · rename_i notDirect
    split at called
    · rename_i upper
      exact appendIndirect_linked linked (Nat.le_of_not_lt notDirect) upper positive called
    · rename_i lower
      obtain ⟨index, rfl⟩ := Nat.exists_eq_add_of_le (Nat.le_of_not_lt lower)
      rw [Nat.add_sub_cancel_left] at called
      refine appendDouble_linked linked owns positive ?_ called
      simp only [sfsL2Nblks] at fits
      omega

/-- Only the bucket of 0 gets new blocks. -/
theorem appendPointer_hashed (called : appendPointer sfs file nblks ino = some next) {bucket : BitVec 32}
    (different : bucket ≠ hash32 0) : next.blocks bucket = sfs.blocks bucket := by
  unfold appendPointer at called
  split at called
  · cases called
    rfl
  · split at called
    · simp only [appendIndirect, Option.bind_eq_bind, Option.bind_eq_some_iff] at called
      obtain ⟨⟨block, middle⟩, updated, isNext⟩ := called
      cases isNext
      exact (updateCache_hands updated).2.2 bucket different
    · split at called
      · simp only [appendDouble, Option.bind_eq_bind, Option.bind_eq_some_iff] at called
        obtain ⟨⟨l2, first⟩, updated, ⟨l1, second⟩, updated', isNext⟩ := called
        cases isNext
        exact ((updateCache_hands updated').2.2 bucket different).trans ((updateCache_hands updated).2.2 bucket different)
      · cases called
        rfl

/-- The blocks that a step takes are the next ones, and a file has its block of pointers in mind again. -/
theorem Caching.appendData (caching : Caching sfs) (laid : Laid ninos sfs) (isFile : sfs.IsFile file)
    (called : appendData sfs file words size = some next) :
    Caching next ∧ next.nextIno = sfs.nextIno + 1 + newTables (sfs.files file).nblks := by
  obtain ⟨_, appends⟩ := laid.appendData isFile called
  have owns := laid.owned file
  rw [places_isFile isFile] at owns
  simp only [Mksfs.appendData, Option.bind_eq_bind, Option.bind_eq_some_iff] at called
  obtain ⟨⟨ino, allocated⟩, alloc, written, write, append⟩ := called
  obtain ⟨rfl, _, isAllocated⟩ := sfsAllocIno_cases alloc
  obtain ⟨_, isWritten⟩ := writeBlock_cases write
  have isTaken : written = sfs.take words := by
    rw [isWritten, isAllocated]
    rfl
  subst isTaken
  unfold appendBlock at append
  split at append
  · rename_i fits
    simp only [Option.bind_eq_bind, Option.bind_eq_some_iff] at append
    obtain ⟨middle, pointed, isNext⟩ := append
    have widened : Owns (places (sfs.take words).cache ((sfs.take words).files file))
        (· < (sfs.take words).nextIno) (others sfs.places file) :=
      owns.mono (fun _ _ names => names) fun block inUse => Nat.lt_succ_of_lt inUse
    obtain ⟨linked, counted⟩ := @appendPointer_linked (sfs.take words) _ _ _ _ _
      (caching.linked file isFile) widened (Nat.succ_ne_zero _) fits.2 pointed
    have sameNblks := (appendPointer_grows widened (Nat.succ_ne_zero _) pointed).1.history.nblks
    cases isNext
    refine ⟨⟨fun bucket different => ?_, fun other isOther => ?_⟩, counted⟩
    · exact (appendPointer_hashed pointed different).trans (caching.hashed bucket different)
    · by_cases same : other = file
      · subst same
        have here : (middle.setFile other ((middle.files other).append size sfs.nextIno)).files other =
            (middle.files other).append size sfs.nextIno := Function.update_self ..
        rw [here, show ((middle.files other).append size sfs.nextIno).nblks = (middle.files other).nblks + 1 from rfl,
          sameNblks]
        exact linked.congr rfl rfl rfl rfl fun _ => rfl
      · have wasFile : sfs.IsFile other := by
          rw [Image.IsFile, ← appends.fixed.1]
          exact isOther
        have old := caching.linked other wasFile
        rw [appends.elsewhere other same]
        refine old.congr rfl rfl rfl rfl fun nonzero => appends.framed _ ?_
        refine ⟨other, same, .double, ?_⟩
        rw [places_isFile wasFile]
        exact pointer_nonzero nonzero
  · cases append

/-- Names and links do not matter. -/
theorem Caching.links (caching : Caching sfs) (files : ∀ ino, SameButLinks (sfs.files ino) (next.files ino))
    (sameCache : next.cache = sfs.cache) (sameBlocks : next.blocks = sfs.blocks) (sameInodes : next.inodes = sfs.inodes) :
    Caching next where
  hashed := sameBlocks ▸ caching.hashed
  linked := by
    intro file isFile
    rw [Image.IsFile, sameInodes] at isFile
    obtain ⟨added, nlinks, same⟩ := files file
    rw [same, sameCache]
    exact (caching.linked file isFile).congr rfl rfl rfl rfl fun _ => rfl

theorem SameButLinks.setFile (same : SameButLinks (sfs.files file) fields) (ino : Nat) :
    SameButLinks (sfs.files ino) ((sfs.setFile file fields).files ino) := by
  by_cases isHere : ino = file
  · subst isHere
    rwa [show (sfs.setFile ino fields).files ino = fields from Function.update_self ..]
  · rw [show (sfs.setFile file fields).files ino = sfs.files ino from Function.update_of_ne isHere ..]
    exact ⟨_, _, rfl⟩

theorem SameButLinks.trans {third : CacheInode} (first : SameButLinks fields after) (second : SameButLinks after third) :
    SameButLinks fields third := by
  obtain ⟨_, _, rfl⟩ := first
  obtain ⟨added, nlinks, rfl⟩ := second
  exact ⟨added, nlinks, rfl⟩

theorem Caching.addEntry {current : Nat} {name : Name} (caching : Caching sfs) (laid : Laid ninos sfs)
    (isFile : sfs.IsFile current) (called : addEntry sfs current file name = some next) :
    Caching next ∧ next.nextIno = sfs.nextIno + 1 + newTables (sfs.files current).nblks ∧
      ∀ block, next.IsCached block ↔ sfs.IsCached block ∨ sfs.nextIno < block ∧ block < next.nextIno := by
  unfold Mksfs.addEntry at called
  split at called
  · simp only [Option.bind_eq_bind, Option.bind_eq_some_iff] at called
    obtain ⟨filled, append, isNext⟩ := called
    cases isNext
    have named : Laid ninos { sfs with entryName := copyName sfs.entryName name } :=
      laid.links (fun ino => ⟨_, _, rfl⟩) ⟨rfl, rfl, rfl, rfl, rfl, rfl, rfl⟩
    have namedCaching : Caching { sfs with entryName := copyName sfs.entryName name } :=
      caching.links (fun ino => ⟨_, _, rfl⟩) rfl rfl rfl
    obtain ⟨caching', counted⟩ := namedCaching.appendData named isFile append
    obtain ⟨_, appends⟩ := named.appendData isFile append
    have recorded : SameButLinks (filled.files current) { filled.files current with
        added := (filled.files current).added ++ [(name, (sfs.files file).ino)] } := ⟨_, _, rfl⟩
    refine ⟨caching'.links (fun ino => (recorded.setFile ino).trans ?_) rfl rfl rfl, counted, appends.cached⟩
    exact SameButLinks.setFile ⟨_, _, rfl⟩ ino
  · cases called

/-- A new inode has no blocks. -/
theorem Caching.newFile {real type : Nat} (caching : Caching sfs) (makes : Makes real type file sfs next) :
    Caching next where
  hashed := by
    rw [makes.fixed.2.2.1]
    exact caching.hashed
  linked := by
    intro other isOther
    by_cases same : other = file
    · rw [same, makes.here]
      exact Linked.empty rfl rfl
    · rw [makes.elsewhere other same, makes.fixed.2.1]
      exact caching.linked other (((makes.isFile other).mp isOther).resolve_right same)

/-- The blocks of pointers that are new are in the cache from then on. -/
def Grown (sfs next : Image) (file : Nat) : Prop :=
  next.nextIno = sfs.nextIno + 1 + newTables (sfs.files file).nblks ∧
    ∀ block, next.IsCached block ↔ sfs.IsCached block ∨ sfs.nextIno < block ∧ block < next.nextIno

/-- After a step that takes blocks of pointers all cached blocks have the hash of 0, if they had it before and
the new ones have it. -/
theorem Grown.hashes_iff (grown : Grown sfs next file) :
    (∀ block, next.IsCached block → hash32 block = hash32 0) ↔
      (∀ block, sfs.IsCached block → hash32 block = hash32 0) ∧ HashesToZero sfs file := by
  obtain ⟨counted, cached⟩ := grown
  constructor
  · intro hashes
    refine ⟨fun block was => hashes block ((cached block).mpr (Or.inl was)), fun index small => ?_⟩
    exact hashes _ ((cached _).mpr (Or.inr (by omega)))
  · rintro ⟨old, new⟩ block isCached
    rcases (cached block).mp isCached with was | ⟨lower, upper⟩
    · exact old block was
    · have isNew := new (block - (sfs.nextIno + 1)) (by omega)
      rwa [show sfs.nextIno + 1 + (block - (sfs.nextIno + 1)) = block by omega] at isNew

/-- One step of the builder: it puts new blocks of pointers in order, and says which. -/
theorem Caching.step {operation : ImageOperation} (caching : Caching sfs) (laid : Laid ninos sfs)
    (legal : ImageLegal sfs operation) (called : imageStep sfs operation = some next) :
    Caching next ∧ ((∀ block, next.IsCached block → hash32 block = hash32 0) ↔
      (∀ block, sfs.IsCached block → hash32 block = hash32 0) ∧ Findable sfs operation) := by
  cases operation with
  | newFile real type =>
    obtain ⟨⟨file, made⟩, alloc, rfl⟩ := Option.map_eq_some_iff.mp called
    have makes := allocCacheInode_makes alloc
    have same : ∀ block, made.IsCached block ↔ sfs.IsCached block := fun block => by
      rw [Image.IsCached, makes.fixed.2.2.1]
      rfl
    refine ⟨caching.newFile makes, ?_⟩
    simp only [same, Findable, and_true]
  | data file words size =>
    obtain ⟨caching', counted⟩ := caching.appendData laid legal.1 called
    obtain ⟨_, appends⟩ := laid.appendData legal.1 called
    exact ⟨caching', Grown.hashes_iff ⟨counted, appends.cached⟩⟩
  | entry current file name =>
    obtain ⟨caching', grown⟩ := caching.addEntry laid legal.1 called
    exact ⟨caching', Grown.hashes_iff grown⟩

/-- The last state of a run is in order, and its cached blocks have the hash of 0 when the run was findable. -/
theorem Caching.runs {operations : List ImageOperation} {last : Image} (caching : Caching sfs) (built : Built ninos sfs)
    (runs : Runs imageStep ImageLegal operations sfs last) :
    Caching last ∧ Built ninos last ∧ ((∀ block, last.IsCached block → hash32 block = hash32 0) ↔
      (∀ block, sfs.IsCached block → hash32 block = hash32 0) ∧
        Runs imageStep (fun state operation => ImageLegal state operation ∧ Findable state operation) operations sfs last) := by
  induction operations generalizing sfs with
  | nil =>
    obtain rfl := runs
    exact ⟨caching, built, ⟨fun hashes => ⟨hashes, rfl⟩, And.left⟩⟩
  | cons operation rest ih =>
    obtain ⟨legal, next, taken, remaining⟩ := runs
    obtain ⟨caching', hashes⟩ := caching.step built.toLaid legal taken
    obtain ⟨ended, builtLast, hashesLast⟩ := ih caching' (built_step operation built legal taken) remaining
    refine ⟨ended, builtLast, hashesLast.trans ⟨?_, ?_⟩⟩
    · rintro ⟨here, findable⟩
      obtain ⟨before, first⟩ := hashes.mp here
      exact ⟨before, ⟨legal, first⟩, next, taken, findable⟩
    · rintro ⟨before, ⟨_, first⟩, other, takenToo, findable⟩
      obtain rfl := Option.some.inj (taken.symm.trans takenToo)
      exact ⟨hashes.mpr ⟨before, first⟩, findable⟩

/-! ## The assertion -/

/-- Numbers that are handed out are behind the superblock. -/
theorem Laid.positive (laid : Laid ninos sfs) : sfs.nextIno ≠ 0 := by
  have behind : sfsBlknFreemap ≤ sfs.nextIno := Nat.le_trans (Nat.le_add_right _ _) laid.counts.1
  exact Nat.ne_of_gt (Nat.lt_of_lt_of_le (by decide) behind)

/-- A block that is needed again is the one remembered. -/
theorem Caching.asserts (caching : Caching sfs) (laid : Laid ninos sfs) (isFile : sfs.IsFile file) :
    AppendAsserts sfs file := by
  have linked := caching.linked file isFile
  have owns := laid.owned file
  rw [places_isFile isFile] at owns
  obtain ⟨direct, entries, single⟩ := regions
  constructor
  · intro lower upper nonzero different
    have used := mt linked.indirect.mpr nonzero
    exact absurd (linked.first (by omega) (Nat.le_of_lt upper)) different
  · intro lower
    obtain ⟨index, isIndex⟩ := Nat.exists_eq_add_of_le lower
    rw [isIndex] at linked
    constructor
    · intro nonzero different
      have used := mt linked.double.mpr nonzero
      exact absurd (linked.second (by omega)) different
    · intro l2 next called nonzero different
      have positive : sfs.nextIno ≠ 0 := laid.positive
      obtain ⟨sameFiles, _, _, _, isTable, _⟩ := updateDouble_linked linked owns positive called
      have inside := mt (isTable _).mpr nonzero
      rw [isIndex, Nat.add_sub_cancel_left, entries] at inside different
      have later := linked.later (by omega)
      have sameTable : (sfsL1Nblks + index - sfsL1Nblks - 1) / sfsBlkNentry = index / 1024 := by
        rw [entries]
        omega
      rcases updateCache_cases called with ⟨_, rfl, rfl⟩ | ⟨zero, _⟩
      · rw [sameTable] at later
        exact absurd (by simpa [Image.linkDouble, Image.setFile] using later) different
      · have unused := linked.double.mp zero
        omega

/-! ## The cache -/

/-- A new image has no cached blocks. -/
theorem createSfs_caching {size : Nat} {info : Nat → Nat} {disk : Nat → Block}
    (created : createSfs size info disk = some sfs) : Caching sfs := by
  have isNew := (createSfs_isNew created).1
  constructor
  case hashed =>
    intro bucket _
    simp only [createSfs] at created
    split at created
    · cases created
      rfl
    · cases created
  case linked =>
    intro file isFile
    rw [(isNew.isFile file).mp isFile, isNew.root]
    exact Linked.empty rfl rfl

/-- What the cache is for: blocks are found, and the assertion holds. -/
def CacheServes (sfs : Image) : Prop := Finds sfs ∧ ∀ file, sfs.IsFile file → AppendAsserts sfs file

/-- In a run of the builder all cached blocks are found exactly if those that its steps took have numbers with
the hash of 0; the assertion of `update_cache` holds in any case. -/
theorem block_cache_exact {size : Nat} {info : Nat → Nat} {disk : Nat → Block} {start last : Image}
    {operations : List ImageOperation} (created : createSfs size info disk = some start)
    (runs : Runs imageStep ImageLegal operations start last) :
    CacheServes last ↔
      Runs imageStep (fun state operation => ImageLegal state operation ∧ Findable state operation) operations start last := by
  obtain ⟨isNew, _⟩ := createSfs_isNew created
  obtain ⟨caching, built, hashes⟩ := (createSfs_caching created).runs isNew.built runs
  have noneCached : ∀ block, start.IsCached block → hash32 block = hash32 0 := fun block cached =>
    absurd cached (isNew.isCached block)
  have finds : Finds last ↔ _ := caching.finds_iff.trans (hashes.trans (and_iff_right noneCached))
  exact (and_iff_left fun file isFile => caching.asserts built.toLaid isFile).trans finds

/-! ## A file with a block of pointers -/

/-- Blocks for one file. -/
theorem Built.dataRuns {rounds : Nat} (built : Built ninos sfs) (isFile : sfs.IsFile file)
    (notDir : (sfs.files file).din.type ≠ typeDir)
    (ran : run imageStep (List.replicate rounds (.data file words size)) sfs = some next) :
    Runs imageStep ImageLegal (List.replicate rounds (.data file words size)) sfs next := by
  induction rounds generalizing sfs with
  | zero => exact Option.some.inj ran
  | succ rounds ih =>
    rw [List.replicate_succ, run, Option.bind_eq_some_iff] at ran
    obtain ⟨middle, taken, remaining⟩ := ran
    obtain ⟨after, appends⟩ := built.data isFile notDir taken
    have isFile' : middle.IsFile file := by
      rw [Image.IsFile, appends.fixed.1]
      exact isFile
    exact ⟨⟨isFile, notDir⟩, middle, taken, ih after isFile' (appends.type ▸ notDir) remaining⟩

/-- A new file in a new image of 20 blocks, and blocks for it. -/
theorem oneFile_runs {rounds : Nat} {start made last : Image} (created : createSfs 81920 (fun _ => 0) (fun _ _ => 0) = some start)
    (making : allocCacheInode start 7 0 typeFile = some (3, made))
    (ran : run imageStep (List.replicate rounds (.data 3 (fun _ => 1) 4096)) made = some last) :
    Runs imageStep ImageLegal (.newFile 7 typeFile :: List.replicate rounds (.data 3 (fun _ => 1) 4096)) start last := by
  have makes := allocCacheInode_makes making
  have notDir : (made.files 3).din.type ≠ typeDir := by
    rw [makes.here]
    decide
  have built := (createSfs_isNew created).1.built.newFile (Or.inl rfl) makes
  refine ⟨Or.inl rfl, made, ?_, built.dataRuns ((makes.isFile 3).mpr (Or.inr rfl)) notDir ran⟩
  rw [imageStep, making]
  rfl

/-- The first block of a file needs no block of pointers. -/
theorem block_cache_exact_direct : ∃ start last, createSfs 81920 (fun _ => 0) (fun _ _ => 0) = some start ∧
    Runs imageStep ImageLegal (.newFile 7 typeFile :: List.replicate 1 (.data 3 (fun _ => 1) 4096)) start last ∧
    CacheServes last := by
  obtain ⟨start, made, last, created, making, ran, noTables⟩ : ∃ start made last,
      createSfs 81920 (fun _ => 0) (fun _ _ => 0) = some start ∧ allocCacheInode start 7 0 typeFile = some (3, made) ∧
      run imageStep (List.replicate 1 (.data 3 (fun _ => 1) 4096)) made = some last ∧
      newTables (made.files 3).nblks = 0 := ⟨_, _, _, rfl, rfl, rfl, rfl⟩
  have runs := oneFile_runs created making ran
  refine ⟨start, last, created, runs, (block_cache_exact created runs).mpr ?_⟩
  obtain ⟨legal, next, stepped, legal', sfs, stepped', isLast⟩ := runs
  obtain rfl : made = next := by
    rw [imageStep, making] at stepped
    exact Option.some.inj stepped
  refine ⟨⟨legal, trivial⟩, made, stepped, ⟨legal', fun index inside => ?_⟩, sfs, stepped', isLast⟩
  rw [noTables] at inside
  exact absurd inside (Nat.not_lt_zero _)

/-- The block of pointers for the 13th block is block 17. It is in the bucket of 0, and 17 has another hash. -/
theorem block_17_lost : ∃ start last, createSfs 81920 (fun _ => 0) (fun _ _ => 0) = some start ∧
    Runs imageStep ImageLegal (.newFile 7 typeFile :: List.replicate 13 (.data 3 (fun _ => 1) 4096)) start last ∧
    last.IsCached 17 ∧ searchCacheBlock last 17 = none ∧ ¬ CacheServes last := by
  obtain ⟨start, made, last, created, making, ran, bucket, lost⟩ : ∃ start made last,
      createSfs 81920 (fun _ => 0) (fun _ _ => 0) = some start ∧ allocCacheInode start 7 0 typeFile = some (3, made) ∧
      run imageStep (List.replicate 13 (.data 3 (fun _ => 1) 4096)) made = some last ∧
      last.blocks 0 = [17] ∧ searchCacheBlock last 17 = none := ⟨_, _, _, rfl, rfl, rfl, rfl, rfl⟩
  have cached : last.IsCached 17 := ⟨0, by decide, bucket ▸ List.mem_singleton.mpr rfl⟩
  refine ⟨start, last, created, oneFile_runs created making ran, cached, lost, fun serves => ?_⟩
  have found := serves.1 17 cached
  rw [lost] at found
  cases found

end Ucore.Mksfs
