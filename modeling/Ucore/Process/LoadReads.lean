import Ucore.Process.LoadImage

/-!
# What is read of a file

`load_icode` does not look at the size of the file that it is given. It reads the fields of the
headers and the file ranges of the segments, wherever the file says that they are, until the file
is refused or the process is built.

A header is refused, or its segment fails an assertion, by what the headers say alone; only
memory may run out at any time, which refuses the file too.
-/

namespace Ucore.LoadIcode

open Vmm Paging

/-- Every byte of the read lies in the file. -/
def Read.Inside (binary size : BitVec 64) (read : Read) : Prop :=
  ∀ index < read.size, read.address + BitVec.ofNat 64 index - binary < size

/-- Whatever the kernel finds, the file is rejected with an error, or nothing outside of it is read. -/
def ReadsOnly (memory : BitVec 64 → Fin 256) (binary size : BitVec 64) : Prop :=
  ∀ (σ : Type) (machine : Machine σ),
    (∃ rounds ret, (loadIcode memory machine rounds binary size).1 = .error (.bad ret)) ∨
      ∀ rounds, ∀ read ∈ (loadIcode memory machine rounds binary size).2.reads, read.Inside binary size

/-! ## What the headers say -/

/-- What becomes of a header, with enough memory. -/
inductive Fate where
  | skipped
  | refused
  | asserts
  | fills (mm : Mm)

variable (memory : BitVec 64 → Fin 256)

def fate (mm : Mm) (ph : BitVec 64) : Fate :=
  if pType.get memory ph ≠ elfPtLoad then .skipped
  else if pMemsz.get memory ph < pFilesz.get memory ph then .refused
  else
    match mmMap true mm (pVa.get memory ph) (pMemsz.get memory ph) (segmentFlags (pFlags.get memory ph)) with
    | none => .asserts
    | some (.error _, _) => .refused
    | some (.ok _, mm) => .fills mm

/-- The fields of a header that are read before its segment is mapped. -/
def mapFields : List Field := [pType, pFilesz, pMemsz, pFlags, pVa]

def FieldsInside (binary size base : BitVec 64) (fields : List Field) : Prop :=
  ∀ field ∈ fields, Read.Inside binary size ⟨base + field.offset, field.size⟩

/-- The end of the file range is in the last page of the address space: the copy goes round the address space. -/
def Endless (ph : BitVec 64) : Prop :=
  2 ^ 64 < (pVa.get memory ph).toNat + (pFilesz.get memory ph).toNat + Paging.pgsize ∧
    (pVa.get memory ph).toNat + (pFilesz.get memory ph).toNat < 2 ^ 64

/-- The segment wraps around, and its file range ends in the middle of a page: the zeros leave the page. -/
def Overruns (ph : BitVec 64) : Prop :=
  ¬ Fits memory ph ∧ 0 < (pFilesz.get memory ph).toNat ∧
    (pVa.get memory ph).toNat + (pFilesz.get memory ph).toNat < 2 ^ 64 ∧
    ((pVa.get memory ph).toNat + (pFilesz.get memory ph).toNat) % Paging.pgsize ≠ 0

/-- The bytes that are copied: none when the end of the file range wraps around. -/
def copied (ph : BitVec 64) : Nat :=
  if (pVa.get memory ph).toNat + (pFilesz.get memory ph).toNat < 2 ^ 64 then (pFilesz.get memory ph).toNat else 0

/-- `mm_map` refuses the stack. -/
def StackRefused (mm : Mm) : Prop :=
  ∃ ret after, mmMap true mm (ustackTop - ustackSize) ustackSize (vmRead ||| vmWrite ||| vmStack) = some (.error ret, after)

/-- One of the headers that the loop comes to is refused, or the stack is. -/
def Refused : Mm → List (BitVec 64) → Prop
  | mm, [] => StackRefused mm
  | mm, ph :: rest =>
      match fate memory mm ph with
      | .skipped => Refused mm rest
      | .refused => True
      | .asserts => False
      | .fills mm => ¬ Endless memory ph ∧ ¬ Overruns memory ph ∧ Refused mm rest

/-- What is read of the headers that the loop comes to, and of their file ranges, lies in the file. -/
def HeadersInside (binary size : BitVec 64) : Mm → List (BitVec 64) → Prop
  | _, [] => True
  | mm, ph :: rest =>
      match fate memory mm ph with
      | .skipped => FieldsInside binary size ph [pType] ∧ HeadersInside binary size mm rest
      | .refused => True
      | .asserts => FieldsInside binary size ph mapFields
      | .fills mm =>
          FieldsInside binary size ph (mapFields ++ [pOffset]) ∧ ¬ Endless memory ph ∧
            Read.Inside binary size ⟨binary + pOffset.get memory ph, copied memory ph⟩ ∧
            (¬ Overruns memory ph → HeadersInside binary size mm rest)

/-! ## The loops over pages -/

variable {memory} {σ : Type} {pgdirAllocPage : σ → BitVec 64 → BitVec 10 → Option Nat × σ} {vmaCreate : Nat → Bool}
variable {binary size ph : BitVec 64} {s next : Loading σ} {mm : Mm} {vma : Vma} {pos after : Position} {stop : BitVec 64}
variable {rounds : Nat}

/-- A page was asked for in vain. -/
def NoPage (pgdirAllocPage : σ → BitVec 64 → BitVec 10 → Option Nat × σ) : Prop :=
  ∃ space la perm, (pgdirAllocPage space la perm).1 = none

/-- The reads lie in the first bytes from a place on. -/
def Within (source : Option (BitVec 64)) (length : Nat) (reads : List Read) : Prop :=
  ∀ read ∈ reads, ∃ base offset, source = some base ∧ read.address = base + BitVec.ofNat 64 offset ∧
    offset + read.size ≤ length

/-- The reads cover all of these bytes. -/
def Covers (source : Option (BitVec 64)) (length : Nat) (reads : List Read) : Prop :=
  ∀ base, source = some base → ∀ index < length, ∃ read ∈ reads, ∃ offset ≤ index, index < offset + read.size ∧
    read.address = base + BitVec.ofNat 64 offset

/-- What a part of the function reads, and how it ends. -/
structure Copies (pgdirAllocPage : σ → BitVec 64 → BitVec 10 → Option Nat × σ) (source : Option (BitVec 64))
    (length rounds : Nat) (s : Loading σ) (result : Result σ Position) : Prop where
  mm : result.2.mm = s.mm
  reads : ∃ more, result.2.reads = s.reads ++ more ∧ Within source length more ∧
    (result.1.isOk = true → Covers source length more)
  ends : result.1.isOk = true ∨ NoPage pgdirAllocPage ∧ result.1 = .error (.bad (-eNoMem)) ∨
    rounds < length ∧ result.1 = .error .runs

theorem Copies.refl {source : Option (BitVec 64)} (pos : Position) :
    Copies pgdirAllocPage source 0 rounds s (.ok pos, s) where
  mm := rfl
  reads := ⟨[], (List.append_nil _).symm, fun _ member => absurd member List.not_mem_nil, fun _ _ _ _ impossible => by omega⟩
  ends := Or.inl rfl

theorem offset_add (base part : BitVec 64) (offset : Nat) :
    base + part + BitVec.ofNat 64 offset = base + BitVec.ofNat 64 (part.toNat + offset) := by
  rw [BitVec.add_assoc]
  congr 1
  apply BitVec.eq_of_toNat_eq
  rw [BitVec.toNat_add, BitVec.toNat_ofNat, BitVec.toNat_ofNat]
  omega

/-- A round, and the rounds behind it. -/
theorem Fills.copies {page : Nat} {result : Result σ Position}
    (fills : Fills pgdirAllocPage memory vma stop page pos s after next) (before : pos.start < stop)
    (further : pos.start.toNat < after.start.toNat)
    (copies : Copies pgdirAllocPage after.source (stop.toNat - after.start.toNat) rounds next result) :
    Copies pgdirAllocPage pos.source (stop.toNat - pos.start.toNat) (rounds + 1) s result where
  mm := copies.mm.trans fills.mm
  reads := by
    obtain ⟨more, isReads, within, covers⟩ := copies.reads
    have part : (after.start - pos.start).toNat = after.start.toNat - pos.start.toNat :=
      BitVec.toNat_sub_of_le (BitVec.le_def.mpr (Nat.le_of_lt further))
    have upper := fills.start
    rw [BitVec.lt_def] at before
    refine ⟨_, by rw [isReads, fills.reads, List.append_assoc], ?_, ?_⟩
    · intro read member
      rcases List.mem_append.mp member with isFirst | isLater
      · obtain ⟨base, isSource, rfl⟩ := List.mem_map.mp isFirst
        refine ⟨base, 0, Option.mem_toList.mp isSource, (BitVec.add_zero base).symm, ?_⟩
        simp only [part]
        omega
      · obtain ⟨base, offset, isSource, isAddress, inside⟩ := within read isLater
        rw [fills.source, Option.map_eq_some_iff] at isSource
        obtain ⟨first, isFirst, rfl⟩ := isSource
        refine ⟨first, (after.start - pos.start).toNat + offset, isFirst, ?_, by omega⟩
        rw [isAddress, offset_add]
    · intro ended base isSource index inside
      by_cases early : index < after.start.toNat - pos.start.toNat
      · refine ⟨⟨base, (after.start - pos.start).toNat⟩, ?_, 0, Nat.zero_le _, ?_, (BitVec.add_zero base).symm⟩
        · rw [isSource]
          exact List.mem_append_left _ List.mem_cons_self
        · simp only [part]
          omega
      · have isAfter : after.source = some (base + (after.start - pos.start)) := by
          rw [fills.source, isSource]
          rfl
        obtain ⟨read, member, offset, lower, upper, isAddress⟩ :=
          covers ended _ isAfter (index - (after.start.toNat - pos.start.toNat)) (by omega)
        refine ⟨read, List.mem_append_right _ member, (after.start - pos.start).toNat + offset, by omega, by omega, ?_⟩
        rw [isAddress, offset_add]
  ends := by
    rcases copies.ends with ended | noPage | ⟨few, running⟩
    · exact Or.inl ended
    · exact Or.inr (Or.inl noPage)
    · exact Or.inr (Or.inr ⟨by omega, running⟩)

/-- A loop over pages reads the bytes that it copies. -/
theorem fillLoop_copies (regular : pos.Regular stop) (rounds : Nat) (s : Loading σ) :
    Copies pgdirAllocPage pos.source (stop.toNat - pos.start.toNat) rounds s
      (fillLoop pgdirAllocPage memory vma stop rounds pos s) := by
  have done : ∀ {rounds pos} {s : Loading σ}, ¬ pos.start < stop →
      Copies pgdirAllocPage pos.source (stop.toNat - pos.start.toNat) rounds s (.ok pos, s) := by
    intro rounds pos s ended
    rw [BitVec.lt_def] at ended
    rw [Nat.sub_eq_zero_of_le (by omega)]
    exact .refl pos
  induction rounds generalizing pos s with
  | zero =>
    unfold fillLoop
    split
    · rename_i before
      rw [BitVec.lt_def] at before
      constructor
      case mm => rfl
      case reads =>
        exact ⟨[], (List.append_nil _).symm, fun _ member => absurd member List.not_mem_nil,
          fun impossible => absurd impossible Bool.false_ne_true⟩
      case ends => exact Or.inr (Or.inr ⟨by omega, rfl⟩)
    · rename_i ended
      exact done ended
  | succ rounds ih =>
    unfold fillLoop
    split
    · rename_i before
      rcases @fillRound_cases _ pgdirAllocPage memory s vma pos stop regular before with
        ⟨space, answer, failed⟩ | ⟨page, after, next, filled, fills⟩
      · rw [failed]
        constructor
        case mm => rfl
        case reads =>
          exact ⟨[], (List.append_nil _).symm, fun _ member => absurd member List.not_mem_nil,
            fun impossible => absurd impossible Bool.false_ne_true⟩
        case ends => exact Or.inr (Or.inl ⟨⟨_, _, _, congrArg Prod.fst answer⟩, rfl⟩)
      · rw [filled]
        have near := regular.near before
        have isStart := fills.start
        have isBefore := BitVec.lt_def.mp before
        exact fills.copies before (by omega) (ih (fills.regular regular) next)
    · rename_i ended
      exact done ended

/-- What a part of the function leaves as it is. -/
structure Quiet (s : Loading σ) (result : Result σ Position) : Prop where
  mm : result.2.mm = s.mm
  reads : result.2.reads = s.reads

theorem Quiet.refl (outcome : Except Stop Position) : Quiet s (outcome, s) := ⟨rfl, rfl⟩

/-- Parts in sequence. -/
theorem Quiet.andThen {result : Result σ Position} {rest : Position → Loading σ → Result σ Position} (first : Quiet s result)
    (second : ∀ pos, result.1 = .ok pos → Quiet result.2 (rest pos result.2)) : Quiet s (result.andThen rest) := by
  obtain ⟨outcome, next⟩ := result
  cases outcome with
  | error stop => exact first
  | ok pos => exact ⟨(second pos rfl).mm.trans first.mm, (second pos rfl).reads.trans first.reads⟩

/-- A part that ends with an error only when a page was asked for in vain. -/
def BadWithout {α : Type} (pgdirAllocPage : σ → BitVec 64 → BitVec 10 → Option Nat × σ) (result : Result σ α) : Prop :=
  ∀ ret, result.1 = .error (.bad ret) → NoPage pgdirAllocPage

theorem BadWithout.andThen {α β : Type} {result : Result σ α} {rest : α → Loading σ → Result σ β}
    (first : BadWithout pgdirAllocPage result)
    (second : ∀ value s, BadWithout pgdirAllocPage (rest value s)) : BadWithout pgdirAllocPage (result.andThen rest) := by
  obtain ⟨outcome, next⟩ := result
  cases outcome with
  | error stop =>
    intro ret bad
    cases bad
    exact first ret rfl
  | ok value => exact second value next

theorem fillRound_bad (pos : Position) (s : Loading σ) :
    BadWithout pgdirAllocPage (fillRound pgdirAllocPage memory vma stop pos s) := by
  intro ret bad
  unfold fillRound at bad
  split at bad
  · rename_i space answer
    exact ⟨_, _, _, congrArg Prod.fst answer⟩
  · dsimp only at bad
    split at bad <;> cases bad

theorem fillLoop_bad (rounds : Nat) (pos : Position) (s : Loading σ) :
    BadWithout pgdirAllocPage (fillLoop pgdirAllocPage memory vma stop rounds pos s) := by
  induction rounds generalizing pos s with
  | zero =>
    intro ret bad
    unfold fillLoop at bad
    split at bad <;> cases bad
  | succ rounds ih =>
    unfold fillLoop
    split
    · exact (fillRound_bad pos s).andThen ih
    · intro ret bad
      cases bad

theorem clearRest_bad (pos : Position) (s : Loading σ) : BadWithout pgdirAllocPage (clearRest stop pos s) := by
  intro ret bad
  unfold clearRest at bad
  dsimp only at bad
  split at bad
  · split at bad
    · cases bad
    · split at bad
      · cases bad
      · split at bad <;> cases bad
  · cases bad

/-- Nothing is read for zeros. -/
theorem fillRound_quiet (zeros : pos.source = none) (s : Loading σ) :
    Quiet s (fillRound pgdirAllocPage memory vma stop pos s) ∧
      ∀ after, (fillRound pgdirAllocPage memory vma stop pos s).1 = .ok after → after.source = none := by
  unfold fillRound
  split
  · exact ⟨⟨rfl, rfl⟩, fun after impossible => (nomatch impossible)⟩
  · dsimp only
    generalize partSize (pos.start - pos.la) stop (pos.la + Vmm.pgsize) = size
    rw [zeros]
    split
    · exact ⟨⟨rfl, List.append_nil _⟩, fun after impossible => (nomatch impossible)⟩
    · refine ⟨⟨rfl, List.append_nil _⟩, fun after same => ?_⟩
      cases same
      rfl

theorem fillLoop_quiet (rounds : Nat) (zeros : pos.source = none) (s : Loading σ) :
    Quiet s (fillLoop pgdirAllocPage memory vma stop rounds pos s) := by
  induction rounds generalizing pos s with
  | zero =>
    unfold fillLoop
    split <;> exact .refl _
  | succ rounds ih =>
    unfold fillLoop
    split
    · obtain ⟨quiet, still⟩ := @fillRound_quiet memory σ pgdirAllocPage vma pos stop zeros s
      exact quiet.andThen fun after ended => ih (still after ended) _
    · exact .refl _

theorem clearRest_quiet (pos : Position) (s : Loading σ) : Quiet s (clearRest stop pos s) := by
  unfold clearRest
  dsimp only
  split
  · split
    · exact .refl _
    · split
      · exact .refl _
      · split <;> exact ⟨rfl, rfl⟩
  · exact .refl _

/-! ## Segments -/

variable {va filesz memsz source : BitVec 64}

/-- The loop that copies the file range. -/
def copyLoop (pgdirAllocPage : σ → BitVec 64 → BitVec 10 → Option Nat × σ) (memory : BitVec 64 → Fin 256) (rounds : Nat)
    (vma : Vma) (va filesz source : BitVec 64) (s : Loading σ) : Result σ Position :=
  fillLoop pgdirAllocPage memory vma (va + filesz) rounds ⟨va, roundDown va, none, some source⟩ s

/-- Only the loop that copies reads. -/
theorem fillSegment_quiet (rounds : Nat) (vma : Vma) (va filesz memsz source : BitVec 64) (s : Loading σ) :
    Quiet (copyLoop pgdirAllocPage memory rounds vma va filesz source s).2
      (fillSegment pgdirAllocPage memory rounds vma va filesz memsz source s) := by
  unfold fillSegment
  apply Quiet.andThen
  · unfold copyLoop
    cases fillLoop pgdirAllocPage memory vma (va + filesz) rounds ⟨va, roundDown va, none, some source⟩ s with
    | mk outcome next =>
      cases outcome with
      | error stop => exact .refl _
      | ok pos => exact clearRest_quiet pos next
  · exact fun pos _ => fillLoop_quiet rounds rfl _

theorem fillSegment_bad (rounds : Nat) (vma : Vma) (va filesz memsz source : BitVec 64) (s : Loading σ) :
    BadWithout pgdirAllocPage (fillSegment pgdirAllocPage memory rounds vma va filesz memsz source s) := by
  unfold fillSegment
  apply BadWithout.andThen
  · exact (fillLoop_bad rounds _ s).andThen clearRest_bad
  · exact fun pos s => fillLoop_bad rounds _ s

/-- `mm_map` accepts the range of the segment. -/
def Accepted (va memsz : BitVec 64) : Prop := UserAccess (roundDown va) (roundUp (va + memsz))

theorem Accepted.low (accepted : Accepted va memsz) : va.toNat < 0x80000000 := by
  obtain ⟨_, nonempty, top⟩ := accepted
  have page := roundDown_toNat va
  have isTop : userTop.toNat = 0x80000000 := rfl
  rw [BitVec.lt_def] at nonempty
  rw [BitVec.le_def] at top
  omega

theorem Accepted.fits (accepted : Accepted va memsz) (fits : va.toNat + memsz.toNat < 2 ^ 64) :
    va.toNat + memsz.toNat ≤ 0x80000000 := by
  obtain ⟨_, isEnd⟩ := round_exact fits accepted
  have isTop : userTop.toNat = 0x80000000 := rfl
  have top := accepted.2.2
  rw [BitVec.le_def] at top
  omega

/-- The sizes of a file range whose copy comes to an end. -/
structure Range (va filesz memsz : BitVec 64) : Prop where
  accepted : Accepted va memsz
  part : filesz.toNat ≤ memsz.toNat
  ends : ¬ (2 ^ 64 < va.toNat + filesz.toNat + Paging.pgsize ∧ va.toNat + filesz.toNat < 2 ^ 64)

theorem Range.regular (range : Range va filesz memsz) :
    Position.Regular ⟨va, roundDown va, none, some source⟩ (va + filesz) := by
  have low := range.accepted.low
  have ends := range.ends
  apply start_regular
  simp only [Paging.pgsize] at ends ⊢
  rw [BitVec.toNat_add]
  omega

/-- The copy reads the file range. -/
theorem Range.copies (range : Range va filesz memsz) (rounds : Nat) (s : Loading σ) :
    Copies pgdirAllocPage (some source) (if va.toNat + filesz.toNat < 2 ^ 64 then filesz.toNat else 0) rounds s
      (copyLoop pgdirAllocPage memory rounds vma va filesz source s) := by
  have low := range.accepted.low
  have length : (va + filesz).toNat - va.toNat = if va.toNat + filesz.toNat < 2 ^ 64 then filesz.toNat else 0 := by
    rw [BitVec.toNat_add]
    split <;> omega
  rw [← length]
  exact fillLoop_copies range.regular rounds s

/-- A loop that has nothing to do. -/
theorem fillLoop_done (ended : ¬ pos.start < stop) (rounds : Nat) (s : Loading σ) :
    fillLoop pgdirAllocPage memory vma stop rounds pos s = (.ok pos, s) := by
  cases rounds with
  | zero => exact if_neg ended
  | succ rounds => exact if_neg ended

/-- The end of the copy: nothing has been copied, or the place behind the file range is in the last page or at its end. -/
theorem Range.copied (range : Range va filesz memsz)
    (ran : copyLoop pgdirAllocPage memory rounds vma va filesz source s = (.ok pos, next)) :
    pos.Placed ∧ pos.Paged ∧ pos.start.toNat = max va.toNat (va + filesz).toNat ∧
      (pos.la.toNat ≤ pos.start.toNat ∨ va.toNat < (va + filesz).toNat ∧ pos.start.toNat < pos.la.toNat) ∧
      (va.toNat < (va + filesz).toNat → pos.start.toNat ≤ pos.la.toNat) := by
  have moves := fillLoop_moves range.regular start_placed ran
  have start := moves.start
  have ahead := moves.ahead
  simp only at start ahead
  refine ⟨moves.placed, moves.paged start_paged, start, ?_, fun before => ahead (by omega)⟩
  by_cases before : va < va + filesz
  · rw [BitVec.lt_def] at before
    omega
  · unfold copyLoop at ran
    rw [fillLoop_done before] at ran
    cases ran
    have page := roundDown_toNat va
    left
    simp only [page]
    omega

/-- The zeros of a segment that does not wrap around. -/
theorem clear_ends (placed : pos.Placed) (paged : pos.Paged) (further : pos.start.toNat ≤ stop.toNat)
    (small : stop.toNat ≤ 0x80000000) (enough : 2 ^ 64 ≤ rounds) (s : Loading σ) :
    let result := (clearRest stop pos s).andThen fun pos =>
      fillLoop pgdirAllocPage memory vma stop rounds { pos with source := none }
    result.1.isOk = true ∨ ∃ ret, result.1 = .error (.bad ret) := by
  have near := placed.near
  have within := placed.within
  have size : Paging.pgsize = 4096 := rfl
  have ends : ∀ {pos' : Position} {s' : Loading σ}, pos'.Regular stop →
      (fillLoop pgdirAllocPage memory vma stop rounds pos' s').1.isOk = true ∨
        ∃ ret, (fillLoop pgdirAllocPage memory vma stop rounds pos' s').1 = .error (.bad ret) := by
    intro pos' s' regular
    rcases (@fillLoop_copies memory σ pgdirAllocPage vma pos' stop regular rounds s').ends with
      ended | ⟨_, bad⟩ | ⟨few, _⟩
    · exact Or.inl ended
    · exact Or.inr ⟨_, bad⟩
    · omega
  intro result
  rcases clearRest_exact placed paged further s with
    ⟨none, ended⟩ | ⟨page, off, part, bytes, inside, isPage, isOff, isStart, isSize, filled, cleared⟩
  · have isResult : result = fillLoop pgdirAllocPage memory vma stop rounds { pos with source := Option.none } s := by
      simp only [result, none, andThen_ok]
    rw [isResult]
    apply ends
    rw [← BitVec.toNat_inj] at ended
    constructor
    case small => omega
    case lower =>
      intro before
      simp only [BitVec.lt_def] at before ⊢
      omega
    case near =>
      intro before
      simp only
      omega
  · have isResult : result = fillLoop pgdirAllocPage memory vma stop rounds
        { pos with start := pos.start + part, source := Option.none } { s with bytes } := by
      simp only [result, cleared, andThen_ok]
    rw [isResult]
    apply ends
    constructor
    case small => omega
    case lower =>
      intro before
      simp only [BitVec.lt_def] at before ⊢
      omega
    case near =>
      intro before
      simp only
      omega

/-- Zeros behind a place that is already behind their end leave the page. -/
theorem clearRest_panics (placed : pos.Placed) (inside : pos.start.toNat < pos.la.toNat)
    (behind : stop.toNat < pos.start.toNat) (s : Loading σ) : clearRest stop pos s = (.error .panics, s) := by
  have near := placed.near
  have aligned := placed.aligned
  have la := pos.la.isLt
  have size : Paging.pgsize = 4096 := rfl
  have different : pos.start ≠ stop := by
    rintro rfl
    omega
  have off : (pos.start + Vmm.pgsize - pos.la).toNat = pos.start.toNat + 4096 - pos.la.toNat := by
    simp only [Paging.pgsize, Vmm.pgsize] at near ⊢
    bv_omega
  have early : stop < pos.la := by
    rw [BitVec.lt_def]
    omega
  have long : (partSize (pos.start + Vmm.pgsize - pos.la) stop pos.la).toNat =
      2 ^ 64 - (pos.start.toNat - stop.toNat) := by
    rw [partSize, if_pos early]
    simp only [Vmm.pgsize] at off ⊢
    bv_omega
  have leaves : ∀ page, fill s.bytes page (pos.start + Vmm.pgsize - pos.la)
      (partSize (pos.start + Vmm.pgsize - pos.la) stop pos.la) (fun _ => 0) = none := by
    intro page
    apply if_neg
    rw [off, long]
    rw [size] at aligned ⊢
    omega
  unfold clearRest
  rw [if_pos (BitVec.lt_def.mpr inside), if_neg different]
  simp only [leaves, Option.bind_fun_none]

/-- The copy, and the zeros behind it. -/
theorem fillSegment_eq (rounds : Nat) (vma : Vma) (va filesz memsz source : BitVec 64) (s : Loading σ) :
    fillSegment pgdirAllocPage memory rounds vma va filesz memsz source s =
      (copyLoop pgdirAllocPage memory rounds vma va filesz source s).andThen fun pos s =>
        (clearRest (va + memsz) pos s).andThen fun pos =>
          fillLoop pgdirAllocPage memory vma (va + memsz) rounds { pos with source := none } := by
  unfold fillSegment copyLoop
  cases fillLoop pgdirAllocPage memory vma (va + filesz) rounds ⟨va, roundDown va, none, some source⟩ s with
  | mk outcome next => cases outcome <;> rfl

/-- A segment that wraps around ends below its start. -/
theorem Range.wrapped (range : Range va filesz memsz) (wraps : ¬ va.toNat + memsz.toNat < 2 ^ 64) :
    (va + memsz).toNat < va.toNat := by
  have low := range.accepted.low
  have top := memsz.isLt
  rw [BitVec.toNat_add]
  omega

/-- A segment is filled to its end, or memory runs out. -/
theorem Range.fills (range : Range va filesz memsz) (enough : 2 ^ 64 ≤ rounds)
    (whole : va.toNat + memsz.toNat < 2 ^ 64 ∨ (va.toNat < (va + filesz).toNat → (va + filesz).toNat % Paging.pgsize = 0))
    (s : Loading σ) :
    (fillSegment pgdirAllocPage memory rounds vma va filesz memsz source s).1.isOk = true ∨
      ∃ ret, (fillSegment pgdirAllocPage memory rounds vma va filesz memsz source s).1 = .error (.bad ret) := by
  have low := range.accepted.low
  have part := range.part
  rw [fillSegment_eq]
  have ends := (@Range.copies memory σ pgdirAllocPage vma va filesz memsz source range rounds s).ends
  cases isCopy : copyLoop pgdirAllocPage memory rounds vma va filesz source s with
  | mk outcome next =>
    rw [isCopy] at ends
    cases outcome with
    | error stop =>
      rcases ends with impossible | ⟨_, bad⟩ | ⟨few, _⟩
      · cases impossible
      · cases bad
        exact Or.inr ⟨_, rfl⟩
      · have small := filesz.isLt
        split at few <;> omega
    | ok pos =>
      obtain ⟨placed, paged, isStart, inLast, ahead⟩ := range.copied isCopy
      rw [andThen_ok]
      by_cases fits : va.toNat + memsz.toNat < 2 ^ 64
      · have small := range.accepted.fits fits
        have memEnd : (va + memsz).toNat = va.toNat + memsz.toNat := by
          rw [BitVec.toNat_add]
          omega
        have fileEnd : (va + filesz).toNat = va.toNat + filesz.toNat := by
          rw [BitVec.toNat_add]
          omega
        exact clear_ends placed paged (by omega) (by omega) enough next
      · have wrapped := range.wrapped fits
        have aligned := placed.aligned
        have near := placed.near
        have whole := whole.resolve_left fits
        have atEnd : ¬ pos.start < pos.la := by
          rw [BitVec.lt_def]
          simp only [Paging.pgsize] at whole aligned near
          omega
        have cleared : clearRest (va + memsz) pos next = (.ok pos, next) := by
          unfold clearRest
          exact if_neg atEnd
        have ended : ¬ ({ pos with source := none } : Position).start < va + memsz := by
          rw [BitVec.lt_def]
          simp only
          omega
        rw [cleared, andThen_ok, fillLoop_done ended]
        exact Or.inl rfl

/-- A segment that overruns its last page is not filled to its end. -/
theorem Range.overruns (range : Range va filesz memsz) (wraps : ¬ va.toNat + memsz.toNat < 2 ^ 64)
    (before : va.toNat < (va + filesz).toNat) (inside : (va + filesz).toNat % Paging.pgsize ≠ 0) (s : Loading σ) :
    (fillSegment pgdirAllocPage memory rounds vma va filesz memsz source s).1.isOk = false := by
  rw [fillSegment_eq]
  cases isCopy : copyLoop pgdirAllocPage memory rounds vma va filesz source s with
  | mk outcome next =>
    cases outcome with
    | error stop => rfl
    | ok pos =>
      obtain ⟨placed, paged, isStart, inLast, ahead⟩ := range.copied isCopy
      have wrapped := range.wrapped wraps
      have aligned := placed.aligned
      have notEnd : pos.start.toNat ≠ pos.la.toNat := by
        intro same
        rw [isStart, Nat.max_eq_right (Nat.le_of_lt before)] at same
        exact inside (same ▸ aligned)
      have ahead := ahead before
      rw [andThen_ok, clearRest_panics placed (by omega) (by omega) next]
      rfl

/-! ## Copies that do not end -/

/-- The place before a round of a copy that goes round the address space. -/
structure Position.Endless (pos : Position) (stop : BitVec 64) : Prop where
  aligned : pos.la.toNat % Paging.pgsize = 0
  lower : pos.la.toNat ≤ pos.start.toNat
  near : pos.start.toNat < pos.la.toNat + Paging.pgsize
  top : 2 ^ 64 < stop.toNat + Paging.pgsize
  before : pos.start < stop

/-- A round fills the rest of the page, and comes to the next one. -/
theorem Position.Endless.round (endless : pos.Endless stop) (found : ¬ NoPage pgdirAllocPage) (s : Loading σ) :
    ∃ after next, fillRound pgdirAllocPage memory vma stop pos s = (.ok after, next) ∧ after.Endless stop ∧
      after.start = after.la ∧ after.la = pos.la + Vmm.pgsize ∧
      after.source = pos.source.map (· + (after.start - pos.start)) ∧
      next.reads = s.reads ++ pos.source.toList.map fun source => ⟨source, (after.start - pos.start).toNat⟩ := by
  have aligned := endless.aligned
  have lower := endless.lower
  have near := endless.near
  have top := endless.top
  have before := endless.before
  have size : Paging.pgsize = 4096 := rfl
  have last := pos.la.isLt
  have stopTop := stop.isLt
  rw [size] at aligned near top
  rw [BitVec.lt_def] at before
  have isLa : (pos.la + Vmm.pgsize).toNat = (pos.la.toNat + 4096) % 2 ^ 64 := BitVec.toNat_add _ _
  have notEarly : ¬ stop < pos.la + Vmm.pgsize := by
    rw [BitVec.lt_def, isLa]
    omega
  have off : (pos.start - pos.la).toNat = pos.start.toNat - pos.la.toNat :=
    BitVec.toNat_sub_of_le (BitVec.le_def.mpr lower)
  have part : partSize (pos.start - pos.la) stop (pos.la + Vmm.pgsize) = Vmm.pgsize - (pos.start - pos.la) := if_neg notEarly
  have isStart : pos.start + (Vmm.pgsize - (pos.start - pos.la)) = pos.la + Vmm.pgsize := by
    simp only [Vmm.pgsize]
    bv_omega
  have isPart : pos.la + Vmm.pgsize - pos.start = Vmm.pgsize - (pos.start - pos.la) := by
    simp only [Vmm.pgsize]
    bv_omega
  have length : (Vmm.pgsize - (pos.start - pos.la)).toNat = 4096 - (pos.start.toNat - pos.la.toNat) := by
    simp only [Vmm.pgsize]
    bv_omega
  cases answer : pgdirAllocPage s.space pos.la (segmentPerm vma.vmFlags) with
  | mk result space =>
    cases result with
    | none => exact absurd ⟨_, _, _, congrArg Prod.fst answer⟩ found
    | some page =>
      obtain ⟨bytes, filled⟩ : ∃ bytes, fill s.bytes page (pos.start - pos.la) (Vmm.pgsize - (pos.start - pos.la))
          (sourceBytes memory pos.source) = some bytes := by
        refine ⟨_, if_pos ?_⟩
        rw [off, length, size]
        omega
      refine ⟨⟨pos.la + Vmm.pgsize, pos.la + Vmm.pgsize, some page,
          pos.source.map (· + (Vmm.pgsize - (pos.start - pos.la)))⟩,
        { mm := s.mm
          space := space
          bytes := bytes
          reads := s.reads ++ pos.source.toList.map fun source => ⟨source, (Vmm.pgsize - (pos.start - pos.la)).toNat⟩
          touched := s.touched ++ [⟨vma, pos.la⟩] }, ?_, ?_, rfl, rfl, ?_, ?_⟩
      · simp only [fillRound, answer, part, filled, isStart]
      · constructor
        case aligned =>
          rw [isLa, size]
          omega
        case lower => exact Nat.le_refl _
        case near =>
          simp only [size]
          omega
        case top =>
          rw [size]
          exact top
        case before =>
          simp only [BitVec.lt_def, isLa]
          omega
      · simp only [isPart]
      · simp only [isPart]

/-- A copy that goes round the address space is still running. -/
theorem Position.Endless.running (endless : pos.Endless stop) (found : ¬ NoPage pgdirAllocPage) (rounds : Nat)
    (s : Loading σ) : (fillLoop pgdirAllocPage memory vma stop rounds pos s).1 = .error .runs := by
  induction rounds generalizing pos s with
  | zero =>
    rw [fillLoop, if_pos endless.before]
  | succ rounds ih =>
    obtain ⟨after, next, round, goesOn, _⟩ :=
      @Position.Endless.round memory σ pgdirAllocPage vma pos stop endless found s
    rw [fillLoop, if_pos endless.before, round, andThen_ok]
    exact ih goesOn next

/-- The reads of a loop come behind those before it. -/
theorem fillLoop_extends (rounds : Nat) (pos : Position) (s : Loading σ) :
    s.reads <+: (fillLoop pgdirAllocPage memory vma stop rounds pos s).2.reads := by
  induction rounds generalizing pos s with
  | zero =>
    unfold fillLoop
    split <;> exact List.prefix_refl _
  | succ rounds ih =>
    unfold fillLoop
    split
    · have first : s.reads <+: (fillRound pgdirAllocPage memory vma stop pos s).2.reads := by
        unfold fillRound
        split
        · exact List.prefix_refl _
        · dsimp only
          split <;> exact List.prefix_append _ _
      generalize fillRound pgdirAllocPage memory vma stop pos s = result at first
      obtain ⟨outcome, next⟩ := result
      cases outcome with
      | error stop => exact first
      | ok after => exact first.trans (ih after next)
    · exact List.prefix_refl _

/-- From the start of a page on, every page from there on is read in its round. -/
theorem Position.Endless.pages {base : BitVec 64} (endless : pos.Endless stop) (found : ¬ NoPage pgdirAllocPage)
    (atPage : pos.start = pos.la) (isSource : pos.source = some base) (count : Nat) (enough : count < rounds) (s : Loading σ) :
    ∃ read ∈ (fillLoop pgdirAllocPage memory vma stop rounds pos s).2.reads,
      read.address = base + BitVec.ofNat 64 (4096 * count) ∧ read.size = 4096 := by
  induction count generalizing rounds pos base s with
  | zero =>
    obtain ⟨rounds, rfl⟩ := Nat.exists_eq_succ_of_ne_zero (Nat.pos_iff_ne_zero.mp enough)
    obtain ⟨after, next, round, _, atNext, isLa, _, isReads⟩ :=
      @Position.Endless.round memory σ pgdirAllocPage vma pos stop endless found s
    have part : (after.start - pos.start).toNat = 4096 := by
      rw [atNext, isLa, atPage, BitVec.add_comm, BitVec.add_sub_cancel]
      rfl
    rw [isSource, part] at isReads
    refine ⟨⟨base, 4096⟩, ?_, (BitVec.add_zero base).symm, rfl⟩
    rw [fillLoop, if_pos endless.before, round, andThen_ok]
    apply (fillLoop_extends rounds after next).subset
    rw [isReads]
    exact List.mem_append_right _ List.mem_cons_self
  | succ count ih =>
    obtain ⟨rounds, rfl⟩ := Nat.exists_eq_succ_of_ne_zero (Nat.ne_zero_of_lt enough)
    obtain ⟨after, next, round, goesOn, atNext, isLa, isAfter, _⟩ :=
      @Position.Endless.round memory σ pgdirAllocPage vma pos stop endless found s
    have part : after.start - pos.start = Vmm.pgsize := by
      rw [atNext, isLa, atPage, BitVec.add_comm, BitVec.add_sub_cancel]
    rw [isSource, part] at isAfter
    obtain ⟨read, member, isAddress, isSize⟩ := ih goesOn atNext isAfter (Nat.lt_of_succ_lt_succ enough) next
    refine ⟨read, ?_, ?_, isSize⟩
    · rw [fillLoop, if_pos endless.before, round, andThen_ok]
      exact member
    · have size : Vmm.pgsize.toNat = 4096 := rfl
      rw [isAddress, offset_add, size, Nat.mul_succ, Nat.add_comm]

/-- A copy that goes round the address space reads outside of every file. -/
theorem Position.Endless.leaves {base : BitVec 64} (endless : pos.Endless stop) (found : ¬ NoPage pgdirAllocPage)
    (isSource : pos.source = some base) (enough : 2 ^ 64 ≤ rounds) (s : Loading σ) :
    ∃ read ∈ (fillLoop pgdirAllocPage memory vma stop rounds pos s).2.reads, ¬ read.Inside binary size := by
  obtain ⟨rounds, rfl⟩ := Nat.exists_eq_succ_of_ne_zero (show rounds ≠ 0 by omega)
  obtain ⟨after, next, round, goesOn, atNext, _, isAfter, _⟩ :=
    @Position.Endless.round memory σ pgdirAllocPage vma pos stop endless found s
  rw [isSource] at isAfter
  -- the byte behind the file
  let part := (binary + size - (base + (after.start - pos.start))).toNat
  have small : part < 2 ^ 64 := BitVec.isLt _
  obtain ⟨read, member, isAddress, isSize⟩ := @Position.Endless.pages memory σ pgdirAllocPage vma after stop rounds _ goesOn
    found atNext isAfter (part / 4096) (by omega) next
  refine ⟨read, ?_, fun inside => ?_⟩
  · rw [fillLoop, if_pos endless.before, round, andThen_ok]
    exact member
  · have here := inside (part % 4096) (by rw [isSize]; omega)
    have address : read.address + BitVec.ofNat 64 (part % 4096) = binary + size := by
      rw [isAddress, BitVec.add_assoc, ← BitVec.ofNat_add, Nat.div_add_mod, BitVec.ofNat_toNat, BitVec.setWidth_eq,
        BitVec.add_comm, BitVec.sub_add_cancel]
    rw [address, BitVec.add_comm, BitVec.add_sub_cancel, BitVec.lt_def] at here
    exact Nat.lt_irrefl _ here

/-! ## Reads and bytes -/

/-- A part of a range inside of the file lies there too. -/
theorem Within.inside {base : BitVec 64} {length : Nat} {reads : List Read} (within : Within (some base) length reads)
    (inside : Read.Inside binary size ⟨base, length⟩) : ∀ read ∈ reads, read.Inside binary size := by
  intro read member index early
  obtain ⟨first, offset, isBase, isAddress, whole⟩ := within read member
  cases isBase
  rw [isAddress, BitVec.add_assoc, ← BitVec.ofNat_add]
  exact inside (offset + index) (by simp only; omega)

/-- A range is inside of the file when the reads that cover it are. -/
theorem Covers.inside {base : BitVec 64} {length : Nat} {reads : List Read} (covers : Covers (some base) length reads)
    (inside : ∀ read ∈ reads, read.Inside binary size) : Read.Inside binary size ⟨base, length⟩ := by
  intro index early
  obtain ⟨read, member, offset, lower, upper, isAddress⟩ := covers base rfl index early
  have here := inside read member (index - offset) (by omega)
  rwa [isAddress, BitVec.add_assoc, ← BitVec.ofNat_add, Nat.add_sub_of_le lower] at here

/-- The reads of some fields. -/
def fieldReads (base : BitVec 64) (fields : List Field) : List Read :=
  fields.map fun field => ⟨base + field.offset, field.size⟩

theorem fieldReads_inside {base : BitVec 64} {fields : List Field} :
    (∀ read ∈ fieldReads base fields, read.Inside binary size) ↔ FieldsInside binary size base fields := by
  simp only [fieldReads, List.mem_map, forall_exists_index, and_imp, forall_apply_eq_imp_iff₂]
  rfl

/-! ## One header -/

/-- Without memory `mm_map` refuses a range, and it refuses what it refuses with memory. -/
theorem mmMap_noMemory (mm : Mm) (addr len : BitVec 64) (vmFlags : BitVec 32) :
    ∃ ret after, mmMap false mm addr len vmFlags = some (.error ret, after) := by
  unfold mmMap
  split
  · split
    split
    · exact ⟨_, _, rfl⟩
    · exact ⟨_, _, rfl⟩
  · exact ⟨_, _, rfl⟩

theorem mmMap_refuses {addr len : BitVec 64} {vmFlags : BitVec 32} {ret : Int} {after : Mm}
    (refused : mmMap true mm addr len vmFlags = some (.error ret, after)) (created : Bool) :
    ∃ ret after, mmMap created mm addr len vmFlags = some (.error ret, after) := by
  cases created with
  | false => exact mmMap_noMemory mm addr len vmFlags
  | true => exact ⟨ret, after, refused⟩

/-- A header whose segment is filled. -/
theorem fate_fills {after : Mm} (isFate : fate memory mm ph = .fills after) :
    Loads memory ph ∧ (pFilesz.get memory ph).toNat ≤ (pMemsz.get memory ph).toNat ∧ ∃ vma,
      mmMap true mm (pVa.get memory ph) (pMemsz.get memory ph) (segmentFlags (pFlags.get memory ph)) =
        some (.ok vma, after) := by
  unfold fate at isFate
  split at isFate
  · cases isFate
  · rename_i loads
    split at isFate
    · cases isFate
    · rename_i part
      rw [BitVec.lt_def, Nat.not_lt] at part
      split at isFate
      · cases isFate
      · cases isFate
      · rename_i vma _ mapped
        cases isFate
        exact ⟨not_not.mp loads, part, vma, mapped⟩

/-- `mm_map` accepts what it maps. -/
theorem mmMap_accepted {addr len : BitVec 64} {vmFlags : BitVec 32} {created : Bool} {vma : Vma} {after : Mm}
    (mapped : mmMap created mm addr len vmFlags = some (.ok vma, after)) : Accepted addr len := by
  unfold mmMap at mapped
  split at mapped
  · assumption
  · cases mapped

theorem loadSegment_skipped (isFate : fate memory s.mm ph = .skipped) :
    loadSegment pgdirAllocPage vmaCreate memory rounds binary ph s = (.ok (), s.access ph [pType]) := by
  unfold fate at isFate
  split at isFate
  · rename_i other
    exact if_pos other
  · split at isFate
    · cases isFate
    · split at isFate <;> cases isFate

theorem loadSegment_refused (isFate : fate memory s.mm ph = .refused) :
    ∃ ret next, loadSegment pgdirAllocPage vmaCreate memory rounds binary ph s = (.error (.bad ret), next) := by
  unfold fate at isFate
  split at isFate
  · cases isFate
  · rename_i loads
    unfold loadSegment
    dsimp only
    rw [if_neg loads]
    split at isFate
    · rename_i part
      rw [if_pos part]
      exact ⟨_, _, rfl⟩
    · rename_i part
      rw [if_neg part]
      split at isFate
      · cases isFate
      · rename_i refused
        obtain ⟨ret, after, refused⟩ := mmMap_refuses refused (vmaCreate s.mm.mapCount)
        simp only [Loading.access, refused]
        exact ⟨_, _, rfl⟩
      · cases isFate

/-- The reads of a header come one after the other. -/
theorem access_reads (s : Loading σ) (ph : BitVec 64) :
    ((((s.access ph [pType]).access ph [pFilesz, pMemsz]).access ph [pFlags, pVa]).reads =
      s.reads ++ fieldReads ph mapFields) := by
  simp only [Loading.access, fieldReads, mapFields, List.append_assoc]
  rfl

theorem loadSegment_asserts (isFate : fate memory s.mm ph = .asserts) :
    ∃ stop next, loadSegment pgdirAllocPage vmaCreate memory rounds binary ph s = (.error stop, next) ∧
      next.reads = s.reads ++ fieldReads ph mapFields ∧ (stop = .panics ∨ vmaCreate s.mm.mapCount = false) := by
  unfold fate at isFate
  split at isFate
  · cases isFate
  · rename_i loads
    split at isFate
    · cases isFate
    · rename_i part
      split at isFate
      · rename_i panics
        unfold loadSegment
        dsimp only
        rw [if_neg loads, if_neg part]
        cases created : vmaCreate s.mm.mapCount with
        | false =>
          obtain ⟨ret, after, refused⟩ := mmMap_noMemory s.mm (pVa.get memory ph) (pMemsz.get memory ph)
            (segmentFlags (pFlags.get memory ph))
          simp only [Loading.access, created, refused]
          exact ⟨_, _, rfl, access_reads s ph, Or.inr trivial⟩
        | true =>
          simp only [Loading.access, created, panics]
          exact ⟨_, _, rfl, access_reads s ph, Or.inl rfl⟩
      · cases isFate
      · cases isFate

/-- A header whose segment is filled, if there is memory for its area. -/
theorem loadSegment_fills (isFate : fate memory s.mm ph = .fills mm) :
    (vmaCreate s.mm.mapCount = false ∧ ∃ ret next,
      loadSegment pgdirAllocPage vmaCreate memory rounds binary ph s = (.error (.bad ret), next) ∧
        next.reads = s.reads ++ fieldReads ph mapFields) ∨
    ∃ vma accessed, accessed.mm = mm ∧ accessed.reads = s.reads ++ fieldReads ph (mapFields ++ [pOffset]) ∧
      loadSegment pgdirAllocPage vmaCreate memory rounds binary ph s =
        (fillSegment pgdirAllocPage memory rounds vma (pVa.get memory ph) (pFilesz.get memory ph) (pMemsz.get memory ph)
          (binary + pOffset.get memory ph) accessed).andThen fun _ s => (.ok (), s) := by
  obtain ⟨loads, part, vma, mapped⟩ := fate_fills isFate
  have part : ¬ pMemsz.get memory ph < pFilesz.get memory ph := by
    rw [BitVec.lt_def]
    omega
  have loads : ¬ pType.get memory ph ≠ elfPtLoad := not_not.mpr loads
  unfold loadSegment
  dsimp only
  rw [if_neg loads, if_neg part]
  cases created : vmaCreate s.mm.mapCount with
  | false =>
    obtain ⟨ret, after, refused⟩ := mmMap_noMemory s.mm (pVa.get memory ph) (pMemsz.get memory ph)
      (segmentFlags (pFlags.get memory ph))
    simp only [Loading.access, created, refused]
    exact Or.inl ⟨trivial, _, _, rfl, access_reads s ph⟩
  | true =>
    right
    refine ⟨vma, ({ s with mm, reads := s.reads ++ fieldReads ph mapFields } : Loading σ).access ph [pOffset], rfl, ?_, ?_⟩
    · simp only [Loading.access, fieldReads, List.map_append, List.append_assoc]
    · simp only [Loading.access, created, mapped, fieldReads, mapFields, List.append_assoc]
      rfl

/-! ## The stack -/

theorem stackPages_quiet (pages : List (BitVec 64)) (s : Loading σ) :
    (stackPages pgdirAllocPage pages s).2.reads = s.reads ∧
      ∀ ret, (stackPages pgdirAllocPage pages s).1 ≠ .error (.bad ret) := by
  induction pages generalizing s with
  | nil => exact ⟨rfl, fun ret impossible => (nomatch impossible)⟩
  | cons la rest ih =>
    unfold stackPages
    split
    · exact ⟨rfl, fun ret impossible => (nomatch impossible)⟩
    · exact ih _

theorem mapStack_reads (s : Loading σ) : (mapStack pgdirAllocPage vmaCreate s).2.reads = s.reads := by
  unfold mapStack
  split
  · rfl
  · rfl
  · exact (stackPages_quiet _ _).1

theorem mapStack_refused (refused : StackRefused s.mm) :
    ∃ ret, (mapStack pgdirAllocPage vmaCreate s).1 = .error (.bad ret) := by
  obtain ⟨_, _, refused⟩ := refused
  obtain ⟨ret, after, refused⟩ := mmMap_refuses refused (vmaCreate s.mm.mapCount)
  unfold mapStack
  rw [refused]
  exact ⟨ret, rfl⟩

theorem mapStack_bad {ret : Int} (created : ∀ areas, vmaCreate areas = true)
    (bad : (mapStack pgdirAllocPage vmaCreate s).1 = .error (.bad ret)) : StackRefused s.mm := by
  unfold mapStack at bad
  rw [created] at bad
  split at bad
  · cases bad
  · rename_i refused
    exact ⟨_, _, refused⟩
  · exact absurd bad ((stackPages_quiet _ _).2 ret)

/-! ## All headers -/

/-- What follows on the header of the file: the program headers, and the stack. -/
def loadRest (pgdirAllocPage : σ → BitVec 64 → BitVec 10 → Option Nat × σ) (vmaCreate : Nat → Bool)
    (memory : BitVec 64 → Fin 256) (rounds : Nat) (binary : BitVec 64) (headers : List (BitVec 64)) (s : Loading σ) :
    Result σ Unit :=
  (loadHeaders pgdirAllocPage vmaCreate memory rounds binary headers s).andThen fun _ => mapStack pgdirAllocPage vmaCreate

theorem loadRest_cons (headers : List (BitVec 64)) (s : Loading σ) :
    loadRest pgdirAllocPage vmaCreate memory rounds binary (ph :: headers) s =
      (loadSegment pgdirAllocPage vmaCreate memory rounds binary ph s).andThen fun _ =>
        loadRest pgdirAllocPage vmaCreate memory rounds binary headers := by
  unfold loadRest
  rw [loadHeaders]
  cases loadSegment pgdirAllocPage vmaCreate memory rounds binary ph s with
  | mk outcome next => cases outcome <;> rfl

variable {headers : List (BitVec 64)}

/-- The sizes of the file range of a header that is filled. -/
theorem fate_range {after : Mm} (isFate : fate memory mm ph = .fills after) (ends : ¬ Endless memory ph) :
    Range (pVa.get memory ph) (pFilesz.get memory ph) (pMemsz.get memory ph) := by
  obtain ⟨_, part, vma, mapped⟩ := fate_fills isFate
  exact ⟨mmMap_accepted mapped, part, ends⟩

/-- What is filled without an overrun. -/
theorem whole_of_not_overruns (range : Range (pVa.get memory ph) (pFilesz.get memory ph) (pMemsz.get memory ph))
    (whole : ¬ Overruns memory ph) :
    (pVa.get memory ph).toNat + (pMemsz.get memory ph).toNat < 2 ^ 64 ∨
      ((pVa.get memory ph).toNat < (pVa.get memory ph + pFilesz.get memory ph).toNat →
        (pVa.get memory ph + pFilesz.get memory ph).toNat % Paging.pgsize = 0) := by
  have low := range.accepted.low
  unfold Overruns Fits at whole
  by_cases fits : (pVa.get memory ph).toNat + (pMemsz.get memory ph).toNat < 2 ^ 64
  · exact Or.inl fits
  · right
    intro before
    by_contra inside
    rw [BitVec.toNat_add] at before inside
    have small := (pFilesz.get memory ph).isLt
    have file : (pVa.get memory ph).toNat + (pFilesz.get memory ph).toNat < 2 ^ 64 := by omega
    rw [Nat.mod_eq_of_lt file] at before inside
    exact whole ⟨fits, by omega, file, inside⟩

/-- A header whose segment is filled, if there is memory for its area, and the headers behind it. -/
theorem loadRest_fills (isFate : fate memory s.mm ph = .fills mm) (headers : List (BitVec 64)) :
    (vmaCreate s.mm.mapCount = false ∧ ∃ ret next,
      loadRest pgdirAllocPage vmaCreate memory rounds binary (ph :: headers) s = (.error (.bad ret), next) ∧
        next.reads = s.reads ++ fieldReads ph mapFields) ∨
    ∃ vma accessed, accessed.mm = mm ∧ accessed.reads = s.reads ++ fieldReads ph (mapFields ++ [pOffset]) ∧
      loadRest pgdirAllocPage vmaCreate memory rounds binary (ph :: headers) s =
        (fillSegment pgdirAllocPage memory rounds vma (pVa.get memory ph) (pFilesz.get memory ph) (pMemsz.get memory ph)
          (binary + pOffset.get memory ph) accessed).andThen fun _ =>
            loadRest pgdirAllocPage vmaCreate memory rounds binary headers := by
  rw [loadRest_cons]
  rcases @loadSegment_fills memory σ pgdirAllocPage vmaCreate binary ph s mm rounds isFate with
    ⟨noMemory, ret, next, isResult, isReads⟩ | ⟨vma, accessed, isMm, isReads, isResult⟩
  · rw [isResult]
    exact Or.inl ⟨noMemory, ret, next, rfl, isReads⟩
  · rw [isResult]
    refine Or.inr ⟨vma, accessed, isMm, isReads, ?_⟩
    cases fillSegment pgdirAllocPage memory rounds vma (pVa.get memory ph) (pFilesz.get memory ph) (pMemsz.get memory ph)
      (binary + pOffset.get memory ph) accessed with
    | mk outcome next => cases outcome <;> rfl

/-- A segment keeps the areas, and reads what its copy reads. -/
theorem Range.segment (range : Range va filesz memsz) (rounds : Nat) (vma : Vma) (source : BitVec 64) (s : Loading σ) :
    (fillSegment pgdirAllocPage memory rounds vma va filesz memsz source s).2.mm = s.mm ∧
      ∃ more, (fillSegment pgdirAllocPage memory rounds vma va filesz memsz source s).2.reads = s.reads ++ more ∧
        Within (some source) (if va.toNat + filesz.toNat < 2 ^ 64 then filesz.toNat else 0) more ∧
        (2 ^ 64 ≤ rounds → ¬ NoPage pgdirAllocPage →
          Covers (some source) (if va.toNat + filesz.toNat < 2 ^ 64 then filesz.toNat else 0) more) := by
  have quiet := @fillSegment_quiet memory σ pgdirAllocPage rounds vma va filesz memsz source s
  have copies := @Range.copies memory σ pgdirAllocPage vma va filesz memsz source range rounds s
  obtain ⟨more, isReads, within, covers⟩ := copies.reads
  refine ⟨quiet.mm.trans copies.mm, more, quiet.reads.trans isReads, within, fun enough found => covers ?_⟩
  rcases copies.ends with ended | ⟨noPage, _⟩ | ⟨few, _⟩
  · exact ended
  · exact absurd noPage found
  · have small := filesz.isLt
    split at few <;> omega

/-- A segment that overruns its last page is not filled to its end. -/
theorem Overruns.stops (overruns : Overruns memory ph)
    (range : Range (pVa.get memory ph) (pFilesz.get memory ph) (pMemsz.get memory ph)) (source : BitVec 64) (s : Loading σ) :
    (fillSegment pgdirAllocPage memory rounds vma (pVa.get memory ph) (pFilesz.get memory ph) (pMemsz.get memory ph)
      source s).1.isOk = false := by
  obtain ⟨wraps, positive, file, inside⟩ := overruns
  have fileEnd : (pVa.get memory ph + pFilesz.get memory ph).toNat =
      (pVa.get memory ph).toNat + (pFilesz.get memory ph).toNat := by
    rw [BitVec.toNat_add]
    exact Nat.mod_eq_of_lt file
  exact range.overruns wraps (by omega) (by rwa [fileEnd]) s

/-- A file that is not refused for its headers, and whose parts lie inside, is read inside only. -/
theorem loadRest_inside (inside : HeadersInside memory binary size s.mm headers) (passes : ¬ Refused memory s.mm headers)
    (before : ∀ read ∈ s.reads, read.Inside binary size) :
    ∀ read ∈ (loadRest pgdirAllocPage vmaCreate memory rounds binary headers s).2.reads, read.Inside binary size := by
  have joined : ∀ {reads more : List Read}, (∀ read ∈ reads, read.Inside binary size) →
      (∀ read ∈ more, read.Inside binary size) → ∀ read ∈ reads ++ more, read.Inside binary size :=
    fun first second read member => (List.mem_append.mp member).elim (first read) (second read)
  induction headers generalizing s with
  | nil =>
    have same : (loadRest pgdirAllocPage vmaCreate memory rounds binary [] s).2.reads = s.reads := mapStack_reads s
    rw [same]
    exact before
  | cons ph rest ih =>
    unfold HeadersInside at inside
    unfold Refused at passes
    cases isFate : fate memory s.mm ph with
    | skipped =>
      rw [isFate] at inside passes
      obtain ⟨fields, inside⟩ := inside
      rw [loadRest_cons, loadSegment_skipped isFate, andThen_ok]
      exact ih inside passes (joined before (fieldReads_inside.mpr fields))
    | refused =>
      rw [isFate] at passes
      exact absurd trivial passes
    | asserts =>
      rw [isFate] at inside
      obtain ⟨stop, next, isResult, isReads, _⟩ := loadSegment_asserts isFate
      rw [loadRest_cons, isResult, andThen_error, isReads]
      exact joined before (fieldReads_inside.mpr inside)
    | fills mm =>
      rw [isFate] at inside passes
      obtain ⟨fields, ends, file, inside⟩ := inside
      have range := fate_range isFate ends
      rcases loadRest_fills isFate rest with ⟨_, ret, next, isResult, isReads⟩ | ⟨vma, accessed, rfl, isReads, isResult⟩
      · rw [isResult, isReads]
        apply joined before
        exact fieldReads_inside.mpr fun field member => fields field (List.mem_append_left _ member)
      · obtain ⟨sameMm, more, isMore, within, _⟩ :=
          @Range.segment memory σ pgdirAllocPage _ _ _ range rounds vma (binary + pOffset.get memory ph) accessed
        rw [isReads] at isMore
        have segment := joined (joined before (fieldReads_inside.mpr fields)) (within.inside file)
        rw [← isMore] at segment
        rw [isResult]
        cases filled : fillSegment pgdirAllocPage memory rounds vma (pVa.get memory ph) (pFilesz.get memory ph)
            (pMemsz.get memory ph) (binary + pOffset.get memory ph) accessed with
        | mk outcome next =>
          rw [filled] at segment sameMm
          cases outcome with
          | error stop => exact segment
          | ok pos =>
            have whole : ¬ Overruns memory ph := by
              intro overruns
              have stops := @Overruns.stops memory σ pgdirAllocPage ph vma rounds overruns range
                (binary + pOffset.get memory ph) accessed
              rw [filled] at stops
              cases stops
            rw [← sameMm] at inside passes
            exact ih (inside whole) (fun refused => passes ⟨ends, whole, refused⟩) segment

/-- A file that is refused for its headers is rejected. -/
theorem loadRest_refused (refused : Refused memory s.mm headers) (enough : 2 ^ 64 ≤ rounds) :
    ∃ ret, (loadRest pgdirAllocPage vmaCreate memory rounds binary headers s).1 = .error (.bad ret) := by
  induction headers generalizing s with
  | nil => exact mapStack_refused refused
  | cons ph rest ih =>
    unfold Refused at refused
    cases isFate : fate memory s.mm ph with
    | skipped =>
      rw [isFate] at refused
      rw [loadRest_cons, loadSegment_skipped isFate, andThen_ok]
      exact ih refused
    | refused =>
      obtain ⟨ret, next, isResult⟩ := loadSegment_refused isFate
      rw [loadRest_cons, isResult]
      exact ⟨ret, rfl⟩
    | asserts =>
      rw [isFate] at refused
      exact absurd refused id
    | fills mm =>
      rw [isFate] at refused
      obtain ⟨ends, whole, refused⟩ := refused
      have range := fate_range isFate ends
      rcases loadRest_fills isFate rest with ⟨_, ret, next, isResult, _⟩ | ⟨vma, accessed, rfl, _, isResult⟩
      · rw [isResult]
        exact ⟨ret, rfl⟩
      · have fills := @Range.fills memory σ pgdirAllocPage vma rounds _ _ _ (binary + pOffset.get memory ph) range enough
          (whole_of_not_overruns range whole) accessed
        have sameMm := (@Range.segment memory σ pgdirAllocPage _ _ _ range rounds vma (binary + pOffset.get memory ph)
          accessed).1
        rw [isResult]
        cases filled : fillSegment pgdirAllocPage memory rounds vma (pVa.get memory ph) (pFilesz.get memory ph)
            (pMemsz.get memory ph) (binary + pOffset.get memory ph) accessed with
        | mk outcome next =>
          rw [filled] at fills sameMm
          cases outcome with
          | error stop =>
            obtain ⟨ret, bad⟩ := fills.resolve_left (fun impossible => nomatch impossible)
            cases bad
            exact ⟨ret, rfl⟩
          | ok pos =>
            rw [← sameMm] at refused
            exact ih refused

/-- The copy of a segment whose file range ends in the last page. -/
theorem Endless.start (endless : Endless memory ph)
    (accepted : Accepted (pVa.get memory ph) (pMemsz.get memory ph)) {source : Option (BitVec 64)} :
    Position.Endless ⟨pVa.get memory ph, roundDown (pVa.get memory ph), none, source⟩
      (pVa.get memory ph + pFilesz.get memory ph) := by
  obtain ⟨last, file⟩ := endless
  have low := accepted.low
  have size : Paging.pgsize = 4096 := rfl
  have fileEnd : (pVa.get memory ph + pFilesz.get memory ph).toNat =
      (pVa.get memory ph).toNat + (pFilesz.get memory ph).toNat := by
    rw [BitVec.toNat_add]
    exact Nat.mod_eq_of_lt file
  have placed := @start_placed (pVa.get memory ph) source
  have page := roundDown_toNat (pVa.get memory ph)
  constructor
  case aligned => exact placed.aligned
  case lower =>
    simp only [page]
    omega
  case near => exact placed.within
  case top => omega
  case before =>
    simp only [BitVec.lt_def]
    omega

/-- Such a segment is not filled to its end, and its copy reads outside of every file. -/
theorem Endless.stops (endless : Endless memory ph) (accepted : Accepted (pVa.get memory ph) (pMemsz.get memory ph))
    (found : ¬ NoPage pgdirAllocPage) (source : BitVec 64) (s : Loading σ) :
    (fillSegment pgdirAllocPage memory rounds vma (pVa.get memory ph) (pFilesz.get memory ph) (pMemsz.get memory ph)
      source s).1.isOk = false := by
  rw [fillSegment_eq]
  have running := @Position.Endless.running memory σ pgdirAllocPage vma _ _
    (@Endless.start memory ph endless accepted (some source)) found rounds s
  cases isCopy : copyLoop pgdirAllocPage memory rounds vma (pVa.get memory ph) (pFilesz.get memory ph) source s with
  | mk outcome next =>
    have isRunning : outcome = .error .runs := by
      rw [← running]
      exact (congrArg Prod.fst isCopy).symm
    rw [isRunning]
    rfl

theorem Endless.leaves (endless : Endless memory ph) (accepted : Accepted (pVa.get memory ph) (pMemsz.get memory ph))
    (found : ¬ NoPage pgdirAllocPage) (enough : 2 ^ 64 ≤ rounds) (source : BitVec 64) (s : Loading σ) :
    ∃ read ∈ (fillSegment pgdirAllocPage memory rounds vma (pVa.get memory ph) (pFilesz.get memory ph)
      (pMemsz.get memory ph) source s).2.reads, ¬ read.Inside binary size := by
  rw [(fillSegment_quiet rounds vma _ _ _ source s).reads]
  exact (endless.start accepted).leaves found rfl enough s

/-- With enough memory only a file that is refused for its headers is rejected. -/
theorem loadRest_bad {ret : Int} (found : ¬ NoPage pgdirAllocPage) (created : ∀ areas, vmaCreate areas = true)
    (bad : (loadRest pgdirAllocPage vmaCreate memory rounds binary headers s).1 = .error (.bad ret)) :
    Refused memory s.mm headers := by
  induction headers generalizing s with
  | nil => exact mapStack_bad created bad
  | cons ph rest ih =>
    unfold Refused
    cases isFate : fate memory s.mm ph with
    | skipped =>
      rw [loadRest_cons, loadSegment_skipped isFate, andThen_ok] at bad
      exact @ih (s.access ph [pType]) bad
    | refused => trivial
    | asserts =>
      obtain ⟨stop, next, isResult, _, panics⟩ := loadSegment_asserts isFate
      rw [loadRest_cons, isResult] at bad
      cases bad
      rcases panics with impossible | noMemory
      · cases impossible
      · rw [created] at noMemory
        cases noMemory
    | fills mm =>
      obtain ⟨_, _, _, mapped⟩ := fate_fills isFate
      have accepted := mmMap_accepted mapped
      rcases @loadRest_fills memory σ pgdirAllocPage vmaCreate binary ph s mm rounds isFate rest with
        ⟨noMemory, _⟩ | ⟨vma, accessed, rfl, _, isResult⟩
      · rw [created] at noMemory
        cases noMemory
      · rw [isResult] at bad
        cases filled : fillSegment pgdirAllocPage memory rounds vma (pVa.get memory ph) (pFilesz.get memory ph)
            (pMemsz.get memory ph) (binary + pOffset.get memory ph) accessed with
        | mk outcome next =>
          cases outcome with
          | error stop =>
            rw [filled] at bad
            cases bad
            exact absurd (fillSegment_bad rounds vma _ _ _ _ accessed ret (congrArg Prod.fst filled)) found
          | ok pos =>
            have ended : (fillSegment pgdirAllocPage memory rounds vma (pVa.get memory ph) (pFilesz.get memory ph)
                (pMemsz.get memory ph) (binary + pOffset.get memory ph) accessed).1.isOk = true := by
              rw [filled]
              rfl
            have ends : ¬ Endless memory ph := by
              intro endless
              rw [endless.stops accepted found] at ended
              cases ended
            have range := fate_range isFate ends
            have whole : ¬ Overruns memory ph := by
              intro overruns
              rw [overruns.stops range] at ended
              cases ended
            have sameMm := (@Range.segment memory σ pgdirAllocPage _ _ _ range rounds vma (binary + pOffset.get memory ph)
              accessed).1
            rw [filled] at bad sameMm
            refine ⟨ends, whole, ?_⟩
            rw [← sameMm]
            exact ih bad

/-- The reads of a part come behind those before it. -/
theorem andThen_extends {α β : Type} {result : Result σ α} {rest : α → Loading σ → Result σ β}
    (first : s.reads <+: result.2.reads) (second : ∀ value s, s.reads <+: (rest value s).2.reads) :
    s.reads <+: (result.andThen rest).2.reads := by
  obtain ⟨outcome, next⟩ := result
  cases outcome with
  | error stop => exact first
  | ok value => exact first.trans (second value next)

theorem loadSegment_extends (s : Loading σ) :
    s.reads <+: (loadSegment pgdirAllocPage vmaCreate memory rounds binary ph s).2.reads := by
  have accessed := access_reads s ph
  unfold loadSegment
  dsimp only
  split
  · exact List.prefix_append _ _
  · split
    · exact (List.prefix_append _ _).trans (List.prefix_append _ _)
    · split
      · rw [accessed]
        exact List.prefix_append _ _
      · simp only [accessed]
        exact List.prefix_append _ _
      · apply andThen_extends
        · rw [(fillSegment_quiet rounds _ _ _ _ _ _).reads]
          refine List.IsPrefix.trans ?_ (fillLoop_extends rounds _ _)
          simp only [Loading.access] at accessed ⊢
          rw [accessed, List.append_assoc]
          exact List.prefix_append _ _
        · exact fun _ s => List.prefix_refl _

theorem loadRest_extends (headers : List (BitVec 64)) (s : Loading σ) :
    s.reads <+: (loadRest pgdirAllocPage vmaCreate memory rounds binary headers s).2.reads := by
  induction headers generalizing s with
  | nil =>
    have same : (loadRest pgdirAllocPage vmaCreate memory rounds binary [] s).2.reads = s.reads := mapStack_reads s
    rw [same]
  | cons ph rest ih =>
    rw [loadRest_cons]
    exact andThen_extends (loadSegment_extends s) fun _ => ih

/-- With enough memory the parts of a file that is read inside only lie inside. -/
theorem loadRest_reads (found : ¬ NoPage pgdirAllocPage) (created : ∀ areas, vmaCreate areas = true)
    (enough : 2 ^ 64 ≤ rounds)
    (inside : ∀ read ∈ (loadRest pgdirAllocPage vmaCreate memory rounds binary headers s).2.reads,
      read.Inside binary size) : HeadersInside memory binary size s.mm headers := by
  induction headers generalizing s with
  | nil => trivial
  | cons ph rest ih =>
    unfold HeadersInside
    cases isFate : fate memory s.mm ph with
    | skipped =>
      rw [loadRest_cons, loadSegment_skipped isFate, andThen_ok] at inside
      refine ⟨fieldReads_inside.mp fun read member => inside read ?_, @ih (s.access ph [pType]) inside⟩
      exact (loadRest_extends rest (s.access ph [pType])).subset (List.mem_append_right _ member)
    | refused => trivial
    | asserts =>
      obtain ⟨stop, next, isResult, isReads, _⟩ := loadSegment_asserts isFate
      rw [loadRest_cons, isResult, andThen_error, isReads] at inside
      exact fieldReads_inside.mp fun read member => inside read (List.mem_append_right _ member)
    | fills mm =>
      obtain ⟨_, _, _, mapped⟩ := fate_fills isFate
      have accepted := mmMap_accepted mapped
      rcases @loadRest_fills memory σ pgdirAllocPage vmaCreate binary ph s mm rounds isFate rest with
        ⟨noMemory, _⟩ | ⟨vma, accessed, rfl, isReads, isResult⟩
      · rw [created] at noMemory
        cases noMemory
      · rw [isResult] at inside
        have segment : ∀ read ∈ (fillSegment pgdirAllocPage memory rounds vma (pVa.get memory ph) (pFilesz.get memory ph)
            (pMemsz.get memory ph) (binary + pOffset.get memory ph) accessed).2.reads, read.Inside binary size := by
          intro read member
          apply inside
          generalize fillSegment pgdirAllocPage memory rounds vma (pVa.get memory ph) (pFilesz.get memory ph)
            (pMemsz.get memory ph) (binary + pOffset.get memory ph) accessed = result at member
          obtain ⟨outcome, next⟩ := result
          cases outcome with
          | error stop => exact member
          | ok pos => exact (loadRest_extends rest next).subset member
        have ends : ¬ Endless memory ph := by
          intro endless
          obtain ⟨read, member, outside⟩ := @Endless.leaves memory σ pgdirAllocPage binary size ph vma rounds endless
            accepted found enough (binary + pOffset.get memory ph) accessed
          exact outside (segment read member)
        have range := fate_range isFate ends
        obtain ⟨sameMm, more, isMore, _, covers⟩ :=
          @Range.segment memory σ pgdirAllocPage _ _ _ range rounds vma (binary + pOffset.get memory ph) accessed
        rw [isMore, isReads] at segment
        refine ⟨?_, ends, ?_, fun whole => ?_⟩
        · apply fieldReads_inside.mp
          exact fun read member => segment read (List.mem_append_left _ (List.mem_append_right _ member))
        · exact (covers enough found).inside fun read member => segment read (List.mem_append_right _ member)
        · have fills := @Range.fills memory σ pgdirAllocPage vma rounds _ _ _ (binary + pOffset.get memory ph) range enough
            (whole_of_not_overruns range whole) accessed
          have bad := @fillSegment_bad memory σ pgdirAllocPage rounds vma (pVa.get memory ph) (pFilesz.get memory ph)
            (pMemsz.get memory ph) (binary + pOffset.get memory ph) accessed
          cases filled : fillSegment pgdirAllocPage memory rounds vma (pVa.get memory ph) (pFilesz.get memory ph)
              (pMemsz.get memory ph) (binary + pOffset.get memory ph) accessed with
          | mk outcome next =>
            rw [filled] at inside fills sameMm bad
            cases outcome with
            | error stop =>
              obtain ⟨ret, isBad⟩ := fills.resolve_left (fun impossible => nomatch impossible)
              exact absurd (bad ret isBad) found
            | ok pos =>
              rw [← sameMm]
              exact ih inside

/-! ## The file -/

/-- `load_icode` of a file with the right magic number, once there are a memory manager and a directory. -/
theorem loadIcode_rest (machine : Machine σ) (isEmpty : machine.currentMm = false) (isCreated : machine.mmCreate = true)
    (isSetUp : machine.setupPgdir = true) (magic : eMagic.get memory binary = elfMagic) :
    loadIcode memory machine rounds binary size =
      loadRest machine.pgdirAllocPage machine.vmaCreate memory rounds binary (proghdrs memory binary)
        (newProcess machine.space machine.bytes (fieldReads binary [ePhoff, eMagic, ePhnum])) := by
  simp only [loadIcode, isEmpty, isCreated, isSetUp, Bool.false_eq_true, Bool.true_eq_false, if_false, magic, ne_eq,
    not_true_eq_false, loadSegments_headers]
  rfl

/-- A machine that always has memory. -/
def plentiful : Machine Nat where
  space := 0
  bytes := fun _ => 0
  currentMm := false
  mmCreate := true
  setupPgdir := true
  vmaCreate := fun _ => true
  pgdirAllocPage := fun space _ _ => (some space, space + 1)

theorem plentiful_finds : ¬ NoPage plentiful.pgdirAllocPage := by
  rintro ⟨_, _, _, impossible⟩
  cases impossible

/-- A file with another magic number is rejected. -/
theorem loadIcode_magic (machine : Machine σ) (isEmpty : machine.currentMm = false) (isCreated : machine.mmCreate = true)
    (isSetUp : machine.setupPgdir = true) (other : eMagic.get memory binary ≠ elfMagic) :
    (loadIcode memory machine rounds binary size).1 = .error (.bad (-eInvalElf)) := by
  simp only [loadIcode, isEmpty, isCreated, isSetUp, Bool.false_eq_true, Bool.true_eq_false, if_false, ne_eq, other,
    not_false_eq_true, if_true]

/-- Whatever the kernel finds, it stops before it reads, or it comes to the file. -/
theorem loadIcode_starts (memory : BitVec 64 → Fin 256) (binary size : BitVec 64) (machine : Machine σ) :
    (∀ rounds, (loadIcode memory machine rounds binary size).2.reads = []) ∨
      machine.currentMm = false ∧ machine.mmCreate = true ∧ machine.setupPgdir = true := by
  cases isEmpty : machine.currentMm with
  | true =>
    left
    intro rounds
    simp only [loadIcode, isEmpty, if_true]
    rfl
  | false =>
    cases isCreated : machine.mmCreate with
    | false =>
      left
      intro rounds
      simp only [loadIcode, isEmpty, isCreated, Bool.false_eq_true, if_false, if_true]
      rfl
    | true =>
      cases isSetUp : machine.setupPgdir with
      | false =>
        left
        intro rounds
        simp only [loadIcode, isEmpty, isCreated, isSetUp, Bool.false_eq_true, Bool.true_eq_false, if_false, if_true]
        rfl
      | true => exact Or.inr ⟨rfl, rfl, rfl⟩

/-- With enough memory, a file with the right magic number. -/
theorem ReadsOnly.plentiful (only : ReadsOnly memory binary size) (magic : eMagic.get memory binary = elfMagic) :
    Refused memory mmCreate (proghdrs memory binary) ∨
      FieldsInside binary size binary [ePhoff, eMagic, ePhnum] ∧
        HeadersInside memory binary size mmCreate (proghdrs memory binary) := by
  have isRest := fun rounds => @loadIcode_rest memory Nat binary size rounds LoadIcode.plentiful rfl rfl rfl magic
  rcases only Nat LoadIcode.plentiful with ⟨rounds, ret, bad⟩ | inside
  · rw [isRest] at bad
    exact Or.inl (loadRest_bad plentiful_finds (fun _ => rfl) bad)
  · have inside := inside (2 ^ 64)
    rw [isRest] at inside
    refine Or.inr ⟨fieldReads_inside.mp fun read member => inside read ?_, ?_⟩
    · exact (loadRest_extends (proghdrs memory binary) _).subset member
    · exact loadRest_reads plentiful_finds (fun _ => rfl) (Nat.le_refl _) inside

/-- `load_icode` rejects a file or reads inside of it only exactly if the file is refused for what its headers say, or
the headers that it comes to and their file ranges lie in the file. -/
theorem load_reads_exact (memory : BitVec 64 → Fin 256) (binary size : BitVec 64) : ReadsOnly memory binary size ↔
    eMagic.get memory binary ≠ elfMagic ∨ Refused memory mmCreate (proghdrs memory binary) ∨
      FieldsInside binary size binary [ePhoff, eMagic, ePhnum] ∧
        HeadersInside memory binary size mmCreate (proghdrs memory binary) := by
  constructor
  · intro only
    by_cases magic : eMagic.get memory binary = elfMagic
    · exact Or.inr (only.plentiful magic)
    · exact Or.inl magic
  · intro condition σ machine
    rcases loadIcode_starts memory binary size machine with silent | ⟨isEmpty, isCreated, isSetUp⟩
    · right
      intro rounds read member
      rw [silent] at member
      cases member
    · by_cases magic : eMagic.get memory binary = elfMagic
      · have isRest := fun rounds =>
          @loadIcode_rest memory σ binary size rounds machine isEmpty isCreated isSetUp magic
        have condition := condition.resolve_left (not_not.mpr magic)
        by_cases refused : Refused memory mmCreate (proghdrs memory binary)
        · obtain ⟨ret, bad⟩ := @loadRest_refused memory σ machine.pgdirAllocPage machine.vmaCreate binary
            (newProcess machine.space machine.bytes (fieldReads binary [ePhoff, eMagic, ePhnum])) (2 ^ 64) _ refused
            (Nat.le_refl _)
          exact Or.inl ⟨2 ^ 64, ret, by rw [isRest]; exact bad⟩
        · obtain ⟨fields, inside⟩ := condition.resolve_left refused
          right
          intro rounds
          rw [isRest]
          exact loadRest_inside inside refused (fieldReads_inside.mpr fields)
      · exact Or.inl ⟨0, _, loadIcode_magic machine isEmpty isCreated isSetUp magic⟩

/-- The header of a file that is behind it. -/
def loneHeader : List (Fin 256) := (oneSegment 0 0 0).take 64

theorem loneHeader_proghdrs : proghdrs (fileAt 0x1000#64 loneHeader) 0x1000#64 = [0x1040#64] := by
  decide +kernel

theorem loneHeader_skipped (mm : Mm) : fate (fileAt 0x1000#64 loneHeader) mm 0x1040#64 = .skipped := by
  apply if_pos
  decide +kernel

/-- A file of 64 bytes says that it has a program header, which would be behind it. The header is read there, and where the
bytes behind the file are none of a segment, the file is loaded. -/
theorem load_reads_behind : eMagic.get (fileAt 0x1000#64 loneHeader) 0x1000#64 = elfMagic ∧
    ¬ ReadsOnly (fileAt 0x1000#64 loneHeader) 0x1000#64 64#64 := by
  have magic : eMagic.get (fileAt 0x1000#64 loneHeader) 0x1000#64 = elfMagic := by decide +kernel
  refine ⟨magic, fun only => ?_⟩
  have said := only.plentiful magic
  rw [loneHeader_proghdrs] at said
  rcases said with refused | ⟨_, inside⟩
  · unfold Refused at refused
    rw [loneHeader_skipped] at refused
    obtain ⟨ret, after, refused⟩ := refused
    obtain ⟨vma, mm, mapped⟩ : ∃ vma mm, mmMap true mmCreate (ustackTop - ustackSize) ustackSize
        (vmRead ||| vmWrite ||| vmStack) = some (.ok vma, mm) := ⟨_, _, rfl⟩
    rw [mapped] at refused
    cases refused
  · unfold HeadersInside at inside
    rw [loneHeader_skipped] at inside
    have outside := inside.1 pType List.mem_cons_self 0 (by decide)
    exact absurd outside (by decide)

end Ucore.LoadIcode
