import Ucore.Mm.PgFault
import Ucore.Libs.Memory

/-!
# Loading of programs

`load_icode` of `kern/process/proc.c` reads the headers of an ELF file that is in the memory of
the kernel, and builds the segments of the program in new pages of a process.

Addresses and sizes have 64 bits and wrap around. The memory that is read stays as it is: the
pages that are filled were free. A failed assertion, and a write that leaves its page, end the
kernel. What is given back after an error, and the trapframe, are left out.
-/

namespace Ucore.LoadIcode

open Vmm Paging

def eInvalElf : Int := 8

/-- A member of a structure. -/
structure Field where
  offset : BitVec 64
  size : Nat

/-- The members of `struct elfhdr` that are read. -/
def eMagic : Field := ⟨0, 4⟩
def ePhoff : Field := ⟨32, 8⟩
def ePhnum : Field := ⟨56, 2⟩

/-- The members of `struct proghdr` that are read, and its size. -/
def pType : Field := ⟨0, 4⟩
def pFlags : Field := ⟨4, 4⟩
def pOffset : Field := ⟨8, 8⟩
def pVa : Field := ⟨16, 8⟩
def pFilesz : Field := ⟨32, 8⟩
def pMemsz : Field := ⟨40, 8⟩
def proghdrSize : BitVec 64 := 56#64

def elfMagic : BitVec 64 := 0x464C457F#64
def elfPtLoad : BitVec 64 := 1#64

/-- `ELF_PF_X`, `ELF_PF_W` and `ELF_PF_R` -/
def elfPfX : BitVec 64 := 1#64
def elfPfW : BitVec 64 := 2#64
def elfPfR : BitVec 64 := 4#64

/-- The number that some bytes are, the lowest byte first. -/
def number (memory : BitVec 64 → Fin 256) (address : BitVec 64) : Nat → Nat
  | 0 => 0
  | size + 1 => (memory address).val + 256 * number memory (address + 1#64) size

/-- The value of a member of the structure at an address. -/
def Field.get (field : Field) (memory : BitVec 64 → Fin 256) (base : BitVec 64) : BitVec 64 :=
  BitVec.ofNat 64 (number memory (base + field.offset) field.size)

/-- `vm_flags` and `perm` of a segment. -/
def segmentFlags (flags : BitVec 64) : BitVec 32 :=
  (if flags &&& elfPfX ≠ 0#64 then vmExec else 0#32) ||| (if flags &&& elfPfW ≠ 0#64 then vmWrite else 0#32) |||
    (if flags &&& elfPfR ≠ 0#64 then vmRead else 0#32)

def segmentPerm (vmFlags : BitVec 32) : BitVec 10 :=
  pteU ||| pteV ||| (if vmFlags &&& vmRead ≠ 0#32 then pteR else 0#10) |||
    (if vmFlags &&& vmWrite ≠ 0#32 then pteW ||| pteR else 0#10) |||
    (if vmFlags &&& vmExec ≠ 0#32 then pteX else 0#10)

def ustackTop : BitVec 64 := 0x80000000#64
def ustackSize : BitVec 64 := 256#64 * Vmm.pgsize
def pteUser : BitVec 10 := pteR ||| pteW ||| pteX ||| pteU ||| pteV

/-- Bytes that are read, and a page that is made, for an area. -/
structure Read where
  address : BitVec 64
  size : Nat

structure Touch where
  vma : Vma
  la : BitVec 64

/-- The memory of the process as it is built: its areas, its page tables, and the bytes of the
pages by their physical addresses. The last fields are history. -/
structure Loading (σ : Type) where
  mm : Mm
  space : σ
  bytes : Bytes
  reads : List Read
  touched : List Touch

/-- An end before the end of the function: an error, a failed assertion, or a loop that is still running. -/
inductive Stop where
  | bad (ret : Int)
  | panics
  | runs

abbrev Result (σ α : Type) := Except Stop α × Loading σ

variable {σ α β : Type}

/-- What follows on a part of the function that reached its end. -/
def Result.andThen (result : Result σ α) (rest : α → Loading σ → Result σ β) : Result σ β :=
  match result with
  | (.ok value, s) => rest value s
  | (.error stop, s) => (.error stop, s)

/-- Members are read. -/
def Loading.access (s : Loading σ) (base : BitVec 64) (fields : List Field) : Loading σ :=
  { s with reads := s.reads ++ fields.map fun field => ⟨base + field.offset, field.size⟩ }

/-- The variables of the loops over pages: `start`, `la`, `page`, and `from` while there is something to copy. -/
structure Position where
  start : BitVec 64
  la : BitVec 64
  page : Option Nat
  source : Option (BitVec 64)

/-- The bytes that `memcpy` copies, or the zeros of `memset`. -/
def sourceBytes (memory : BitVec 64 → Fin 256) : Option (BitVec 64) → Nat → Fin 256
  | some source, index => memory (source + BitVec.ofNat 64 index)
  | none, _ => 0

/-- `memcpy` and `memset` in a page; `none` is a write that leaves it. -/
def fill (bytes : Bytes) (page : Nat) (off size : BitVec 64) (source : Nat → Fin 256) : Option Bytes :=
  if off.toNat + size.toNat ≤ Paging.pgsize then some (memcpy bytes (page * Paging.pgsize + off.toNat) source size.toNat)
  else none

/-- `size`, with `la` at the end of the page. -/
def partSize (off stop la : BitVec 64) : BitVec 64 :=
  if stop < la then Vmm.pgsize - off - (la - stop) else Vmm.pgsize - off

variable (pgdirAllocPage : σ → BitVec 64 → BitVec 10 → Option Nat × σ) (vmaCreate : Nat → Bool)
variable (memory : BitVec 64 → Fin 256)

/-- A round of a loop over pages, with `memcpy` or with `memset`. -/
def fillRound (vma : Vma) (stop : BitVec 64) (pos : Position) (s : Loading σ) : Result σ Position :=
  match pgdirAllocPage s.space pos.la (segmentPerm vma.vmFlags) with
  | (none, space) => (.error (.bad (-eNoMem)), { s with space })
  | (some page, space) =>
      let off := pos.start - pos.la
      let la := pos.la + Vmm.pgsize
      let size := partSize off stop la
      let s := { s with
        space
        touched := s.touched ++ [⟨vma, pos.la⟩]
        reads := s.reads ++ pos.source.toList.map fun source => ⟨source, size.toNat⟩ }
      match fill s.bytes page off size (sourceBytes memory pos.source) with
      | none => (.error .panics, s)
      | some bytes => (.ok ⟨pos.start + size, la, some page, pos.source.map (· + size)⟩, { s with bytes })

/-- `while (start < end)` -/
def fillLoop (vma : Vma) (stop : BitVec 64) : Nat → Position → Loading σ → Result σ Position
  | 0, pos, s => if pos.start < stop then (.error .runs, s) else (.ok pos, s)
  | rounds + 1, pos, s =>
      if pos.start < stop then
        (fillRound pgdirAllocPage memory vma stop pos s).andThen (fillLoop vma stop rounds)
      else (.ok pos, s)

/-- The rest of the last page, before the loop of (3.6.2). Where the source goes on with the next
header, that loop has no rounds. -/
def clearRest (stop : BitVec 64) (pos : Position) (s : Loading σ) : Result σ Position :=
  if pos.start < pos.la then
    if pos.start = stop then (.ok pos, s)
    else
      let off := pos.start + Vmm.pgsize - pos.la
      let size := partSize off stop pos.la
      match pos.page.bind fun page => fill s.bytes page off size fun _ => 0 with
      | none => (.error .panics, s)
      | some bytes =>
          let start := pos.start + size
          if stop < pos.la ∧ start = stop ∨ pos.la ≤ stop ∧ start = pos.la then
            (.ok { pos with start }, { s with bytes })
          else (.error .panics, { s with bytes })
  else (.ok pos, s)

/-- (3.6): the pages of a segment, in its area. -/
def fillSegment (rounds : Nat) (vma : Vma) (va filesz memsz source : BitVec 64) (s : Loading σ) : Result σ Position :=
  ((fillLoop pgdirAllocPage memory vma (va + filesz) rounds ⟨va, roundDown va, none, some source⟩ s).andThen
    (clearRest (va + memsz))).andThen
    fun pos => fillLoop pgdirAllocPage memory vma (va + memsz) rounds { pos with source := none }

/-- A round of the loop over the program headers. -/
def loadSegment (rounds : Nat) (binary ph : BitVec 64) (s : Loading σ) : Result σ Unit :=
  let s := s.access ph [pType]
  if pType.get memory ph ≠ elfPtLoad then (.ok (), s)
  else
    let s := s.access ph [pFilesz, pMemsz]
    if pMemsz.get memory ph < pFilesz.get memory ph then (.error (.bad (-eInvalElf)), s)
    else
      let s := s.access ph [pFlags, pVa]
      match mmMap (vmaCreate s.mm.mapCount) s.mm (pVa.get memory ph) (pMemsz.get memory ph)
          (segmentFlags (pFlags.get memory ph)) with
      | none => (.error .panics, s)
      | some (.error ret, mm) => (.error (.bad ret), { s with mm })
      | some (.ok vma, mm) =>
          (fillSegment pgdirAllocPage memory rounds vma (pVa.get memory ph) (pFilesz.get memory ph)
            (pMemsz.get memory ph) (binary + pOffset.get memory ph) ({ s with mm }.access ph [pOffset])).andThen
            fun _ s => (.ok (), s)

/-- `for (; ph < ph_end; ph ++)`; the end is that many headers away, so there are no more rounds. -/
def segmentLoop (rounds : Nat) (binary phEnd : BitVec 64) : Nat → BitVec 64 → Loading σ → Result σ Unit
  | 0, _, s => (.ok (), s)
  | headers + 1, ph, s =>
      if ph < phEnd then
        (loadSegment pgdirAllocPage vmaCreate memory rounds binary ph s).andThen
          fun _ => segmentLoop rounds binary phEnd headers (ph + proghdrSize)
      else (.ok (), s)

/-- (3.3) to (3.6): all segments of the file. -/
def loadSegments (rounds : Nat) (binary : BitVec 64) (s : Loading σ) : Result σ Unit :=
  let ph := binary + ePhoff.get memory binary
  let phnum := ePhnum.get memory binary
  segmentLoop pgdirAllocPage vmaCreate memory rounds binary (ph + phnum * proghdrSize) phnum.toNat ph
    (s.access binary [ePhnum])

/-- The assertions that the pages at the top of the stack are there. -/
def stackPages : List (BitVec 64) → Loading σ → Result σ Unit
  | [], s => (.ok (), s)
  | la :: rest, s =>
      match pgdirAllocPage s.space la pteUser with
      | (none, space) => (.error .panics, { s with space })
      | (some _, space) => stackPages rest { s with space }

/-- (4): the stack. -/
def mapStack (s : Loading σ) : Result σ Unit :=
  match mmMap (vmaCreate s.mm.mapCount) s.mm (ustackTop - ustackSize) ustackSize (vmRead ||| vmWrite ||| vmStack) with
  | none => (.error .panics, s)
  | some (.error ret, mm) => (.error (.bad ret), { s with mm })
  | some (.ok _, mm) =>
      stackPages pgdirAllocPage
        [ustackTop - Vmm.pgsize, ustackTop - 2#64 * Vmm.pgsize, ustackTop - 3#64 * Vmm.pgsize, ustackTop - 4#64 * Vmm.pgsize]
        { s with mm }

omit pgdirAllocPage vmaCreate memory in
/-- What `load_icode` finds: whether `current->mm` is there, whether `mm_create`, `setup_pgdir` and
`vma_create` have memory, the last one by the number of areas, and what `pgdir_alloc_page` answers. -/
structure Machine (σ : Type) where
  space : σ
  bytes : Bytes
  currentMm : Bool
  mmCreate : Bool
  setupPgdir : Bool
  vmaCreate : Nat → Bool
  pgdirAllocPage : σ → BitVec 64 → BitVec 10 → Option Nat × σ

/-- A process without areas, after some reads. -/
def newProcess (space : σ) (bytes : Bytes) (reads : List Read) : Loading σ where
  mm := mmCreate
  space := space
  bytes := bytes
  reads := reads
  touched := []

/-- `load_icode` of the file at an address; its size is not looked at. -/
def loadIcode (machine : Machine σ) (rounds : Nat) (binary _size : BitVec 64) : Result σ Unit :=
  let s := newProcess machine.space machine.bytes []
  if machine.currentMm then (.error .panics, s)
  else if machine.mmCreate = false then (.error (.bad (-eNoMem)), s)
  else if machine.setupPgdir = false then (.error (.bad (-eNoMem)), s)
  else
    let s := s.access binary [ePhoff, eMagic]
    if eMagic.get memory binary ≠ elfMagic then (.error (.bad (-eInvalElf)), s)
    else
      (loadSegments machine.pgdirAllocPage machine.vmaCreate memory rounds binary s).andThen
        fun _ => mapStack machine.pgdirAllocPage machine.vmaCreate

/-! ## Parts in sequence -/

variable {s next : Loading σ} {result : Result σ α} {rest : α → Loading σ → Result σ β}

@[simp] theorem andThen_ok (value : α) : Result.andThen (.ok value, s) rest = rest value s := rfl

@[simp] theorem andThen_error (stop : Stop) : Result.andThen (.error stop, s) rest = (.error stop, s) := rfl

/-- A sequence that reached its end has a state between its parts. -/
theorem andThen_eq_ok {value : β} (ran : result.andThen rest = (.ok value, next)) :
    ∃ first middle, result = (.ok first, middle) ∧ rest first middle = (.ok value, next) := by
  obtain ⟨outcome, middle⟩ := result
  cases outcome with
  | ok first => exact ⟨first, middle, rfl, ran⟩
  | error stop => cases ran

/-! ## The program headers -/

/-- Consecutive program headers. -/
def headersFrom (ph : BitVec 64) (count : Nat) : List (BitVec 64) :=
  (List.range count).map fun index => ph + BitVec.ofNat 64 (56 * index)

/-- The program headers that the loop comes to: none when their end wraps around. -/
def proghdrs (binary : BitVec 64) : List (BitVec 64) :=
  let ph := binary + ePhoff.get memory binary
  let phnum := (ePhnum.get memory binary).toNat
  if ph.toNat + 56 * phnum < 2 ^ 64 then headersFrom ph phnum else []

/-- The rounds of the loop over the program headers. -/
def loadHeaders (rounds : Nat) (binary : BitVec 64) : List (BitVec 64) → Loading σ → Result σ Unit
  | [], s => (.ok (), s)
  | ph :: rest, s =>
      (loadSegment pgdirAllocPage vmaCreate memory rounds binary ph s).andThen fun _ => loadHeaders rounds binary rest

theorem number_lt (address : BitVec 64) (size : Nat) : number memory address size < 256 ^ size := by
  induction size generalizing address with
  | zero => exact Nat.one_pos
  | succ size ih =>
    have rest := ih (address + 1#64)
    have byte := (memory address).isLt
    rw [number, Nat.pow_succ]
    omega

theorem headersFrom_succ (ph : BitVec 64) (count : Nat) :
    headersFrom ph (count + 1) = ph :: headersFrom (ph + proghdrSize) count := by
  simp only [headersFrom, List.range_succ_eq_map, List.map_cons, List.map_map]
  congr 1
  · exact BitVec.add_zero ph
  · apply List.map_congr_left
    intro index _
    apply BitVec.eq_of_toNat_eq
    simp only [Function.comp, proghdrSize, BitVec.toNat_add, BitVec.toNat_ofNat]
    omega

/-- Headers whose end does not wrap around all have their round. -/
theorem segmentLoop_headers (rounds : Nat) (binary : BitVec 64) {ph phEnd : BitVec 64} {count : Nat}
    (fits : phEnd.toNat = ph.toNat + 56 * count) (s : Loading σ) :
    segmentLoop pgdirAllocPage vmaCreate memory rounds binary phEnd count ph s =
      loadHeaders pgdirAllocPage vmaCreate memory rounds binary (headersFrom ph count) s := by
  induction count generalizing ph s with
  | zero => rfl
  | succ count ih =>
    have inside : ph < phEnd := by
      rw [BitVec.lt_def]
      omega
    have small := phEnd.isLt
    have fits' : phEnd.toNat = (ph + proghdrSize).toNat + 56 * count := by
      simp only [proghdrSize, BitVec.toNat_add, BitVec.toNat_ofNat]
      omega
    rw [segmentLoop, if_pos inside, headersFrom_succ, loadHeaders]
    congr 1
    funext _ s
    exact ih fits' s

/-- The loop over the program headers. -/
theorem loadSegments_headers (rounds : Nat) (binary : BitVec 64) (s : Loading σ) :
    loadSegments pgdirAllocPage vmaCreate memory rounds binary s =
      loadHeaders pgdirAllocPage vmaCreate memory rounds binary (proghdrs memory binary) (s.access binary [ePhnum]) := by
  have few : (ePhnum.get memory binary).toNat < 65536 := by
    have small := number_lt memory (binary + ePhnum.offset) 2
    rw [Field.get, BitVec.toNat_ofNat]
    exact Nat.lt_of_le_of_lt (Nat.mod_le _ _) small
  have product : (ePhnum.get memory binary * proghdrSize).toNat = 56 * (ePhnum.get memory binary).toNat := by
    rw [BitVec.toNat_mul, proghdrSize, BitVec.toNat_ofNat]
    omega
  unfold loadSegments proghdrs
  generalize ePhnum.get memory binary = phnum at few product ⊢
  generalize binary + ePhoff.get memory binary = ph
  simp only
  split
  · rename_i fits
    apply segmentLoop_headers
    rw [BitVec.toNat_add, product]
    omega
  · rename_i wraps
    have first := ph.isLt
    have passed : ¬ ph < ph + phnum * proghdrSize := by
      rw [BitVec.lt_def, BitVec.toNat_add, product]
      omega
    cases phnum.toNat with
    | zero => rfl
    | succ count => rw [segmentLoop, if_neg passed, loadHeaders]

/-! ## Rounds of the loops over pages -/

variable {pgdirAllocPage memory} {vma : Vma} {pos after : Position} {stop : BitVec 64} {page : Nat}

/-- The size of the part of a page up to its end `la` or to `stop`. -/
theorem partSize_exact {off la : BitVec 64} (inside : off.toNat < Paging.pgsize)
    (near : la.toNat ≤ stop.toNat + (Paging.pgsize - off.toNat)) :
    (partSize off stop la).toNat = Paging.pgsize - off.toNat - (la.toNat - stop.toNat) := by
  have rest : (Vmm.pgsize - off).toNat = Paging.pgsize - off.toNat := by
    simp only [Paging.pgsize, Vmm.pgsize] at inside ⊢
    bv_omega
  unfold partSize
  split
  · rename_i before
    rw [BitVec.lt_def] at before
    rw [BitVec.toNat_sub_of_le, rest, BitVec.toNat_sub_of_le (by rw [BitVec.le_def]; omega)]
    rw [BitVec.le_def, rest, BitVec.toNat_sub_of_le (by rw [BitVec.le_def]; omega)]
    omega
  · rename_i behind
    rw [BitVec.lt_def] at behind
    omega


/-- The loop goes on in the page at `la`, and the pages up to `stop` do not reach the end of the address space. -/
structure Position.Regular (pos : Position) (stop : BitVec 64) : Prop where
  small : stop.toNat + Paging.pgsize ≤ 2 ^ 64
  lower : pos.start < stop → pos.la.toNat ≤ pos.start.toNat
  near : pos.start < stop → pos.start.toNat < pos.la.toNat + Paging.pgsize

variable (pgdirAllocPage memory) in
/-- A round that fills a part of a new page. -/
structure Fills (vma : Vma) (stop : BitVec 64) (page : Nat) (pos : Position) (s : Loading σ) (after : Position)
    (next : Loading σ) : Prop where
  start : after.start.toNat = min (pos.la.toNat + Paging.pgsize) stop.toNat
  la : after.la.toNat = pos.la.toNat + Paging.pgsize
  filled : after.page = some page
  source : after.source = pos.source.map (· + (after.start - pos.start))
  mm : next.mm = s.mm
  space : pgdirAllocPage s.space pos.la (segmentPerm vma.vmFlags) = (some page, next.space)
  bytes : fill s.bytes page (pos.start - pos.la) (after.start - pos.start) (sourceBytes memory pos.source) = some next.bytes
  reads : next.reads = s.reads ++ pos.source.toList.map fun source => ⟨source, (after.start - pos.start).toNat⟩
  touched : next.touched = s.touched ++ [⟨vma, pos.la⟩]

/-- A round finds no memory, or it fills the page at `la` up to its end or to `stop`. -/
theorem fillRound_cases (regular : pos.Regular stop) (before : pos.start < stop) :
    (∃ space, pgdirAllocPage s.space pos.la (segmentPerm vma.vmFlags) = (none, space) ∧
      fillRound pgdirAllocPage memory vma stop pos s = (.error (.bad (-eNoMem)), { s with space })) ∨
    ∃ page after next, fillRound pgdirAllocPage memory vma stop pos s = (.ok after, next) ∧
      Fills pgdirAllocPage memory vma stop page pos s after next := by
  have small := regular.small
  have lower := regular.lower before
  have near := regular.near before
  rw [BitVec.lt_def] at before
  cases answer : pgdirAllocPage s.space pos.la (segmentPerm vma.vmFlags) with
  | mk result space =>
    cases result with
    | none => exact Or.inl ⟨space, rfl, by rw [fillRound, answer]⟩
    | some page =>
      right
      have off : (pos.start - pos.la).toNat = pos.start.toNat - pos.la.toNat :=
        BitVec.toNat_sub_of_le (BitVec.le_def.mpr lower)
      have la : (pos.la + Vmm.pgsize).toNat = pos.la.toNat + Paging.pgsize := by
        simp only [Paging.pgsize, Vmm.pgsize] at small near ⊢
        bv_omega
      have size : (partSize (pos.start - pos.la) stop (pos.la + Vmm.pgsize)).toNat =
          min (pos.la.toNat + Paging.pgsize) stop.toNat - pos.start.toNat := by
        rw [partSize_exact (by omega) (by omega), off, la]
        omega
      generalize isSize : partSize (pos.start - pos.la) stop (pos.la + Vmm.pgsize) = part at size
      have isStart : (pos.start + part).toNat = min (pos.la.toNat + Paging.pgsize) stop.toNat := by
        rw [BitVec.toNat_add, size]
        omega
      have isPart : pos.start + part - pos.start = part := by
        rw [BitVec.add_comm, BitVec.add_sub_cancel]
      obtain ⟨bytes, filled⟩ : ∃ bytes, fill s.bytes page (pos.start - pos.la) part (sourceBytes memory pos.source) =
          some bytes := ⟨_, if_pos (by omega)⟩
      refine ⟨page, ⟨pos.start + part, pos.la + Vmm.pgsize, some page, pos.source.map (· + part)⟩,
        { mm := s.mm
          space := space
          bytes := bytes
          reads := s.reads ++ pos.source.toList.map fun source => ⟨source, part.toNat⟩
          touched := s.touched ++ [⟨vma, pos.la⟩] }, ?_, ?_⟩
      · simp only [fillRound, answer, isSize, filled]
      · constructor
        case start => exact isStart
        case la => exact la
        case filled => rfl
        case source => rw [isPart]
        case mm => rfl
        case space => exact answer
        case bytes =>
          rw [isPart]
          exact filled
        case reads => rw [isPart]
        case touched => rfl

/-- The next round starts at the start of its page. -/
theorem Fills.regular (fills : Fills pgdirAllocPage memory vma stop page pos s after next) (regular : pos.Regular stop) :
    after.Regular stop where
  small := regular.small
  lower := by
    intro before
    have start := fills.start
    rw [BitVec.lt_def] at before
    rw [fills.la]
    omega
  near := by
    intro before
    have start := fills.start
    rw [BitVec.lt_def] at before
    rw [fills.la, start]
    have size : 0 < Paging.pgsize := by decide
    omega

/-- Where the loops over pages are: in the page before `la`, or in the one at `la`. -/
structure Position.Placed (pos : Position) : Prop where
  aligned : pos.la.toNat % Paging.pgsize = 0
  near : pos.la.toNat < pos.start.toNat + Paging.pgsize
  within : pos.start.toNat < pos.la.toNat + Paging.pgsize

theorem Fills.placed (fills : Fills pgdirAllocPage memory vma stop page pos s after next) (regular : pos.Regular stop)
    (before : pos.start < stop) (placed : pos.Placed) : after.Placed where
  aligned := by
    rw [fills.la, Nat.add_mod_right, placed.aligned]
  near := by
    have lower := regular.lower before
    rw [BitVec.lt_def] at before
    rw [fills.la, fills.start]
    have size : 0 < Paging.pgsize := by decide
    omega
  within := by
    rw [fills.la, fills.start]
    have size : 0 < Paging.pgsize := by decide
    omega

/-- There is a page before `la`, if the loops over pages are in it. -/
def Position.Paged (pos : Position) : Prop := pos.start < pos.la → ∃ page, pos.page = some page

/-- Where a loop over pages gets to. -/
structure Moves (stop : Nat) (pos after : Position) : Prop where
  placed : after.Placed
  start : after.start.toNat = max pos.start.toNat stop
  lower : pos.la.toNat ≤ after.la.toNat
  upper : pos.la.toNat < after.la.toNat → after.la.toNat < stop + Paging.pgsize
  ahead : pos.start.toNat < after.start.toNat → after.start.toNat ≤ after.la.toNat
  paged : pos.Paged → after.Paged

/-- A loop without rounds. -/
theorem Moves.refl (placed : pos.Placed) (ended : ¬ pos.start < stop) : Moves stop.toNat pos pos where
  placed := placed
  start := by
    rw [BitVec.lt_def] at ended
    omega
  lower := Nat.le_refl _
  upper := fun impossible => absurd impossible (Nat.lt_irrefl _)
  ahead := fun impossible => absurd impossible (Nat.lt_irrefl _)
  paged := id

/-- A round, and the rounds behind it. -/
theorem Fills.moves {last : Position} (fills : Fills pgdirAllocPage memory vma stop page pos s after next)
    (regular : pos.Regular stop) (before : pos.start < stop) (moves : Moves stop.toNat after last) :
    Moves stop.toNat pos last := by
  have lower := regular.lower before
  have near := regular.near before
  have start := fills.start
  have la := fills.la
  have size : 0 < Paging.pgsize := by decide
  rw [BitVec.lt_def] at before
  have ended := moves.start
  have above := moves.lower
  have below := moves.upper
  have ahead := moves.ahead
  constructor
  case placed => exact moves.placed
  case start => omega
  case lower => omega
  case upper => omega
  case ahead => omega
  case paged => exact fun _ => moves.paged fun _ => ⟨page, fills.filled⟩

/-- A loop over pages that comes to its end. -/
theorem fillLoop_moves {rounds : Nat} (regular : pos.Regular stop) (placed : pos.Placed)
    (ran : fillLoop pgdirAllocPage memory vma stop rounds pos s = (.ok after, next)) : Moves stop.toNat pos after := by
  induction rounds generalizing pos s with
  | zero =>
    unfold fillLoop at ran
    split at ran
    · cases ran
    · rename_i ended
      cases ran
      exact .refl placed ended
  | succ rounds ih =>
    unfold fillLoop at ran
    split at ran
    · rename_i before
      obtain ⟨between, middle, round, rest⟩ := andThen_eq_ok ran
      rcases @fillRound_cases _ pgdirAllocPage memory s vma pos stop regular before with
        ⟨space, _, failed⟩ | ⟨page, between', middle', filled, fills⟩
      · rw [failed] at round
        cases round
      · rw [filled] at round
        cases round
        exact fills.moves regular before (ih (fills.regular regular) (fills.placed regular before placed) rest)
    · rename_i ended
      cases ran
      exact .refl placed ended

/-- The rest of the last page is cleared, up to its end or to `stop`, if there is any. -/
theorem clearRest_exact (placed : pos.Placed) (paged : pos.Paged) (further : pos.start.toNat ≤ stop.toNat) (s : Loading σ) :
    (clearRest stop pos s = (.ok pos, s) ∧ (pos.la.toNat ≤ pos.start.toNat ∨ pos.start = stop)) ∨
    ∃ page off size bytes, pos.start.toNat < pos.la.toNat ∧ pos.page = some page ∧
      off.toNat = pos.start.toNat + Paging.pgsize - pos.la.toNat ∧
      (pos.start + size).toNat = min pos.la.toNat stop.toNat ∧ size.toNat = min pos.la.toNat stop.toNat - pos.start.toNat ∧
      fill s.bytes page off size (fun _ => 0) = some bytes ∧
      clearRest stop pos s = (.ok { pos with start := pos.start + size }, { s with bytes }) := by
  unfold clearRest
  split
  · rename_i inside
    obtain ⟨page, isPage⟩ := paged inside
    have near := placed.near
    rw [BitVec.lt_def] at inside
    split
    · rename_i done
      exact Or.inl ⟨rfl, Or.inr done⟩
    · have off : (pos.start + Vmm.pgsize - pos.la).toNat = pos.start.toNat + Paging.pgsize - pos.la.toNat := by
        simp only [Paging.pgsize, Vmm.pgsize] at near ⊢
        bv_omega
      have size := @partSize_exact stop (pos.start + Vmm.pgsize - pos.la) pos.la (by omega) (by omega)
      generalize pos.start + Vmm.pgsize - pos.la = part at off size
      dsimp only
      generalize partSize part stop pos.la = length at size
      have top := stop.isLt
      have isStart : (pos.start + length).toNat = min pos.la.toNat stop.toNat := by
        rw [BitVec.toNat_add, size, off]
        omega
      obtain ⟨bytes, filled⟩ : ∃ bytes, fill s.bytes page part length (fun _ => 0) = some bytes := ⟨_, if_pos (by omega)⟩
      have asserted : stop < pos.la ∧ pos.start + length = stop ∨ pos.la ≤ stop ∧ pos.start + length = pos.la := by
        simp only [BitVec.lt_def, BitVec.le_def, ← BitVec.toNat_inj, isStart]
        omega
      right
      refine ⟨page, part, length, bytes, inside, isPage, off, isStart, by omega, filled, ?_⟩
      simp only [isPage, Option.bind_some, filled, if_pos asserted]
  · rename_i outside
    rw [BitVec.lt_def, Nat.not_lt] at outside
    exact Or.inl ⟨rfl, Or.inl outside⟩

/-- Where the loops begin. -/
theorem start_regular {va : BitVec 64} {source : Option (BitVec 64)} (small : stop.toNat + Paging.pgsize ≤ 2 ^ 64) :
    Position.Regular ⟨va, roundDown va, none, source⟩ stop where
  small := small
  lower := by
    intro _
    simp only [roundDown_toNat]
    omega
  near := by
    intro _
    simp only [roundDown_toNat, Paging.pgsize]
    omega

theorem start_placed {va : BitVec 64} {source : Option (BitVec 64)} : Position.Placed ⟨va, roundDown va, none, source⟩ where
  aligned := by
    simp only [roundDown_toNat, Paging.pgsize]
    omega
  near := by
    simp only [roundDown_toNat, Paging.pgsize]
    omega
  within := by
    simp only [roundDown_toNat, Paging.pgsize]
    omega

theorem start_paged {va : BitVec 64} {source : Option (BitVec 64)} : Position.Paged ⟨va, roundDown va, none, source⟩ := by
  intro before
  simp only [BitVec.lt_def, roundDown_toNat] at before
  omega

end Ucore.LoadIcode
