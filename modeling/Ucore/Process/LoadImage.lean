import Ucore.Process.LoadIcode

/-!
# Images of programs

A user sees the bytes of the pages through the page tables. When the loop over the program
headers comes to its end, the process has the bytes of the file and the zeros behind them,
exactly if no segment wraps around the end of the address space.
-/

namespace Ucore.LoadIcode

open Vmm Paging Spans

variable {σ : Type} {pgdirAllocPage : σ → BitVec 64 → BitVec 10 → Option Nat × σ} {vmaCreate : Nat → Bool}
variable {memory : BitVec 64 → Fin 256} {valid : σ → Prop} {frame : σ → Nat → Option Nat}
variable {s middle next : Loading σ} {vma : Vma} {pos after : Position} {stop : BitVec 64}

/-! ## Pages of a process -/

/-- What building a process needs of page tables: a map from page numbers of 39 bit addresses to
pages, none mapped twice, that `pgdir_alloc_page` extends. -/
structure MapsPages (pgdirAllocPage : σ → BitVec 64 → BitVec 10 → Option Nat × σ) (valid : σ → Prop)
    (frame : σ → Nat → Option Nat) : Prop where
  small : ∀ {space number page}, frame space number = some page → number < vaSize / Paging.pgsize
  once : ∀ {space number other page}, valid space → frame space number = some page → frame space other = some page →
    number = other
  alloc : ∀ {space la perm page next}, valid space → la.toNat < vaSize →
    pgdirAllocPage space la perm = (some page, next) → valid next ∧
      ∀ number, frame next number = if number = la.toNat / Paging.pgsize then some page else frame space number

/-- The byte of a page at an address. -/
def byteAt (frame : σ → Nat → Option Nat) (space : σ) (bytes : Bytes) (addr : Nat) : Option (Fin 256) :=
  (frame space (addr / Paging.pgsize)).map fun page => bytes (page * Paging.pgsize + addr % Paging.pgsize)

/-- The byte that a user sees at an address. -/
def userByte (frame : σ → Nat → Option Nat) (s : Loading σ) (addr : Nat) : Option (Fin 256) :=
  byteAt frame s.space s.bytes addr

/-- A write in a page changes the bytes of the page that it writes. -/
theorem MapsPages.fill (maps : MapsPages pgdirAllocPage valid frame) {space : σ} (isValid : valid space) {page number : Nat}
    {off size : BitVec 64} {source : Nat → Fin 256} {bytes changed : Bytes} (isFrame : frame space number = some page)
    (filled : fill bytes page off size source = some changed) (addr : Nat) :
    byteAt frame space changed addr =
      if number * Paging.pgsize + off.toNat ≤ addr ∧ addr < number * Paging.pgsize + off.toNat + size.toNat then
        some (source (addr - (number * Paging.pgsize + off.toNat)))
      else byteAt frame space bytes addr := by
  unfold LoadIcode.fill at filled
  split at filled
  · rename_i inside
    obtain rfl := Option.some.inj filled
    have split := Nat.div_add_mod addr Paging.pgsize
    have part := Nat.mod_lt addr (show 0 < Paging.pgsize by decide)
    by_cases here : addr / Paging.pgsize = number
    · subst here
      have shifted : page * Paging.pgsize + off.toNat ≤ page * Paging.pgsize + addr % Paging.pgsize ∧
          page * Paging.pgsize + addr % Paging.pgsize < page * Paging.pgsize + off.toNat + size.toNat ↔
          addr / Paging.pgsize * Paging.pgsize + off.toNat ≤ addr ∧
          addr < addr / Paging.pgsize * Paging.pgsize + off.toNat + size.toNat := by
        simp only [Paging.pgsize] at split ⊢
        omega
      have index : page * Paging.pgsize + addr % Paging.pgsize - (page * Paging.pgsize + off.toNat) =
          addr - (addr / Paging.pgsize * Paging.pgsize + off.toNat) := by
        simp only [Paging.pgsize] at split ⊢
        omega
      simp only [byteAt, isFrame, Option.map_some, memcpy_exact, index]
      rw [apply_ite some]
      exact if_congr shifted rfl rfl
    · have outside : ¬ (number * Paging.pgsize + off.toNat ≤ addr ∧
          addr < number * Paging.pgsize + off.toNat + size.toNat) := by
        simp only [Paging.pgsize] at split part here inside ⊢
        omega
      rw [if_neg outside]
      unfold byteAt
      cases isOther : frame space (addr / Paging.pgsize) with
      | none => rfl
      | some other =>
        have different : other ≠ page := by
          rintro rfl
          exact here (maps.once isValid isOther isFrame)
        have elsewhere : ¬ (page * Paging.pgsize + off.toNat ≤ other * Paging.pgsize + addr % Paging.pgsize ∧
            other * Paging.pgsize + addr % Paging.pgsize < page * Paging.pgsize + off.toNat + size.toNat) := by
          simp only [Paging.pgsize] at part inside ⊢
          omega
        simp only [Option.map_some, memcpy_exact]
        rw [if_neg elsewhere]
  · cases filled

/-! ## Building a range -/

/-- Bytes from one address to another are there, bytes outside of them and of some pages are kept,
and the new pages are among these. -/
structure Builds (frame : σ → Nat → Option Nat) (vma : Vma) (content : Nat → Fin 256) (first stop low high : Nat)
    (s next : Loading σ) : Prop where
  mm : next.mm = s.mm
  bytes : ∀ addr, first ≤ addr → addr < stop → userByte frame next addr = some (content addr)
  kept : ∀ addr, ¬ (first ≤ addr ∧ addr < stop) → ¬ (low ≤ addr ∧ addr < high) →
    userByte frame next addr = userByte frame s addr
  touched : ∃ more, next.touched = s.touched ++ more ∧
    ∀ touch ∈ more, touch.vma = vma ∧ low ≤ touch.la.toNat ∧ touch.la.toNat + Paging.pgsize ≤ high

variable {content : Nat → Fin 256} {first last low between high : Nat}

theorem Builds.refl (at' : Nat) : Builds frame vma content at' at' low low s s where
  mm := rfl
  bytes := by
    intro addr lower upper
    omega
  kept := fun _ _ _ => rfl
  touched := ⟨[], (List.append_nil _).symm, fun _ member => absurd member List.not_mem_nil⟩

/-- Two ranges in a row, where the pages of the second one are not those of the first one. -/
theorem Builds.trans {mid : Nat} (one : Builds frame vma content first mid low between s middle)
    (two : Builds frame vma content mid last between high middle next) (ordered : first ≤ mid) (further : mid ≤ last)
    (lower : low ≤ between) (upper : between ≤ high) (apart : between < high → mid ≤ between ∨ mid ≤ first) :
    Builds frame vma content first last low high s next where
  mm := two.mm.trans one.mm
  bytes := by
    intro addr above below
    by_cases early : addr < mid
    · rw [two.kept addr (by omega) (by omega)]
      exact one.bytes addr above early
    · exact two.bytes addr (by omega) below
  kept := by
    intro addr outside untouched
    rw [two.kept addr (by omega) (by omega)]
    exact one.kept addr (by omega) (by omega)
  touched := by
    obtain ⟨more, isMiddle, firsts⟩ := one.touched
    obtain ⟨rest, isNext, seconds⟩ := two.touched
    refine ⟨more ++ rest, by rw [isNext, isMiddle, List.append_assoc], ?_⟩
    intro touch member
    rcases List.mem_append.mp member with inMore | inRest
    · obtain ⟨same, above, below⟩ := firsts touch inMore
      exact ⟨same, above, by omega⟩
    · obtain ⟨same, above, below⟩ := seconds touch inRest
      exact ⟨same, by omega, below⟩

/-- The same bytes, and more pages. -/
theorem Builds.mono {wanted : Nat → Fin 256} {lowest highest : Nat} (builds : Builds frame vma content first last low high s next)
    (same : ∀ addr, first ≤ addr → addr < last → content addr = wanted addr) (lower : lowest ≤ low) (upper : high ≤ highest) :
    Builds frame vma wanted first last lowest highest s next where
  mm := builds.mm
  bytes := by
    intro addr above below
    rw [← same addr above below]
    exact builds.bytes addr above below
  kept := fun addr outside elsewhere => builds.kept addr outside (by omega)
  touched := by
    obtain ⟨more, isNext, inside⟩ := builds.touched
    refine ⟨more, isNext, fun touch member => ?_⟩
    obtain ⟨same, above, below⟩ := inside touch member
    exact ⟨same, by omega, by omega⟩

/-- The page before `la` is `page`, if the loops over pages are in it. -/
def Position.InPage (frame : σ → Nat → Option Nat) (pos : Position) (space : σ) : Prop :=
  pos.start < pos.la → ∃ page, pos.page = some page ∧ frame space (pos.la.toNat / Paging.pgsize - 1) = some page

/-- A round shows a part of the content. -/
theorem Fills.builds {page : Nat} (maps : MapsPages pgdirAllocPage valid frame) (isValid : valid s.space)
    (fills : Fills pgdirAllocPage memory vma stop page pos s after next) (regular : pos.Regular stop)
    (aligned : pos.la.toNat % Paging.pgsize = 0) (before : pos.start < stop) (inside : pos.la.toNat < vaSize)
    (shows : ∀ index, sourceBytes memory pos.source index = content (pos.start.toNat + index)) :
    valid next.space ∧ frame next.space (pos.la.toNat / Paging.pgsize) = some page ∧
      Builds frame vma content pos.start.toNat after.start.toNat pos.la.toNat after.la.toNat s next := by
  have lower := regular.lower before
  have near := regular.near before
  obtain ⟨nextValid, frames⟩ := maps.alloc isValid inside fills.space
  have isFrame : frame next.space (pos.la.toNat / Paging.pgsize) = some page := by rw [frames, if_pos rfl]
  have isStart := fills.start
  have isLa := fills.la
  have off : (pos.start - pos.la).toNat = pos.start.toNat - pos.la.toNat :=
    BitVec.toNat_sub_of_le (BitVec.le_def.mpr lower)
  have size : (after.start - pos.start).toNat = after.start.toNat - pos.start.toNat := by
    apply BitVec.toNat_sub_of_le
    rw [BitVec.lt_def] at before
    rw [BitVec.le_def]
    omega
  have page := Nat.div_mul_cancel (Nat.dvd_of_mod_eq_zero aligned)
  have first : pos.la.toNat / Paging.pgsize * Paging.pgsize + (pos.start - pos.la).toNat = pos.start.toNat := by omega
  have written := maps.fill nextValid isFrame fills.bytes
  rw [first, size] at written
  rw [BitVec.lt_def] at before
  refine ⟨nextValid, isFrame, ?_⟩
  constructor
  case mm => exact fills.mm
  case bytes =>
    intro addr above below
    rw [userByte, written, if_pos (by omega), shows]
    congr 2
    omega
  case kept =>
    intro addr outside elsewhere
    have other : addr / Paging.pgsize ≠ pos.la.toNat / Paging.pgsize := by
      simp only [Paging.pgsize] at isLa aligned ⊢
      omega
    rw [userByte, written, if_neg (by omega)]
    unfold byteAt userByte byteAt
    rw [frames, if_neg other]
  case touched =>
    refine ⟨[⟨vma, pos.la⟩], fills.touched, fun touch member => ?_⟩
    rw [List.mem_singleton.mp member]
    exact ⟨rfl, Nat.le_refl _, Nat.le_of_eq isLa.symm⟩

/-- Where the bytes from a place on are. -/
def Shows (memory : BitVec 64 → Fin 256) (content : Nat → Fin 256) (pos : Position) : Prop :=
  ∀ index, sourceBytes memory pos.source index = content (pos.start.toNat + index)

/-- What is copied next follows what has been copied. -/
theorem Fills.shows {page : Nat} (fills : Fills pgdirAllocPage memory vma stop page pos s after next)
    (further : pos.start.toNat ≤ after.start.toNat) (shows : Shows memory content pos) : Shows memory content after := by
  intro index
  have size : (after.start - pos.start).toNat = after.start.toNat - pos.start.toNat :=
    BitVec.toNat_sub_of_le (BitVec.le_def.mpr further)
  have later := shows (after.start.toNat - pos.start.toNat + index)
  rw [← Nat.add_assoc, Nat.add_sub_of_le further] at later
  rw [← later, fills.source]
  cases pos.source with
  | none => rfl
  | some source =>
    show memory _ = memory _
    congr 1
    rw [BitVec.add_assoc]
    congr 1
    apply BitVec.eq_of_toNat_eq
    rw [BitVec.toNat_add, size, BitVec.toNat_ofNat, BitVec.toNat_ofNat]
    omega

variable (valid frame vma content) in
/-- What a loop over pages that reached its end has done. -/
structure Shown (pos : Position) (s : Loading σ) (after : Position) (next : Loading σ) : Prop where
  isValid : valid next.space
  inPage : after.InPage frame next.space
  builds : Builds frame vma content pos.start.toNat after.start.toNat pos.la.toNat after.la.toNat s next

/-- A loop over pages that reaches its end shows the content up to `stop`. -/
theorem fillLoop_shown (maps : MapsPages pgdirAllocPage valid frame) (rounds : Nat) (isValid : valid s.space)
    (regular : pos.Regular stop) (placed : pos.Placed) (inPage : pos.InPage frame s.space)
    (small : stop.toNat ≤ userTop.toNat) (shows : Shows memory content pos)
    (ran : fillLoop pgdirAllocPage memory vma stop rounds pos s = (.ok after, next)) :
    Shown valid frame vma content pos s after next := by
  induction rounds generalizing pos s with
  | zero =>
    unfold fillLoop at ran
    split at ran
    · cases ran
    · cases ran
      exact ⟨isValid, inPage, .refl _⟩
  | succ rounds ih =>
    unfold fillLoop at ran
    split at ran
    · rename_i before
      obtain ⟨between, middle, round, rest⟩ := andThen_eq_ok ran
      rcases @fillRound_cases _ pgdirAllocPage memory s vma pos stop regular before with
        ⟨space, _, failed⟩ | ⟨page, between', middle', filled, fills⟩
      · rw [failed] at round
        cases round
      · rw [filled] at round
        cases round
        have lower := regular.lower before
        have isBefore := BitVec.lt_def.mp before
        have top : userTop.toNat < vaSize := by decide
        have size : 0 < Paging.pgsize := by decide
        have isStart := fills.start
        have isLa := fills.la
        have near := regular.near before
        obtain ⟨middleValid, isFrame, built⟩ :=
          fills.builds maps isValid regular placed.aligned before (by omega) shows
        have further : pos.start.toNat ≤ between.start.toNat := by omega
        have middlePage : between.InPage frame middle.space := by
          intro _
          refine ⟨page, fills.filled, ?_⟩
          rw [fills.la, Nat.add_div_right _ (by decide), Nat.succ_sub_one]
          exact isFrame
        have middleRegular := fills.regular regular
        have middlePlaced := fills.placed regular before placed
        have moves := fillLoop_moves middleRegular middlePlaced rest
        have shown := ih middleValid middleRegular middlePlaced middlePage (fills.shows further shows) rest
        have ended := moves.start
        have above := moves.lower
        exact ⟨shown.isValid, shown.inPage,
          built.trans shown.builds further (by omega) (by omega) above (by omega)⟩
    · cases ran
      exact ⟨isValid, inPage, .refl _⟩

/-- The rest of the last page is cleared, up to its end or to `stop`. -/
theorem clearRest_builds (maps : MapsPages pgdirAllocPage valid frame) (isValid : valid s.space) (placed : pos.Placed)
    (inPage : pos.InPage frame s.space) (further : pos.start.toNat ≤ stop.toNat) (zeros : ∀ addr, pos.start.toNat ≤ addr → content addr = 0)
    (ran : clearRest stop pos s = (.ok after, next)) :
    next.space = s.space ∧ after.la = pos.la ∧ after.page = pos.page ∧
      after.start.toNat = max pos.start.toNat (min pos.la.toNat stop.toNat) ∧
      Builds frame vma content pos.start.toNat after.start.toNat pos.la.toNat pos.la.toNat s next := by
  have paged : pos.Paged := fun before => (inPage before).imp fun _ => And.left
  rcases clearRest_exact placed paged further s with
    ⟨none, ended⟩ | ⟨page, off, size, bytes, inside, isPage, isOff, isStart, isSize, filled, cleared⟩
  · rw [none] at ran
    cases ran
    rw [← BitVec.toNat_inj] at ended
    exact ⟨rfl, rfl, rfl, by omega, .refl _⟩
  · rw [cleared] at ran
    cases ran
    obtain ⟨page', isPage', isFrame⟩ := inPage (BitVec.lt_def.mpr inside)
    rw [isPage] at isPage'
    cases isPage'
    have aligned := placed.aligned
    have near := placed.near
    have first : (pos.la.toNat / Paging.pgsize - 1) * Paging.pgsize + off.toNat = pos.start.toNat := by
      rw [isOff]
      simp only [Paging.pgsize] at aligned near ⊢
      omega
    have written := maps.fill isValid isFrame filled
    rw [first] at written
    refine ⟨rfl, rfl, isPage.symm ▸ rfl, isStart.trans (by omega), ?_⟩
    constructor
    case mm => rfl
    case bytes =>
      intro addr above below
      have below : addr < (pos.start + size).toNat := below
      rw [userByte, written, if_pos (by omega), zeros addr above]
    case kept =>
      intro addr outside _
      have outside : ¬ (pos.start.toNat ≤ addr ∧ addr < (pos.start + size).toNat) := outside
      rw [userByte, written, if_neg (by omega)]
      rfl
    case touched => exact ⟨[], (List.append_nil _).symm, fun _ member => absurd member List.not_mem_nil⟩

/-! ## Segments -/

/-- What a segment is to hold: the bytes of the file, and zeros behind them. -/
def segmentContent (memory : BitVec 64 → Fin 256) (va filesz source : BitVec 64) (addr : Nat) : Fin 256 :=
  if addr < va.toNat + filesz.toNat then memory (source + BitVec.ofNat 64 (addr - va.toNat)) else 0

/-- (3.6.2): the zeros behind what has been copied. -/
theorem clears_builds {rounds : Nat} {between : Position} (maps : MapsPages pgdirAllocPage valid frame)
    (isValid : valid s.space) (placed : pos.Placed) (inPage : pos.InPage frame s.space)
    (further : pos.start.toNat ≤ stop.toNat) (small : stop.toNat ≤ userTop.toNat)
    (clears : clearRest stop pos s = (.ok between, middle))
    (ran : fillLoop pgdirAllocPage memory vma stop rounds { between with source := none } middle = (.ok after, next)) :
    valid next.space ∧ after.la.toNat % Paging.pgsize = 0 ∧ pos.la.toNat ≤ after.la.toNat ∧
      (pos.la.toNat < after.la.toNat → after.la.toNat < stop.toNat + Paging.pgsize) ∧
      Builds frame vma (fun _ => 0) pos.start.toNat stop.toNat pos.la.toNat after.la.toNat s next := by
  obtain ⟨sameSpace, sameLa, samePage, isStart, clear⟩ := @clearRest_builds _ _ _ _ _ _ vma _ _ _ (fun _ => 0)
    maps isValid placed inPage further (fun _ _ => rfl) clears
  have top : userTop.toNat = 0x80000000 := rfl
  have size : Paging.pgsize = 4096 := rfl
  have near := placed.near
  have within := placed.within
  have regular : Position.Regular { between with source := none } stop := by
    constructor
    case small => omega
    case lower =>
      intro before
      simp only [BitVec.lt_def, sameLa] at before ⊢
      omega
    case near =>
      intro before
      simp only [sameLa]
      omega
  have middlePlaced : Position.Placed { between with source := none } := by
    constructor
    case aligned =>
      simp only [sameLa]
      exact placed.aligned
    case near =>
      simp only [sameLa]
      omega
    case within =>
      simp only [sameLa]
      omega
  have middlePage : Position.InPage frame { between with source := none } middle.space := by
    intro before
    simp only [BitVec.lt_def, sameLa, samePage, sameSpace] at before ⊢
    exact inPage (BitVec.lt_def.mpr (by omega))
  have shows : Shows memory (fun _ => 0) { between with source := none } := fun _ => rfl
  have moves := fillLoop_moves regular middlePlaced ran
  have shown := fillLoop_shown maps rounds (by rw [sameSpace]; exact isValid) regular middlePlaced middlePage small shows ran
  have ended := moves.start
  have lower := moves.lower
  have upper := moves.upper
  have ahead := moves.ahead
  have builds := shown.builds
  simp only [sameLa] at ended lower upper ahead builds
  have isStop : after.start.toNat = stop.toNat := by omega
  rw [isStop] at builds
  refine ⟨shown.isValid, moves.placed.aligned, lower, upper, clear.trans builds ?_ ?_ (Nat.le_refl _) lower ?_⟩
  · omega
  · omega
  · omega

/-- A segment that is filled to its end has its content, in the pages of its area. -/
theorem fillSegment_builds {va filesz memsz source : BitVec 64} {rounds : Nat} (maps : MapsPages pgdirAllocPage valid frame)
    (isValid : valid s.space) (fits : va.toNat + memsz.toNat ≤ userTop.toNat) (part : filesz.toNat ≤ memsz.toNat)
    (isStart : vma.vmStart = roundDown va)
    (isEnd : vma.vmEnd.toNat = (va.toNat + memsz.toNat + 4095) / 4096 * 4096)
    (ran : fillSegment pgdirAllocPage memory rounds vma va filesz memsz source s = (.ok after, next)) :
    valid next.space ∧ Builds frame vma (segmentContent memory va filesz source) va.toNat (va.toNat + memsz.toNat)
      vma.vmStart.toNat vma.vmEnd.toNat s next := by
  have top : userTop.toNat = 0x80000000 := rfl
  have size : Paging.pgsize = 4096 := rfl
  have fileEnd : (va + filesz).toNat = va.toNat + filesz.toNat := by
    rw [BitVec.toNat_add]
    omega
  have memEnd : (va + memsz).toNat = va.toNat + memsz.toNat := by
    rw [BitVec.toNat_add]
    omega
  have isLa := roundDown_toNat va
  obtain ⟨between, middle, first, last⟩ := andThen_eq_ok ran
  obtain ⟨copied, full, copies, clears⟩ := andThen_eq_ok first
  have shows : Shows memory (fun addr => memory (source + BitVec.ofNat 64 (addr - va.toNat)))
      ⟨va, roundDown va, none, some source⟩ := by
    intro index
    simp only [sourceBytes, Nat.add_sub_cancel_left]
  have noPage : Position.InPage frame ⟨va, roundDown va, none, some source⟩ s.space := by
    intro before
    simp only [BitVec.lt_def, roundDown_toNat] at before
    omega
  have moves := fillLoop_moves (start_regular (by omega)) start_placed copies
  have copy := @fillLoop_shown σ pgdirAllocPage memory valid frame s full vma _ copied _ _ maps rounds isValid
    (start_regular (by omega)) start_placed noPage (by omega) shows copies
  have copyEnd := moves.start
  have copyUpper := moves.upper
  have copyAhead := moves.ahead
  have copyLower := moves.lower
  have copyAligned := moves.placed.aligned
  have copyBuilds := copy.builds
  simp only at copyEnd copyUpper copyAhead copyLower copyBuilds
  obtain ⟨nextValid, aligned, lower, upper, zeros⟩ := @clears_builds _ _ memory _ _ _ _ _ vma _ _ _ _ _ maps copy.isValid
    moves.placed copy.inPage (by omega) (by omega) clears last
  have isCopyEnd : copied.start.toNat = va.toNat + filesz.toNat := by omega
  rw [isCopyEnd] at copyBuilds zeros
  rw [memEnd] at zeros upper
  rw [size] at aligned copyAligned
  have copyPart : Builds frame vma (segmentContent memory va filesz source) va.toNat (va.toNat + filesz.toNat)
      vma.vmStart.toNat copied.la.toNat s full := by
    apply copyBuilds.mono
    · exact fun addr _ below => (if_pos below).symm
    · rw [isStart]
    · exact Nat.le_refl _
  have clearPart : Builds frame vma (segmentContent memory va filesz source) (va.toNat + filesz.toNat)
      (va.toNat + memsz.toNat) copied.la.toNat vma.vmEnd.toNat full next := by
    apply zeros.mono
    · exact fun addr above _ => (if_neg (by omega)).symm
    · exact Nat.le_refl _
    · omega
  rw [← isStart] at copyLower
  exact ⟨nextValid, copyPart.trans clearPart (by omega) (by omega) copyLower (by omega) (by omega)⟩

/-! ## The program headers -/

/-- The header is one of a segment. -/
def Loads (memory : BitVec 64 → Fin 256) (ph : BitVec 64) : Prop := pType.get memory ph = elfPtLoad

/-- The segment ends before the address space does. -/
def Fits (memory : BitVec 64 → Fin 256) (ph : BitVec 64) : Prop :=
  (pVa.get memory ph).toNat + (pMemsz.get memory ph).toNat < 2 ^ 64

/-- A user sees the bytes of the file in the segment, and zeros behind them. -/
structure HasImage (frame : σ → Nat → Option Nat) (memory : BitVec 64 → Fin 256) (binary ph : BitVec 64) (s : Loading σ) :
    Prop where
  copied : ∀ index < (pFilesz.get memory ph).toNat, userByte frame s (pVa.get memory ph + BitVec.ofNat 64 index).toNat =
    some (memory (binary + pOffset.get memory ph + BitVec.ofNat 64 index))
  cleared : ∀ index < (pMemsz.get memory ph).toNat, (pFilesz.get memory ph).toNat ≤ index →
    userByte frame s (pVa.get memory ph + BitVec.ofNat 64 index).toNat = some 0

/-- The page lies in its area. -/
def Touch.Inside (touch : Touch) : Prop :=
  touch.vma.vmStart.toNat ≤ touch.la.toNat ∧ touch.la.toNat + Paging.pgsize ≤ touch.vma.vmEnd.toNat

/-- The address is in an area. -/
def InArea (mm : Mm) (addr : Nat) : Prop := ∃ vma ∈ mm.mmapList, vma.span.Covers addr

/-- What the round of a header has done: the segment is there, and what was in the areas is kept. -/
structure Loaded (valid : σ → Prop) (frame : σ → Nat → Option Nat) (memory : BitVec 64 → Fin 256) (binary ph : BitVec 64)
    (s next : Loading σ) : Prop where
  isValid : valid next.space
  ok : next.mm.Ok
  part : Loads memory ph → (pFilesz.get memory ph).toNat ≤ (pMemsz.get memory ph).toNat
  image : Loads memory ph → HasImage frame memory binary ph next
  inside : Loads memory ph → ∀ addr, (pVa.get memory ph).toNat ≤ addr →
    addr < (pVa.get memory ph).toNat + (pMemsz.get memory ph).toNat → InArea next.mm addr
  areas : ∀ addr, InArea s.mm addr → InArea next.mm addr
  kept : ∀ addr, InArea s.mm addr → userByte frame next addr = userByte frame s addr
  touched : ∃ more, next.touched = s.touched ++ more ∧ ∀ touch ∈ more, touch.Inside

variable {binary ph : BitVec 64} {mm : Mm}

/-- An address of a segment that fits. -/
theorem segment_address {va memsz : BitVec 64} {index : Nat} (fits : va.toNat + memsz.toNat < 2 ^ 64)
    (inside : index < memsz.toNat) : (va + BitVec.ofNat 64 index).toNat = va.toNat + index := by
  rw [BitVec.toNat_add, BitVec.toNat_ofNat]
  omega

/-- An image is still there when its bytes are kept. -/
theorem HasImage.keep (image : HasImage frame memory binary ph s) (fits : Fits memory ph)
    (part : (pFilesz.get memory ph).toNat ≤ (pMemsz.get memory ph).toNat)
    (kept : ∀ addr, (pVa.get memory ph).toNat ≤ addr → addr < (pVa.get memory ph).toNat + (pMemsz.get memory ph).toNat →
      userByte frame next addr = userByte frame s addr) : HasImage frame memory binary ph next where
  copied := by
    intro index inside
    rw [kept, image.copied index inside]
    all_goals rw [segment_address fits (by omega)]; omega
  cleared := by
    intro index inside behind
    rw [kept, image.cleared index inside behind]
    all_goals rw [segment_address fits inside]; omega

/-- A new area shares no address with the others. -/
theorem gained_apart {before behind : List Vma} {other : Vma} {addr : Nat}
    (ordered : Ordered ((before ++ vma :: behind).map Vma.span)) (member : other ∈ before ++ behind)
    (covers : other.span.Covers addr) : ¬ vma.span.Covers addr := by
  rw [List.map_append, List.map_cons] at ordered
  obtain ⟨_, later, across⟩ := ordered_append.mp ordered
  rcases List.mem_append.mp member with isBefore | isBehind
  · have ends := across other.span (List.mem_map_of_mem isBefore) vma.span List.mem_cons_self
    exact apart_of_le ends addr covers
  · have starts := (ordered_cons.mp later).2.1 other.span (List.mem_map_of_mem isBehind)
    exact (apart_of_le starts).symm addr covers

/-- The bytes of a segment that has its content. -/
theorem Builds.image (fits : Fits memory ph) (part : (pFilesz.get memory ph).toNat ≤ (pMemsz.get memory ph).toNat)
    (builds : Builds frame vma (segmentContent memory (pVa.get memory ph) (pFilesz.get memory ph)
      (binary + pOffset.get memory ph)) (pVa.get memory ph).toNat
      ((pVa.get memory ph).toNat + (pMemsz.get memory ph).toNat) low high s next) :
    HasImage frame memory binary ph next where
  copied := by
    intro index inside
    rw [segment_address fits (by omega), builds.bytes _ (by omega) (by omega), segmentContent, if_pos (by omega),
      Nat.add_sub_cancel_left]
  cleared := by
    intro index inside behind
    rw [segment_address fits inside, builds.bytes _ (by omega) (by omega), segmentContent, if_neg (by omega)]

/-- A round that comes to its end skips its header, or it maps and fills a segment. -/
theorem loadSegment_ok {rounds : Nat} {done : Unit}
    (ran : loadSegment pgdirAllocPage vmaCreate memory rounds binary ph s = (.ok done, next)) :
    (¬ Loads memory ph ∧ next = s.access ph [pType]) ∨
    Loads memory ph ∧ (pFilesz.get memory ph).toNat ≤ (pMemsz.get memory ph).toNat ∧ ∃ vma mm reads after,
      mmMap (vmaCreate s.mm.mapCount) s.mm (pVa.get memory ph) (pMemsz.get memory ph)
        (segmentFlags (pFlags.get memory ph)) = some (.ok vma, mm) ∧
      fillSegment pgdirAllocPage memory rounds vma (pVa.get memory ph) (pFilesz.get memory ph) (pMemsz.get memory ph)
        (binary + pOffset.get memory ph) { s with mm, reads } = (.ok after, next) := by
  unfold loadSegment at ran
  dsimp only at ran
  split at ran
  · rename_i other
    cases ran
    exact Or.inl ⟨other, rfl⟩
  · rename_i loads
    split at ran
    · cases ran
    · rename_i part
      rw [BitVec.lt_def, Nat.not_lt] at part
      split at ran
      · cases ran
      · cases ran
      · rename_i vma mm mapped
        obtain ⟨after, last, filled, same⟩ := andThen_eq_ok ran
        cases same
        exact Or.inr ⟨not_not.mp loads, part, vma, mm, _, after, mapped, filled⟩

/-- The round of a header whose segment fits. -/
theorem loadSegment_loaded {rounds : Nat} {done : Unit} (maps : MapsPages pgdirAllocPage valid frame) (isValid : valid s.space)
    (ok : s.mm.Ok) (fits : Loads memory ph → Fits memory ph)
    (ran : loadSegment pgdirAllocPage vmaCreate memory rounds binary ph s = (.ok done, next)) :
    Loaded valid frame memory binary ph s next := by
  rcases loadSegment_ok ran with
    ⟨other, rfl⟩ | ⟨loads, part, vma, mm, reads, after, mapped, filled⟩
  · constructor
    case isValid => exact isValid
    case ok => exact ok
    case part => exact fun loads => absurd loads other
    case image => exact fun loads => absurd loads other
    case inside => exact fun loads => absurd loads other
    case areas => exact fun _ inArea => inArea
    case kept => exact fun _ _ => rfl
    case touched => exact ⟨[], (List.append_nil _).symm, fun _ member => absurd member List.not_mem_nil⟩
  · have fits := fits loads
    rcases mmMap_cases ok (vmaCreate s.mm.mapCount) (pVa.get memory ph) (pMemsz.get memory ph)
        (segmentFlags (pFlags.get memory ph)) with
      ⟨_, _, refused, _⟩ | ⟨area, _, isMapped, gains⟩ | ⟨_, panics⟩
    · rw [refused] at mapped
      cases mapped
    · rw [isMapped] at mapped
      cases mapped
      have access := gains.access
      rw [gains.start, gains.stop] at access
      obtain ⟨isStart, isEnd⟩ := round_exact fits access
      have below := access.2.2
      rw [BitVec.le_def] at below
      rw [← gains.start] at isStart
      rw [← gains.stop] at isEnd below
      obtain ⟨nextValid, builds⟩ := @fillSegment_builds _ _ _ _ _ { s with mm, reads } _ vma _ _ _ _ _ _ maps isValid
        (by omega) part gains.start isEnd filled
      have sameMm : next.mm = mm := builds.mm
      obtain ⟨before, behind, old, new⟩ := gains.gains
      have ordered := gains.ordered
      rw [new] at ordered
      constructor
      case isValid => exact nextValid
      case ok =>
        rw [sameMm]
        exact @mapStep_ok _ _ ok ⟨vmaCreate s.mm.mapCount, _, _, _⟩ (Option.map_eq_some_iff.mpr ⟨_, isMapped, rfl⟩)
      case part => exact fun _ => part
      case image => exact fun _ => builds.image fits part
      case inside =>
        intro _ addr lower upper
        rw [sameMm]
        refine ⟨vma, ?_, ?_⟩
        · rw [new]
          exact List.mem_append_right _ List.mem_cons_self
        · simp only [Span.Covers, Span.stop, Vma.span]
          omega
      case areas =>
        rintro addr ⟨other, member, covers⟩
        rw [sameMm]
        rw [old] at member
        rw [InArea, new]
        exact ⟨other, List.mem_append.mpr ((List.mem_append.mp member).imp_right (List.mem_cons_of_mem _)), covers⟩
      case kept =>
        rintro addr ⟨other, member, covers⟩
        rw [old] at member
        have apart := gained_apart ordered member covers
        simp only [Span.Covers, Span.stop, Vma.span] at apart
        exact builds.kept addr (by omega) (by omega)
      case touched =>
        obtain ⟨more, isNext, inside⟩ := builds.touched
        refine ⟨more, isNext, fun touch member => ?_⟩
        obtain ⟨rfl, lower, upper⟩ := inside touch member
        exact ⟨lower, upper⟩
    · rw [panics] at mapped
      cases mapped

/-- The image of a program: every segment is there, and every page lies in the area of its segment. -/
structure RightImage (frame : σ → Nat → Option Nat) (memory : BitVec 64 → Fin 256) (binary : BitVec 64) (s : Loading σ) :
    Prop where
  segments : ∀ ph ∈ proghdrs memory binary, Loads memory ph → HasImage frame memory binary ph s
  touched : ∀ touch ∈ s.touched, touch.Inside

/-- Headers whose segments fit: all segments are there at the end. -/
theorem loadHeaders_image {rounds : Nat} {done : Unit} {headers : List (BitVec 64)} (maps : MapsPages pgdirAllocPage valid frame)
    (isValid : valid s.space) (ok : s.mm.Ok) (fits : ∀ ph ∈ headers, Loads memory ph → Fits memory ph)
    (ran : loadHeaders pgdirAllocPage vmaCreate memory rounds binary headers s = (.ok done, next)) :
    (∀ ph ∈ headers, Loads memory ph → HasImage frame memory binary ph next) ∧
      (∀ addr, InArea s.mm addr → userByte frame next addr = userByte frame s addr) ∧
      ∃ more, next.touched = s.touched ++ more ∧ ∀ touch ∈ more, touch.Inside := by
  induction headers generalizing s with
  | nil =>
    cases ran
    exact ⟨fun ph member => (nomatch member), fun _ _ => rfl, [], (List.append_nil _).symm, fun _ member => absurd member List.not_mem_nil⟩
  | cons ph rest ih =>
    obtain ⟨_, middle, first, later⟩ := andThen_eq_ok ran
    have loaded := loadSegment_loaded maps isValid ok (fits ph List.mem_cons_self) first
    obtain ⟨images, kept, more, isNext, insides⟩ := ih loaded.isValid loaded.ok
      (fun other member => fits other (List.mem_cons_of_mem _ member)) later
    obtain ⟨firsts, isMiddle, inside⟩ := loaded.touched
    refine ⟨?_, ?_, firsts ++ more, ?_, ?_⟩
    · intro other member loads
      rcases List.mem_cons.mp member with rfl | inRest
      · apply (loaded.image loads).keep (fits other member loads) (loaded.part loads)
        exact fun addr lower upper => kept addr (loaded.inside loads addr lower upper)
      · exact images other inRest loads
    · intro addr inArea
      rw [kept addr (loaded.areas addr inArea), loaded.kept addr inArea]
    · rw [isNext, isMiddle, List.append_assoc]
    · intro touch member
      rcases List.mem_append.mp member with inFirsts | inMore
      · exact inside touch inFirsts
      · exact insides touch inMore

/-- No user sees a byte at the end of the address space, so a segment that wraps around is not there. -/
theorem wraps_noImage (maps : MapsPages pgdirAllocPage valid frame) (wraps : ¬ Fits memory ph) :
    ¬ HasImage frame memory binary ph s := by
  intro image
  unfold Fits at wraps
  have va := (pVa.get memory ph).isLt
  have memsz := (pMemsz.get memory ph).isLt
  have last : (pVa.get memory ph + BitVec.ofNat 64 (2 ^ 64 - 1 - (pVa.get memory ph).toNat)).toNat = 2 ^ 64 - 1 := by
    rw [BitVec.toNat_add, BitVec.toNat_ofNat]
    omega
  have absent : userByte frame s (2 ^ 64 - 1) = none := by
    unfold userByte byteAt
    cases isFrame : frame s.space ((2 ^ 64 - 1) / Paging.pgsize) with
    | none => rfl
    | some page => exact absurd (maps.small isFrame) (by decide)
  by_cases inFile : 2 ^ 64 - 1 - (pVa.get memory ph).toNat < (pFilesz.get memory ph).toNat
  · have copied := image.copied _ inFile
    rw [last, absent] at copied
    cases copied
  · have cleared := image.cleared (2 ^ 64 - 1 - (pVa.get memory ph).toNat) (by omega) (by omega)
    rw [last, absent] at cleared
    cases cleared

/-! ## The page tables of the kernel -/

variable {roots : Finset Nat} {allocator : Nat → Option Nat} {mem : Paging.Memory} {pgdir : Nat}

/-- `pgdir_alloc_page` in a page directory, which does not fail an assertion. -/
def allocIn (allocator : Nat → Option Nat) (pgdir : Nat) (mem : Paging.Memory) (la : BitVec 64) (perm : BitVec 10) :
    Option Nat × Paging.Memory :=
  (Paging.pgdirAllocPage allocator mem pgdir la.toNat perm).getD (none, mem)

/-- The page that a directory maps, by the page number of the address. -/
def frameIn (pgdir : Nat) (mem : Paging.Memory) (number : Nat) : Option Nat :=
  if number < vaSize / Paging.pgsize then mem.mapped pgdir (pathOf (number * Paging.pgsize)) else none

/-- Counts are exact, and the directory maps no page twice. -/
structure MapsOnce (roots : Finset Nat) (pgdir : Nat) (mem : Paging.Memory) : Prop where
  counted : Counted roots mem
  once : ∀ {number other page}, frameIn pgdir mem number = some page → frameIn pgdir mem other = some page → number = other

/-- `pgdir_alloc_page` maps a page that was free. -/
theorem pgdirAllocPage_inserts {la page : Nat} {perm : BitVec 10} {changed : Paging.Memory} (counted : Counted roots mem)
    (isRoot : pgdir ∈ roots) (called : Paging.pgdirAllocPage allocator mem pgdir la perm = some (some page, changed)) :
    page ∈ mem.free ∧ Counted roots changed ∧ ∀ path, changed.leaf pgdir path =
      if path = pathOf la then pteCreate page (pteV ||| perm) else mem.leaf pgdir path := by
  unfold Paging.pgdirAllocPage at called
  rcases allocPage_cases allocator mem with ⟨fresh, isFree, alloc⟩ | alloc
  · rw [alloc] at called
    have inUse : fresh ∉ (mem.taken fresh).free := Finset.notMem_erase fresh mem.free
    have notTable : ¬ (mem.taken fresh).IsTable roots fresh := fun ⟨_, _, names⟩ => counted.toTree.inUse names isFree
    rcases @pageInsert_cases roots allocator _ pgdir fresh la perm (counted.taken fresh) isRoot inUse notTable with
      ⟨after, failed, _⟩ | ⟨after, dead, inserted, inserts, _⟩
    · simp only [failed, Option.bind_eq_bind, Option.bind_some] at called
      rw [if_pos (by decide), Option.map_eq_some_iff] at called
      obtain ⟨_, _, impossible⟩ := called
      cases impossible
    · simp only [inserted, Option.bind_eq_bind, Option.bind_some, ne_eq, not_true_eq_false, if_false, Option.some.injEq,
        Prod.mk.injEq] at called
      obtain ⟨rfl, rfl⟩ := called
      refine ⟨isFree, inserts.counted, fun path => ?_⟩
      rw [inserts.leaf pgdir isRoot path]
      exact if_congr (and_iff_right rfl) rfl rfl
  · rw [alloc] at called
    cases called

/-- The page tables of the kernel map pages as building a process needs it. -/
theorem allocIn_maps (allocator : Nat → Option Nat) (isRoot : pgdir ∈ roots) :
    MapsPages (allocIn allocator pgdir) (MapsOnce roots pgdir) (frameIn pgdir) where
  small := by
    intro mem number page isFrame
    unfold frameIn at isFrame
    split at isFrame
    · assumption
    · cases isFrame
  once := fun isValid first second => isValid.once first second
  alloc := by
    intro mem la perm page changed isValid inside called
    cases result : Paging.pgdirAllocPage allocator mem pgdir la.toNat perm with
    | none =>
      rw [allocIn, result] at called
      cases called
    | some pair =>
      rw [allocIn, result] at called
      obtain rfl : pair = (some page, changed) := called
      obtain ⟨isFree, counted, leaf⟩ := pgdirAllocPage_inserts isValid.counted isRoot result
      have bound : vaSize = 4096 * 134217728 := by decide
      have size : Paging.pgsize = 4096 := rfl
      rw [bound] at inside
      have frames : ∀ number, frameIn pgdir changed number =
          if number = la.toNat / Paging.pgsize then some page else frameIn pgdir mem number := by
        intro number
        unfold frameIn
        have pages : vaSize / Paging.pgsize = 134217728 := by decide
        rw [pages]
        by_cases small : number < 134217728
        · have same : pathOf (number * Paging.pgsize) = pathOf la.toNat ↔ number = la.toNat / Paging.pgsize := by
            rw [pathOf_inj (by rw [size]; omega) (by omega), Nat.mul_div_cancel _ (by decide)]
          rw [if_pos small, if_pos small, Memory.mapped, Memory.mapped, leaf, apply_ite Pte.page?, page?_create]
          exact if_congr same rfl rfl
        · rw [if_neg small, if_neg small, if_neg (by rw [size]; omega)]
      have unmapped : ∀ number, frameIn pgdir mem number ≠ some page := by
        intro number isFrame
        unfold frameIn at isFrame
        split at isFrame
        · exact (isValid.counted.mapped pgdir isRoot _ page isFrame).1 isFree
        · cases isFrame
      refine ⟨⟨counted, ?_⟩, frames⟩
      intro number other same first second
      rw [frames] at first second
      split at first
      · rename_i here
        cases first
        split at second
        · rename_i there
          rw [here, there]
        · exact absurd second (unmapped other)
      · split at second
        · cases second
          exact absurd first (unmapped number)
        · exact isValid.once first second

/-- When the loop over the program headers of a new process comes to its end, the image is right
exactly if no segment wraps around the end of the address space. -/
theorem load_image_exact {changed : Loading Paging.Memory} {rounds : Nat} {bytes : Bytes} {reads : List Read} {done : Unit}
    (counted : Counted roots mem) (isRoot : pgdir ∈ roots) (empty : ∀ path, mem.mapped pgdir path = none)
    (ran : loadSegments (allocIn allocator pgdir) vmaCreate memory rounds binary (newProcess mem bytes reads) =
      (.ok done, changed)) :
    RightImage (frameIn pgdir) memory binary changed ↔
      ∀ ph ∈ proghdrs memory binary, Loads memory ph → Fits memory ph := by
  have maps := @allocIn_maps roots pgdir allocator isRoot
  constructor
  · intro right ph member loads
    by_contra wraps
    exact wraps_noImage maps wraps (right.segments ph member loads)
  · intro fits
    rw [loadSegments_headers] at ran
    have noFrame : ∀ number, frameIn pgdir mem number = none := by
      intro number
      unfold frameIn
      rw [empty, ite_self]
    have isValid : MapsOnce roots pgdir mem := by
      refine ⟨counted, fun first _ => ?_⟩
      rw [noFrame] at first
      cases first
    obtain ⟨images, _, more, isNext, insides⟩ := @loadHeaders_image _ _ _ _ _ _
      ((newProcess mem bytes reads).access binary [ePhnum]) _ binary _ _ _ maps isValid mmCreate_ok fits ran
    refine ⟨images, fun touch member => insides touch ?_⟩
    rw [isNext] at member
    exact member

/-! ## Files with one segment -/

/-- The bytes of a number, the lowest one first. -/
def littleEndian : Nat → Nat → List (Fin 256)
  | 0, _ => []
  | size + 1, value => Fin.ofNat 256 value :: littleEndian size (value / 256)

/-- The headers of a file whose one segment, that may be read and run, follows them. -/
def oneSegment (va filesz memsz : Nat) : List (Fin 256) :=
  littleEndian 4 0x464C457F ++ List.replicate 28 0 ++ littleEndian 8 64 ++ List.replicate 16 0 ++ littleEndian 2 1 ++
    List.replicate 6 0 ++ littleEndian 4 1 ++ littleEndian 4 5 ++ littleEndian 8 120 ++ littleEndian 8 va ++
    littleEndian 8 0 ++ littleEndian 8 filesz ++ littleEndian 8 memsz ++ littleEndian 8 4096

/-- A file at an address, with bytes 7 behind its headers. -/
def fileAt (binary : BitVec 64) (headers : List (Fin 256)) (address : BitVec 64) : Fin 256 :=
  headers.getD (address - binary).toNat 7

/-- An empty directory and four free pages. -/
def fourPages : Paging.Memory := { threePages with free := {1, 2, 3, 4} }

theorem fourPages_counted : Counted {0} fourPages := by
  apply Starts.counted
  refine ⟨fun _ _ _ => rfl, ?_, fun _ _ => rfl⟩
  intro pgdir isRoot
  rw [Finset.mem_singleton.mp isRoot]
  decide

theorem fourPages_empty (path : Path) : fourPages.mapped 0 path = none := by
  have noTable : fourPages.lastTable 0 path.1 path.2.1 = none := by
    have zero : fourPages.table 0 path.1 = .zero := rfl
    rw [Memory.lastTable, Memory.entry, zero, page?_zero, Option.bind_none]
  rw [Memory.mapped, leaf_none noTable, page?_zero]

/-- The loop over the program headers of a file at 0x1000, in a new process. -/
def loadOne (headers : List (Fin 256)) : Result Paging.Memory Unit :=
  loadSegments (allocIn (fun calls => some (calls + 1)) 0) (fun _ => true) (fileAt 0x1000#64 headers) 3 0x1000#64
    (newProcess fourPages (fun _ => 0) [])

theorem eq_ok_of_isOk {result : Result σ Unit} (ended : result.1.isOk = true) : result = (.ok (), result.2) := by
  obtain ⟨outcome, s⟩ := result
  cases outcome with
  | ok done => rfl
  | error stop => cases ended


theorem oneSegment_header : proghdrs (fileAt 0x1000#64 (oneSegment 0x800010 3 0x1000)) 0x1000#64 = [0x1040#64] := by
  decide +kernel

theorem oneSegment_fits : Fits (fileAt 0x1000#64 (oneSegment 0x800010 3 0x1000)) 0x1040#64 := by
  unfold Fits
  decide +kernel

/-- Three bytes of a file in the middle of a page, and zeros behind them up to the middle of the next page. -/
theorem load_image_exact_small : ∃ changed, loadOne (oneSegment 0x800010 3 0x1000) = (.ok (), changed) ∧
    RightImage (frameIn 0) (fileAt 0x1000#64 (oneSegment 0x800010 3 0x1000)) 0x1000#64 changed := by
  have ran := @eq_ok_of_isOk _ (loadOne (oneSegment 0x800010 3 0x1000)) (by decide +kernel)
  generalize (loadOne (oneSegment 0x800010 3 0x1000)).2 = changed at ran
  refine ⟨changed, ran, ?_⟩
  unfold loadOne at ran
  apply (load_image_exact fourPages_counted (Finset.mem_singleton_self 0) fourPages_empty ran).mpr
  intro ph member _
  rw [oneSegment_header, List.mem_singleton] at member
  rw [member]
  exact oneSegment_fits

/-- A segment of 2^64 - 3 bytes at the fifth byte of a page is mapped as an area of one page. The loop comes to its end,
but it has filled a page behind the area, and no byte behind those of the file. -/
theorem load_wraps : ∃ changed, loadOne (oneSegment 0x800005 8187 (2 ^ 64 - 3)) = (.ok (), changed) ∧
    (∃ touch ∈ changed.touched, ¬ touch.Inside) ∧
    ¬ RightImage (frameIn 0) (fileAt 0x1000#64 (oneSegment 0x800005 8187 (2 ^ 64 - 3))) 0x1000#64 changed := by
  have ran := @eq_ok_of_isOk _ (loadOne (oneSegment 0x800005 8187 (2 ^ 64 - 3))) (by decide +kernel)
  have ends : (loadOne (oneSegment 0x800005 8187 (2 ^ 64 - 3))).2.touched.map (fun touch => (touch.vma.vmEnd, touch.la)) =
      [(0x801000#64, 0x800000#64), (0x801000#64, 0x801000#64)] := by
    decide +kernel
  generalize (loadOne (oneSegment 0x800005 8187 (2 ^ 64 - 3))).2 = changed at ran ends
  have second : (0x801000#64, 0x801000#64) ∈ changed.touched.map fun touch => (touch.vma.vmEnd, touch.la) := by
    rw [ends]
    exact List.mem_cons_of_mem _ List.mem_cons_self
  obtain ⟨touch, member, same⟩ := List.mem_map.mp second
  obtain ⟨isEnd, isLa⟩ := Prod.mk.inj same
  have outside : ¬ touch.Inside := by
    unfold Touch.Inside
    rw [isEnd, isLa]
    exact fun inside => absurd inside.2 (by decide)
  exact ⟨changed, ran, ⟨touch, member, outside⟩, fun right => outside (right.touched touch member)⟩

end Ucore.LoadIcode
