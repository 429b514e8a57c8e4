import Ucore.Libs.Memory
import Ucore.Mm.UserBytes

/-!
# Strings of a user

`copy_string` of `kern/mm/vmm.c` copies a string from the user page by page. It checks the
part of a page before it looks for the end of the string there, and gives up when so many
bytes have no end.
-/

namespace Ucore.Vmm

open Spans

/-- `strnlen` of `libs/string.c` -/
def strnlen (src : Nat → Fin 256) : Nat → Nat
  | 0 => 0
  | len + 1 => if src 0 = 0 then 0 else strnlen (fun index => src (index + 1)) len + 1

/-- What `copy_string` returns and leaves. The last field is history: the ranges of the source
that it has read. -/
structure StringCopy where
  ret : Bool
  mm : Option Mm
  buffer : Bytes
  reads : List Span

/-- An empty range is refused. -/
theorem userMemCheck_empty (mm : Option Mm) (addr : BitVec 64) (write : Bool) :
    (userMemCheck mm addr 0 write).1 = false := by
  have isStop : addr + BitVec.ofNat 64 0 = addr := BitVec.add_zero addr
  have notBelow : ¬ addr < addr := Nat.lt_irrefl _
  unfold userMemCheck
  rw [isStop]
  cases mm with
  | some mm =>
    have refused : ¬ UserAccess addr addr := fun access => notBelow access.2.1
    simp only [if_neg refused]
  | none => exact decide_eq_false fun access => notBelow access.2.1

/-- The loop of `copy_string`, with the ranges read so far. -/
def copyStringLoop (mm : Option Mm) (bytes buffer : Bytes) (dst : Nat) (src : BitVec 64) (part maxn : Nat)
    (reads : List Span) : StringCopy :=
  match _isChecked : userMemCheck mm src (min part maxn) false with
  | (true, mm) =>
      let data := fun index => bytes (src.toNat + index)
      let alen := strnlen data (min part maxn)
      if alen < min part maxn then ⟨true, mm, memcpy buffer dst data (alen + 1), reads ++ [⟨src.toNat, alen + 1⟩]⟩
      else if min part maxn = maxn then ⟨false, mm, buffer, reads ++ [⟨src.toNat, min part maxn⟩]⟩
      else
        copyStringLoop mm bytes (memcpy buffer dst data (min part maxn)) (dst + min part maxn)
          (src + BitVec.ofNat 64 (min part maxn)) pgsize.toNat (maxn - min part maxn)
          (reads ++ [⟨src.toNat, min part maxn⟩])
  | (false, mm) => ⟨false, mm, buffer, reads⟩
termination_by maxn
decreasing_by
  rename_i goesOn
  have nonempty : min part maxn ≠ 0 := by
    intro empty
    rw [empty] at _isChecked
    have accepted := congrArg Prod.fst _isChecked
    rw [userMemCheck_empty] at accepted
    cases accepted
  omega

/-- `copy_string`, to a buffer that is not in the memory of the user. -/
def copyString (mm : Option Mm) (bytes buffer : Bytes) (dst : Nat) (src maxn : BitVec 64) : StringCopy :=
  copyStringLoop mm bytes buffer dst src (roundDown (src + pgsize) - src).toNat maxn.toNat []

/-- The areas begin and end at pages. -/
def Mm.Aligned (mm : Mm) : Prop :=
  ∀ vma ∈ mm.mmapList, vma.vmStart.toNat % pgsize.toNat = 0 ∧ vma.vmEnd.toNat % pgsize.toNat = 0

/-- The user may read the byte. -/
def Readable (mm : Mm) (byte : Nat) : Prop := userBase.toNat ≤ byte ∧ byte < userTop.toNat ∧ Permitted mm false byte

variable {mm next : Mm} {src maxn : BitVec 64} {bytes buffer : Bytes} {dst byte : Nat} {reads : List Span}

/-! ## Parts of a page -/

theorem strnlen_le (data : Nat → Fin 256) (len : Nat) : strnlen data len ≤ len := by
  induction len generalizing data with
  | zero => exact Nat.le_refl _
  | succ len ih =>
    unfold strnlen
    split
    · exact Nat.zero_le _
    · exact Nat.succ_le_succ (ih _)

/-- Bytes in front of the end of a string are not 0. -/
theorem strnlen_nonzero {data : Nat → Fin 256} {len index : Nat} (early : index < strnlen data len) : data index ≠ 0 := by
  induction len generalizing data index with
  | zero => exact absurd early (Nat.not_lt_zero _)
  | succ len ih =>
    unfold strnlen at early
    split at early
    · exact absurd early (Nat.not_lt_zero _)
    · rename_i nonzero
      cases index with
      | zero => exact nonzero
      | succ index => exact @ih (fun index => data (index + 1)) index (Nat.lt_of_succ_lt_succ early)

/-- The end that `strnlen` finds is a 0. -/
theorem strnlen_zero {data : Nat → Fin 256} {len : Nat} (ended : strnlen data len < len) : data (strnlen data len) = 0 := by
  induction len generalizing data with
  | zero => exact absurd ended (Nat.not_lt_zero _)
  | succ len ih =>
    unfold strnlen at ended ⊢
    split
    · rename_i zero
      exact zero
    · rename_i nonzero
      rw [if_neg nonzero] at ended
      exact @ih (fun index => data (index + 1)) (Nat.lt_of_succ_lt_succ ended)

theorem bounds_exact : pgsize.toNat = 4096 ∧ userBase.toNat = 0x200000 ∧ userTop.toNat = 0x80000000 := by
  decide

/-- A page is in one area. -/
theorem Readable.page (aligned : mm.Aligned) {first : Nat} (readable : Readable mm first)
    (samePage : byte / pgsize.toNat = first / pgsize.toNat) : Readable mm byte := by
  obtain ⟨low, high, vma, member, covers, flags⟩ := readable
  obtain ⟨alignedStart, alignedEnd⟩ := aligned vma member
  obtain ⟨isPage, isBase, isTop⟩ := bounds_exact
  rw [isPage] at alignedStart alignedEnd samePage
  rw [isBase] at low
  rw [isTop] at high
  simp only [Vma.span, Span.Covers, Span.stop] at covers
  refine ⟨by omega, by omega, vma, member, ?_, flags⟩
  simp only [Vma.span, Span.Covers, Span.stop]
  omega

/-- A part of a page is accepted if its first byte may be read. -/
theorem userMemCheck_page (disjoint : mm.Disjoint) (aligned : mm.Aligned) {part : Nat}
    (inPage : src.toNat % pgsize.toNat + part ≤ pgsize.toNat) :
    ((userMemCheck (some mm) src part false).1 = true ↔ 0 < part ∧ Readable mm src.toNat) ∧
      ∃ next, (userMemCheck (some mm) src part false).2 = some next ∧ next.mmapList = mm.mmapList ∧ next.Disjoint := by
  obtain ⟨isPage, isBase, isTop⟩ := bounds_exact
  have small : part < 2 ^ 64 := by omega
  obtain ⟨accepts, checked⟩ := userMemCheck_exact disjoint src small false
  refine ⟨accepts.trans ?_, checked⟩
  constructor
  · rintro ⟨positive, low, high, grants⟩
    exact ⟨positive, low, by omega, (grants src.toNat (Nat.le_refl _) (by omega)).1⟩
  · rintro ⟨positive, readable⟩
    refine ⟨positive, readable.1, ?_, fun byte lower isIn => ⟨?_, fun guarded => absurd guarded.1 Bool.false_ne_true⟩⟩
    · have below := readable.2.1
      rw [isPage] at inPage
      omega
    · have inSame : byte / pgsize.toNat = src.toNat / pgsize.toNat := by
        rw [isPage] at inPage ⊢
        omega
      exact (readable.page aligned inSame).2.2

/-! ## The loop -/

/-- A round of the loop. -/
theorem copyStringLoop_round (mm : Option Mm) (bytes buffer : Bytes) (dst : Nat) (src : BitVec 64) (part maxn : Nat)
    (reads : List Span) : copyStringLoop mm bytes buffer dst src part maxn reads =
      let checked := userMemCheck mm src (min part maxn) false
      let data := fun index => bytes (src.toNat + index)
      let alen := strnlen data (min part maxn)
      if checked.1 = false then ⟨false, checked.2, buffer, reads⟩
      else if alen < min part maxn then
        ⟨true, checked.2, memcpy buffer dst data (alen + 1), reads ++ [⟨src.toNat, alen + 1⟩]⟩
      else if min part maxn = maxn then ⟨false, checked.2, buffer, reads ++ [⟨src.toNat, min part maxn⟩]⟩
      else
        copyStringLoop checked.2 bytes (memcpy buffer dst data (min part maxn)) (dst + min part maxn)
          (src + BitVec.ofNat 64 (min part maxn)) pgsize.toNat (maxn - min part maxn)
          (reads ++ [⟨src.toNat, min part maxn⟩]) := by
  rw [copyStringLoop]
  split
  · rename_i next isChecked
    simp only [isChecked, Bool.true_eq_false, if_false]
  · rename_i next isChecked
    simp only [isChecked, if_true]

/-- What a copy of so many bytes at most does. -/
structure Copies (mm : Mm) (bytes buffer : Bytes) (dst src maxn : Nat) (reads : List Span) (copy : StringCopy) : Prop where
  ret : copy.ret = true ↔ ∃ k < maxn, bytes (src + k) = 0 ∧ ∀ j ≤ k, Readable mm (src + j)
  holds : copy.ret = true → ∃ k < maxn, bytes (src + k) = 0 ∧ (∀ j < k, bytes (src + j) ≠ 0) ∧
    ∀ address, copy.buffer address =
      if dst ≤ address ∧ address < dst + (k + 1) then bytes (src + (address - dst)) else buffer address
  frame : ∀ address, ¬ (dst ≤ address ∧ address < dst + maxn) → copy.buffer address = buffer address
  reads : ∀ span ∈ copy.reads, span ∈ reads ∨ ∀ byte, span.Covers byte → Readable mm byte

/-- The areas decide what may be read. -/
theorem readable_areas (same : next.mmapList = mm.mmapList) : Readable next byte ↔ Readable mm byte := by
  simp only [Readable, Permitted, same]

theorem Copies.areas {first maxn : Nat} {copy : StringCopy} (copies : Copies next bytes buffer dst first maxn reads copy)
    (same : next.mmapList = mm.mmapList) : Copies mm bytes buffer dst first maxn reads copy where
  ret := by simpa only [readable_areas same] using copies.ret
  holds := copies.holds
  frame := copies.frame
  reads := by simpa only [readable_areas same] using copies.reads

/-- A range in a page whose first byte may be read. -/
theorem Readable.span (aligned : mm.Aligned) (readable : Readable mm src.toNat) {size : Nat}
    (inPage : src.toNat % pgsize.toNat + size ≤ pgsize.toNat) : ∀ byte, (Span.mk src.toNat size).Covers byte → Readable mm byte := by
  rintro byte ⟨lower, upper⟩
  simp only [Span.stop] at lower upper
  apply readable.page aligned
  rw [bounds_exact.1] at inPage ⊢
  omega

/-- The bytes in front of the end are copied, if all of them and the end may be read. The
induction is on the bytes that may be left. -/
theorem copyStringLoop_exact (disjoint : mm.Disjoint) (aligned : mm.Aligned) (limit : Nat) {part : Nat}
    (isPart : part = pgsize.toNat - src.toNat % pgsize.toNat) (reads : List Span) :
    Copies mm bytes buffer dst src.toNat limit reads (copyStringLoop (some mm) bytes buffer dst src part limit reads) := by
  obtain ⟨isPage, _, isTop⟩ := bounds_exact
  induction limit using Nat.strong_induction_on generalizing mm buffer dst src part reads with
  | h limit ih =>
    have inPage : src.toNat % pgsize.toNat + min part limit ≤ pgsize.toNat := by
      rw [isPage] at isPart ⊢
      omega
    have nonempty : 0 < part := by
      rw [isPage] at isPart
      omega
    obtain ⟨accepts, next, isNext, sameAreas, disjointNext⟩ := userMemCheck_page disjoint aligned inPage
    rw [copyStringLoop_round]
    simp only [isNext]
    split
    · rename_i refused
      refine ⟨⟨fun absurdity => absurd absurdity Bool.false_ne_true, ?_⟩, fun absurdity => absurd absurdity Bool.false_ne_true,
        fun _ _ => rfl, fun _ member => Or.inl member⟩
      rintro ⟨k, small, _, readable⟩
      have accepted := accepts.mpr ⟨by omega, readable 0 (Nat.zero_le _)⟩
      exact absurd (accepted.symm.trans refused) (by decide)
    rename_i notRefused
    obtain ⟨positive, readable⟩ := accepts.mp (by simpa using notRefused)
    have short := strnlen_le (fun index => bytes (src.toNat + index)) (min part limit)
    have nonzero : ∀ j < strnlen (fun index => bytes (src.toNat + index)) (min part limit), bytes (src.toNat + j) ≠ 0 :=
      fun j early => @strnlen_nonzero (fun index => bytes (src.toNat + index)) _ j early
    have readableHere : ∀ j < min part limit, Readable mm (src.toNat + j) := by
      intro j small
      apply readable.span aligned inPage
      simp only [Span.Covers, Span.stop]
      omega
    split
    · rename_i ended
      have zero := @strnlen_zero (fun index => bytes (src.toNat + index)) _ ended
      generalize strnlen (fun index => bytes (src.toNat + index)) (min part limit) = alen at *
      refine ⟨⟨fun _ => ⟨alen, by omega, zero, fun j early => readableHere j (by omega)⟩, fun _ => rfl⟩,
        fun _ => ⟨alen, by omega, zero, nonzero, fun address => memcpy_exact ..⟩, fun address outside => ?_, ?_⟩
      · simp only [memcpy_exact]
        rw [if_neg (by omega)]
      · intro span member
        rcases List.mem_append.mp member with old | new
        · exact Or.inl old
        · rw [List.mem_singleton.mp new]
          exact Or.inr (readable.span aligned (by omega))
    rename_i noEnd
    have whole : strnlen (fun index => bytes (src.toNat + index)) (min part limit) = min part limit := by omega
    rw [whole] at nonzero
    have readsHere : ∀ span ∈ reads ++ [⟨src.toNat, min part limit⟩], span ∈ reads ∨
        ∀ byte, span.Covers byte → Readable mm byte := by
      intro span member
      rcases List.mem_append.mp member with old | new
      · exact Or.inl old
      · rw [List.mem_singleton.mp new]
        exact Or.inr (readable.span aligned inPage)
    split
    · rename_i isLast
      refine ⟨⟨fun absurdity => absurd absurdity Bool.false_ne_true, ?_⟩, fun absurdity => absurd absurdity Bool.false_ne_true,
        fun _ _ => rfl, readsHere⟩
      rintro ⟨k, small, zero, _⟩
      exact absurd zero (nonzero k (by omega))
    rename_i goesOn
    have isMin : min part limit = part := by omega
    rw [isMin] at nonzero readableHere readsHere ⊢
    have below := readable.2.1
    have isSrc : (src + BitVec.ofNat 64 part).toNat = src.toNat + part := by
      rw [isPage] at isPart
      rw [BitVec.toNat_add, BitVec.toNat_ofNat]
      omega
    have nextPart : pgsize.toNat = pgsize.toNat - (src + BitVec.ofNat 64 part).toNat % pgsize.toNat := by
      rw [isSrc, isPage]
      rw [isPage] at isPart
      omega
    have alignedNext : next.Aligned := fun vma member => aligned vma (sameAreas ▸ member)
    have rest := (@ih (limit - part) (by omega) next (src + BitVec.ofNat 64 part)
      (memcpy buffer dst (fun index => bytes (src.toNat + index)) part) (dst + part) disjointNext alignedNext pgsize.toNat
      nextPart (reads ++ [⟨src.toNat, part⟩])).areas sameAreas
    rw [isSrc] at rest
    constructor
    case ret =>
      rw [rest.ret]
      constructor
      · rintro ⟨k, small, zero, readableRest⟩
        refine ⟨part + k, by omega, by rwa [← Nat.add_assoc], fun j early => ?_⟩
        by_cases here : j < part
        · exact readableHere j here
        · have later := readableRest (j - part) (by omega)
          rwa [Nat.add_assoc, Nat.add_sub_cancel' (by omega)] at later
      · rintro ⟨k, small, zero, readableAll⟩
        have passed : part ≤ k := by
          by_contra early
          exact nonzero k (by omega) zero
        refine ⟨k - part, by omega, ?_, fun j early => ?_⟩
        · rwa [Nat.add_assoc, Nat.add_sub_cancel' passed]
        · rw [Nat.add_assoc]
          exact readableAll (part + j) (by omega)
    case holds =>
      intro succeeded
      obtain ⟨k, small, zero, nonzeroRest, content⟩ := rest.holds succeeded
      refine ⟨part + k, by omega, by rwa [← Nat.add_assoc], fun j early => ?_, fun address => ?_⟩
      · by_cases here : j < part
        · exact nonzero j here
        · have later := nonzeroRest (j - part) (by omega)
          rwa [Nat.add_assoc, Nat.add_sub_cancel' (by omega)] at later
      · rw [content, memcpy_exact]
        by_cases here : dst + part ≤ address ∧ address < dst + part + (k + 1)
        · rw [if_pos here, if_pos (by omega), Nat.add_assoc, Nat.sub_add_eq, Nat.add_sub_cancel' (by omega)]
        · rw [if_neg here]
          by_cases early : dst ≤ address ∧ address < dst + part
          · rw [if_pos early, if_pos (by omega)]
          · rw [if_neg early, if_neg (by omega)]
    case frame =>
      intro address outside
      rw [rest.frame address (by omega), memcpy_exact, if_neg (by omega)]
    case reads =>
      intro span member
      rcases rest.reads span member with old | readableSpan
      · exact readsHere span old
      · exact Or.inr readableSpan

/-- The part of the first page, when the addition wraps as well. -/
theorem firstPart_exact (src : BitVec 64) :
    (roundDown (src + pgsize) - src).toNat = pgsize.toNat - src.toNat % pgsize.toNat := by
  have range := src.isLt
  have isDown := roundDown_toNat (src + pgsize)
  have sum : (src + pgsize).toNat = (src.toNat + 4096) % 2 ^ 64 := by
    rw [BitVec.toNat_add]
    rfl
  have isPage : pgsize.toNat = 4096 := by decide
  rw [BitVec.toNat_sub, isDown, sum, isPage]
  omega

/-- `copy_string` returns 1 exactly if there is a 0 at an offset below the limit, up to which
the user may read all bytes. Then the buffer holds the bytes up to the first 0 and is
otherwise as before. No more bytes of the buffer than the limit are written in any case, and
no byte of the source is read that the user may not read. -/
theorem copy_string_exact (mm : Mm) (disjoint : mm.Disjoint) (aligned : mm.Aligned) (bytes buffer : Bytes) (dst : Nat)
    (src maxn : BitVec 64) :
    Copies mm bytes buffer dst src.toNat maxn.toNat [] (copyString (some mm) bytes buffer dst src maxn) :=
  copyStringLoop_exact disjoint aligned maxn.toNat (firstPart_exact src) []

theorem twoAreas_disjoint : twoAreas.Disjoint := disjoint_ordered twoAreas_ordered (by rintro _ ⟨⟩)

theorem twoAreas_aligned : twoAreas.Aligned := by
  unfold Mm.Aligned
  decide

theorem twoAreas_readable {byte : Nat} (low : 0x400000 ≤ byte) (high : byte < 0x403000) : Readable twoAreas byte := by
  obtain ⟨_, isBase, isTop⟩ := bounds_exact
  refine ⟨by omega, by omega, ?_⟩
  by_cases inFirst : byte < 0x401000
  · refine ⟨⟨0x400000#64, 0x401000#64, vmRead⟩, by decide, ?_, by decide⟩
    simp only [Vma.span, Span.Covers, Span.stop, BitVec.toNat_ofNat]
    omega
  · refine ⟨⟨0x401000#64, 0x403000#64, vmRead ||| vmWrite⟩, by decide, ?_, by decide⟩
    simp only [Vma.span, Span.Covers, Span.stop, BitVec.toNat_ofNat]
    omega

/-- A string of three bytes that ends in the page behind the one where it starts. -/
theorem copy_string_exact_pages : ∃ copy, copyString (some twoAreas) (fun address => if address = 0x401001 then 0 else 65)
    (fun _ => 1) 0 0x400FFE#64 8#64 = copy ∧ copy.ret = true := by
  have copies := copy_string_exact twoAreas twoAreas_disjoint twoAreas_aligned
    (fun address => if address = 0x401001 then 0 else 65) (fun _ => 1) 0 0x400FFE#64 8#64
  refine ⟨_, rfl, copies.ret.mpr ⟨3, by decide, by decide, fun j early => ?_⟩⟩
  simp only [BitVec.toNat_ofNat]
  exact twoAreas_readable (by omega) (by omega)

end Ucore.Vmm
