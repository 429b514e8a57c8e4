import Ucore.Mm.VmaLookup

/-!
# Bytes of a user

`user_mem_check` tests the first byte of the range in each area. `copy_string` checks the
part of the string in each page before it looks for its end there. Both decide about every
byte: areas are checked from their first byte in the range, and pages are in one area.
-/

namespace Ucore.Vmm

open Spans

/-- No address is in two areas, and the cache is one of them. -/
structure Mm.Disjoint (mm : Mm) : Prop where
  apart : ∀ vma ∈ mm.mmapList, ∀ other ∈ mm.mmapList, vma ≠ other → Apart vma.span other.span
  cache : ∀ vma ∈ mm.mmapCache, vma ∈ mm.mmapList

/-- An area of the byte permits the access. -/
def Permitted (mm : Mm) (write : Bool) (byte : Nat) : Prop :=
  ∃ vma ∈ mm.mmapList, vma.span.Covers byte ∧ vma.vmFlags &&& (if write then vmWrite else vmRead) ≠ 0#32

/-- The byte is in the first page of an area of a stack. -/
def InGuard (mm : Mm) (byte : Nat) : Prop :=
  ∃ vma ∈ mm.mmapList, vma.span.Covers byte ∧ vma.vmFlags &&& vmStack ≠ 0#32 ∧ byte < vma.vmStart.toNat + pgsize.toNat

/-- What `user_mem_check` asks of a byte. -/
def Grants (mm : Mm) (write : Bool) (byte : Nat) : Prop := Permitted mm write byte ∧ ¬ (write = true ∧ InGuard mm byte)

variable {mm next : Mm} {vma other : Vma} {addr start stop : BitVec 64} {write : Bool} {byte : Nat}

/-! ## `user_mem_check` -/

/-- Sorted areas are disjoint. -/
theorem disjoint_ordered (ordered : Ordered (mm.mmapList.map Vma.span)) (cache : ∀ vma ∈ mm.mmapCache, vma ∈ mm.mmapList) :
    mm.Disjoint where
  apart := by
    intro vma member other memberToo different point inFirst inSecond
    have sameSpan := ordered.covers_unique (List.mem_map_of_mem member) (List.mem_map_of_mem memberToo) inFirst inSecond
    have distinct := ordered.starts_nodup
    rw [List.map_map] at distinct
    exact different (List.inj_on_of_nodup_map distinct member memberToo (congrArg Span.start sameSpan))
  cache := cache

theorem Mm.Disjoint.unique (disjoint : mm.Disjoint) (member : vma ∈ mm.mmapList) (memberToo : other ∈ mm.mmapList)
    (covers : vma.span.Covers byte) (coversToo : other.span.Covers byte) : vma = other := by
  by_contra different
  exact disjoint.apart vma member other memberToo different byte covers coversToo

/-- A lookup finds the area of the address and keeps it in the cache, or there is none. -/
theorem Mm.Disjoint.find_cases (disjoint : mm.Disjoint) (addr : BitVec 64) :
    (∃ vma ∈ mm.mmapList, vma.span.Covers addr.toNat ∧ findVma mm addr = (some vma, { mm with mmapCache := some vma })) ∨
      (∀ vma ∈ mm.mmapList, ¬ vma.span.Covers addr.toNat) ∧ findVma mm addr = (none, mm) := by
  unfold findVma
  split
  · rename_i cached
    obtain ⟨vma, isCached, contains⟩ := cached
    refine Or.inl ⟨vma, disjoint.cache vma isCached, Vma.contains_iff.mp contains, ?_⟩
    obtain ⟨list, cache, count⟩ := mm
    cases isCached
    rfl
  · split
    · rename_i vma found
      refine Or.inl ⟨vma, List.mem_of_find?_eq_some found, Vma.contains_iff.mp ?_, rfl⟩
      simpa using List.find?_some found
    · rename_i absent
      refine Or.inr ⟨fun vma member covers => ?_, rfl⟩
      have outside := List.find?_eq_none.mp absent vma member
      exact outside (by simpa using Vma.contains_iff.mpr covers)

theorem Mm.Disjoint.cached (disjoint : mm.Disjoint) (member : vma ∈ mm.mmapList) :
    Mm.Disjoint { mm with mmapCache := some vma } where
  apart := disjoint.apart
  cache := by
    rintro other ⟨rfl⟩
    exact member

/-- The tests on the first byte of an area decide about all of its bytes in the range. -/
theorem Mm.Disjoint.permits_iff (disjoint : mm.Disjoint) (member : vma ∈ mm.mmapList) (covers : vma.span.Covers start.toNat)
    (low : start < userTop) : vma.Permits start write ↔ Grants mm write start.toNat := by
  have lower := covers.1
  rw [BitVec.lt_def] at low
  simp only [userTop, BitVec.toNat_ofNat] at low
  have noWrap : (vma.vmStart + pgsize).toNat = vma.vmStart.toNat + pgsize.toNat := by
    simp only [Vma.span] at lower
    rw [BitVec.toNat_add, Nat.mod_eq_of_lt]
    simp only [pgsize, BitVec.toNat_ofNat]
    omega
  constructor
  · rintro ⟨_, flags, notGuard⟩
    refine ⟨⟨vma, member, covers, flags⟩, ?_⟩
    rintro ⟨isWrite, other, memberToo, coversToo, isStack, early⟩
    obtain rfl := disjoint.unique member memberToo covers coversToo
    exact notGuard ⟨isWrite, isStack, by rw [BitVec.lt_def, noWrap]; exact early⟩
  · rintro ⟨⟨other, memberToo, coversToo, flags⟩, notGuard⟩
    obtain rfl := disjoint.unique member memberToo covers coversToo
    refine ⟨BitVec.le_def.mpr lower, flags, ?_⟩
    rintro ⟨isWrite, isStack, early⟩
    rw [BitVec.lt_def, noWrap] at early
    exact notGuard ⟨isWrite, vma, member, covers, isStack, early⟩

/-- What the first byte in an area is granted, the later ones are granted as well. -/
theorem Mm.Disjoint.grants_later (disjoint : mm.Disjoint) (member : vma ∈ mm.mmapList) {first : Nat}
    (covers : vma.span.Covers first) (grants : Grants mm write first) (later : first ≤ byte) (inside : byte < vma.span.stop) :
    Grants mm write byte := by
  obtain ⟨⟨other, memberToo, coversToo, flags⟩, notGuard⟩ := grants
  obtain rfl := disjoint.unique member memberToo covers coversToo
  have coversByte : vma.span.Covers byte := ⟨Nat.le_trans covers.1 later, inside⟩
  refine ⟨⟨vma, member, coversByte, flags⟩, ?_⟩
  rintro ⟨isWrite, another, memberAlso, coversAlso, isStack, early⟩
  obtain rfl := disjoint.unique member memberAlso coversByte coversAlso
  exact notGuard ⟨isWrite, vma, member, covers, isStack, Nat.lt_of_le_of_lt later early⟩

/-- The loop accepts a range in which every byte is granted; it only changes the cache. -/
theorem userMemLoop_exact (disjoint : mm.Disjoint) (low : stop ≤ userTop) :
    ((userMemLoop mm start stop write).1 = true ↔ ∀ byte, start.toNat ≤ byte → byte < stop.toNat → Grants mm write byte) ∧
      (userMemLoop mm start stop write).2.mmapList = mm.mmapList ∧ (userMemLoop mm start stop write).2.Disjoint := by
  induction rest : stop.toNat - start.toNat using Nat.strong_induction_on generalizing mm start with
  | h rest' ih =>
    subst rest
    rw [userMemLoop_round]
    split
    · rename_i inside
      have below : start < userTop := Nat.lt_of_lt_of_le inside low
      rw [BitVec.lt_def] at inside
      rcases disjoint.find_cases start with ⟨vma, member, covers, isFound⟩ | ⟨absent, isFound⟩
      · rw [isFound]
        simp only
        have isStop : vma.span.stop = vma.vmEnd.toNat := by
          obtain ⟨lower, upper⟩ := covers
          simp only [Vma.span, Span.stop] at lower upper ⊢
          omega
        have upper := covers.2
        rw [isStop] at upper
        split
        · rename_i permits
          have grants := (disjoint.permits_iff member covers below).mp permits
          obtain ⟨accepts, sameList, disjointLast⟩ :=
            ih (stop.toNat - vma.vmEnd.toNat) (by omega) (disjoint.cached member) rfl
          refine ⟨accepts.trans ?_, sameList, disjointLast⟩
          constructor
          · intro behind byte lower isIn
            by_cases passed : vma.vmEnd.toNat ≤ byte
            · exact behind byte passed isIn
            · exact disjoint.grants_later member covers grants lower (by omega)
          · exact fun all byte lower isIn => all byte (by omega) isIn
        · rename_i refused
          refine ⟨⟨fun absurdity => absurd absurdity Bool.false_ne_true, fun all => ?_⟩, rfl, disjoint.cached member⟩
          exact absurd ((disjoint.permits_iff member covers below).mpr (all start.toNat (Nat.le_refl _) inside)) refused
      · rw [isFound]
        refine ⟨⟨fun absurdity => absurd absurdity Bool.false_ne_true, fun all => ?_⟩, rfl, disjoint⟩
        obtain ⟨⟨vma, member, covers, _⟩, _⟩ := all start.toNat (Nat.le_refl _) inside
        exact absurd covers (absent vma member)
    · rename_i empty
      rw [BitVec.lt_def] at empty
      exact ⟨⟨fun _ byte lower isIn => absurd (Nat.lt_of_le_of_lt lower isIn) empty, fun _ => rfl⟩, rfl, disjoint⟩

/-- `user_mem_check` of a process accepts the ranges of granted bytes between the bounds. -/
theorem userMemCheck_exact (disjoint : mm.Disjoint) (addr : BitVec 64) {len : Nat} (small : len < 2 ^ 64) (write : Bool) :
    ((userMemCheck (some mm) addr len write).1 = true ↔
      0 < len ∧ userBase.toNat ≤ addr.toNat ∧ addr.toNat + len ≤ userTop.toNat ∧
        ∀ byte, addr.toNat ≤ byte → byte < addr.toNat + len → Grants mm write byte) ∧
      ∃ next, (userMemCheck (some mm) addr len write).2 = some next ∧ next.mmapList = mm.mmapList ∧ next.Disjoint := by
  have isStop : (addr + BitVec.ofNat 64 len).toNat = (addr.toNat + len) % 2 ^ 64 := by
    rw [BitVec.toNat_add, BitVec.toNat_ofNat]
    omega
  have range := addr.isLt
  have isTop : userTop.toNat = 0x80000000 := by decide
  simp only [userMemCheck]
  split
  · rename_i access
    obtain ⟨low, nonempty, high⟩ := access
    obtain ⟨accepts, sameList, disjointLast⟩ := @userMemLoop_exact mm addr (addr + BitVec.ofNat 64 len) write disjoint high
    refine ⟨?_, _, rfl, sameList, disjointLast⟩
    rw [BitVec.le_def] at low high
    rw [BitVec.lt_def, isStop] at nonempty
    rw [isStop] at high
    rw [accepts, isStop]
    have noWrap : (addr.toNat + len) % 2 ^ 64 = addr.toNat + len := by omega
    rw [noWrap]
    constructor
    · exact fun all => ⟨by omega, low, by omega, all⟩
    · exact fun holds => holds.2.2.2
  · rename_i refused
    refine ⟨⟨fun absurdity => absurd absurdity Bool.false_ne_true, ?_⟩, mm, rfl, rfl, disjoint⟩
    rintro ⟨positive, low, high, _⟩
    refine absurd ⟨BitVec.le_def.mpr low, ?_, ?_⟩ refused
    · rw [BitVec.lt_def, isStop]
      omega
    · rw [BitVec.le_def, isStop]
      omega

/-- `user_mem_check` accepts a range exactly if it is not empty, lies between the bounds
without wrapping, every byte is in an area that permits the access, and no byte that is to be
written is in the first page of an area of a stack. -/
theorem user_mem_check_exact (mm : Mm) (ordered : Ordered (mm.mmapList.map Vma.span))
    (cache : ∀ vma ∈ mm.mmapCache, vma ∈ mm.mmapList) (addr len : BitVec 64) (write : Bool) :
    (userMemCheck (some mm) addr len.toNat write).1 = true ↔
      0 < len.toNat ∧ userBase.toNat ≤ addr.toNat ∧ addr.toNat + len.toNat ≤ userTop.toNat ∧
        (∀ byte, addr.toNat ≤ byte → byte < addr.toNat + len.toNat → Permitted mm write byte) ∧
          (write = true → ∀ byte, addr.toNat ≤ byte → byte < addr.toNat + len.toNat → ¬ InGuard mm byte) := by
  rw [(userMemCheck_exact (disjoint_ordered ordered cache) addr len.isLt write).1]
  constructor
  · rintro ⟨positive, low, high, grants⟩
    exact ⟨positive, low, high, fun byte lower isIn => (grants byte lower isIn).1,
      fun isWrite byte lower isIn inGuard => (grants byte lower isIn).2 ⟨isWrite, inGuard⟩⟩
  · rintro ⟨positive, low, high, permitted, noGuard⟩
    exact ⟨positive, low, high, fun byte lower isIn => ⟨permitted byte lower isIn,
      fun guarded => noGuard guarded.1 byte lower isIn guarded.2⟩⟩

/-- A process with an area for reading in front of one for reading and writing. -/
def twoAreas : Mm where
  mmapList := [⟨0x400000#64, 0x401000#64, vmRead⟩, ⟨0x401000#64, 0x403000#64, vmRead ||| vmWrite⟩]
  mmapCache := none
  mapCount := 2

theorem twoAreas_ordered : Ordered (twoAreas.mmapList.map Vma.span) := by
  refine ordered_cons.mpr ⟨by decide, ?_, ordered_cons.mpr ⟨by decide, by simp, ordered_nil⟩⟩
  intro later member
  rw [List.mem_singleton.mp member]
  decide

/-- Both areas are read. -/
theorem user_mem_check_exact_two : (userMemCheck (some twoAreas) 0x400800#64 (0x1000#64).toNat false).1 = true := by
  refine (user_mem_check_exact twoAreas twoAreas_ordered (by rintro _ ⟨⟩) 0x400800#64 0x1000#64 false).mpr
    ⟨by decide, by decide, by decide, fun byte lower isIn => ?_, by rintro ⟨⟩⟩
  simp only [BitVec.toNat_ofNat] at lower isIn
  by_cases inFirst : byte < 0x401000
  · refine ⟨⟨0x400000#64, 0x401000#64, vmRead⟩, by decide, ?_, by decide⟩
    simp only [Vma.span, Span.Covers, Span.stop, BitVec.toNat_ofNat]
    omega
  · refine ⟨⟨0x401000#64, 0x403000#64, vmRead ||| vmWrite⟩, by decide, ?_, by decide⟩
    simp only [Vma.span, Span.Covers, Span.stop, BitVec.toNat_ofNat]
    omega

end Ucore.Vmm
