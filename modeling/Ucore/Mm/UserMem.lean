import Ucore.Libs.Memory
import Ucore.Mm.Vmm

/-!
# Memory of a user

`user_mem_check` of `kern/mm/vmm.c` walks the areas of a range and asks each for the access.
`copy_from_user` and `copy_to_user` copy when it agrees. A kernel thread has no memory
manager, and its range must lie in the kernel.
-/

namespace Ucore.Vmm

open Spans

/-- `VM_READ`, `VM_WRITE` and `VM_STACK` -/
def vmRead : BitVec 32 := 1#32
def vmWrite : BitVec 32 := 2#32
def vmStack : BitVec 32 := 8#32

/-- `KERNBASE` and `KERNTOP` -/
def kernBase : BitVec 64 := 0xFFFFFFFFC0200000#64
def kernTop : BitVec 64 := kernBase + 0x7E00000#64

/-- `KERN_ACCESS` -/
def KernAccess (start stop : BitVec 64) : Prop := kernBase ≤ start ∧ start < stop ∧ stop ≤ kernTop

instance (start stop : BitVec 64) : Decidable (KernAccess start stop) :=
  inferInstanceAs (Decidable (_ ∧ _ ∧ _))

/-- The tests of `user_mem_check` on the area of an address. -/
def Vma.Permits (vma : Vma) (start : BitVec 64) (write : Bool) : Prop :=
  vma.vmStart ≤ start ∧ vma.vmFlags &&& (if write then vmWrite else vmRead) ≠ 0#32 ∧
    ¬ (write = true ∧ vma.vmFlags &&& vmStack ≠ 0#32 ∧ start < vma.vmStart + pgsize)

instance (vma : Vma) (start : BitVec 64) (write : Bool) : Decidable (vma.Permits start write) :=
  inferInstanceAs (Decidable (_ ∧ _ ∧ ¬ _))

/-- A lookup finds an area of the address. -/
theorem findVma_contains {mm next : Mm} {vma : Vma} {addr : BitVec 64} (isFound : findVma mm addr = (some vma, next)) :
    vma.Contains addr := by
  unfold findVma at isFound
  split at isFound
  · rename_i cached
    obtain ⟨other, isCached, contains⟩ := cached
    obtain rfl : other = vma := Option.some.inj (isCached.symm.trans (Prod.mk.inj isFound).1)
    exact contains
  · split at isFound
    · rename_i other found
      obtain rfl : other = vma := Option.some.inj (Prod.mk.inj isFound).1
      simpa using List.find?_some found
    · cases (Prod.mk.inj isFound).1

/-- The loop of `user_mem_check`. -/
def userMemLoop (mm : Mm) (start stop : BitVec 64) (write : Bool) : Bool × Mm :=
  if start < stop then
    match _isFound : findVma mm start with
    | (some vma, mm) => if vma.Permits start write then userMemLoop mm vma.vmEnd stop write else (false, mm)
    | (none, mm) => (false, mm)
  else (true, mm)
termination_by stop.toNat - start.toNat
decreasing_by
  have inside := (findVma_contains _isFound).2
  simp only [BitVec.lt_def] at *
  omega

/-- `user_mem_check` -/
def userMemCheck (mm : Option Mm) (addr : BitVec 64) (len : Nat) (write : Bool) : Bool × Option Mm :=
  let stop := addr + BitVec.ofNat 64 len
  match mm with
  | some mm =>
      if UserAccess addr stop then
        let (accepted, mm) := userMemLoop mm addr stop write
        (accepted, some mm)
      else (false, some mm)
  | none => (decide (KernAccess addr stop), none)

/-- `copy_from_user`, with the bytes it copies. -/
def copyFromUser (mm : Option Mm) (bytes : Bytes) (src : BitVec 64) (len : Nat) (writable : Bool) :
    Option (Nat → Fin 256) × Option Mm :=
  let (accepted, mm) := userMemCheck mm src len writable
  (if accepted then some fun index => bytes (src.toNat + index) else none, mm)

/-- `copy_to_user`, with the memory that it leaves. -/
def copyToUser (mm : Option Mm) (bytes : Bytes) (dst : BitVec 64) (src : Nat → Fin 256) (len : Nat) :
    Bool × Option Mm × Bytes :=
  let (accepted, mm) := userMemCheck mm dst len true
  (accepted, mm, if accepted then memcpy bytes dst.toNat src len else bytes)

variable {mm next other : Mm} {vma : Vma} {addr start stop : BitVec 64} {write : Bool} {len : Nat}

/-! ## Ranges that are accepted -/

/-- The addresses that `user_mem_check` may accept. -/
def accessible : Option Mm → Nat × Nat
  | some _ => (userBase.toNat, userTop.toNat)
  | none => (kernBase.toNat, kernTop.toNat)

/-- An accepted range does not wrap and lies between the bounds. -/
theorem userMemCheck_bounds {mm : Option Mm} (small : len < 2 ^ 32) (accepted : (userMemCheck mm addr len write).1 = true) :
    (accessible mm).1 ≤ addr.toNat ∧ addr.toNat + len ≤ (accessible mm).2 := by
  have isStop : (addr + BitVec.ofNat 64 len).toNat = (addr.toNat + len) % 2 ^ 64 := by
    rw [BitVec.toNat_add, BitVec.toNat_ofNat]
    omega
  have range := addr.isLt
  unfold userMemCheck at accepted
  cases mm with
  | some mm =>
    simp only at accepted
    split at accepted
    · rename_i access
      obtain ⟨low, nonempty, high⟩ := access
      rw [BitVec.le_def] at low high
      rw [BitVec.lt_def] at nonempty
      rw [isStop] at nonempty high
      simp only [accessible, userBase, userTop, BitVec.toNat_ofNat] at *
      omega
    · cases accepted
  | none =>
    obtain ⟨low, nonempty, high⟩ := of_decide_eq_true accepted
    rw [BitVec.le_def] at low high
    rw [BitVec.lt_def] at nonempty
    rw [isStop] at nonempty high
    have isTop : kernTop.toNat = 0xFFFFFFFFC8000000 := by decide
    simp only [accessible, kernBase, BitVec.toNat_ofNat, isTop] at *
    omega

/-- A check leaves the bounds as they are. -/
theorem accessible_check (mm : Option Mm) (addr : BitVec 64) (len : Nat) (write : Bool) :
    accessible (userMemCheck mm addr len write).2 = accessible mm := by
  unfold userMemCheck
  cases mm with
  | some mm =>
    dsimp only
    split
    · rfl
    · rfl
  | none => rfl

/-- The bounds are less than 2^31 apart. -/
theorem accessible_small (mm : Option Mm) : (accessible mm).2 - (accessible mm).1 < 2 ^ 31 := by
  cases mm with
  | some _ => exact (by decide : userTop.toNat - userBase.toNat < 2 ^ 31)
  | none => exact (by decide : kernTop.toNat - kernBase.toNat < 2 ^ 31)

/-! ## The cache -/

/-- Memory managers with the same areas, whatever their caches. -/
structure SameAreas (mm other : Mm) : Prop where
  ok : mm.Ok
  okToo : other.Ok
  areas : mm.mmapList = other.mmapList

theorem SameAreas.refl (ok : mm.Ok) : SameAreas mm mm := ⟨ok, ok, rfl⟩

theorem SameAreas.after (same : SameAreas mm other) (kept : SameAreas mm next) : SameAreas next other :=
  ⟨kept.okToo, same.okToo, kept.areas.symm.trans same.areas⟩

/-- An address is in one area. -/
theorem Mm.Ok.contains_unique (ok : mm.Ok) {vma other : Vma} (member : vma ∈ mm.mmapList)
    (memberToo : other ∈ mm.mmapList) (contains : vma.Contains addr) (containsToo : other.Contains addr) : vma = other := by
  have sameSpan := ok.ordered.covers_unique (List.mem_map_of_mem member) (List.mem_map_of_mem memberToo)
    (Vma.contains_iff.mp contains) (Vma.contains_iff.mp containsToo)
  have distinct := ok.ordered.starts_nodup
  rw [List.map_map] at distinct
  exact List.inj_on_of_nodup_map distinct member memberToo (congrArg Span.start sameSpan)

theorem Mm.Ok.cached (ok : mm.Ok) (member : vma ∈ mm.mmapList) : Mm.Ok { mm with mmapCache := some vma } where
  ordered := ok.ordered
  cache := by
    rintro other ⟨rfl⟩
    exact member
  count := ok.count

/-- A lookup finds the same area whatever the cache. -/
theorem findVma_same (same : SameAreas mm other) (addr : BitVec 64) :
    (findVma mm addr).1 = (findVma other addr).1 ∧ SameAreas (findVma mm addr).2 (findVma other addr).2 := by
  obtain ⟨ok, okToo, areas⟩ := same
  rcases @findVma_cases mm addr ok with ⟨vma, member, contains, isFound⟩ | ⟨absent, isFound⟩
  · rcases @findVma_cases other addr okToo with ⟨vma', member', contains', isFound'⟩ | ⟨absent', _⟩
    · obtain rfl := ok.contains_unique member (areas ▸ member') contains contains'
      rw [isFound, isFound']
      exact ⟨rfl, ok.cached member, okToo.cached member', areas⟩
    · exact absurd contains (absent' vma (areas ▸ member))
  · rcases @findVma_cases other addr okToo with ⟨vma', member', contains', _⟩ | ⟨_, isFound'⟩
    · exact absurd contains' (absent vma' (areas ▸ member'))
    · rw [isFound, isFound']
      exact ⟨rfl, ok, okToo, areas⟩

/-- A round of the loop. -/
theorem userMemLoop_round (mm : Mm) (start stop : BitVec 64) (write : Bool) :
    userMemLoop mm start stop write =
      if start < stop then
        match (findVma mm start).1 with
        | some vma =>
            if vma.Permits start write then userMemLoop (findVma mm start).2 vma.vmEnd stop write
            else (false, (findVma mm start).2)
        | none => (false, (findVma mm start).2)
      else (true, mm) := by
  rw [userMemLoop]
  split
  · split
    · rename_i vma next isFound
      rw [isFound]
    · rename_i next isFound
      rw [isFound]
  · rfl

theorem userMemLoop_same (same : SameAreas mm other) (start stop : BitVec 64) (write : Bool) :
    (userMemLoop mm start stop write).1 = (userMemLoop other start stop write).1 ∧
      SameAreas mm (userMemLoop mm start stop write).2 := by
  induction rest : stop.toNat - start.toNat using Nat.strong_induction_on generalizing mm other start with
  | h rest' ih =>
    subst rest
    obtain ⟨sameFound, sameNext⟩ := findVma_same same start
    have kept : SameAreas mm (findVma mm start).2 := by
      rcases @findVma_cases mm start same.ok with ⟨vma, member, _, isFound⟩ | ⟨_, isFound⟩
      · rw [isFound]
        exact ⟨same.ok, same.ok.cached member, rfl⟩
      · rw [isFound]
        exact .refl same.ok
    rw [userMemLoop_round mm, userMemLoop_round other, ← sameFound]
    split
    · rename_i inside
      cases isFound : (findVma mm start).1 with
      | none => exact ⟨rfl, kept⟩
      | some vma =>
        have behind := (findVma_contains (Prod.ext isFound rfl : findVma mm start = (some vma, _))).2
        rw [BitVec.lt_def] at behind inside
        dsimp only
        split
        · obtain ⟨sameLater, keptLater⟩ := ih (stop.toNat - vma.vmEnd.toNat) (by omega) sameNext vma.vmEnd rfl
          exact ⟨sameLater, kept.ok, keptLater.okToo, kept.areas.trans keptLater.areas⟩
        · exact ⟨rfl, kept⟩
    · exact ⟨rfl, .refl same.ok⟩

/-- Two managers of the same memory; a kernel thread has none. -/
def SameMemory : Option Mm → Option Mm → Prop
  | some mm, some other => SameAreas mm other
  | none, none => True
  | _, _ => False

theorem SameMemory.refl {mm : Option Mm} (ok : ∀ manager ∈ mm, manager.Ok) : SameMemory mm mm := by
  cases mm with
  | some manager => exact SameAreas.refl (ok manager rfl)
  | none => trivial

theorem SameMemory.after {mm other next : Option Mm} (same : SameMemory mm other) (kept : SameMemory mm next) :
    SameMemory next other := by
  cases mm with
  | none =>
    cases other with
    | none =>
      cases next with
      | none => trivial
      | some next => exact kept.elim
    | some other => exact same.elim
  | some mm =>
    cases other with
    | none => exact same.elim
    | some other =>
      cases next with
      | none => exact kept.elim
      | some next => exact SameAreas.after same kept

/-- `user_mem_check` depends on the areas alone, and keeps them. -/
theorem userMemCheck_same {mm other : Option Mm} (same : SameMemory mm other) (addr : BitVec 64) (len : Nat) (write : Bool) :
    (userMemCheck mm addr len write).1 = (userMemCheck other addr len write).1 ∧
      SameMemory mm (userMemCheck mm addr len write).2 := by
  unfold userMemCheck
  cases mm with
  | some mm =>
    cases other with
    | some other =>
      dsimp only
      split
      · exact userMemLoop_same same _ _ _
      · exact ⟨rfl, SameAreas.refl (SameAreas.ok same)⟩
    | none => exact same.elim
  | none =>
    cases other with
    | some other => exact same.elim
    | none => exact ⟨rfl, trivial⟩

end Ucore.Vmm
