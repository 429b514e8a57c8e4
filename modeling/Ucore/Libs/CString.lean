import Mathlib.Algebra.GroupWithZero.Nat
import Mathlib.Data.List.Basic

/-!
# Strings

A string is kept as the bytes in front of its end, none of which is 0. In memory it is
followed by a 0 and by other bytes. `strcmp` of `libs/string.c` compares a string with
one in memory.
-/

namespace Ucore

theorem byteCodes_ne_zero : 256 ≠ 0 := by decide

instance (priority := 2000) byteCodes_neZero : NeZero (256 : Nat) := ⟨byteCodes_ne_zero⟩

/-- A byte of a string. -/
abbrev NameByte := { byte : Fin 256 // byte ≠ 0 }

/-- A string. -/
abbrev Name := List NameByte

/-- `strcmp` -/
def strcmp : Name → (Nat → Fin 256) → Int
  | [], buffer => 0 - ((buffer 0).val : Int)
  | byte :: rest, buffer =>
      if byte.val = buffer 0 then strcmp rest fun index => buffer (index + 1)
      else (byte.val.val : Int) - ((buffer 0).val : Int)

/-- Memory that holds a string. -/
def HoldsString (buffer : Nat → Fin 256) (name : Name) : Prop :=
  (∀ (index : Nat) byte, name[index]? = some byte → buffer index = byte.val) ∧ buffer name.length = 0

/-- Two strings compare equal when they are the same. -/
theorem strcmp_exact {buffer : Nat → Fin 256} {held : Name} (holds : HoldsString buffer held) (name : Name) :
    strcmp name buffer = 0 ↔ name = held := by
  induction name generalizing buffer held with
  | nil =>
    cases held with
    | nil =>
      have ended : buffer 0 = 0 := holds.2
      simp [strcmp, ended]
    | cons head rest =>
      have first : buffer 0 = head.val := holds.1 0 head rfl
      have nonzero : head.val.val ≠ 0 := fun zero => head.property (Fin.ext zero)
      simp only [strcmp, first, reduceCtorEq, iff_false]
      omega
  | cons byte name ih =>
    cases held with
    | nil =>
      have ended : buffer 0 = 0 := holds.2
      have nonzero : byte.val.val ≠ 0 := fun zero => byte.property (Fin.ext zero)
      have different : byte.val ≠ buffer 0 := fun same => byte.property (same.trans ended)
      rw [strcmp, if_neg different, ended]
      simpa using nonzero
    | cons head rest =>
      have first : buffer 0 = head.val := holds.1 0 head rfl
      have later : HoldsString (fun index => buffer (index + 1)) rest :=
        ⟨fun index other isOther => holds.1 (index + 1) other isOther, holds.2⟩
      by_cases same : byte = head
      · simp only [strcmp, first, same, if_true, ih later, List.cons.injEq, true_and]
      · have different : byte.val ≠ head.val := fun equal => same (Subtype.ext equal)
        have nonzero : byte.val.val ≠ head.val.val := fun equal => different (Fin.ext equal)
        simp only [strcmp, first, if_neg different, List.cons.injEq, same, false_and, iff_false]
        omega

/-- The string that starts in front of a buffer of so many bytes. -/
def stringAt (buffer : Nat → Fin 256) : Nat → Name
  | 0 => []
  | rest + 1 =>
      if isByte : buffer 0 = 0 then [] else ⟨buffer 0, isByte⟩ :: stringAt (fun index => buffer (index + 1)) rest

/-- The string depends on the bytes of the buffer. -/
theorem stringAt_congr {buffer other : Nat → Fin 256} {length : Nat}
    (same : ∀ index < length, buffer index = other index) : stringAt buffer length = stringAt other length := by
  induction length generalizing buffer other with
  | zero => rfl
  | succ length ih =>
    have later := ih fun index small => same (index + 1) (Nat.succ_lt_succ small)
    simp only [stringAt, same 0 (Nat.succ_pos length), later]

/-- A buffer with a 0 in its last byte holds its string. -/
theorem stringAt_holds {buffer : Nat → Fin 256} {length : Nat} (ended : buffer length = 0) :
    HoldsString buffer (stringAt buffer length) := by
  induction length generalizing buffer with
  | zero => exact ⟨fun index byte isByte => by simp [stringAt] at isByte, ended⟩
  | succ length ih =>
    unfold stringAt
    split
    · rename_i zero
      exact ⟨fun index byte isByte => by simp at isByte, zero⟩
    · obtain ⟨bytes, zero⟩ := @ih (fun index => buffer (index + 1)) ended
      refine ⟨fun index byte isByte => ?_, zero⟩
      cases index with
      | zero =>
        obtain rfl : _ = byte := Option.some.inj isByte
        rfl
      | succ index => exact bytes index byte isByte

end Ucore
