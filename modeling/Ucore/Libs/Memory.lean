import Mathlib.Logic.Function.Basic
import Ucore.Libs.CString

/-!
# Copies in memory

`memcpy` and `memmove` of `libs/string.c` copy byte after byte. `memmove` starts at the end
that the copy does not overwrite.
-/

namespace Ucore

/-- The bytes of the memory. -/
abbrev Bytes := Nat → Fin 256

/-- `memcpy` from an object of its own. -/
def memcpy (bytes : Bytes) (dst : Nat) (src : Nat → Fin 256) : Nat → Bytes
  | 0 => bytes
  | n + 1 => memcpy (Function.update bytes dst (src 0)) (dst + 1) (fun index => src (index + 1)) n

/-- The loop of `memmove` that starts at the first byte. -/
def moveForward (bytes : Bytes) (d s : Nat) : Nat → Bytes
  | 0 => bytes
  | n + 1 => moveForward (Function.update bytes d (bytes s)) (d + 1) (s + 1) n

/-- The loop of `memmove` that starts at the last byte; both addresses are behind it. -/
def moveBackward (bytes : Bytes) (d s : Nat) : Nat → Bytes
  | 0 => bytes
  | n + 1 => moveBackward (Function.update bytes (d - 1) (bytes (s - 1))) (d - 1) (s - 1) n

/-- `memmove` -/
def memmove (bytes : Bytes) (dst src n : Nat) : Bytes :=
  if src < dst ∧ dst < src + n then moveBackward bytes (dst + n) (src + n) n else moveForward bytes dst src n

/-- Memory that holds some bytes from an address on. -/
def HoldsAt (bytes : Bytes) (address : Nat) (held : List (Fin 256)) : Prop :=
  ∀ (index : Nat) byte, held[index]? = some byte → bytes (address + index) = byte

variable {bytes : Bytes} {address : Nat} {held : List (Fin 256)}

theorem memcpy_exact (bytes : Bytes) (dst : Nat) (src : Nat → Fin 256) (n : Nat) (address : Nat) :
    memcpy bytes dst src n address = if dst ≤ address ∧ address < dst + n then src (address - dst) else bytes address := by
  induction n generalizing bytes dst src with
  | zero => simp [memcpy, show ¬ (dst ≤ address ∧ address < dst) by omega]
  | succ n ih =>
    rw [memcpy, ih]
    by_cases first : address = dst
    · subst first
      rw [if_neg (by omega), if_pos (by omega), Function.update_self, Nat.sub_self]
    · rw [Function.update_of_ne first]
      by_cases inside : dst + 1 ≤ address ∧ address < dst + 1 + n
      · have index : address - (dst + 1) + 1 = address - dst := by omega
        rw [if_pos inside, if_pos (by omega), index]
      · rw [if_neg inside, if_neg (by omega)]

/-- Two copies in a row are one. -/
theorem memcpy_append (bytes : Bytes) (dst : Nat) (src : Nat → Fin 256) (n m : Nat) :
    memcpy (memcpy bytes dst src n) (dst + n) (fun index => src (n + index)) m = memcpy bytes dst src (n + m) := by
  funext address
  simp only [memcpy_exact]
  by_cases later : dst + n ≤ address ∧ address < dst + n + m
  · have index : n + (address - (dst + n)) = address - dst := by omega
    rw [if_pos later, if_pos (by omega), index]
  · rw [if_neg later]
    by_cases first : dst ≤ address ∧ address < dst + n
    · rw [if_pos first, if_pos (by omega)]
    · rw [if_neg first, if_neg (by omega)]

/-- The copy from the first byte on, to a lower address or apart from the source. -/
theorem moveForward_exact (bytes : Bytes) {d s n : Nat} (apart : d ≤ s ∨ s + n ≤ d) (address : Nat) :
    moveForward bytes d s n address =
      if d ≤ address ∧ address < d + n then bytes (s + (address - d)) else bytes address := by
  induction n generalizing bytes d s with
  | zero => simp [moveForward, show ¬ (d ≤ address ∧ address < d) by omega]
  | succ n ih =>
    rw [moveForward, ih _ (by omega)]
    by_cases first : address = d
    · subst first
      rw [if_neg (by omega), if_pos (by omega), Function.update_self, Nat.sub_self, Nat.add_zero]
    · rw [Function.update_of_ne first]
      by_cases inside : d + 1 ≤ address ∧ address < d + 1 + n
      · have index : s + 1 + (address - (d + 1)) = s + (address - d) := by omega
        rw [if_pos inside, if_pos (by omega), Function.update_of_ne (by omega), index]
      · rw [if_neg inside, if_neg (by omega)]

/-- The copy from the last byte on, to a higher address. -/
theorem moveBackward_exact (bytes : Bytes) {d s n : Nat} (above : s < d) (address : Nat) :
    moveBackward bytes (d + n) (s + n) n address =
      if d ≤ address ∧ address < d + n then bytes (s + (address - d)) else bytes address := by
  induction n generalizing bytes with
  | zero => simp [moveBackward, show ¬ (d ≤ address ∧ address < d) by omega]
  | succ n ih =>
    have dLast : d + (n + 1) - 1 = d + n := by omega
    have sLast : s + (n + 1) - 1 = s + n := by omega
    rw [moveBackward, dLast, sLast, ih]
    by_cases last : address = d + n
    · subst last
      rw [if_neg (by omega), if_pos (by omega), Function.update_self, Nat.add_sub_cancel_left]
    · rw [Function.update_of_ne last]
      by_cases inside : d ≤ address ∧ address < d + n
      · rw [if_pos inside, if_pos (by omega), Function.update_of_ne (by omega)]
      · rw [if_neg inside, if_neg (by omega)]

/-- `memmove` copies the bytes that were there, also when the areas overlap. -/
theorem memmove_exact (bytes : Bytes) (dst src n address : Nat) :
    memmove bytes dst src n address =
      if dst ≤ address ∧ address < dst + n then bytes (src + (address - dst)) else bytes address := by
  unfold memmove
  split
  · rename_i overlap
    exact moveBackward_exact bytes overlap.1 address
  · exact moveForward_exact bytes (by omega) address

theorem HoldsAt.append {more : List (Fin 256)} (first : HoldsAt bytes address held)
    (second : HoldsAt bytes (address + held.length) more) : HoldsAt bytes address (held ++ more) := by
  intro index byte isByte
  by_cases inside : index < held.length
  · rw [List.getElem?_append_left inside] at isByte
    exact first index byte isByte
  · rw [List.getElem?_append_right (by omega)] at isByte
    have here := second _ byte isByte
    rwa [Nat.add_assoc, Nat.add_sub_of_le (by omega)] at here

/-- Some bytes are held when the first is and the others are behind it. -/
theorem HoldsAt.cons_iff {byte : Fin 256} :
    HoldsAt bytes address (byte :: held) ↔ bytes address = byte ∧ HoldsAt bytes (address + 1) held := by
  constructor
  · intro holds
    refine ⟨holds 0 byte rfl, fun index other isOther => ?_⟩
    rw [Nat.add_assoc, Nat.add_comm 1]
    exact holds (index + 1) other isOther
  · rintro ⟨first, behind⟩ index other isOther
    cases index with
    | zero => exact first.trans (Option.some.inj isOther)
    | succ index =>
      have here := behind index other isOther
      rwa [Nat.add_assoc, Nat.add_comm 1] at here

/-- Bytes are held when those in front are and those behind are. -/
theorem HoldsAt.append_iff {more : List (Fin 256)} :
    HoldsAt bytes address (held ++ more) ↔ HoldsAt bytes address held ∧ HoldsAt bytes (address + held.length) more := by
  constructor
  · intro holds
    refine ⟨fun index byte isByte => ?_, fun index byte isByte => ?_⟩
    · obtain ⟨inside, _⟩ := List.getElem?_eq_some_iff.mp isByte
      exact holds index byte (by rwa [List.getElem?_append_left inside])
    · rw [Nat.add_assoc]
      exact holds (held.length + index) byte (by
        rwa [List.getElem?_append_right (Nat.le_add_right _ _), Nat.add_sub_cancel_left])
  · rintro ⟨first, second⟩
    exact first.append second

/-- Memory that agrees where bytes are held. -/
theorem HoldsAt.congr {next : Bytes} (holds : HoldsAt bytes address held)
    (same : ∀ index < held.length, next (address + index) = bytes (address + index)) : HoldsAt next address held := by
  intro index byte isByte
  obtain ⟨inside, _⟩ := List.getElem?_eq_some_iff.mp isByte
  rw [same index inside]
  exact holds index byte isByte

end Ucore
