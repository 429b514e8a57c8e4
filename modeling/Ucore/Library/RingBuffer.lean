import Mathlib.Data.Nat.ModEq
import Mathlib.Data.List.Basic
import Mathlib.Logic.Function.Basic

/-!
# Ring buffers

A buffer of `size` cells whose positions run freely and are reduced modulo `size` where a
cell is read or stored. The contents from a position on are a list; it stands in the buffer
as long as it is no longer than the buffer.
-/

namespace RingBuffer

universe u
variable {α : Type u} {size first : Nat} {cells : Nat → α} {contents rest : List α} {item : α}

/-- The cell of a position. -/
def load (size : Nat) (cells : Nat → α) (position : Nat) : α := cells (position % size)

/-- The cell of a position is overwritten. -/
def store (size : Nat) (cells : Nat → α) (position : Nat) (item : α) : Nat → α :=
  Function.update cells (position % size) item

/-- The buffer holds the list from the position on. -/
structure Holds (size : Nat) (cells : Nat → α) (first : Nat) (contents : List α) : Prop where
  fits : contents.length ≤ size
  stands : ∀ offset, offset < contents.length → contents[offset]? = some (load size cells (first + offset))

theorem holds_nil (size : Nat) (cells : Nat → α) (first : Nat) : Holds size cells first [] where
  fits := Nat.zero_le size
  stands _ inside := absurd inside (Nat.not_lt_zero _)

/-- Two positions less than a round apart have different cells. -/
theorem cell_ne {left right : Nat} (apart : left < right) (near : right < left + size) :
    left % size ≠ right % size := by
  intro same
  have divides : size ∣ right - left := (Nat.modEq_iff_dvd' apart.le).mp same
  have := Nat.le_of_dvd (by omega) divides
  omega

/-- A store leaves the cells of positions less than a round away. -/
theorem load_store_of_ne {left right : Nat} (apart : left < right) (near : right < left + size) :
    load size (store size cells right item) left = load size cells left :=
  Function.update_of_ne (cell_ne apart near) _ _

theorem load_store_self (position : Nat) : load size (store size cells position item) position = item := by
  simp [load, store]

/-- An item is added behind the contents of a buffer that is not full. -/
theorem Holds.push (holds : Holds size cells first contents) (room : contents.length < size) (item : α) :
    Holds size (store size cells (first + contents.length) item) first (contents ++ [item]) where
  fits := by simpa using Nat.succ_le_of_lt room
  stands offset inside := by
    rcases Nat.lt_or_ge offset contents.length with old | new
    · rw [List.getElem?_append_left old, holds.stands offset old,
        load_store_of_ne (by omega) (by omega)]
    · obtain rfl : offset = contents.length := by
        simp only [List.length_append, List.length_singleton] at inside
        omega
      rw [List.getElem?_append_right (Nat.le_refl _), load_store_self]
      simp

/-- The first item is what the first cell holds. -/
theorem Holds.head (holds : Holds size cells first (item :: rest)) : load size cells first = item := by
  have stands := holds.stands 0 (Nat.succ_pos _)
  simpa using stands.symm

/-- The contents behind the first item. -/
theorem Holds.tail (holds : Holds size cells first (item :: rest)) : Holds size cells (first + 1) rest where
  fits := Nat.le_of_succ_le holds.fits
  stands offset inside := by
    have stands := holds.stands (offset + 1) (Nat.succ_lt_succ inside)
    rw [List.getElem?_cons_succ] at stands
    rw [stands, show first + (offset + 1) = first + 1 + offset by omega]

end RingBuffer
