import Mathlib.Algebra.GroupWithZero.Nat
import Mathlib.Data.Int.DivMod
import Mathlib.Data.Nat.Notation

/-!
# Error codes and integers

The codes of `libs/error.h` that several parts of the kernel return, negated, and the
numbers that an `int` keeps.
-/

namespace Ucore

def eInval : Int := 3
def eNoMem : Int := 4
def eBusy : Int := 15
def eNoent : Int := 16

/-- A number stored in an `int`. -/
def toInt (number : Int) : Int := number.bmod (2 ^ 32)

theorem toInt_small {number : Nat} (small : number < 2 ^ 31) : toInt number = number := by
  unfold toInt
  rw [Int.bmod_def]
  omega

end Ucore
