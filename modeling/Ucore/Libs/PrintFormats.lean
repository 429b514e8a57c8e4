import Mathlib.Data.Nat.Digits.Defs
import Ucore.Library.Transition
import Ucore.Libs.Printfmt

/-!
# What formats mean

A format is a list of pieces: characters, escape sequences, and sequences that are none and are
printed as they stand. Each piece writes characters and takes arguments. `vprintfmt` gives `putch`
what the pieces write, one after the other.
-/

namespace Ucore.Printfmt

open Transition

/-! ## Formats -/

/-- A flag of an escape sequence. -/
inductive Modifier where
  | minus
  | zero
  | number (first : Fin 9) (rest : List (Fin 10))
  | star
  | point
  | alternate
  | long

/-- What an escape sequence ends with. -/
inductive Conversion where
  | character
  | error
  | string
  | decimal
  | unsigned
  | octal
  | pointer
  | hexadecimal
  | percent
deriving DecidableEq

/-- The piece `literal` is a `%` with flags in front of a character that no conversion has. -/
inductive Piece where
  | plain (c : Fin 256)
  | escape (modifiers : List Modifier) (conversion : Conversion)
  | literal (modifiers : List Modifier) (c : Fin 256)

/-- The pieces of a format. At its end may stand a `%` with flags and nothing behind. -/
structure Format where
  pieces : List Piece
  cut : Option (List Modifier)

/-- A decimal digit. -/
def decimalChar (digit : Fin 10) : Fin 256 := ⟨48 + digit.val, by omega⟩

def Modifier.text : Modifier → List (Fin 256)
  | .minus => [45]
  | .zero => [48]
  | .number first rest => ⟨49 + first.val, by omega⟩ :: rest.map decimalChar
  | .star => [42]
  | .point => [46]
  | .alternate => [35]
  | .long => [108]

def Conversion.byte : Conversion → Fin 256
  | .character => 99
  | .error => 101
  | .string => 115
  | .decimal => 100
  | .unsigned => 117
  | .octal => 111
  | .pointer => 112
  | .hexadecimal => 120
  | .percent => 37

/-- The text of flags behind a `%`. -/
def flagsText (modifiers : List Modifier) : List (Fin 256) := 37 :: modifiers.flatMap Modifier.text

def Piece.text : Piece → List (Fin 256)
  | .plain c => [c]
  | .escape modifiers conversion => flagsText modifiers ++ [conversion.byte]
  | .literal modifiers c => flagsText modifiers ++ [c]

def Format.text (format : Format) : List (Fin 256) :=
  format.pieces.flatMap Piece.text ++ format.cut.elim [] flagsText

/-- A byte that begins a flag. -/
def startsFlag (c : Fin 256) : Bool := c ∈ [45, 42, 46, 35, 108] ∨ 48 ≤ c.val ∧ c.val ≤ 57

/-- A byte that ends an escape sequence. -/
def isConversion (c : Fin 256) : Bool := c ∈ [99, 101, 115, 100, 117, 111, 112, 120, 37]

/-- A number goes on as long as there are digits. -/
def Modifier.Follows : Modifier → Modifier → Prop
  | .number _ _, .number _ _ => False
  | .number _ _, .zero => False
  | _, _ => True

/-- The pieces are read as such. -/
def Piece.Proper : Piece → Prop
  | .plain c => c ≠ 37 ∧ c ≠ 0
  | .escape modifiers _ => modifiers.IsChain Modifier.Follows
  | .literal modifiers c =>
      modifiers.IsChain Modifier.Follows ∧ c ≠ 0 ∧ startsFlag c = false ∧ isConversion c = false

structure Format.Proper (format : Format) : Prop where
  pieces : ∀ piece ∈ format.pieces, piece.Proper
  cut : ∀ modifiers ∈ format.cut, modifiers.IsChain Modifier.Follows

/-! ## What is written -/

/-- The digits of a number, the most significant one first. -/
def numeral (base num : Nat) : List (Fin 256) :=
  if num = 0 then [digitChar 0] else ((Nat.digits base num).map digitChar).reverse

/-- A flag sets a field, and a star takes an argument. -/
def Modifier.apply : Modifier → Flags → List Word → Option (Flags × List Word)
  | .minus, flags, args => some ({ flags with padc := 45 }, args)
  | .zero, flags, args => some ({ flags with padc := 48 }, args)
  | .number first rest, flags, args =>
      some (flags.process (toInt (Nat.ofDigits 10 ((first.val + 1) :: rest.map Fin.val).reverse : Nat)), args)
  | .star, _, [] => none
  | .star, flags, arg :: args => some (flags.process arg.int, args)
  | .point, flags, args => some (if flags.width < 0 then { flags with width := 0 } else flags, args)
  | .alternate, flags, args => some ({ flags with altflag := true }, args)
  | .long, flags, args => some ({ flags with lflag := flags.lflag + 1 }, args)

/-- The flags that a sequence of them makes. -/
def applyAll : List Modifier → Flags → List Word → Option (Flags × List Word)
  | [], flags, args => some (flags, args)
  | modifier :: rest, flags, args => (modifier.apply flags args).bind fun applied => applyAll rest applied.1 applied.2

/-- A number, padded on the left. -/
def numberText (base : Nat) (flags : Flags) (num : Nat) : List (Fin 256) :=
  List.replicate (toInt (flags.width - (numeral base num).length)).toNat flags.padc ++ numeral base num

/-- A signed number: the sign stands in front of the padding. -/
def signedText (flags : Flags) (num : Int) : List (Fin 256) :=
  (if num < 0 then [45] else []) ++ numberText 10 flags num.natAbs

/-- The part of a string that is shown, with `?` for what cannot be printed if that is asked for. -/
def shown (flags : Flags) (text : List (Fin 256)) : List (Fin 256) :=
  (if flags.precision < 0 then text else text.take flags.precision.toNat).map fun c =>
    if flags.altflag ∧ (c.val < 32 ∨ 126 < c.val) then 63 else c

/-- A string, padded on the left, or with `-` on the right. -/
def stringText (flags : Flags) (text : List (Fin 256)) : List (Fin 256) :=
  if 0 < flags.width ∧ flags.padc ≠ 45 then
    List.replicate (flags.width - (shown flags text).length).toNat flags.padc ++ shown flags text
  else shown flags text ++ List.replicate (toInt (flags.width - (shown flags text).length)).toNat 32

/-- The text for an error code, of either sign. -/
def errorMessage (code : Int) : List (Fin 256) :=
  match errorText code.natAbs with
  | some text => ascii text
  | none => ascii "error " ++ numeral 10 code.natAbs

/-- An unsigned argument, of 32 bits without the flag `l`. -/
def unsignedArg (flags : Flags) (arg : Word) : Nat := if flags.lflag = 0 then arg.toNat % 2 ^ 32 else arg.toNat

/-- A signed argument. -/
def signedArg (flags : Flags) (arg : Word) : Int := if flags.lflag = 0 then arg.int else arg.toInt

/-- What `putch` gets for a byte. -/
def charCodes (text : List (Fin 256)) : List (BitVec 32) := text.map fun c => BitVec.ofNat 32 c.val

-- The strings that pointers lead to.
variable (strings : Nat → Option (List (Fin 256)))

/-- What an argument is written as. -/
def Conversion.written (flags : Flags) (arg : Word) : Conversion → Option (List (BitVec 32))
  | .character => some [arg.setWidth 32]
  | .error => if arg.int = -2 ^ 31 then none else some (charCodes (errorMessage arg.int))
  | .string =>
      if arg = 0 then some (charCodes (stringText flags (ascii "(null)")))
      else (strings arg.toNat).map fun text => charCodes (stringText flags text)
  | .decimal => some (charCodes (signedText flags (signedArg flags arg)))
  | .unsigned => some (charCodes (numberText 10 flags (unsignedArg flags arg)))
  | .octal => some (charCodes (numberText 8 flags (unsignedArg flags arg)))
  | .pointer => some (charCodes ([48, 120] ++ numberText 16 flags arg.toNat))
  | .hexadecimal => some (charCodes (numberText 16 flags (unsignedArg flags arg)))
  | .percent => some (charCodes [37])

/-- What a conversion writes, and the arguments behind. -/
def Conversion.format (conversion : Conversion) (flags : Flags) : List Word → Option (List (BitVec 32) × List Word)
  | [] => if conversion = .percent then some (charCodes [37], []) else none
  | arg :: args =>
      if conversion = .percent then some (charCodes [37], arg :: args)
      else (conversion.written strings flags arg).map fun text => (text, args)

/-- What a piece writes, and the arguments behind. -/
def Piece.format : Piece → List Word → Option (List (BitVec 32) × List Word)
  | .plain c, args => some (charCodes [c], args)
  | .escape modifiers conversion, args =>
      (applyAll modifiers .start args).bind fun applied => conversion.format strings applied.1 applied.2
  | .literal modifiers c, args =>
      (applyAll modifiers .start args).map fun applied => (charCodes (flagsText modifiers ++ [c]), applied.2)

/-- What pieces write, and the arguments behind. -/
def formatPieces : List Piece → List Word → Option (List (BitVec 32) × List Word)
  | [], args => some ([], args)
  | piece :: rest, args =>
      (piece.format strings args).bind fun front =>
        (formatPieces rest front.2).map fun behind => (front.1 ++ behind.1, behind.2)

/-- What a format writes. -/
def Format.written (format : Format) (args : List Word) : Option (List (BitVec 32)) :=
  (formatPieces strings format.pieces args).bind fun front =>
    match format.cut with
    | none => some front.1
    | some modifiers => (applyAll modifiers .start front.2).map fun _ => front.1 ++ charCodes (flagsText modifiers)

end Ucore.Printfmt
