import Ucore.Libs.Error
import Ucore.Mm.CopyString

/-!
# Formatted printing

`vprintfmt` of `libs/printfmt.c` goes along a format and gives one character after the other
to `putch`, which changes a state of its own. The format and the strings are not written by
`putch`. The arguments are words of 64 bits in the order of the calls of `va_arg`; an `int` is
the lower half of one, and its arithmetic wraps around. `none` is a missing argument, an access
outside a table, or a loop that is not done within the rounds given.
-/

namespace Ucore.Printfmt

/-- The bytes of a text in the source. -/
def ascii (text : String) : List (Fin 256) := text.toList.map fun c => Fin.ofNat 256 c.toNat

/-- `MAXERROR` -/
def maxError : Int := 24

/-- The texts of `error_string`. -/
def errorText : Nat → Option String
  | 1 => some "unspecified error"
  | 2 => some "bad process"
  | 3 => some "invalid parameter"
  | 4 => some "out of memory"
  | 5 => some "out of processes"
  | 6 => some "segmentation fault"
  | 8 => some "invalid elf file"
  | 9 => some "process is killed"
  | 10 => some "panic failure"
  | 13 => some "no such device"
  | 14 => some "device not available"
  | 15 => some "device/file is busy"
  | 16 => some "no such file or directory"
  | 17 => some "is a directory"
  | 18 => some "not a directory"
  | 19 => some "cross device link"
  | 20 => some "unimplemented feature"
  | 21 => some "illegal seek"
  | 22 => some "too many files are open"
  | 23 => some "file or directory already exists"
  | 24 => some "directory is not empty"
  | _ => none

/-- Where the texts of `printfmt.c` stand: `error_string`, and the literals `"(null)"`,
`"error %d"` and `"%s"`. -/
structure Constants where
  errorString : Nat → Option Nat
  null : Nat
  errorFormat : Nat
  stringFormat : Nat

/-- What the flags of an escape sequence set. -/
structure Flags where
  padc : Fin 256
  width : Int
  precision : Int
  lflag : Nat
  altflag : Bool
deriving DecidableEq

/-- The flags at a `%`. -/
def Flags.start : Flags := ⟨32, -1, -1, 0, false⟩

/-- `process_precision` -/
def Flags.process (flags : Flags) (precision : Int) : Flags :=
  if flags.width < 0 then { flags with width := precision, precision := -1 } else { flags with precision }

/-- A word that an argument is passed in. -/
abbrev Word := BitVec 64

/-- An `int` argument. -/
def Word.int (arg : Word) : Int := (arg.setWidth 32).toInt

/-- `getuint` -/
def getuint (lflag : Nat) : List Word → Option (Word × List Word)
  | [] => none
  | arg :: ap => some (if lflag ≠ 0 then arg else (arg.setWidth 32).setWidth 64, ap)

/-- `getint` -/
def getint (lflag : Nat) : List Word → Option (Word × List Word)
  | [] => none
  | arg :: ap => some (if lflag ≠ 0 then arg else (arg.setWidth 32).signExtend 64, ap)

/-- `"0123456789abcdef"[mod]` -/
def digitChar (mod : Nat) : Fin 256 := (ascii "0123456789abcdef").getD mod 0

section Putch

variable {σ : Type} (putch : BitVec 32 → σ → σ)

/-- A call of `putch` with a character. -/
def putChar (ch : Fin 256) (putdat : σ) : σ := putch (BitVec.ofNat 32 ch.val) putdat

/-- The loops that give one character so many times. -/
def putTimes (ch : Fin 256) : Nat → σ → σ
  | 0, putdat => putdat
  | times + 1, putdat => putTimes ch times (putChar putch ch putdat)

/-- `printnum` -/
def printnum (base : Nat) (padc : Fin 256) : Nat → Nat → Int → σ → Option σ
  | 0, _, _, _ => none
  | rounds + 1, num, width, putdat =>
      let front :=
        if base ≤ num then printnum base padc rounds (num / base) (toInt (width - 1)) putdat
        else some (putTimes putch padc (toInt (width - 1)).toNat putdat)
      front.map (putChar putch (digitChar (num % base)))

variable (bytes : Bytes)

/-- The loop over the text in front of the next `%`: where the flags begin behind it, if the format
does not end before. -/
def putText : Nat → Nat → σ → Option (Option Nat × σ)
  | 0, _, _ => none
  | rounds + 1, fmt, putdat =>
      if bytes fmt = 37 then some (some (fmt + 1), putdat)
      else if bytes fmt = 0 then some (none, putdat)
      else putText rounds (fmt + 1) (putChar putch (bytes fmt) putdat)

/-- The loop over the digits of a number: its value, and where it ends. -/
def readNumber : Nat → Nat → Int → Fin 256 → Option (Int × Nat)
  | 0, _, _, _ => none
  | rounds + 1, fmt, precision, ch =>
      let precision := toInt (precision * 10 + ch.val - 48)
      if (bytes fmt).val < 48 ∨ 57 < (bytes fmt).val then some (precision, fmt)
      else readNumber rounds (fmt + 1) precision (bytes fmt)

/-- Where `vprintfmt` stands behind the flags of an escape sequence. -/
structure Switched where
  ch : Fin 256
  fmt : Nat
  ap : List Word
  flags : Flags

/-- `reswitch`, as long as there are flags. -/
def reswitch : Nat → Nat → List Word → Flags → Option Switched
  | 0, _, _, _ => none
  | rounds + 1, fmt, ap, flags =>
      let ch := bytes fmt
      if ch = 45 then reswitch rounds (fmt + 1) ap { flags with padc := 45 }
      else if ch = 48 then reswitch rounds (fmt + 1) ap { flags with padc := 48 }
      else if 49 ≤ ch.val ∧ ch.val ≤ 57 then
        (readNumber bytes rounds (fmt + 1) 0 ch).bind fun read => reswitch rounds read.2 ap (flags.process read.1)
      else if ch = 42 then
        match ap with
        | [] => none
        | arg :: ap => reswitch rounds (fmt + 1) ap (flags.process arg.int)
      else if ch = 46 then reswitch rounds (fmt + 1) ap (if flags.width < 0 then { flags with width := 0 } else flags)
      else if ch = 35 then reswitch rounds (fmt + 1) ap { flags with altflag := true }
      else if ch = 108 then reswitch rounds (fmt + 1) ap { flags with lflag := flags.lflag + 1 }
      else some ⟨ch, fmt + 1, ap, flags⟩

/-- The loop of `%s` over the string, and the width that is left. -/
def putString (altflag : Bool) : Nat → Nat → Int → Int → σ → Option (Int × σ)
  | 0, _, _, _, _ => none
  | rounds + 1, p, precision, width, putdat =>
      if bytes p ≠ 0 ∧ (precision < 0 ∨ 0 ≤ precision - 1) then
        putString altflag rounds (p + 1) (if precision < 0 then precision else precision - 1) (toInt (width - 1))
          (putChar putch (if altflag ∧ ((bytes p).val < 32 ∨ 126 < (bytes p).val) then 63 else bytes p) putdat)
      else some (width, putdat)

/-- The case `'s'`. -/
def putPadded (rounds p : Nat) (flags : Flags) (putdat : σ) : Option σ := do
  let (width, putdat) :=
    if 0 < flags.width ∧ flags.padc ≠ 45 then
      let width := toInt (flags.width - Vmm.strnlen (fun index => bytes (p + index)) (flags.precision % 2 ^ 64).toNat)
      (min width 0, putTimes putch flags.padc width.toNat putdat)
    else (flags.width, putdat)
  let (width, putdat) ← putString putch bytes flags.altflag rounds p flags.precision width putdat
  some (putTimes putch 32 width.toNat putdat)

/-- The loop of the default case: back behind the `%`. -/
def backUp : Nat → Nat → Option Nat
  | 0, _ => none
  | rounds + 1, fmt => if bytes (fmt - 1) = 37 then some fmt else backUp rounds (fmt - 1)

variable (constants : Constants)

/-- The cases behind the flags: the rest of the format and of the arguments. `printfmt` is the call
in the case `'e'`. -/
def convert (printfmt : Nat → List Word → σ → Option σ) (rounds : Nat) :
    Switched → σ → Option (Nat × List Word × σ)
  | ⟨ch, fmt, ap, flags⟩, putdat =>
      if ch = 99 then
        match ap with
        | [] => none
        | arg :: ap => some (fmt, ap, putch (arg.setWidth 32) putdat)
      else if ch = 101 then
        match ap with
        | [] => none
        | arg :: ap =>
            let err := if arg.int < 0 then toInt (-arg.int) else arg.int
            let printed :=
              if maxError < err then printfmt constants.errorFormat [BitVec.ofInt 64 err] putdat
              else if err < 0 then none
              else
                match constants.errorString err.toNat with
                | none => printfmt constants.errorFormat [BitVec.ofInt 64 err] putdat
                | some p => printfmt constants.stringFormat [BitVec.ofNat 64 p] putdat
            printed.map fun putdat => (fmt, ap, putdat)
      else if ch = 115 then
        match ap with
        | [] => none
        | arg :: ap =>
            (putPadded putch bytes rounds (if arg = 0 then constants.null else arg.toNat) flags putdat).map fun putdat =>
              (fmt, ap, putdat)
      else if ch = 100 then
        (getint flags.lflag ap).bind fun (num, ap) =>
          let (num, putdat) := if num.toInt < 0 then (-num, putChar putch 45 putdat) else (num, putdat)
          (printnum putch 10 flags.padc rounds num.toNat flags.width putdat).map fun putdat => (fmt, ap, putdat)
      else if ch = 117 then
        (getuint flags.lflag ap).bind fun (num, ap) =>
          (printnum putch 10 flags.padc rounds num.toNat flags.width putdat).map fun putdat => (fmt, ap, putdat)
      else if ch = 111 then
        (getuint flags.lflag ap).bind fun (num, ap) =>
          (printnum putch 8 flags.padc rounds num.toNat flags.width putdat).map fun putdat => (fmt, ap, putdat)
      else if ch = 112 then
        match ap with
        | [] => none
        | arg :: ap =>
            let putdat := putChar putch 120 (putChar putch 48 putdat)
            (printnum putch 16 flags.padc rounds arg.toNat flags.width putdat).map fun putdat => (fmt, ap, putdat)
      else if ch = 120 then
        (getuint flags.lflag ap).bind fun (num, ap) =>
          (printnum putch 16 flags.padc rounds num.toNat flags.width putdat).map fun putdat => (fmt, ap, putdat)
      else if ch = 37 then some (fmt, ap, putChar putch 37 putdat)
      else (backUp bytes rounds (fmt - 1)).map fun fmt => (fmt, ap, putChar putch 37 putdat)

/-- `vprintfmt` -/
def vprintfmt : Nat → Nat → List Word → σ → Option σ
  | 0, _, _, _ => none
  | rounds + 1, fmt, ap, putdat => do
      let (escape, putdat) ← putText putch bytes rounds fmt putdat
      match escape with
      | none => some putdat
      | some fmt => do
          let switched ← reswitch bytes rounds fmt ap .start
          let (fmt, ap, putdat) ← convert putch bytes constants (vprintfmt rounds) rounds switched putdat
          vprintfmt rounds fmt ap putdat

end Putch

/-! ## Printing into a buffer -/

/-- `struct sprintbuf`, with the memory. -/
structure Sprintbuf where
  buf : Nat
  ebuf : Nat
  cnt : Int
  bytes : Bytes

/-- The `char` that an `int` becomes. -/
def charOf (ch : BitVec 32) : Fin 256 := Fin.ofNat 256 ch.toNat

/-- `sprintputch` -/
def sprintputch (ch : BitVec 32) (b : Sprintbuf) : Sprintbuf :=
  if b.buf < b.ebuf then
    { b with cnt := toInt (b.cnt + 1), bytes := Function.update b.bytes b.buf (charOf ch), buf := b.buf + 1 }
  else { b with cnt := toInt (b.cnt + 1) }

/-- `vsnprintf`: what it returns, and the memory. -/
def vsnprintf (rounds : Nat) (constants : Constants) (bytes : Bytes) (str size fmt : Nat) (ap : List Word) :
    Option (Int × Bytes) :=
  if str = 0 ∨ str + size - 1 < str then some (-eInval, bytes)
  else
    (vprintfmt sprintputch bytes constants rounds fmt ap ⟨str, str + size - 1, 0, bytes⟩).map fun b =>
      (b.cnt, Function.update b.bytes b.buf 0)

end Ucore.Printfmt
