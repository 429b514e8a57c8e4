import Mathlib.Data.Nat.Digits.Defs
import Ucore.Library.Transition
import Ucore.Libs.Text

/-!
# Numbers in texts

`strtol` of `libs/string.c` reads a number at the start of a text: white space, a sign, a
prefix that tells the base, and digits. Its `long` is 64 bits wide and wraps around; `endptr`
may be NULL, and is kept here as whether it is given.
-/

namespace Ucore.Strtol

/-- What `strtol` returns, and what it stores through `endptr`. -/
structure Converted where
  value : BitVec 64
  endptr : Option Nat

/-- `*s == ' ' || *s == '\t'` -/
def isGap (c : Fin 256) : Bool := c == 32 || c == 9

/-- The choice of `dig`, or the `break`. -/
def dig (c : Fin 256) : Option Nat :=
  if 48 ≤ c.val ∧ c.val ≤ 57 then some (c.val - 48)
  else if 97 ≤ c.val ∧ c.val ≤ 122 then some (c.val - 97 + 10)
  else if 65 ≤ c.val ∧ c.val ≤ 90 then some (c.val - 65 + 10)
  else none

/-- The loop over the digits. -/
def digits (base : Nat) (bytes : Bytes) : Nat → Nat → BitVec 64 → Option (Nat × BitVec 64)
  | 0, _, _ => none
  | rounds + 1, s, val =>
      match dig (bytes s) with
      | none => some (s, val)
      | some dig =>
          if base ≤ dig then some (s, val)
          else digits base bytes rounds (s + 1) (val * BitVec.ofNat 64 base + BitVec.ofNat 64 dig)

/-- `strtol` -/
def strtol (rounds : Nat) (bytes : Bytes) (s : Nat) (endptr : Bool) (base : Nat) : Option Converted := do
  let s ← scanWhile isGap bytes rounds s
  let (s, neg) :=
    if bytes s = 43 then (s + 1, false)
    else if bytes s = 45 then (s + 1, true)
    else (s, false)
  let (s, base) :=
    if (base = 0 ∨ base = 16) ∧ bytes s = 48 ∧ bytes (s + 1) = 120 then (s + 2, 16)
    else if base = 0 ∧ bytes s = 48 then (s + 1, 8)
    else if base = 0 then (s, 10)
    else (s, base)
  let (s, val) ← digits base bytes rounds s 0
  some { value := if neg then -val else val, endptr := if endptr then some s else none }

/-! ## The number at the start of a text -/

/-- The value of a digit: of the decimal digits and the small letters, or of the decimal digits
and the capital letters. -/
def digitValue (c : Fin 256) : Option Nat :=
  (List.range' 48 10 ++ List.range' 97 26).idxOf? c.val <|> (List.range' 48 10 ++ List.range' 65 26).idxOf? c.val

/-- A digit of a base. -/
def isDigit (base : Nat) (c : Fin 256) : Bool := (digitValue c).any (· < base)

/-- The text without a sign. -/
def unsigned (text : List (Fin 256)) : List (Fin 256) :=
  if [43] <+: text ∨ [45] <+: text then text.tail else text

/-- What the sign multiplies by. -/
def sign (text : List (Fin 256)) : Int := if [45] <+: text then -1 else 1

/-- A prefix of a number: its length, and the base of the digits behind it. -/
structure Prefix where
  length : Nat
  base : Nat

/-- A number without its sign: its length and its value. -/
structure Numeral where
  length : Nat
  value : Nat

/-- The prefix at the start of a text, for a base that is given. -/
def basePrefix (base : Nat) (text : List (Fin 256)) : Prefix :=
  if (base = 0 ∨ base = 16) ∧ ([48, 120] <+: text ∨ [48, 88] <+: text) then ⟨2, 16⟩
  else if (base = 0 ∨ base = 8) ∧ [48] <+: text then ⟨1, 8⟩
  else if base = 0 then ⟨0, 10⟩
  else ⟨0, base⟩

/-- A prefix with the digits behind it, as many as there are. -/
def numeral (front : Prefix) (text : List (Fin 256)) : Numeral :=
  let digits := (text.drop front.length).takeWhile (isDigit front.base)
  ⟨front.length + digits.length, Nat.ofDigits front.base (digits.filterMap digitValue).reverse⟩

/-- What stands behind white space and a sign. -/
def unsignedPart (text : List (Fin 256)) : List (Fin 256) := unsigned (text.dropWhile isGap)

/-- The length of white space, sign, prefix and digits. -/
def numberLength (base : Nat) (text : List (Fin 256)) : Nat :=
  text.length - (unsignedPart text).length + (numeral (basePrefix base (unsignedPart text)) (unsignedPart text)).length

/-- The signed value of the digits. -/
def numberValue (base : Nat) (text : List (Fin 256)) : Int :=
  sign (text.dropWhile isGap) * (numeral (basePrefix base (unsignedPart text)) (unsignedPart text)).value

/-- A value that a `long` can have. -/
def FitsLong (value : Int) : Prop := -2 ^ 63 ≤ value ∧ value < 2 ^ 63

/-- `strtol` returns the value of the number at the start of a text when a `long` can have it, and
stores the address behind it when `endptr` is given. -/
def ReadsNumber (bytes : Bytes) (s : Nat) (text : List (Fin 256)) (base : Nat) : Prop :=
  ∀ endptr, ∃ converted, Transition.Returns (fun rounds => strtol rounds bytes s endptr base) converted ∧
    converted.endptr = (if endptr then some (s + numberLength base text) else none) ∧
    (FitsLong (numberValue base text) → converted.value.toInt = numberValue base text)

variable {bytes : Bytes} {s base rounds : Nat} {text rest : List (Fin 256)} {c : Fin 256}

theorem dig_exact : ∀ c, dig c = digitValue c := by
  decide +kernel

/-! ## The parts of a number -/

/-- The loop over the digits goes on with those read before. -/
theorem digits_exact (holds : HoldsText bytes s text) (enough : text.length < rounds) (base : Nat) (seen : List Nat) :
    digits base bytes rounds s (BitVec.ofNat 64 (Nat.ofDigits base seen.reverse)) =
      some (s + (text.takeWhile (isDigit base)).length, BitVec.ofNat 64 (Nat.ofDigits base
        (seen ++ (text.takeWhile (isDigit base)).filterMap digitValue).reverse)) := by
  induction text generalizing s rounds seen with
  | nil =>
    obtain ⟨more, rfl⟩ := Nat.exists_eq_add_of_lt enough
    have ended : dig 0 = none := by decide
    simp [digits, holds.nil, ended]
  | cons c text ih =>
    obtain ⟨more, rfl⟩ := Nat.exists_eq_add_of_lt enough
    rw [digits, holds.first, dig_exact]
    cases value : digitValue c with
    | none => simp [isDigit, value]
    | some digit =>
      by_cases large : base ≤ digit
      · have refused : isDigit base c = false := by simp [isDigit, value, large]
        simp [refused, large]
      · have accepted : isDigit base c = true := by simpa [isDigit, value] using large
        have next : BitVec.ofNat 64 (Nat.ofDigits base seen.reverse) * BitVec.ofNat 64 base + BitVec.ofNat 64 digit =
            BitVec.ofNat 64 (Nat.ofDigits base (seen ++ [digit]).reverse) := by
          rw [List.reverse_append, List.reverse_singleton, List.singleton_append, Nat.ofDigits_cons, Nat.add_comm,
            Nat.mul_comm, BitVec.ofNat_add, BitVec.ofNat_mul]
        dsimp only
        rw [if_neg large, next, ih holds.tail (by simp only [List.length_cons]; omega),
          List.takeWhile_cons_of_pos accepted, List.filterMap_cons_some value, List.length_cons, List.append_assoc,
          List.singleton_append]
        congr 2
        omega

/-- A text starts with a byte that is not 0. -/
theorem starts_one (holds : HoldsText bytes s text) (nonzero : c ≠ 0) : bytes s = c ↔ [c] <+: text := by
  rw [holds.isPrefix_iff (by simpa using nonzero), HoldsAt.cons_iff, and_iff_left (by nofun)]

/-- A text starts with two bytes that are not 0. -/
theorem starts_two {d : Fin 256} (holds : HoldsText bytes s text) (nonzero : c ≠ 0) (nonzeroToo : d ≠ 0) :
    bytes s = c ∧ bytes (s + 1) = d ↔ [c, d] <+: text := by
  rw [holds.isPrefix_iff (by simp [nonzero, nonzeroToo]), HoldsAt.cons_iff, HoldsAt.cons_iff,
    and_iff_left (show HoldsAt bytes (s + 1 + 1) [] by nofun)]

/-- The text without its sign stands in memory as well. -/
theorem holds_unsigned (holds : HoldsText bytes s text) :
    HoldsText bytes (s + (text.length - (unsigned text).length)) (unsigned text) := by
  unfold unsigned
  split
  · rename_i signed
    cases text with
    | nil => simp at signed
    | cons c text => simpa using holds.tail
  · simpa using holds

/-- The sign is skipped and kept. -/
theorem sign_step (holds : HoldsText bytes s text) :
    (if bytes s = 43 then (s + 1, false) else if bytes s = 45 then (s + 1, true) else (s, false)) =
      (s + (text.length - (unsigned text).length), decide (sign text = -1)) := by
  simp only [starts_one holds (show (43 : Fin 256) ≠ 0 by decide), starts_one holds (show (45 : Fin 256) ≠ 0 by decide)]
  cases text with
  | nil => simp [unsigned, sign]
  | cons c text =>
    by_cases plus : c = 43
    · subst plus
      simp [unsigned, sign]
    · by_cases minus : c = 45
      · subst minus
        simp [unsigned, sign]
      · have notPlus : ¬ [43] <+: c :: text := by simpa [eq_comm] using plus
        have notMinus : ¬ [45] <+: c :: text := by simpa [eq_comm] using minus
        simp [unsigned, sign, notPlus, notMinus]

/-- The prefix that `strtol` accepts. -/
def acceptedPrefix (base : Nat) (text : List (Fin 256)) : Prefix :=
  if (base = 0 ∨ base = 16) ∧ [48, 120] <+: text then ⟨2, 16⟩
  else if base = 0 ∧ [48] <+: text then ⟨1, 8⟩
  else if base = 0 then ⟨0, 10⟩
  else ⟨0, base⟩

theorem prefix_step (holds : HoldsText bytes s text) (base : Nat) :
    (if (base = 0 ∨ base = 16) ∧ bytes s = 48 ∧ bytes (s + 1) = 120 then (s + 2, 16)
      else if base = 0 ∧ bytes s = 48 then (s + 1, 8)
      else if base = 0 then (s, 10)
      else (s, base)) = (s + (acceptedPrefix base text).length, (acceptedPrefix base text).base) := by
  have zero : (48 : Fin 256) ≠ 0 := by decide
  simp only [starts_two holds zero (show (120 : Fin 256) ≠ 0 by decide)]
  simp only [starts_one holds zero]
  unfold acceptedPrefix
  split_ifs <;> rfl

/-- The text behind a prefix that is accepted stands in memory. -/
theorem holds_accepted (holds : HoldsText bytes s text) (base : Nat) :
    HoldsText bytes (s + (acceptedPrefix base text).length) (text.drop (acceptedPrefix base text).length) := by
  have inside : (acceptedPrefix base text).length ≤ text.length := by
    unfold acceptedPrefix
    split_ifs with hex octal
    · exact hex.2.length_le
    · exact octal.2.length_le
    · exact Nat.zero_le _
    · exact Nat.zero_le _
  have split : HoldsText bytes s
      (text.take (acceptedPrefix base text).length ++ text.drop (acceptedPrefix base text).length) := by
    rwa [List.take_append_drop]
  have behind := split.behind
  rwa [List.length_take_of_le inside] at behind

/-- What `strtol` makes of a text. -/
def conversion (s : Nat) (text : List (Fin 256)) (endptr : Bool) (base : Nat) : Converted where
  value := BitVec.ofInt 64
    (sign (text.dropWhile isGap) * (numeral (acceptedPrefix base (unsignedPart text)) (unsignedPart text)).value)
  endptr :=
    if endptr then
      some (s + (text.length - (unsignedPart text).length +
        (numeral (acceptedPrefix base (unsignedPart text)) (unsignedPart text)).length))
    else none

/-- `strtol` reads the digits behind the prefix that it accepts. -/
theorem strtol_reads (holds : HoldsText bytes s text) (enough : text.length < rounds) (endptr : Bool) (base : Nat) :
    strtol rounds bytes s endptr base = some (conversion s text endptr base) := by
  obtain ⟨gaps, isGaps⟩ : ∃ gaps, text.takeWhile isGap = gaps := ⟨_, rfl⟩
  obtain ⟨signed, isSigned⟩ : ∃ signed, text.dropWhile isGap = signed := ⟨_, rfl⟩
  have isText : gaps ++ signed = text := by
    rw [← isGaps, ← isSigned, List.takeWhile_append_dropWhile]
  have isUnsigned : unsignedPart text = unsigned signed := by
    rw [unsignedPart, isSigned]
  have holdsSigned : HoldsText bytes (s + gaps.length) signed := HoldsText.behind (isText ▸ holds)
  have holdsUnsigned := holds_unsigned holdsSigned
  have shorter : (unsigned signed).length ≤ signed.length := by
    unfold unsigned
    split
    · simp
    · exact Nat.le_refl _
  have lengths : text.length = gaps.length + signed.length := by
    rw [← isText, List.length_append]
  rw [strtol, scanWhile_exact (by decide) holds enough, isGaps]
  have enoughDigits : ((unsigned signed).drop (acceptedPrefix base (unsigned signed)).length).length < rounds := by
    rw [List.length_drop]
    omega
  have reads := digits_exact (holds_accepted holdsUnsigned base) enoughDigits (acceptedPrefix base (unsigned signed)).base []
  rw [List.reverse_nil, Nat.ofDigits_nil, List.nil_append] at reads
  simp only [Option.bind_eq_bind, Option.bind_some, sign_step holdsSigned, prefix_step holdsUnsigned, isSigned, isUnsigned,
    conversion, numeral, BitVec.ofNat_eq_ofNat] at reads ⊢
  rw [reads]
  simp only [Option.bind_some, Option.some.injEq, Converted.mk.injEq]
  constructor
  · unfold sign
    split
    · simp [BitVec.ofInt_neg]
    · simp
  · congr 2
    omega

/-- A leading 0 is a prefix or a digit. -/
theorem numeral_zero (rest : List (Fin 256)) : numeral ⟨0, 8⟩ (48 :: rest) = numeral ⟨1, 8⟩ (48 :: rest) := by
  have digit : isDigit 8 48 = true := by decide
  have value : digitValue 48 = some 0 := by decide
  simp only [numeral, List.drop_zero, List.drop_succ_cons, List.takeWhile_cons_of_pos digit, List.length_cons,
    List.filterMap_cons_some value, List.reverse_cons, Nat.ofDigits_append_zero, Nat.zero_add, Nat.add_comm 1]

/-- The prefix that is accepted leads to the number unless it has a capital letter. -/
theorem accepted_eq (base : Nat) (small : ¬ ((base = 0 ∨ base = 16) ∧ [48, 88] <+: text)) :
    numeral (acceptedPrefix base text) text = numeral (basePrefix base text) text := by
  by_cases octal : base = 8 ∧ [48] <+: text
  · obtain ⟨rfl, rest, rfl⟩ := octal
    exact numeral_zero rest
  · have same : acceptedPrefix base text = basePrefix base text := by
      unfold acceptedPrefix basePrefix
      by_cases eight : base = 8
      · have notZero : ¬ [48] <+: text := fun zero => octal ⟨eight, zero⟩
        simp [eight, notZero]
      · by_cases hex : base = 0 ∨ base = 16
        · have notCapital : ¬ [48, 88] <+: text := fun capital => small ⟨hex, capital⟩
          simp [eight, notCapital]
        · simp [eight, hex]
    rw [same]

/-- In front of a capital letter, only the 0 is read. -/
theorem accepted_capital (hex : base = 0 ∨ base = 16) (rest : List (Fin 256)) :
    (numeral (acceptedPrefix base (48 :: 88 :: rest)) (48 :: 88 :: rest)).length = 1 := by
  have notOctal : isDigit 8 88 = false := by decide
  have notHex : isDigit 16 88 = false := by decide
  have zero : isDigit 16 48 = true := by decide
  cases hex with
  | inl isZero => simp [acceptedPrefix, numeral, isZero, notOctal]
  | inr isHex => simp [acceptedPrefix, numeral, isHex, notHex, zero]

/-- `strtol` returns. -/
theorem strtol_returns (holds : HoldsText bytes s text) (endptr : Bool) (base : Nat) :
    Transition.Returns (fun rounds => strtol rounds bytes s endptr base) (conversion s text endptr base) :=
  ⟨text.length + 1, fun _ enough => strtol_reads holds enough endptr base⟩

/-- A number that is read right has no prefix `0X`. -/
theorem ReadsNumber.small (reads : ReadsNumber bytes s text base) (holds : HoldsText bytes s text) :
    ¬ ((base = 0 ∨ base = 16) ∧ [48, 88] <+: unsignedPart text) := by
  rintro ⟨hex, rest, isCapital⟩
  obtain ⟨converted, returned, ended, _⟩ := reads true
  obtain rfl := returned.unique (strtol_returns holds true base)
  have isPrefix : basePrefix base (unsignedPart text) = ⟨2, 16⟩ :=
    if_pos ⟨hex, Or.inr ⟨rest, isCapital⟩⟩
  have short := accepted_capital hex rest
  rw [show 48 :: 88 :: rest = unsignedPart text from isCapital] at short
  simp only [conversion, if_true, Option.some.injEq, numberLength, short, isPrefix] at ended
  simp only [numeral] at ended
  omega

/-- `strtol` reads every number but those with the prefix `0X`. -/
theorem strtol_exact (holds : HoldsText bytes s text) (base : Nat) :
    ReadsNumber bytes s text base ↔ ¬ ((base = 0 ∨ base = 16) ∧ [48, 88] <+: unsignedPart text) := by
  constructor
  · intro reads
    exact reads.small holds
  · intro small endptr
    refine ⟨_, strtol_returns holds endptr base, ?_, fun fits => ?_⟩
    · rw [conversion, accepted_eq base small]
      rfl
    · rw [conversion, accepted_eq base small]
      exact BitVec.toInt_ofInt_eq_self (by decide) fits.1 fits.2

/-- The text `-0x1F` is read with base 0. -/
theorem strtol_exact_hex :
    HoldsText (textAt 0 [45, 48, 120, 49, 70]) 0 [45, 48, 120, 49, 70] ∧
      ReadsNumber (textAt 0 [45, 48, 120, 49, 70]) 0 [45, 48, 120, 49, 70] 0 := by
  have holds : HoldsText (textAt 0 [45, 48, 120, 49, 70]) 0 [45, 48, 120, 49, 70] := holdsText_textAt (by simp)
  exact ⟨holds, (strtol_exact holds 0).mpr (by decide)⟩

/-- The text `0X1F` is not read with base 16. -/
theorem strtol_capital :
    HoldsText (textAt 0 [48, 88, 49, 70]) 0 [48, 88, 49, 70] ∧
      ¬ ReadsNumber (textAt 0 [48, 88, 49, 70]) 0 [48, 88, 49, 70] 16 := by
  have holds : HoldsText (textAt 0 [48, 88, 49, 70]) 0 [48, 88, 49, 70] := holdsText_textAt (by simp)
  exact ⟨holds, fun reads => reads.small holds (by decide)⟩

example : numberValue 0 [45, 48, 120, 49, 70] = -31 := by decide

end Ucore.Strtol
