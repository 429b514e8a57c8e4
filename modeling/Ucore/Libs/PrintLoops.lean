import Mathlib.Data.Nat.Digits.Lemmas
import Ucore.Libs.PrintFormats
import Ucore.Libs.Text

/-!
# The loops of `vprintfmt`

Each loop gives `putch` what the part of the format in front of it writes, and stops behind it:
the digits of a number, the text up to a `%`, the flags, and the string of `%s` with its padding.
-/

namespace Ucore.Printfmt

open Transition

variable {σ : Type} {putch : BitVec 32 → σ → σ} {bytes : Bytes} {constants : Constants} {fmt : Nat} {putdat : σ}
  {flags : Flags} {args : List Word} {text rest : List (Fin 256)} {strings : Nat → Option (List (Fin 256))}

/-- `putch` with one character after the other. -/
def emit (putch : BitVec 32 → σ → σ) (chars : List (BitVec 32)) (putdat : σ) : σ :=
  chars.foldl (fun putdat ch => putch ch putdat) putdat

theorem emit_append (front behind : List (BitVec 32)) : emit putch (front ++ behind) putdat = emit putch behind (emit putch front putdat) :=
  List.foldl_append

theorem emit_chars (front behind : List (Fin 256)) : emit putch (charCodes (front ++ behind)) putdat =
    emit putch (charCodes behind) (emit putch (charCodes front) putdat) := by
  rw [charCodes, List.map_append]
  exact emit_append ..

theorem putChar_emit (ch : Fin 256) : putChar putch ch putdat = emit putch (charCodes [ch]) putdat := rfl

theorem putTimes_exact (ch : Fin 256) (times : Nat) :
    putTimes putch ch times putdat = emit putch (charCodes (List.replicate times ch)) putdat := by
  induction times generalizing putdat with
  | zero => rfl
  | succ times ih => exact ih

/-! ## Numbers -/

theorem toInt_toInt_sub (number : Int) (less : Int) : toInt (toInt number - less) = toInt (number - less) :=
  Int.bmod_sub_bmod

/-- A number is its front part and its last digit. -/
theorem numeral_step {base num : Nat} (two : 2 ≤ base) (large : base ≤ num) :
    numeral base num = numeral base (num / base) ++ [digitChar (num % base)] := by
  have positive : num ≠ 0 := by omega
  have front : num / base ≠ 0 := (Nat.div_pos large (by omega)).ne'
  rw [numeral, numeral, if_neg positive, if_neg front, Nat.digits_def' two (by omega), List.map_cons, List.reverse_cons]

theorem numeral_digit {base num : Nat} (small : num < base) : numeral base num = [digitChar (num % base)] := by
  rw [Nat.mod_eq_of_lt small, numeral]
  split
  · rename_i zero
    rw [zero]
  · rename_i positive
    rw [Nat.digits_of_lt base num positive small]
    rfl

/-- `printnum` pads a number and writes its digits. -/
theorem printnum_exact {base num rounds : Nat} (two : 2 ≤ base) (enough : num < rounds) (padc : Fin 256) (width : Int) :
    printnum putch base padc rounds num width putdat = some (emit putch (charCodes
      (List.replicate (toInt (width - (numeral base num).length)).toNat padc ++ numeral base num)) putdat) := by
  induction rounds generalizing num width with
  | zero => exact absurd enough (Nat.not_lt_zero _)
  | succ rounds ih =>
    rw [printnum]
    by_cases large : base ≤ num
    · have shorter : num / base < rounds := by
        have less : num / base < num := Nat.div_lt_self (by omega) two
        omega
      have widths : toInt (toInt (width - 1) - ((numeral base (num / base)).length : Int)) =
          toInt (width - ((numeral base num).length : Int)) := by
        rw [toInt_toInt_sub, numeral_step two large, List.length_append, List.length_singleton]
        congr 1
        push_cast
        ring
      simp only [if_pos large, ih shorter, Option.map_some, widths]
      rw [putChar_emit, ← emit_chars, List.append_assoc, ← numeral_step two large]
    · simp only [if_neg large, Option.map_some, putTimes_exact]
      rw [numeral_digit (Nat.lt_of_not_le large), emit_chars, putChar_emit, List.length_singleton]
      rfl

/-! ## Text and flags -/

/-- A byte that is printed as it stands. -/
def IsPlain (c : Fin 256) : Prop := c ≠ 37 ∧ c ≠ 0

/-- The text in front of a `%` is written. -/
theorem putText_escape {rounds : Nat} (plain : ∀ c ∈ text, IsPlain c) (holds : HoldsText bytes fmt (text ++ 37 :: rest))
    (enough : text.length < rounds) :
    putText putch bytes rounds fmt putdat = some (some (fmt + text.length + 1), emit putch (charCodes text) putdat) := by
  induction text generalizing rounds fmt putdat with
  | nil =>
    obtain ⟨more, rfl⟩ := Nat.exists_eq_add_of_lt enough
    have first : bytes fmt = 37 := holds.first
    simp only [putText, if_pos first]
    rfl
  | cons c text ih =>
    obtain ⟨more, rfl⟩ := Nat.exists_eq_add_of_lt enough
    obtain ⟨notEscape, nonzero⟩ := plain c List.mem_cons_self
    have first : bytes fmt = c := holds.first
    have behind : fmt + 1 + text.length + 1 = fmt + (c :: text).length + 1 := by
      simp only [List.length_cons]
      omega
    rw [putText, first, if_neg notEscape, if_neg nonzero, ih (fun c member => plain c (List.mem_cons_of_mem _ member))
      (HoldsText.tail holds) (by simp only [List.length_cons]; omega), behind]
    rfl

/-- The text at the end of a format is written. -/
theorem putText_end {rounds : Nat} (plain : ∀ c ∈ text, IsPlain c) (holds : HoldsText bytes fmt text)
    (enough : text.length < rounds) :
    putText putch bytes rounds fmt putdat = some (none, emit putch (charCodes text) putdat) := by
  induction text generalizing rounds fmt putdat with
  | nil =>
    obtain ⟨more, rfl⟩ := Nat.exists_eq_add_of_lt enough
    have notEscape : bytes fmt ≠ 37 := by
      rw [holds.nil]
      decide
    simp only [putText, if_neg notEscape, if_pos holds.nil]
    rfl
  | cons c text ih =>
    obtain ⟨more, rfl⟩ := Nat.exists_eq_add_of_lt enough
    obtain ⟨notEscape, nonzero⟩ := plain c List.mem_cons_self
    rw [putText, holds.first, if_neg notEscape, if_neg nonzero,
      ih (fun c member => plain c (List.mem_cons_of_mem _ member)) holds.tail (by simp only [List.length_cons]; omega)]
    rfl

/-- A decimal digit. -/
def IsDecimal (c : Fin 256) : Prop := 48 ≤ c.val ∧ c.val ≤ 57

theorem toInt_toInt (value : Int) : toInt (toInt value) = toInt value := Int.bmod_bmod

theorem toInt_step {left right : Int} (same : toInt left = toInt right) (digit : Int) :
    toInt (left * 10 + digit) = toInt (right * 10 + digit) := by
  simp only [toInt] at same ⊢
  rw [Int.add_bmod, Int.mul_bmod, same, ← Int.mul_bmod, ← Int.add_bmod]

/-- The value of digits behind those read before. -/
def readDigits (digits : List (Fin 10)) (value : Int) : Int := digits.foldl (fun value digit => value * 10 + digit.val) value

theorem toInt_readDigits (digits : List (Fin 10)) {left right : Int} (same : toInt left = toInt right) :
    toInt (readDigits digits left) = toInt (readDigits digits right) := by
  induction digits generalizing left right with
  | nil => exact same
  | cons digit digits ih => exact ih (toInt_step same _)

theorem readDigits_exact (digits : List (Fin 10)) (seen : List Nat) :
    readDigits digits (Nat.ofDigits 10 seen.reverse : Nat) =
      (Nat.ofDigits 10 (seen ++ digits.map Fin.val).reverse : Nat) := by
  induction digits generalizing seen with
  | nil => rw [List.map_nil, List.append_nil, readDigits, List.foldl_nil]
  | cons digit digits ih =>
    have longer : ((Nat.ofDigits 10 seen.reverse : Nat) : Int) * 10 + digit.val =
        (Nat.ofDigits 10 (seen ++ [digit.val]).reverse : Nat) := by
      rw [List.reverse_append, List.reverse_singleton, List.singleton_append, Nat.ofDigits_cons]
      push_cast
      ring
    rw [readDigits, List.foldl_cons, longer]
    refine (ih _).trans ?_
    rw [List.map_cons, List.append_assoc, List.singleton_append]

/-- The digits of a number are read up to the first other byte. -/
theorem readNumber_exact {digits : List (Fin 10)} {rounds : Nat} {precision : Int} {digit : Nat} {ch : Fin 256}
    (isDigit : ch.val = 48 + digit) (holds : HoldsAt bytes fmt (digits.map decimalChar))
    (stops : ¬ IsDecimal (bytes (fmt + digits.length))) (enough : digits.length < rounds) :
    readNumber bytes rounds fmt precision ch =
      some (toInt (readDigits digits (precision * 10 + digit)), fmt + digits.length) := by
  have isValue : precision * 10 + (ch.val : Int) - 48 = precision * 10 + digit := by omega
  induction digits generalizing rounds fmt precision ch digit with
  | nil =>
    obtain ⟨more, rfl⟩ := Nat.exists_eq_add_of_lt enough
    have outside : (bytes fmt).val < 48 ∨ 57 < (bytes fmt).val := by
      simp only [List.length_nil, Nat.add_zero, IsDecimal] at stops
      omega
    simp only [readNumber, isValue, if_pos outside]
    rfl
  | cons next digits ih =>
    obtain ⟨more, rfl⟩ := Nat.exists_eq_add_of_lt enough
    obtain ⟨first, later⟩ := HoldsAt.cons_iff.mp holds
    have isNext : (bytes fmt).val = 48 + next.val := by rw [first, decimalChar]
    have inside : ¬ ((bytes fmt).val < 48 ∨ 57 < (bytes fmt).val) := by omega
    have behind : fmt + (next :: digits).length = fmt + 1 + digits.length := by
      simp only [List.length_cons]
      omega
    rw [behind] at stops ⊢
    simp only [readNumber, isValue, if_neg inside]
    rw [ih isNext later stops (by simp only [List.length_cons]; omega) (by omega)]
    rw [toInt_readDigits digits (toInt_step (toInt_toInt _) next.val)]
    rfl

/-- The text of some flags. -/
def modifiersText (modifiers : List Modifier) : List (Fin 256) := modifiers.flatMap Modifier.text

theorem modifiersText_cons (modifier : Modifier) (modifiers : List Modifier) :
    modifiersText (modifier :: modifiers) = modifier.text ++ modifiersText modifiers := List.flatMap_cons

theorem isDecimal_startsFlag {c : Fin 256} (decimal : IsDecimal c) : startsFlag c = true := by
  unfold startsFlag
  unfold IsDecimal at decimal
  simp [decimal]

/-- Behind the digits of a number stands no digit. -/
theorem number_stops {first : Fin 9} {digits : List (Fin 10)} {modifiers : List Modifier}
    (chain : (Modifier.number first digits :: modifiers).IsChain Modifier.Follows)
    (holds : HoldsAt bytes fmt (modifiersText modifiers))
    (stops : startsFlag (bytes (fmt + (modifiersText modifiers).length)) = false) : ¬ IsDecimal (bytes fmt) := by
  cases modifiers with
  | nil =>
    intro decimal
    have starts := isDecimal_startsFlag decimal
    simp only [modifiersText, List.flatMap_nil, List.length_nil, Nat.add_zero] at stops
    rw [starts] at stops
    cases stops
  | cons modifier modifiers =>
    have follows := (List.isChain_cons_cons.mp chain).1
    have first : ∀ {c rest}, modifier.text = c :: rest → bytes fmt = c := by
      intro c rest isText
      have isText : modifiersText (modifier :: modifiers) = c :: (rest ++ modifiersText modifiers) := by
        rw [modifiersText_cons, isText, List.cons_append]
      rw [isText] at holds
      exact (HoldsAt.cons_iff.mp holds).1
    cases modifier with
    | number => exact follows.elim
    | zero => exact follows.elim
    | minus => rw [first rfl]; unfold IsDecimal; decide
    | star => rw [first rfl]; unfold IsDecimal; decide
    | point => rw [first rfl]; unfold IsDecimal; decide
    | alternate => rw [first rfl]; unfold IsDecimal; decide
    | long => rw [first rfl]; unfold IsDecimal; decide

/-- A number behind its first digit, which is not 0. -/
theorem readNumber_first {digit : Nat} {digits : List (Fin 10)} {rounds : Nat} {ch : Fin 256} (isDigit : ch.val = 48 + digit)
    (holds : HoldsAt bytes fmt (digits.map decimalChar)) (stops : ¬ IsDecimal (bytes (fmt + digits.length)))
    (enough : digits.length < rounds) :
    readNumber bytes rounds fmt 0 ch =
      some (toInt (Nat.ofDigits 10 (digit :: digits.map Fin.val).reverse : Nat), fmt + digits.length) := by
  have value := readDigits_exact digits [digit]
  simp only [List.reverse_singleton, Nat.ofDigits_singleton] at value
  rw [readNumber_exact isDigit holds stops enough, Int.zero_mul, Int.zero_add, value]
  rfl

/-- The flags are read up to the first byte that is none. -/
theorem reswitch_exact {modifiers : List Modifier} {rounds : Nat} {applied : Flags × List Word}
    (chain : modifiers.IsChain Modifier.Follows) (holds : HoldsAt bytes fmt (modifiersText modifiers))
    (stops : startsFlag (bytes (fmt + (modifiersText modifiers).length)) = false)
    (enough : (modifiersText modifiers).length < rounds) (isApplied : applyAll modifiers flags args = some applied) :
    reswitch bytes rounds fmt args flags = some ⟨bytes (fmt + (modifiersText modifiers).length),
      fmt + (modifiersText modifiers).length + 1, applied.2, applied.1⟩ := by
  induction modifiers generalizing rounds fmt flags args with
  | nil =>
    obtain ⟨more, rfl⟩ := Nat.exists_eq_add_of_lt enough
    obtain rfl := Option.some.inj isApplied
    simp only [modifiersText, List.flatMap_nil, List.length_nil, Nat.add_zero] at stops ⊢
    unfold startsFlag at stops
    simp only [List.mem_cons, List.not_mem_nil, or_false, decide_eq_false_iff_not, not_or, not_and, not_le] at stops
    obtain ⟨⟨notMinus, notStar, notPoint, notAlternate, notLong⟩, notDecimal⟩ := stops
    have notZero : bytes fmt ≠ 48 := by
      intro zero
      rw [zero] at notDecimal
      exact absurd (notDecimal (by decide)) (by decide)
    have notNumber : ¬ (49 ≤ (bytes fmt).val ∧ (bytes fmt).val ≤ 57) := by omega
    simp only [reswitch, if_neg notMinus, if_neg notZero, if_neg notNumber, if_neg notStar, if_neg notPoint,
      if_neg notAlternate, if_neg notLong]
  | cons modifier modifiers ih =>
    obtain ⟨rounds, rfl⟩ := Nat.exists_eq_succ_of_ne_zero (Nat.ne_zero_of_lt enough)
    rw [modifiersText_cons] at holds stops enough ⊢
    -- a flag of one byte
    have single : ∀ {c} {next : Flags × List Word}, modifier.text = [c] → applyAll modifiers next.1 next.2 = some applied →
        bytes fmt = c ∧ reswitch bytes rounds (fmt + 1) next.2 next.1 =
          some ⟨bytes (fmt + (modifier.text ++ modifiersText modifiers).length),
            fmt + (modifier.text ++ modifiersText modifiers).length + 1, applied.2, applied.1⟩ := by
      intro c next isByte isNext
      rw [isByte] at holds stops enough
      obtain ⟨first, later⟩ := HoldsAt.cons_iff.mp holds
      have behind : fmt + ([c] ++ modifiersText modifiers).length = fmt + 1 + (modifiersText modifiers).length := by
        simp only [List.length_append, List.length_singleton]
        omega
      rw [behind] at stops
      rw [isByte, behind]
      refine ⟨first, ih chain.tail later stops ?_ isNext⟩
      simp only [List.length_append, List.length_singleton] at enough
      omega
    rw [applyAll, Option.bind_eq_some_iff] at isApplied
    obtain ⟨next, isNext, isApplied⟩ := isApplied
    cases modifier with
    | minus =>
      obtain rfl := Option.some.inj isNext
      obtain ⟨first, read⟩ := single rfl isApplied
      simp only [reswitch, first, if_true]
      exact read
    | zero =>
      obtain rfl := Option.some.inj isNext
      obtain ⟨first, read⟩ := single rfl isApplied
      simp only [reswitch, first, Fin.reduceEq, if_false, if_true]
      exact read
    | number digit digits =>
      obtain rfl := Option.some.inj isNext
      have isBytes : (Modifier.number digit digits).text = ⟨49 + digit.val, by omega⟩ :: digits.map decimalChar := rfl
      rw [isBytes] at holds stops enough ⊢
      obtain ⟨first, later⟩ := HoldsAt.cons_iff.mp holds
      obtain ⟨front, behind⟩ := HoldsAt.append_iff.mp later
      rw [List.length_map] at behind
      have isEnd : fmt + ((⟨49 + digit.val, by omega⟩ :: digits.map decimalChar) ++ modifiersText modifiers).length =
          fmt + 1 + digits.length + (modifiersText modifiers).length := by
        simp only [List.length_append, List.length_cons, List.length_map]
        omega
      simp only [List.length_append, List.length_cons, List.length_map] at enough
      rw [isEnd] at stops ⊢
      have isDigit : (bytes fmt).val = 48 + (digit.val + 1) := by
        rw [first]
        simp only
        omega
      have fewer : (modifiersText modifiers).length < rounds := by omega
      have read := readNumber_first isDigit front (number_stops chain behind stops) (by omega : digits.length < rounds)
      have notMinus : bytes fmt ≠ 45 := fun same => by
        rw [same] at isDigit
        omega
      have notZero : bytes fmt ≠ 48 := fun same => by
        rw [same] at isDigit
        omega
      have isNumber : 49 ≤ (bytes fmt).val ∧ (bytes fmt).val ≤ 57 := by omega
      simp only [reswitch, if_neg notMinus, if_neg notZero, if_pos isNumber, read, Option.bind_some]
      exact ih chain.tail behind stops fewer isApplied
    | star =>
      cases args with
      | nil => cases isNext
      | cons arg args =>
        obtain rfl := Option.some.inj isNext
        obtain ⟨first, read⟩ := single rfl isApplied
        have notNumber : ¬ (49 ≤ (42 : Fin 256).val ∧ (42 : Fin 256).val ≤ 57) := by decide
        simp only [reswitch, first, Fin.reduceEq, if_false, if_true, if_neg notNumber]
        exact read
    | point =>
      obtain rfl := Option.some.inj isNext
      obtain ⟨first, read⟩ := single rfl isApplied
      have notNumber : ¬ (49 ≤ (46 : Fin 256).val ∧ (46 : Fin 256).val ≤ 57) := by decide
      simp only [reswitch, first, Fin.reduceEq, if_false, if_true, if_neg notNumber]
      exact read
    | alternate =>
      obtain rfl := Option.some.inj isNext
      obtain ⟨first, read⟩ := single rfl isApplied
      have notNumber : ¬ (49 ≤ (35 : Fin 256).val ∧ (35 : Fin 256).val ≤ 57) := by decide
      simp only [reswitch, first, Fin.reduceEq, if_false, if_true, if_neg notNumber]
      exact read
    | long =>
      obtain rfl := Option.some.inj isNext
      obtain ⟨first, read⟩ := single rfl isApplied
      have notNumber : ¬ (49 ≤ (108 : Fin 256).val ∧ (108 : Fin 256).val ≤ 57) := by decide
      simp only [reswitch, first, Fin.reduceEq, if_false, if_true, if_neg notNumber]
      exact read

/-- Numbers that fit an `int`. -/
structure Flags.InRange (flags : Flags) : Prop where
  width : -2 ^ 31 ≤ flags.width ∧ flags.width < 2 ^ 31
  precision : -2 ^ 31 ≤ flags.precision ∧ flags.precision < 2 ^ 31

theorem toInt_range (value : Int) : -2 ^ 31 ≤ toInt value ∧ toInt value < 2 ^ 31 := by
  have positive : 0 < 2 ^ 32 := by decide
  exact ⟨Int.le_bmod positive, Int.bmod_lt positive⟩

theorem Flags.InRange.process (inRange : flags.InRange) {value : Int} (small : -2 ^ 31 ≤ value ∧ value < 2 ^ 31) :
    (flags.process value).InRange := by
  unfold Flags.process
  have none : (-2 ^ 31 : Int) ≤ -1 ∧ (-1 : Int) < 2 ^ 31 := by decide
  split
  · exact ⟨small, none⟩
  · exact ⟨inRange.width, small⟩

theorem Flags.InRange.apply {modifier : Modifier} {applied : Flags × List Word} (inRange : flags.InRange)
    (isApplied : modifier.apply flags args = some applied) : applied.1.InRange := by
  cases modifier with
  | number first digits =>
    obtain rfl := Option.some.inj isApplied
    exact inRange.process (toInt_range _)
  | star =>
    cases args with
    | nil => cases isApplied
    | cons arg args =>
      obtain rfl := Option.some.inj isApplied
      exact inRange.process ⟨BitVec.le_toInt _, BitVec.toInt_lt⟩
  | point =>
    obtain rfl := Option.some.inj isApplied
    have zero : (-2 ^ 31 : Int) ≤ 0 ∧ (0 : Int) < 2 ^ 31 := by decide
    dsimp only
    split
    · exact ⟨zero, inRange.precision⟩
    · exact inRange
  | minus | zero | alternate | long =>
    obtain rfl := Option.some.inj isApplied
    exact ⟨inRange.width, inRange.precision⟩

theorem Flags.InRange.applyAll {modifiers : List Modifier} {applied : Flags × List Word} (inRange : flags.InRange)
    (isApplied : applyAll modifiers flags args = some applied) : applied.1.InRange := by
  induction modifiers generalizing flags args with
  | nil =>
    obtain rfl := Option.some.inj isApplied
    exact inRange
  | cons modifier modifiers ih =>
    rw [Printfmt.applyAll, Option.bind_eq_some_iff] at isApplied
    obtain ⟨next, isNext, isApplied⟩ := isApplied
    exact ih (inRange.apply isNext) isApplied

theorem start_inRange : Flags.start.InRange := ⟨by decide, by decide⟩

/-! ## Strings -/

theorem strnlen_text {p : Nat} (holds : HoldsText bytes p text) (len : Nat) :
    Vmm.strnlen (fun index => bytes (p + index)) len = min len text.length := by
  induction text generalizing p len with
  | nil =>
    cases len with
    | zero => rfl
    | succ len =>
      have ended : bytes (p + 0) = 0 := holds.nil
      rw [Vmm.strnlen, if_pos ended]
      rfl
  | cons c text ih =>
    cases len with
    | zero => exact (Nat.zero_min _).symm
    | succ len =>
      have nonzero : bytes (p + 0) ≠ 0 := by
        rw [Nat.add_zero, holds.first]
        exact holds.nonzero c List.mem_cons_self
      have behind : (fun index => bytes (p + (index + 1))) = fun index => bytes (p + 1 + index) := by
        funext index
        congr 1
        omega
      rw [Vmm.strnlen, if_neg nonzero, behind, ih holds.tail, List.length_cons, Nat.add_min_add_right]

/-- How a character is shown. -/
def shownChar (altflag : Bool) (c : Fin 256) : Fin 256 := if altflag ∧ (c.val < 32 ∨ 126 < c.val) then 63 else c

/-- The part of a string that a precision leaves. -/
def cutText (precision : Int) (text : List (Fin 256)) : List (Fin 256) :=
  if precision < 0 then text else text.take precision.toNat

/-- The width that is left behind so many characters. -/
def widthLeft (width : Int) (written : Nat) : Int := if written = 0 then width else toInt (width - written)

theorem widthLeft_succ (width : Int) (written : Nat) : widthLeft (toInt (width - 1)) written = widthLeft width (written + 1) := by
  rw [widthLeft, widthLeft, if_neg (Nat.succ_ne_zero written)]
  have same : width - 1 - (written : Int) = width - (written + 1 : Nat) := by
    push_cast
    ring
  split
  · rename_i nothing
    rw [nothing, Nat.zero_add]
    rfl
  · rw [toInt_toInt_sub, same]

/-- The loop over a string writes its front part. -/
theorem putString_exact {altflag : Bool} {p rounds : Nat} {precision width : Int} (holds : HoldsText bytes p text)
    (enough : text.length < rounds) : putString putch bytes altflag rounds p precision width putdat =
      some (widthLeft width (cutText precision text).length,
        emit putch (charCodes ((cutText precision text).map (shownChar altflag))) putdat) := by
  induction text generalizing p rounds precision width putdat with
  | nil =>
    obtain ⟨more, rfl⟩ := Nat.exists_eq_add_of_lt enough
    have ended : ¬ (bytes p ≠ 0 ∧ (precision < 0 ∨ 0 ≤ precision - 1)) := fun both => both.1 holds.nil
    have nothing : cutText precision [] = [] := by
      unfold cutText
      split
      · rfl
      · exact List.take_nil
    simp only [putString, if_neg ended, nothing]
    rfl
  | cons c text ih =>
    obtain ⟨more, rfl⟩ := Nat.exists_eq_add_of_lt enough
    by_cases goesOn : precision < 0 ∨ 0 ≤ precision - 1
    · have continues : bytes p ≠ 0 ∧ (precision < 0 ∨ 0 ≤ precision - 1) :=
        ⟨holds.first ▸ holds.nonzero c List.mem_cons_self, goesOn⟩
      have isCut : cutText precision (c :: text) =
          c :: cutText (if precision < 0 then precision else precision - 1) text := by
        unfold cutText
        by_cases negative : precision < 0
        · simp only [if_pos negative]
        · have later : ¬ precision - 1 < 0 := by omega
          have isSucc : precision.toNat = (precision - 1).toNat + 1 := by omega
          simp only [if_neg negative, if_neg later, isSucc, List.take_succ_cons]
      simp only [putString, if_pos continues]
      rw [ih holds.tail (by simp only [List.length_cons]; omega), isCut, holds.first, widthLeft_succ]
      rfl
    · have stops : ¬ (bytes p ≠ 0 ∧ (precision < 0 ∨ 0 ≤ precision - 1)) := fun both => goesOn both.2
      have nothing : cutText precision (c :: text) = [] := by
        have isZero : precision = 0 := by omega
        simp [cutText, isZero]
      simp only [putString, if_neg stops, nothing]
      rfl

theorem cutText_length (precision : Int) (text : List (Fin 256)) :
    (cutText precision text).length = if precision < 0 then text.length else min precision.toNat text.length := by
  unfold cutText
  split
  · rfl
  · exact List.length_take

/-- A string is written with its padding. -/
theorem putPadded_exact {p rounds : Nat} (holds : HoldsText bytes p text) (short : text.length < 2 ^ 30)
    (inRange : flags.InRange) (enough : text.length < rounds) :
    putPadded putch bytes rounds p flags putdat = some (emit putch (charCodes (stringText flags text)) putdat) := by
  obtain ⟨⟨widthLower, widthUpper⟩, precisionLower, precisionUpper⟩ := inRange
  have isShown : shown flags text = (cutText flags.precision text).map (shownChar flags.altflag) := rfl
  have shownLength : (shown flags text).length = (cutText flags.precision text).length := by
    rw [isShown, List.length_map]
  have isLength := cutText_length flags.precision text
  have shorter : (cutText flags.precision text).length < 2 ^ 30 := by
    rw [isLength]
    split <;> omega
  unfold putPadded stringText
  by_cases left : 0 < flags.width ∧ flags.padc ≠ 45
  · have counted : Vmm.strnlen (fun index => bytes (p + index)) (flags.precision % 2 ^ 64).toNat =
        (cutText flags.precision text).length := by
      rw [strnlen_text holds, isLength]
      split <;> omega
    have isWidth : toInt (flags.width - (cutText flags.precision text).length) =
        flags.width - (cutText flags.precision text).length := by
      rw [toInt, Int.bmod_def]
      omega
    have nothing : (widthLeft (min (flags.width - ((cutText flags.precision text).length : Int)) 0)
        (cutText flags.precision text).length).toNat = 0 := by
      rw [widthLeft]
      split
      · omega
      · rw [toInt, Int.bmod_def]
        omega
    simp only [if_pos left, counted, isWidth, putString_exact holds enough, Option.bind_eq_bind, Option.bind_some,
      nothing, putTimes_exact, shownLength]
    rw [emit_chars, isShown]
    rfl
  · have same : (widthLeft flags.width (cutText flags.precision text).length).toNat =
        (toInt (flags.width - (cutText flags.precision text).length)).toNat := by
      rw [widthLeft]
      split
      · rename_i zero
        rw [zero, toInt, Int.bmod_def]
        omega
      · rfl
    simp only [if_neg left, putString_exact holds enough, Option.bind_eq_bind, Option.bind_some, same, putTimes_exact,
      shownLength]
    rw [emit_chars, isShown]

end Ucore.Printfmt
