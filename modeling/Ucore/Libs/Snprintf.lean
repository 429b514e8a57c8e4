import Ucore.Libs.PrintRuns
import Ucore.Libs.Strtol

/-!
# Printing into a buffer

`vsnprintf` writes the front of what a format means into a buffer, with a 0 behind it, and no byte
outside of the buffer. `strtol` reads the numbers back that `vsnprintf` writes.
-/

namespace Ucore.Printfmt

open Transition

variable {bytes : Bytes} {constants : Constants} {fmt str size : Nat} {flags : Flags} {args : List Word}
  {strings : Nat → Option (List (Fin 256))} {out : List (BitVec 32)} {text : List (Fin 256)}

/-- The characters that have a place in a buffer in front of its last byte. -/
def stored (size : Nat) (out : List (BitVec 32)) : Nat := min out.length (size - 1)

/-- The memory with a text in a buffer. -/
def printed (bytes : Bytes) (str size : Nat) (out : List (BitVec 32)) : Bytes := fun address =>
  if str ≤ address ∧ address < str + stored size out then charOf (out.getD (address - str) 0)
  else if address = str + stored size out then 0
  else bytes address

/-- `sprintputch` stores the characters up to the end of the buffer and counts all of them. -/
theorem emit_sprintputch (out : List (BitVec 32)) {buf ebuf : Nat} (inside : buf ≤ ebuf) (count : Int) (bytes : Bytes) :
    emit sprintputch out ⟨buf, ebuf, toInt count, bytes⟩ = ⟨buf + min out.length (ebuf - buf), ebuf, toInt (count + out.length),
      memcpy bytes buf (fun index => charOf (out.getD index 0)) (min out.length (ebuf - buf))⟩ := by
  induction out generalizing buf count bytes with
  | nil => simp [emit, memcpy]
  | cons ch out ih =>
    have counted : toInt (toInt count + 1) = toInt (count + 1) := Int.bmod_add_bmod
    have total : count + 1 + (out.length : Int) = count + (ch :: out).length := by
      rw [List.length_cons]
      push_cast
      ring
    by_cases room : buf < ebuf
    · have fewer : min (ch :: out).length (ebuf - buf) = min out.length (ebuf - (buf + 1)) + 1 := by
        rw [List.length_cons]
        omega
      have behind : buf + 1 + min out.length (ebuf - (buf + 1)) = buf + (min out.length (ebuf - (buf + 1)) + 1) := by omega
      rw [emit, List.foldl_cons, sprintputch, if_pos room, counted, fewer]
      exact (ih room (count + 1) _).trans (by rw [total, behind]; rfl)
    · obtain rfl : buf = ebuf := Nat.le_antisymm inside (Nat.le_of_not_lt room)
      rw [emit, List.foldl_cons, sprintputch, if_neg room, counted]
      refine (ih (Nat.le_refl buf) (count + 1) bytes).trans ?_
      simp only [Nat.sub_self, Nat.min_zero, total]
      rfl

/-- A buffer that `vprintfmt` prints into. -/
theorem vsnprintf_returns (returns : Returns (fun rounds => vprintfmt sprintputch bytes constants rounds fmt args
    ⟨str, str + size - 1, 0, bytes⟩) (emit sprintputch out ⟨str, str + size - 1, 0, bytes⟩)) (positive : 0 < str) (room : 0 < size) :
    Returns (fun rounds => vsnprintf rounds constants bytes str size fmt args) (toInt out.length, printed bytes str size out) := by
  have accepted : ¬ (str = 0 ∨ str + size - 1 < str) := by omega
  have left : str + size - 1 - str = size - 1 := by omega
  have zero : toInt 0 = 0 := by decide
  have isEmitted := emit_sprintputch out (show str ≤ str + size - 1 by omega) 0 bytes
  rw [zero, left, Int.zero_add] at isEmitted
  have stops : (fun b : Sprintbuf => (b.cnt, Function.update b.bytes b.buf 0)) (emit sprintputch out ⟨str, str + size - 1, 0, bytes⟩) =
      (toInt out.length, printed bytes str size out) := by
    simp only [isEmitted, Prod.mk.injEq, true_and]
    funext address
    unfold printed stored
    by_cases last : address = str + min out.length (size - 1)
    · have outside : ¬ (str ≤ address ∧ address < str + min out.length (size - 1)) := by omega
      rw [if_neg outside, if_pos last, last, Function.update_self]
    · simp only [if_neg last, Function.update_of_ne last, memcpy_exact]
  have mapped := returns.map fun b : Sprintbuf => (b.cnt, Function.update b.bytes b.buf 0)
  simp only [stops] at mapped
  simpa only [vsnprintf, if_neg accepted] using mapped

/-- `vsnprintf` returns the length of what the format means, stores the front of it with a 0 behind, and
writes no other byte. -/
theorem vsnprintf_exact {format : Format} (literals : constants.Hold bytes) (readable : Readable bytes strings)
    (holds : HoldsText bytes fmt format.text) (proper : format.Proper) (written : format.written strings args = some out)
    (str size : Nat) :
    Returns (fun rounds => vsnprintf rounds constants bytes str size fmt args)
      (if str = 0 ∨ size = 0 then (-eInval, bytes) else (toInt out.length, printed bytes str size out)) := by
  by_cases refused : str = 0 ∨ size = 0
  · have refusedToo : str = 0 ∨ str + size - 1 < str := by omega
    simp only [if_pos refused, vsnprintf, if_pos refusedToo]
    exact Returns.pure _
  · rw [if_neg refused]
    exact vsnprintf_returns ((vprintfmt_exact sprintputch literals readable holds).2 format proper rfl args out _ written)
      (by omega) (by omega)

/-- The front of a format in a buffer of 8 bytes. -/
theorem vsnprintf_exact_mixed :
    Returns (fun rounds => vsnprintf rounds slotConstants (slotBytes (ascii "%05d:%*-s%e%%")) 3000 8 (64 * 33) [-42, 6, 0, -16])
        (39, printed (slotBytes (ascii "%05d:%*-s%e%%")) 3000 8 (charCodes (ascii "-00042:(null)no such file or directory%"))) ∧
      printed (slotBytes (ascii "%05d:%*-s%e%%")) 3000 8 (charCodes (ascii "-00042:(null)no such file or directory%")) 3007 = 0 := by
  have isText : ascii "%05d:%*-s%e%%" = mixedFormat.text := by decide
  have holds : HoldsText (slotBytes (ascii "%05d:%*-s%e%%")) (64 * 33) (ascii "%05d:%*-s%e%%") :=
    holdsText_slot rfl (by decide) (by decide +kernel)
  have readable : Readable (slotBytes (ascii "%05d:%*-s%e%%")) fun _ => none := by
    intro p text isText
    cases isText
  have written : mixedFormat.written (fun _ => none) [-42, 6, 0, -16] =
      some (charCodes (ascii "-00042:(null)no such file or directory%")) := by decide +kernel
  have returns := vsnprintf_exact (slots_hold _) readable (isText ▸ holds) mixedFormat_proper written 3000 8
  have length : toInt (charCodes (ascii "-00042:(null)no such file or directory%")).length = 39 := by decide +kernel
  rw [if_neg (by decide), length] at returns
  exact ⟨returns, by decide +kernel⟩

/-! ## Numbers are read back -/

theorem charOf_ofNat (c : Fin 256) : charOf (BitVec.ofNat 32 c.val) = c := by
  apply Fin.ext
  simp only [charOf, Fin.ofNat, BitVec.toNat_ofNat]
  omega

/-- A text that fits into the buffer stands there. -/
theorem printed_holds (nonzero : ∀ c ∈ text, c ≠ 0) (fits : text.length < size) :
    HoldsText (printed bytes str size (charCodes text)) str text := by
  have isLength : (charCodes text).length = text.length := List.length_map _
  have all : stored size (charCodes text) = text.length := by
    unfold stored
    omega
  refine ⟨fun index byte isByte => ?_, ?_, nonzero⟩
  · obtain ⟨inside, _⟩ := List.getElem?_eq_some_iff.mp isByte
    have here : str ≤ str + index ∧ str + index < str + text.length := by omega
    have isCode : (charCodes text)[index]? = some (BitVec.ofNat 32 byte.val) := by
      rw [charCodes, List.getElem?_map, isByte]
      rfl
    simp only [printed, all, if_pos here, Nat.add_sub_cancel_left, List.getD_eq_getElem?_getD, isCode, Option.getD_some, charOf_ofNat]
  · have behind : ¬ (str ≤ str + text.length ∧ str + text.length < str + text.length) := by omega
    simp only [printed, all, if_neg behind, if_true]

theorem digitChar_value : ∀ digit < 16, Strtol.digitValue (digitChar digit) = some digit := by
  decide +kernel

/-- The digits of a base, as characters. -/
def IsNumeral (base num : Nat) (text : List (Fin 256)) : Prop :=
  ∃ digits : List Nat, text = digits.map digitChar ∧ (∀ digit ∈ digits, digit < base) ∧ Nat.ofDigits base digits.reverse = num

theorem numeral_digits {base : Nat} (two : 2 ≤ base) (num : Nat) : IsNumeral base num (numeral base num) := by
  unfold numeral
  split
  · rename_i zero
    refine ⟨[0], rfl, ?_, ?_⟩
    · simp only [List.mem_singleton, forall_eq]
      omega
    · simp [zero]
  · refine ⟨(Nat.digits base num).reverse, List.map_reverse.symm, ?_, ?_⟩
    · intro digit member
      exact Nat.digits_lt_base two (List.mem_reverse.mp member)
    · rw [List.reverse_reverse, Nat.ofDigits_digits]

/-- Zeros in front do not change a number. -/
theorem IsNumeral.zeros {base num : Nat} (isNumeral : IsNumeral base num text) (positive : 0 < base) (count : Nat) :
    IsNumeral base num (List.replicate count 48 ++ text) := by
  obtain ⟨digits, rfl, small, isValue⟩ := isNumeral
  refine ⟨List.replicate count 0 ++ digits, ?_, ?_, ?_⟩
  · rw [List.map_append, List.map_replicate]
    rfl
  · intro digit member
    rcases List.mem_append.mp member with front | behind
    · rw [List.eq_of_mem_replicate front]
      exact positive
    · exact small digit behind
  · rw [List.reverse_append, List.reverse_replicate, Nat.ofDigits_append_replicate_zero, isValue]

/-- A number without padding, or padded with zeros. -/
theorem numberText_numeral {base num : Nat} (two : 2 ≤ base) (zeros : flags.padc = 48 ∨ flags.width = -1) (small : num < 2 ^ 64) :
    IsNumeral base num (numberText base flags num) := by
  unfold numberText
  rcases zeros with isZero | noWidth
  · rw [isZero]
    exact (numeral_digits two num).zeros (by omega) _
  · have short : (numeral base num).length ≤ 64 := by
      unfold numeral
      split
      · simp
      · have large : num < base ^ 64 := Nat.lt_of_lt_of_le small (Nat.pow_le_pow_left two 64)
        rw [List.length_reverse, List.length_map, Nat.digits_length_le_iff two]
        exact large
    have nothing : (toInt (flags.width - (numeral base num).length)).toNat = 0 := by
      rw [noWidth, toInt, Int.bmod_def]
      omega
    rw [nothing]
    exact numeral_digits two num

/-- A text that `strtol` reads to its end as a value. -/
def ReadsAs (base : Nat) (value : Int) (text : List (Fin 256)) : Prop :=
  (∀ c ∈ text, c ≠ 0) ∧ ∀ s endptr, Strtol.conversion s text endptr base =
    { value := BitVec.ofInt 64 value, endptr := if endptr then some (s + text.length) else none }

theorem digitChar_facts : ∀ digit < 16, Strtol.isGap (digitChar digit) = false ∧ digitChar digit ≠ 43 ∧ digitChar digit ≠ 45 ∧
    digitChar digit ≠ 120 ∧ digitChar digit ≠ 0 := by
  decide +kernel

/-- The digits are read to their end. -/
theorem numeral_exact {base length : Nat} {digits : List Nat} (inBase : ∀ digit ∈ digits, digit < base) (small : base ≤ 16)
    {front : List (Fin 256)} (isLength : front.length = length) :
    Strtol.numeral ⟨length, base⟩ (front ++ digits.map digitChar) = ⟨length + digits.length, Nat.ofDigits base digits.reverse⟩ := by
  have accepted : ∀ c ∈ digits.map digitChar, Strtol.isDigit base c = true := by
    intro c member
    obtain ⟨digit, inDigits, rfl⟩ := List.mem_map.mp member
    have less := inBase digit inDigits
    rw [Strtol.isDigit, digitChar_value digit (by omega)]
    exact decide_eq_true less
  have values : (digits.map digitChar).filterMap Strtol.digitValue = digits := by
    rw [List.filterMap_map]
    refine (List.filterMap_congr fun digit member => ?_).trans List.filterMap_some
    have less := inBase digit member
    exact digitChar_value digit (by omega)
  simp only [Strtol.numeral, ← isLength, List.drop_left, List.takeWhile_eq_self_iff.mpr accepted, values, List.length_map]

theorem digits_nonzero {digits : List Nat} (small : ∀ digit ∈ digits, digit < 16) : ∀ c ∈ digits.map digitChar, c ≠ 0 := by
  intro c member
  obtain ⟨digit, inDigits, rfl⟩ := List.mem_map.mp member
  exact (digitChar_facts digit (small digit inDigits)).2.2.2.2

/-- Digits have no sign in front of them. -/
theorem digits_unsigned {digits : List Nat} (small : ∀ digit ∈ digits, digit < 16) :
    (digits.map digitChar).dropWhile Strtol.isGap = digits.map digitChar ∧
      Strtol.unsigned (digits.map digitChar) = digits.map digitChar ∧ Strtol.sign (digits.map digitChar) = 1 := by
  cases digits with
  | nil => exact ⟨rfl, by decide, by decide⟩
  | cons digit digits =>
    obtain ⟨notGap, notPlus, notMinus, _⟩ := digitChar_facts digit (small digit List.mem_cons_self)
    refine ⟨List.dropWhile_cons_of_neg (by simp [notGap]), ?_, ?_⟩
    · simp [Strtol.unsigned, notPlus.symm, notMinus.symm]
    · simp [Strtol.sign, notMinus.symm]

/-- Digits do not start with `0x`. -/
theorem digits_accepted {base : Nat} {digits : List Nat} (small : ∀ digit ∈ digits, digit < 16) (positive : 0 < base) :
    Strtol.acceptedPrefix base (digits.map digitChar) = ⟨0, base⟩ := by
  have noPrefix : ¬ [48, 120] <+: digits.map digitChar := by
    intro starts
    obtain ⟨digit, inDigits, isX⟩ := List.mem_map.mp (starts.subset (show (120 : Fin 256) ∈ [48, 120] by decide))
    exact (digitChar_facts digit (small digit inDigits)).2.2.2.1 isX
  have given : base ≠ 0 := by omega
  simp [Strtol.acceptedPrefix, noPrefix, given]

/-- A number without a sign is read. -/
theorem IsNumeral.readsAs {base num : Nat} (isNumeral : IsNumeral base num text) (positive : 0 < base) (small : base ≤ 16) :
    ReadsAs base num text := by
  obtain ⟨digits, rfl, inBase, isValue⟩ := isNumeral
  have inTable : ∀ digit ∈ digits, digit < 16 := fun digit member => Nat.lt_of_lt_of_le (inBase digit member) small
  obtain ⟨noGaps, noSign, isOne⟩ := digits_unsigned inTable
  have isNumeral := numeral_exact inBase small (show ([] : List (Fin 256)).length = 0 from rfl)
  rw [List.nil_append] at isNumeral
  refine ⟨digits_nonzero inTable, fun s endptr => ?_⟩
  simp only [Strtol.conversion, Strtol.unsignedPart, noGaps, noSign, isOne, digits_accepted inTable positive, isNumeral, isValue,
    List.length_map, one_mul, Nat.sub_self, Nat.zero_add]

/-- A negative number is read. -/
theorem IsNumeral.negative {base num : Nat} (isNumeral : IsNumeral base num text) (positive : 0 < base) (small : base ≤ 16) :
    ReadsAs base (-num) (45 :: text) := by
  obtain ⟨digits, rfl, inBase, isValue⟩ := isNumeral
  have inTable : ∀ digit ∈ digits, digit < 16 := fun digit member => Nat.lt_of_lt_of_le (inBase digit member) small
  have noGaps : (45 :: digits.map digitChar).dropWhile Strtol.isGap = 45 :: digits.map digitChar := rfl
  have behindSign : Strtol.unsigned (45 :: digits.map digitChar) = digits.map digitChar := by simp [Strtol.unsigned]
  have isMinus : Strtol.sign (45 :: digits.map digitChar) = -1 := by simp [Strtol.sign]
  have isNumeral := numeral_exact inBase small (show ([] : List (Fin 256)).length = 0 from rfl)
  rw [List.nil_append] at isNumeral
  refine ⟨List.forall_mem_cons.mpr ⟨by decide, digits_nonzero inTable⟩, fun s endptr => ?_⟩
  simp only [Strtol.conversion, Strtol.unsignedPart, noGaps, behindSign, isMinus, digits_accepted inTable positive, isNumeral, isValue,
    List.length_cons, List.length_map, neg_mul, one_mul, Nat.zero_add, Nat.add_sub_cancel_left, Nat.add_comm 1]

/-- A number behind `0x` is read. -/
theorem IsNumeral.prefixed {num : Nat} (isNumeral : IsNumeral 16 num text) : ReadsAs 16 num ([48, 120] ++ text) := by
  obtain ⟨digits, rfl, inBase, isValue⟩ := isNumeral
  have noGaps : ([48, 120] ++ digits.map digitChar).dropWhile Strtol.isGap = [48, 120] ++ digits.map digitChar := rfl
  have noSign : Strtol.unsigned ([48, 120] ++ digits.map digitChar) = [48, 120] ++ digits.map digitChar := by
    simp [Strtol.unsigned]
  have isOne : Strtol.sign ([48, 120] ++ digits.map digitChar) = 1 := by simp [Strtol.sign]
  have isPrefix : Strtol.acceptedPrefix 16 ([48, 120] ++ digits.map digitChar) = ⟨2, 16⟩ := by
    simp [Strtol.acceptedPrefix]
  have isNumeral := numeral_exact inBase (Nat.le_refl 16) (show [(48 : Fin 256), 120].length = 2 from rfl)
  refine ⟨?_, fun s endptr => ?_⟩
  · intro c member
    rcases List.mem_append.mp member with front | behind
    · have nonzero : (48 : Fin 256) ≠ 0 ∧ (120 : Fin 256) ≠ 0 := by decide
      rcases List.mem_pair.mp front with rfl | rfl
      · exact nonzero.1
      · exact nonzero.2
    · exact digits_nonzero inBase c behind
  · simp only [Strtol.conversion, Strtol.unsignedPart, noGaps, noSign, isOne, isPrefix, isNumeral, isValue, one_mul, Nat.sub_self,
      Nat.zero_add, List.length_append, List.length_map]
    rfl

/-- The base of the numbers that a conversion writes. -/
def Conversion.radix : Conversion → Option Nat
  | .decimal => some 10
  | .unsigned => some 10
  | .octal => some 8
  | .pointer => some 16
  | .hexadecimal => some 16
  | _ => none

theorem converts_radix {conversion : Conversion} {base : Nat} {σ : Type} {putch : BitVec 32 → σ → σ}
    (isRadix : conversion.radix = some base) : Converts putch bytes constants strings conversion := by
  cases conversion with
  | decimal => exact converts_decimal
  | pointer => exact converts_pointer
  | unsigned => exact converts_unsigned rfl
  | octal => exact converts_unsigned rfl
  | hexadecimal => exact converts_unsigned rfl
  | character | error | string | percent => cases isRadix

/-- A number of 64 bits, without padding or padded with zeros, is written in a way that it is read. -/
theorem written_readsAs (strings : Nat → Option (List (Fin 256))) {conversion : Conversion} {base : Nat} (isRadix : conversion.radix = some base)
    (long : conversion = .pointer ∨ flags.lflag ≠ 0) (zeros : flags.padc = 48 ∨ flags.width = -1) (num : Word) : ∃ text value, conversion.written strings flags num = some (charCodes text) ∧ ReadsAs base value text ∧
      BitVec.ofInt 64 value = num := by
  have isNat : BitVec.ofInt 64 (num.toNat : Int) = num := by
    rw [BitVec.ofInt_natCast, BitVec.ofNat_toNat, BitVec.setWidth_eq]
  have plain : ∀ {base}, flags.lflag ≠ 0 → 2 ≤ base → base ≤ 16 →
      ReadsAs base num.toNat (numberText base flags (unsignedArg flags num)) := by
    intro base long two small
    rw [unsignedArg, if_neg long]
    exact (numberText_numeral two zeros num.isLt).readsAs (by omega) small
  cases conversion with
  | character | error | string | percent => cases isRadix
  | unsigned =>
    obtain rfl := Option.some.inj isRadix
    exact ⟨_, _, rfl, plain (long.resolve_left (by decide)) (by decide) (by decide), isNat⟩
  | octal =>
    obtain rfl := Option.some.inj isRadix
    exact ⟨_, _, rfl, plain (long.resolve_left (by decide)) (by decide) (by decide), isNat⟩
  | hexadecimal =>
    obtain rfl := Option.some.inj isRadix
    exact ⟨_, _, rfl, plain (long.resolve_left (by decide)) (by decide) (by decide), isNat⟩
  | pointer =>
    obtain rfl := Option.some.inj isRadix
    exact ⟨_, _, rfl, (numberText_numeral (by decide) zeros num.isLt).prefixed, isNat⟩
  | decimal =>
    obtain rfl := Option.some.inj isRadix
    have isSigned : signedArg flags num = num.toInt := if_neg (long.resolve_left (by decide))
    refine ⟨_, num.toInt, rfl, ?_, BitVec.ofInt_toInt⟩
    have size : num.toInt.natAbs < 2 ^ 64 := by
      have lower := BitVec.le_toInt num
      have upper := BitVec.toInt_lt (x := num)
      omega
    have isNumber := numberText_numeral (show 2 ≤ 10 by decide) zeros size
    rw [isSigned, signedText]
    by_cases negative : num.toInt < 0
    · have isNegative : num.toInt = -(num.toInt.natAbs : Int) := by omega
      rw [if_pos negative]
      have reads := isNumber.negative (by decide) (by decide)
      rwa [← isNegative] at reads
    · have isPositive : num.toInt = (num.toInt.natAbs : Int) := by omega
      rw [if_neg negative]
      have reads := isNumber.readsAs (by decide) (by decide)
      rwa [← isPositive] at reads

/-- `strtol` reads back every number of 64 bits that `vsnprintf` writes into a buffer that is large enough: of
every conversion of numbers, without a width or padded with zeros. -/
theorem strtol_vsnprintf {modifiers : List Modifier} {conversion : Conversion} {base : Nat} {num : Word}
    (chain : modifiers.IsChain Modifier.Follows) (isRadix : conversion.radix = some base)
    (holds : HoldsText bytes fmt (flagsText modifiers ++ [conversion.byte]))
    (isApplied : applyAll modifiers .start args = some (flags, [num])) (long : conversion = .pointer ∨ flags.lflag ≠ 0)
    (zeros : flags.padc = 48 ∨ flags.width = -1) (written : conversion.written (fun _ => none) flags num = some out)
    (positive : 0 < str) (fits : out.length < size) (endptr : Bool) :
    Returns (fun rounds => (vsnprintf rounds constants bytes str size fmt args).bind fun result =>
        Strtol.strtol rounds result.2 str endptr base)
      { value := num, endptr := if endptr then some (str + out.length) else none } := by
  obtain ⟨text, value, isWritten, ⟨nonzero, reads⟩, isValue⟩ :=
    written_readsAs (fun _ => none) isRadix long zeros num
  obtain rfl := Option.some.inj (written.symm.trans isWritten)
  have isLength : (charCodes text).length = text.length := List.length_map _
  have takes : conversion ≠ .percent := by
    rintro rfl
    cases isRadix
  have nothing : ∀ c ∈ ([] : List (Fin 256)), IsPlain c := by simp
  have converts : Converts sprintputch bytes constants (fun _ => none) conversion := converts_radix isRadix
  have returns := one_exact ⟨str, str + size - 1, 0, bytes⟩ converts chain isApplied takes isWritten nothing holds
  rw [isLength] at fits ⊢
  rw [← isValue, ← reads str endptr]
  exact (vsnprintf_returns returns positive (by omega)).bind (Strtol.strtol_returns (printed_holds nonzero fits) endptr base)

/-- The number -42 is written by `%06ld` and read back. -/
theorem strtol_vsnprintf_negative :
    Returns (fun rounds => (vsnprintf rounds slotConstants (textAt 100 (ascii "%06ld")) 1 16 100 [-42]).bind fun result =>
      Strtol.strtol rounds result.2 1 true 10) { value := -42, endptr := some 8 } := by
  have chain : List.IsChain Modifier.Follows [.zero, .number 5 [], .long] :=
    List.isChain_cons_cons.mpr ⟨trivial, List.isChain_pair.mpr trivial⟩
  have holds : HoldsText (textAt 100 (ascii "%06ld")) 100 (flagsText [.zero, .number 5 [], .long] ++ [Conversion.decimal.byte]) :=
    holdsText_textAt (by decide +kernel)
  have isApplied : applyAll [.zero, .number 5 [], .long] .start [-42] = some (⟨48, 6, -1, 1, false⟩, [-42]) := by
    decide +kernel
  have written : Conversion.decimal.written (fun _ => none) ⟨48, 6, -1, 1, false⟩ (-42) = some (charCodes (ascii "-000042")) := by
    decide +kernel
  exact strtol_vsnprintf chain rfl holds isApplied (Or.inr (by decide)) (Or.inl rfl) written (by decide) (by decide) true

end Ucore.Printfmt
