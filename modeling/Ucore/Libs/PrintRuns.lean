import Ucore.Libs.PrintLoops

/-!
# Runs of `vprintfmt`

One round of `vprintfmt` writes the text up to a `%`, reads flags and converts an argument. By
induction on the pieces of a format it writes what they mean, and every text is a format.
-/

namespace Ucore.Printfmt

open Transition

variable {σ : Type} {putch : BitVec 32 → σ → σ} {bytes : Bytes} {constants : Constants} {fmt : Nat} {putdat : σ}
  {flags : Flags} {args : List Word} {text rest : List (Fin 256)} {strings : Nat → Option (List (Fin 256))}

/-! ## Conversions -/

variable (constants) (bytes) (strings) (putch) in
/-- `convert` writes what the conversion means, when there are rounds enough. -/
def Converts (conversion : Conversion) : Prop :=
  ∀ flags args result, flags.InRange → conversion.format strings flags args = some result → ∀ fmt putdat,
    ∃ least, ∀ rounds, least ≤ rounds →
      convert putch bytes constants (vprintfmt putch bytes constants rounds) rounds ⟨conversion.byte, fmt, args, flags⟩ putdat =
        some (fmt, result.2, emit putch result.1 putdat)

/-- Every pointer that leads to a string does so in memory. -/
def Readable (bytes : Bytes) (strings : Nat → Option (List (Fin 256))) : Prop :=
  ∀ p text, strings p = some text → HoldsText bytes p text ∧ text.length < 2 ^ 30

/-- The literals and the table stand in memory. -/
structure Constants.Hold (constants : Constants) (bytes : Bytes) : Prop where
  null : HoldsText bytes constants.null (ascii "(null)")
  errorFormat : HoldsText bytes constants.errorFormat (ascii "error %d")
  stringFormat : HoldsText bytes constants.stringFormat (ascii "%s")
  unnamed : ∀ code, errorText code = none → constants.errorString code = none
  errorString : ∀ code text, errorText code = some text →
    ∃ p, constants.errorString code = some p ∧ 0 < p ∧ p < 2 ^ 64 ∧ HoldsText bytes p (ascii text)

/-- The argument of a conversion that takes one. -/
theorem Conversion.format_cases {conversion : Conversion} {result : List (BitVec 32) × List Word}
    (takes : conversion ≠ .percent) (isResult : conversion.format strings flags args = some result) :
    ∃ arg behind out, args = arg :: behind ∧ conversion.written strings flags arg = some out ∧ result = (out, behind) := by
  cases args with
  | nil =>
    rw [Conversion.format, if_neg takes] at isResult
    cases isResult
  | cons arg behind =>
    rw [Conversion.format, if_neg takes, Option.map_eq_some_iff] at isResult
    obtain ⟨out, isOut, rfl⟩ := isResult
    exact ⟨arg, behind, out, rfl, isOut, rfl⟩

theorem converts_percent : Converts putch bytes constants strings .percent := by
  intro flags args result _ isResult fmt putdat
  refine ⟨0, fun rounds _ => ?_⟩
  cases args with
  | nil =>
    obtain rfl := Option.some.inj isResult
    rfl
  | cons arg args =>
    obtain rfl := Option.some.inj isResult
    rfl

theorem converts_character : Converts putch bytes constants strings .character := by
  intro flags args result _ isResult fmt putdat
  obtain ⟨arg, behind, out, rfl, isOut, rfl⟩ := Conversion.format_cases (by decide) isResult
  obtain rfl := Option.some.inj isOut
  exact ⟨0, fun rounds _ => rfl⟩

theorem converts_string (literals : constants.Hold bytes) (readable : Readable bytes strings) :
    Converts putch bytes constants strings .string := by
  intro flags args result inRange isResult fmt putdat
  obtain ⟨arg, behind, out, rfl, isOut, rfl⟩ := Conversion.format_cases (by decide) isResult
  obtain ⟨text, holds, short, rfl⟩ : ∃ text,
      HoldsText bytes (if arg = 0 then constants.null else arg.toNat) text ∧ text.length < 2 ^ 30 ∧
        charCodes (stringText flags text) = out := by
    rw [Conversion.written] at isOut
    split at isOut
    · rename_i isNull
      rw [if_pos isNull]
      exact ⟨_, literals.null, by decide, Option.some.inj isOut⟩
    · rename_i notNull
      rw [if_neg notNull]
      obtain ⟨text, isText, rfl⟩ := Option.map_eq_some_iff.mp isOut
      exact ⟨text, (readable _ _ isText).1, (readable _ _ isText).2, rfl⟩
  refine ⟨text.length + 1, fun rounds enough => ?_⟩
  simp only [convert, Conversion.byte, Fin.reduceEq, if_false, if_true, putPadded_exact holds short inRange enough,
    Option.map_some]

theorem getuint_exact (flags : Flags) (arg : Word) (behind : List Word) : ∃ num, getuint flags.lflag (arg :: behind) = some (num, behind) ∧
    num.toNat = unsignedArg flags arg := by
  refine ⟨_, rfl, ?_⟩
  unfold unsignedArg
  by_cases plain : flags.lflag = 0
  · rw [if_neg (not_not.mpr plain), if_pos plain, BitVec.toNat_setWidth, BitVec.toNat_setWidth]
    omega
  · rw [if_pos plain, if_neg plain]

theorem getint_exact (flags : Flags) (arg : Word) (behind : List Word) : ∃ num, getint flags.lflag (arg :: behind) = some (num, behind) ∧
    num.toInt = signedArg flags arg := by
  refine ⟨_, rfl, ?_⟩
  unfold signedArg
  by_cases plain : flags.lflag = 0
  · rw [if_neg (not_not.mpr plain), if_pos plain]
    exact BitVec.toInt_signExtend_of_le (by decide)
  · rw [if_pos plain, if_neg plain]

/-- The size of a number of either sign. -/
theorem toNat_neg {num : Word} (negative : num.toInt < 0) : (-num).toNat = num.toInt.natAbs := by
  have size := num.isLt
  rw [BitVec.toInt_eq_toNat_cond] at negative ⊢
  rw [BitVec.toNat_neg]
  split at negative
  · omega
  · rename_i large
    rw [if_neg large]
    omega

theorem toNat_nonneg {num : Word} (nonneg : ¬ num.toInt < 0) : num.toNat = num.toInt.natAbs := by
  have size := num.isLt
  rw [BitVec.toInt_eq_toNat_cond] at nonneg ⊢
  split at nonneg
  · rename_i small
    rw [if_pos small]
    rfl
  · omega

theorem converts_decimal : Converts putch bytes constants strings .decimal := by
  intro flags args result _ isResult fmt putdat
  obtain ⟨arg, behind, out, rfl, isOut, rfl⟩ := Conversion.format_cases (by decide) isResult
  obtain rfl := Option.some.inj isOut
  obtain ⟨num, read, isNum⟩ := getint_exact flags arg behind
  refine ⟨num.toInt.natAbs + 1, fun rounds enough => ?_⟩
  simp only [convert, Conversion.byte, Fin.reduceEq, if_false, if_true, read, Option.bind_some]
  unfold signedText
  rw [← isNum]
  by_cases negative : num.toInt < 0
  · have size := toNat_neg negative
    simp only [if_pos negative]
    rw [printnum_exact (by decide) (size ▸ enough), Option.map_some, size, emit_chars [45]]
    rfl
  · have size := toNat_nonneg negative
    simp only [if_neg negative]
    rw [printnum_exact (by decide) (size ▸ enough), Option.map_some, size]
    rfl

theorem converts_pointer : Converts putch bytes constants strings .pointer := by
  intro flags args result _ isResult fmt putdat
  obtain ⟨arg, behind, out, rfl, isOut, rfl⟩ := Conversion.format_cases (by decide) isResult
  obtain rfl := Option.some.inj isOut
  refine ⟨arg.toNat + 1, fun rounds enough => ?_⟩
  simp only [convert, Conversion.byte, Fin.reduceEq, if_false, if_true]
  rw [printnum_exact (by decide) enough, Option.map_some, emit_chars [48, 120]]
  rfl

/-- The base of a conversion of unsigned numbers. -/
def Conversion.base : Conversion → Option Nat
  | .unsigned => some 10
  | .octal => some 8
  | .hexadecimal => some 16
  | _ => none

theorem converts_unsigned {conversion : Conversion} {base : Nat} (isBase : conversion.base = some base) :
    Converts putch bytes constants strings conversion := by
  intro flags args result _ isResult fmt putdat
  have takes : conversion ≠ .percent := by
    rintro rfl
    cases isBase
  obtain ⟨arg, behind, out, rfl, isOut, rfl⟩ := Conversion.format_cases takes isResult
  obtain ⟨num, read, isNum⟩ := getuint_exact flags arg behind
  have two : 2 ≤ base := by
    cases conversion <;> cases isBase <;> decide
  have isText : out = charCodes (numberText base flags num.toNat) := by
    cases conversion <;> cases isBase <;> exact isNum ▸ (Option.some.inj isOut).symm
  refine ⟨num.toNat + 1, fun rounds enough => ?_⟩
  cases conversion <;> cases isBase <;>
    simp only [convert, Conversion.byte, Fin.reduceEq, if_false, if_true, read, Option.bind_some,
      printnum_exact two enough flags.padc flags.width, Option.map_some, isText] <;> rfl

/-! ## Pieces -/

/-- The default case goes back to the `%`. -/
theorem backUp_exact {rounds start : Nat} (plain : ∀ c ∈ text, c ≠ 37) (escape : bytes start = 37)
    (holds : HoldsAt bytes (start + 1) text) (enough : text.length < rounds) :
    backUp bytes rounds (start + 1 + text.length) = some (start + 1) := by
  induction text using List.reverseRecOn generalizing rounds with
  | nil =>
    obtain ⟨more, rfl⟩ := Nat.exists_eq_add_of_lt enough
    rw [backUp]
    simp only [List.length_nil, Nat.add_zero, Nat.add_sub_cancel, if_pos escape]
  | append_singleton text c ih =>
    obtain ⟨rounds, rfl⟩ := Nat.exists_eq_succ_of_ne_zero (Nat.ne_zero_of_lt enough)
    obtain ⟨front, behind⟩ := HoldsAt.append_iff.mp holds
    have isLast : bytes (start + 1 + text.length) = c := (HoldsAt.cons_iff.mp behind).1
    have notEscape : bytes (start + 1 + text.length) ≠ 37 := isLast ▸ plain c (by simp)
    have isEnd : start + 1 + (text ++ [c]).length - 1 = start + 1 + text.length := by
      simp only [List.length_append, List.length_singleton]
      omega
    simp only [List.length_append, List.length_singleton] at enough
    rw [backUp, isEnd, if_neg notEscape]
    exact ih (fun c member => plain c (List.mem_append_left _ member)) front (by omega)

theorem modifiers_plain (modifiers : List Modifier) : ∀ c ∈ modifiersText modifiers, IsPlain c := by
  intro c member
  obtain ⟨modifier, _, inText⟩ := List.mem_flatMap.mp member
  cases modifier with
  | number digit digits =>
    have large : 48 ≤ c.val ∧ c.val ≤ 57 := by
      rcases List.mem_cons.mp inText with rfl | inDigits
      · simp only
        omega
      · obtain ⟨other, _, rfl⟩ := List.mem_map.mp inDigits
        simp only [decimalChar]
        omega
    constructor
    · rintro rfl
      exact absurd large (by decide)
    · rintro rfl
      exact absurd large (by decide)
  | minus | zero | star | point | alternate | long =>
    obtain rfl := List.mem_singleton.mp inText
    exact ⟨by decide, by decide⟩

/-- A byte behind flags that no conversion has leads back to the `%`. -/
theorem convert_default {rounds start : Nat} {ch : Fin 256} {modifiers : List Modifier}
    {printfmt : Nat → List Word → σ → Option σ} (unknown : isConversion ch = false) (escape : bytes start = 37)
    (holds : HoldsAt bytes (start + 1) (modifiersText modifiers)) (enough : (modifiersText modifiers).length < rounds) :
    convert putch bytes constants printfmt rounds ⟨ch, start + 1 + (modifiersText modifiers).length + 1, args, flags⟩ putdat =
      some (start + 1, args, emit putch (charCodes [37]) putdat) := by
  have backed := backUp_exact (fun c member => (modifiers_plain modifiers c member).1) escape holds enough
  simp only [isConversion, List.mem_cons, List.not_mem_nil, or_false, decide_eq_false_iff_not, not_or] at unknown
  obtain ⟨notC, notE, notS, notD, notU, notO, notP, notX, notPercent⟩ := unknown
  simp only [convert, if_neg notC, if_neg notE, if_neg notS, if_neg notD, if_neg notU, if_neg notO, if_neg notP, if_neg notX,
    if_neg notPercent, Nat.add_sub_cancel, backed, Option.map_some]
  rfl

theorem conversion_stops (conversion : Conversion) : startsFlag conversion.byte = false := by
  cases conversion <;> decide

/-- A text without escape sequences is printed as it stands. -/
theorem plain_exact (putch : BitVec 32 → σ → σ) (constants : Constants) (args : List Word) (putdat : σ) (plain : ∀ c ∈ text, IsPlain c) (holds : HoldsText bytes fmt text) :
    ∃ least, ∀ rounds, least ≤ rounds →
      vprintfmt putch bytes constants rounds fmt args putdat = some (emit putch (charCodes text) putdat) := by
  refine ⟨text.length + 2, fun rounds enough => ?_⟩
  obtain ⟨rounds, rfl⟩ := Nat.exists_eq_add_of_le' (Nat.le_trans (Nat.le_add_left 1 (text.length + 1)) enough)
  rw [vprintfmt, putText_end plain holds (by omega)]
  rfl

/-- One round of `vprintfmt`: a text, and an escape sequence up to its conversion. -/
theorem vprintfmt_step {modifiers : List Modifier} {applied : Flags × List Word} {rounds : Nat}
    (plain : ∀ c ∈ text, IsPlain c) (holds : HoldsText bytes fmt (text ++ 37 :: (modifiersText modifiers ++ rest)))
    (chain : modifiers.IsChain Modifier.Follows)
    (stops : startsFlag (bytes (fmt + text.length + 1 + (modifiersText modifiers).length)) = false)
    (isApplied : applyAll modifiers .start args = some applied) (enough : text.length < rounds)
    (enoughFlags : (modifiersText modifiers).length < rounds) :
    vprintfmt putch bytes constants (rounds + 1) fmt args putdat =
      (convert putch bytes constants (vprintfmt putch bytes constants rounds) rounds
        ⟨bytes (fmt + text.length + 1 + (modifiersText modifiers).length),
          fmt + text.length + 1 + (modifiersText modifiers).length + 1, applied.2, applied.1⟩
        (emit putch (charCodes text) putdat)).bind fun next => vprintfmt putch bytes constants rounds next.1 next.2.1 next.2.2 := by
  have behind := HoldsText.tail (HoldsText.behind holds)
  have flags := (HoldsAt.append_iff.mp behind.holds).1
  rw [vprintfmt, putText_escape plain holds enough]
  simp only [Option.bind_eq_bind, Option.bind_some, reswitch_exact chain flags stops enoughFlags isApplied]

/-- What a format writes with a piece in front. -/
theorem Format.written_cons {piece : Piece} {pieces : List Piece} {cut : Option (List Modifier)} {out : List (BitVec 32)}
    (written : Format.written strings ⟨piece :: pieces, cut⟩ args = some out) :
    ∃ front behind, piece.format strings args = some front ∧ Format.written strings ⟨pieces, cut⟩ front.2 = some behind ∧
      front.1 ++ behind = out := by
  rw [Format.written, formatPieces] at written
  simp only [Option.bind_eq_some_iff, Option.map_eq_some_iff] at written
  obtain ⟨whole, ⟨front, isFront, rest, isRest, rfl⟩, isOut⟩ := written
  cases cut with
  | none =>
    obtain rfl := Option.some.inj isOut
    refine ⟨front, rest.1, isFront, ?_, rfl⟩
    rw [Format.written, isRest]
    rfl
  | some modifiers =>
    obtain ⟨applied, isApplied, rfl⟩ := Option.map_eq_some_iff.mp isOut
    refine ⟨front, _, isFront, ?_, (List.append_assoc ..).symm⟩
    rw [Format.written, isRest, Option.bind_some]
    exact Option.map_eq_some_iff.mpr ⟨applied, isApplied, rfl⟩

theorem Format.Proper.tail {piece : Piece} {pieces : List Piece} {cut : Option (List Modifier)}
    (proper : Format.Proper ⟨piece :: pieces, cut⟩) : Format.Proper ⟨pieces, cut⟩ where
  pieces := fun other member => proper.pieces other (List.mem_cons_of_mem _ member)
  cut := proper.cut

theorem Format.text_cons (piece : Piece) (pieces : List Piece) (cut : Option (List Modifier)) :
    Format.text ⟨piece :: pieces, cut⟩ = piece.text ++ Format.text ⟨pieces, cut⟩ := by
  simp only [Format.text, List.flatMap_cons, List.append_assoc]

/-- A `%` with flags at the end of a format is printed as it stands. -/
theorem cut_exact {modifiers : List Modifier} {out : List (BitVec 32)} (putdat : σ)
    (chain : modifiers.IsChain Modifier.Follows) (plain : ∀ c ∈ text, IsPlain c)
    (holds : HoldsText bytes fmt (text ++ Format.text ⟨[], some modifiers⟩))
    (written : Format.written strings ⟨[], some modifiers⟩ args = some out) :
    ∃ least, ∀ rounds, least ≤ rounds → vprintfmt putch bytes constants rounds fmt args putdat =
      some (emit putch (charCodes text ++ out) putdat) := by
  obtain ⟨applied, isApplied, rfl⟩ := Option.map_eq_some_iff.mp written
  have isText : Format.text ⟨[], some modifiers⟩ = 37 :: (modifiersText modifiers ++ []) := by
    rw [List.append_nil]
    rfl
  rw [isText] at holds
  have behind := HoldsText.tail (HoldsText.behind holds)
  rw [List.append_nil] at behind
  have ended := behind.ended
  obtain ⟨least, printed⟩ := plain_exact putch constants applied.2 (emit putch (charCodes (text ++ [37])) putdat)
    (modifiers_plain modifiers) behind
  refine ⟨least + text.length + (modifiersText modifiers).length + 2, fun rounds enough => ?_⟩
  obtain ⟨rounds, rfl⟩ := Nat.exists_eq_add_of_le' (Nat.le_trans (Nat.le_add_left 1 _) enough)
  rw [vprintfmt_step plain holds chain (by rw [ended]; decide) isApplied (by omega) (by omega)]
  rw [convert_default (by rw [ended]; decide) (HoldsText.first (HoldsText.behind holds)) behind.holds (by omega),
    Option.bind_some, ← emit_chars, printed rounds (by omega), ← emit_chars]
  congr 2
  simp [charCodes, flagsText, modifiersText]

/-- A format is printed with plain characters in front of it. -/
theorem pieces_exact {pieces : List Piece} {cut : Option (List Modifier)} {out : List (BitVec 32)} (putdat : σ)
    (proper : Format.Proper ⟨pieces, cut⟩)
    (converts : ∀ modifiers conversion, .escape modifiers conversion ∈ pieces →
      Converts putch bytes constants strings conversion)
    (plain : ∀ c ∈ text, IsPlain c) (holds : HoldsText bytes fmt (text ++ Format.text ⟨pieces, cut⟩))
    (written : Format.written strings ⟨pieces, cut⟩ args = some out) :
    ∃ least, ∀ rounds, least ≤ rounds → vprintfmt putch bytes constants rounds fmt args putdat =
      some (emit putch (charCodes text ++ out) putdat) := by
  induction pieces generalizing text fmt args putdat out with
  | nil =>
    cases cut with
    | none =>
      obtain rfl := Option.some.inj written
      rw [show Format.text ⟨[], none⟩ = [] from rfl, List.append_nil] at holds
      rw [List.append_nil]
      exact plain_exact putch constants args putdat plain holds
    | some modifiers => exact cut_exact putdat (proper.cut modifiers rfl) plain holds written
  | cons piece pieces ih =>
    obtain ⟨front, behind, isFront, isBehind, rfl⟩ := Format.written_cons written
    have fewer : ∀ modifiers conversion, .escape modifiers conversion ∈ pieces →
        Converts putch bytes constants strings conversion :=
      fun modifiers conversion member => converts modifiers conversion (List.mem_cons_of_mem _ member)
    have first := proper.pieces piece List.mem_cons_self
    rw [Format.text_cons] at holds
    cases piece with
    | plain c =>
      obtain rfl := Option.some.inj isFront
      have longer : ∀ other ∈ text ++ [c], IsPlain other := by
        intro other member
        rcases List.mem_append.mp member with inText | isLast
        · exact plain other inText
        · exact List.mem_singleton.mp isLast ▸ first
      obtain ⟨least, printed⟩ := ih putdat proper.tail fewer longer (by rwa [List.append_assoc]) isBehind
      refine ⟨least, fun rounds enough => ?_⟩
      rw [printed rounds enough]
      simp only [charCodes, List.map_append, List.append_assoc]
    | escape modifiers conversion =>
      obtain ⟨applied, isApplied, isResult⟩ := Option.bind_eq_some_iff.mp isFront
      have isText : Piece.text (.escape modifiers conversion) ++ Format.text ⟨pieces, cut⟩ =
          37 :: (modifiersText modifiers ++ conversion.byte :: Format.text ⟨pieces, cut⟩) := by
        simp [Piece.text, flagsText, modifiersText]
      rw [isText] at holds
      have later := HoldsText.behind (HoldsText.tail (HoldsText.behind holds))
      have isByte := HoldsText.first later
      obtain ⟨fromHere, converted⟩ := converts modifiers conversion List.mem_cons_self applied.1 applied.2 front
        (start_inRange.applyAll isApplied) isResult (fmt + text.length + 1 + (modifiersText modifiers).length + 1)
        (emit putch (charCodes text) putdat)
      have nothing : ∀ c ∈ ([] : List (Fin 256)), IsPlain c := by simp
      obtain ⟨least, printed⟩ := ih (emit putch front.1 (emit putch (charCodes text) putdat))
        proper.tail fewer nothing (HoldsText.tail later) isBehind
      refine ⟨least + fromHere + text.length + (modifiersText modifiers).length + 2, fun rounds enough => ?_⟩
      obtain ⟨rounds, rfl⟩ := Nat.exists_eq_add_of_le' (Nat.le_trans (Nat.le_add_left 1 _) enough)
      rw [vprintfmt_step plain holds first (by rw [isByte]; exact conversion_stops conversion) isApplied (by omega) (by omega),
        isByte, converted rounds (by omega), Option.bind_some, printed rounds (by omega)]
      simp only [emit_append]
      rfl
    | literal modifiers c =>
      obtain ⟨applied, isApplied, rfl⟩ := Option.map_eq_some_iff.mp isFront
      obtain ⟨chain, nonzero, notFlag, unknown⟩ := first
      have isText : Piece.text (.literal modifiers c) ++ Format.text ⟨pieces, cut⟩ =
          37 :: (modifiersText modifiers ++ c :: Format.text ⟨pieces, cut⟩) := by
        simp [Piece.text, flagsText, modifiersText]
      rw [isText] at holds
      have behindEscape := HoldsText.tail (HoldsText.behind holds)
      have isByte := HoldsText.first (HoldsText.behind behindEscape)
      have plainToo : ∀ other ∈ modifiersText modifiers ++ [c], IsPlain other := by
        intro other member
        rcases List.mem_append.mp member with inFlags | isLast
        · exact modifiers_plain modifiers other inFlags
        · obtain rfl := List.mem_singleton.mp isLast
          refine ⟨?_, nonzero⟩
          rintro rfl
          exact absurd unknown (by decide)
      have again : HoldsText bytes (fmt + text.length + 1) (modifiersText modifiers ++ [c] ++ Format.text ⟨pieces, cut⟩) := by
        rw [List.append_assoc, List.singleton_append]
        exact behindEscape
      obtain ⟨least, printed⟩ := ih (emit putch (charCodes [37]) (emit putch (charCodes text) putdat))
        proper.tail fewer plainToo again isBehind
      refine ⟨least + text.length + (modifiersText modifiers).length + 2, fun rounds enough => ?_⟩
      obtain ⟨rounds, rfl⟩ := Nat.exists_eq_add_of_le' (Nat.le_trans (Nat.le_add_left 1 _) enough)
      rw [vprintfmt_step plain holds chain (by rw [isByte]; exact notFlag) isApplied (by omega) (by omega), isByte,
        convert_default unknown (HoldsText.first (HoldsText.behind holds)) (HoldsAt.append_iff.mp behindEscape.holds).1 (by omega),
        Option.bind_some, printed rounds (by omega)]
      simp only [← emit_append]
      congr 2
      simp [charCodes, flagsText, modifiersText]

/-! ## Errors -/

theorem ascii_facts {chars : List Char} (short : chars.length < 64)
    (nonzero : chars.all (fun c => c.toNat % 256 != 0) = true) :
    (ascii (String.ofList chars)).length < 64 ∧ ∀ c ∈ ascii (String.ofList chars), c ≠ 0 := by
  rw [ascii, String.toList_ofList, List.length_map, List.forall_mem_map]
  refine ⟨short, fun c member isZero => ?_⟩
  have apart := List.all_eq_true.mp nonzero c member
  have zero : c.toNat % 256 = 0 := congrArg Fin.val isZero
  rw [zero] at apart
  cases apart

/-- The texts of the table are short. -/
theorem errorText_facts {code : Nat} {text : String} (isText : errorText code = some text) :
    0 < code ∧ code ≤ 24 ∧ (ascii text).length < 64 ∧ ∀ c ∈ ascii text, c ≠ 0 := by
  unfold errorText at isText
  split at isText <;> cases isText <;> exact ⟨by decide, by decide, ascii_facts (by decide) rfl⟩

/-- Nothing is padded without a width. -/
theorem pads_nothing {length : Nat} (small : length < 2 ^ 31) : (toInt (Flags.start.width - length)).toNat = 0 := by
  have width : Flags.start.width = -1 := rfl
  rw [width, toInt, Int.bmod_def]
  omega

theorem stringText_start (short : text.length < 2 ^ 30) : stringText Flags.start text = text := by
  have isShown : shown Flags.start text = text := by
    have same : (fun c : Fin 256 => if Flags.start.altflag ∧ (c.val < 32 ∨ 126 < c.val) then 63 else c) = id := by
      funext c
      exact if_neg fun shows => Bool.false_ne_true shows.1
    rw [shown, same, List.map_id]
    rfl
  have notLeft : ¬ (0 < Flags.start.width ∧ Flags.start.padc ≠ 45) := by decide
  rw [stringText, if_neg notLeft, isShown, pads_nothing (by omega), List.replicate_zero, List.append_nil]

theorem numberText_start {num : Nat} (small : num < 10 ^ 20) : numberText 10 Flags.start num = numeral 10 num := by
  have short : (numeral 10 num).length ≤ 20 := by
    unfold numeral
    split
    · decide
    · rw [List.length_reverse, List.length_map, Nat.digits_length_le_iff (by decide)]
      exact small
  rw [numberText, pads_nothing (by omega), List.replicate_zero, List.nil_append]

/-- A small number passed as an `int`. -/
theorem int_ofInt {value : Int} (nonneg : 0 ≤ value) (small : value < 2 ^ 31) : Word.int (BitVec.ofInt 64 value) = value := by
  rw [Word.int, BitVec.toInt_setWidth, BitVec.toNat_ofInt, Int.bmod_def]
  omega

/-- A text in front of one escape sequence is printed. -/
theorem one_exact {modifiers : List Modifier} {conversion : Conversion} {arg : Word} {out : List (BitVec 32)} (putdat : σ)
    (converts : Converts putch bytes constants strings conversion) (chain : modifiers.IsChain Modifier.Follows)
    (isApplied : applyAll modifiers .start args = some (flags, [arg])) (takes : conversion ≠ .percent)
    (written : conversion.written strings flags arg = some out) (plain : ∀ c ∈ text, IsPlain c)
    (holds : HoldsText bytes fmt (text ++ (flagsText modifiers ++ [conversion.byte]))) :
    ∃ least, ∀ rounds, least ≤ rounds → vprintfmt putch bytes constants rounds fmt args putdat =
      some (emit putch (charCodes text ++ out) putdat) := by
  have proper : Format.Proper ⟨[.escape modifiers conversion], none⟩ :=
    ⟨fun _ member => List.mem_singleton.mp member ▸ chain, fun _ member => nomatch member⟩
  have isText : Format.text ⟨[.escape modifiers conversion], none⟩ = flagsText modifiers ++ [conversion.byte] := by
    simp [Format.text, Piece.text]
  have convertsAll : ∀ others other, Piece.escape others other ∈ [Piece.escape modifiers conversion] →
      Converts putch bytes constants strings other := by
    intro others other member
    obtain ⟨-, rfl⟩ := Piece.escape.inj (List.mem_singleton.mp member)
    exact converts
  have formatted : Format.written strings ⟨[.escape modifiers conversion], none⟩ args = some out := by
    simp only [Format.written, formatPieces, Piece.format, isApplied, Conversion.format, if_neg takes, written, Option.bind_some,
      Option.map_some, List.append_nil]
  exact pieces_exact putdat proper convertsAll plain (isText.symm ▸ holds) formatted

/-- The call for an error without a text. -/
theorem unnamed_exact (literals : constants.Hold bytes) {code : Nat} (small : code < 2 ^ 31) (putdat : σ) :
    ∃ least, ∀ rounds, least ≤ rounds →
      vprintfmt putch bytes constants rounds constants.errorFormat [BitVec.ofInt 64 (code : Int)] putdat =
        some (emit putch (charCodes (ascii "error " ++ numeral 10 code)) putdat) := by
  have isFormat : ascii "error %d" = ascii "error " ++ (flagsText [] ++ [Conversion.decimal.byte]) := by decide
  have isSigned : signedArg Flags.start (BitVec.ofInt 64 (code : Int)) = (code : Int) := int_ofInt (by omega) (by omega)
  have nonneg : ¬ (code : Int) < 0 := by omega
  have isNumber : signedText Flags.start (code : Int) = numeral 10 code := by
    rw [signedText, if_neg nonneg, List.nil_append, Int.natAbs_natCast, numberText_start (by omega)]
  have written : Conversion.decimal.written (fun _ => none) .start (BitVec.ofInt 64 (code : Int)) =
      some (charCodes (numeral 10 code)) := by
    rw [Conversion.written, isSigned, isNumber]
  have plain : ∀ c ∈ ascii "error ", IsPlain c := by
    have isBytes : ascii "error " = [101, 114, 114, 111, 114, 32] := by decide
    rw [isBytes]
    simp [IsPlain]
  have converts : Converts putch bytes constants (fun _ => none) .decimal := converts_decimal
  have printed := one_exact putdat converts List.isChain_nil rfl (by decide) written plain (isFormat ▸ literals.errorFormat)
  rw [charCodes, List.map_append]
  exact printed

/-- The call for an error with a text. -/
theorem named_exact (literals : constants.Hold bytes) {p : Nat} {text : List (Fin 256)} (positive : 0 < p)
    (small : p < 2 ^ 64) (short : text.length < 2 ^ 30) (holds : HoldsText bytes p text) (putdat : σ) :
    ∃ least, ∀ rounds, least ≤ rounds →
      vprintfmt putch bytes constants rounds constants.stringFormat [BitVec.ofNat 64 p] putdat =
        some (emit putch (charCodes text) putdat) := by
  have notNull : BitVec.ofNat 64 p ≠ 0 := by
    intro zero
    have value := congrArg BitVec.toNat zero
    rw [BitVec.toNat_ofNat, Nat.mod_eq_of_lt small] at value
    exact positive.ne' value
  have written : Conversion.string.written (fun q => if q = p then some text else none) .start (BitVec.ofNat 64 p) =
      some (charCodes text) := by
    rw [Conversion.written, if_neg notNull, BitVec.toNat_ofNat, Nat.mod_eq_of_lt small, if_pos rfl, Option.map_some,
      stringText_start short]
  have readable : Readable bytes (fun q => if q = p then some text else none) := by
    intro q other isOther
    dsimp only at isOther
    split at isOther
    · rename_i same
      cases isOther
      exact ⟨same ▸ holds, by omega⟩
    · cases isOther
  have isFormat : ascii "%s" = [] ++ (flagsText [] ++ [Conversion.string.byte]) := by decide
  have nothing : ∀ c ∈ ([] : List (Fin 256)), IsPlain c := by simp
  have converts : Converts putch bytes constants (fun q => if q = p then some text else none) .string :=
    converts_string literals readable
  exact one_exact putdat converts List.isChain_nil rfl (by decide) written nothing (isFormat ▸ literals.stringFormat)

theorem converts_error (literals : constants.Hold bytes) : Converts putch bytes constants strings .error := by
  intro flags args result inRange isResult fmt putdat
  obtain ⟨arg, behind, out, rfl, isOut, rfl⟩ := Conversion.format_cases (by decide) isResult
  rw [Conversion.written] at isOut
  split at isOut
  · cases isOut
  rename_i notLeast
  obtain rfl := Option.some.inj isOut
  have lower : -2 ^ 31 ≤ arg.int := BitVec.le_toInt _
  have upper : arg.int < 2 ^ 31 := BitVec.toInt_lt
  have isErr : (if arg.int < 0 then toInt (-arg.int) else arg.int) = (arg.int.natAbs : Int) := by
    split
    · rw [toInt, Int.bmod_def]
      omega
    · omega
  have nonneg : ¬ (arg.int.natAbs : Int) < 0 := by omega
  rw [errorMessage]
  cases isText : errorText arg.int.natAbs with
  | none =>
    obtain ⟨least, printed⟩ := @unnamed_exact _ putch _ _ literals arg.int.natAbs (by omega) putdat
    refine ⟨least, fun rounds enough => ?_⟩
    have lost := literals.unnamed _ isText
    simp only [convert, Conversion.byte, Fin.reduceEq, if_false, if_true, isErr, if_neg nonneg, Int.toNat_natCast, lost,
      printed rounds enough, ite_self, Option.map_some]
  | some text =>
    obtain ⟨_, inTable, short, _⟩ := errorText_facts isText
    obtain ⟨p, isPointer, positive, small, holds⟩ := literals.errorString _ text isText
    obtain ⟨least, printed⟩ := @named_exact _ putch _ _ literals _ _ positive small (by omega) holds putdat
    refine ⟨least, fun rounds enough => ?_⟩
    have inRange : ¬ maxError < (arg.int.natAbs : Int) := by
      unfold maxError
      omega
    simp only [convert, Conversion.byte, Fin.reduceEq, if_false, if_true, isErr, if_neg nonneg, if_neg inRange,
      Int.toNat_natCast, isPointer, printed rounds enough, Option.map_some]

/-! ## Every text is a format -/

/-- A flag of one byte. -/
def singleFlag (c : Fin 256) : Option Modifier :=
  if c = 45 then some .minus
  else if c = 48 then some .zero
  else if c = 42 then some .star
  else if c = 46 then some .point
  else if c = 35 then some .alternate
  else if c = 108 then some .long
  else none

theorem singleFlag_text : ∀ c modifier, singleFlag c = some modifier → modifier.text = [c] := by
  intro c modifier isFlag
  unfold singleFlag at isFlag
  split_ifs at isFlag <;> cases isFlag <;> subst_vars <;> rfl

theorem singleFlag_cases (c : Fin 256) (starts : startsFlag c = true) :
    (∃ modifier, singleFlag c = some modifier) ∨ ∃ first : Fin 9, c.val = 49 + first.val := by
  by_cases number : 49 ≤ c.val ∧ c.val ≤ 57
  · exact Or.inr ⟨⟨c.val - 49, by omega⟩, by simp only; omega⟩
  · left
    unfold startsFlag at starts
    simp only [List.mem_cons, List.not_mem_nil, or_false, decide_eq_true_eq] at starts
    rcases starts with (rfl | rfl | rfl | rfl | rfl) | decimal
    · exact ⟨_, rfl⟩
    · exact ⟨_, rfl⟩
    · exact ⟨_, rfl⟩
    · exact ⟨_, rfl⟩
    · exact ⟨_, rfl⟩
    · obtain rfl : c = 48 := Fin.ext (by show c.val = 48; omega)
      exact ⟨_, rfl⟩

instance (c : Fin 256) : Decidable (IsDecimal c) := inferInstanceAs (Decidable (_ ∧ _))

/-- The digits at the start of a text. -/
theorem exists_digits (text : List (Fin 256)) : ∃ (digits : List (Fin 10)) (behind : List (Fin 256)),
    text = digits.map decimalChar ++ behind ∧ ∀ c ∈ behind.head?, ¬ IsDecimal c := by
  induction text with
  | nil => exact ⟨[], [], rfl, by simp⟩
  | cons c text ih =>
    by_cases decimal : IsDecimal c
    · obtain ⟨digits, behind, rfl, stops⟩ := ih
      have isDigit : c = decimalChar ⟨c.val - 48, by unfold IsDecimal at decimal; omega⟩ := by
        apply Fin.ext
        unfold IsDecimal at decimal
        simp only [decimalChar]
        omega
      exact ⟨_ :: digits, behind, by rw [List.map_cons, ← isDigit, List.cons_append], stops⟩
    · exact ⟨[], c :: text, rfl, by simpa using decimal⟩

/-- A flag in front of flags that do not go on with its digits. -/
theorem chain_cons {modifier : Modifier} {modifiers : List Modifier} (chain : modifiers.IsChain Modifier.Follows)
    (apart : ∀ first digits, modifier = .number first digits → ∀ c ∈ (modifiersText modifiers).head?, ¬ IsDecimal c) :
    (modifier :: modifiers).IsChain Modifier.Follows := by
  cases modifiers with
  | nil => exact List.isChain_singleton _
  | cons next modifiers =>
    refine List.isChain_cons_cons.mpr ⟨?_, chain⟩
    cases modifier with
    | number first digits =>
      have stops := apart first digits rfl
      cases next with
      | number other rest =>
        refine stops ⟨49 + other.val, by omega⟩ rfl ⟨?_, ?_⟩
        · show 48 ≤ 49 + other.val
          omega
        · show 49 + other.val ≤ 57
          omega
      | zero => exact stops 48 rfl (by decide)
      | minus | star | point | alternate | long => trivial
    | minus | zero | star | point | alternate | long => trivial

/-- The flags at the start of a text. -/
theorem exists_modifiers (text : List (Fin 256)) : ∃ modifiers behind, text = modifiersText modifiers ++ behind ∧
    modifiers.IsChain Modifier.Follows ∧ ∀ c ∈ behind.head?, startsFlag c = false := by
  induction isLength : text.length using Nat.strong_induction_on generalizing text with
  | _ length ih =>
    subst isLength
    cases text with
    | nil => exact ⟨[], [], rfl, List.isChain_nil, by simp⟩
    | cons c rest =>
      cases starts : startsFlag c with
      | false => exact ⟨[], c :: rest, rfl, List.isChain_nil, by simpa using starts⟩
      | true =>
        rcases singleFlag_cases c starts with ⟨modifier, isFlag⟩ | ⟨first, isNumber⟩
        · have isText := singleFlag_text c modifier isFlag
          obtain ⟨modifiers, behind, rfl, chain, stops⟩ := ih rest.length (Nat.lt_succ_self _) rest rfl
          refine ⟨modifier :: modifiers, behind, ?_, chain_cons chain ?_, stops⟩
          · rw [modifiersText_cons, isText]
            rfl
          · rintro first digits rfl
            unfold singleFlag at isFlag
            split_ifs at isFlag <;> cases isFlag
        · obtain rfl : c = ⟨49 + first.val, by clear isNumber; omega⟩ := Fin.ext isNumber
          obtain ⟨digits, rest, rfl, ended⟩ := exists_digits rest
          obtain ⟨modifiers, behind, rfl, chain, stops⟩ := ih rest.length (by
            simp only [List.length_cons, List.length_append]
            omega) rest rfl
          refine ⟨.number first digits :: modifiers, behind, ?_, chain_cons chain fun _ _ _ c isFirst => ?_, stops⟩
          · rw [modifiersText_cons, List.append_assoc]
            rfl
          · refine ended c ?_
            rw [List.head?_append, Option.mem_def.mp isFirst]
            rfl

/-- Every text without a 0 is a format. -/
theorem exists_format (nonzero : ∀ c ∈ text, c ≠ 0) : ∃ format : Format, format.Proper ∧ format.text = text := by
  induction isLength : text.length using Nat.strong_induction_on generalizing text with
  | _ length ih =>
    subst isLength
    -- a piece in front of a shorter format
    have longer : ∀ (piece : Piece) behind, piece.Proper → text = piece.text ++ behind → 0 < piece.text.length →
        ∃ format : Format, format.Proper ∧ format.text = text := by
      rintro piece behind proper rfl positive
      obtain ⟨format, isProper, isText⟩ := ih behind.length (by rw [List.length_append]; omega)
        (fun c member => nonzero c (List.mem_append_right _ member)) rfl
      refine ⟨⟨piece :: format.pieces, format.cut⟩, ⟨?_, isProper.cut⟩, ?_⟩
      · exact List.forall_mem_cons.mpr ⟨proper, isProper.pieces⟩
      · rw [Format.text_cons]
        exact congrArg (piece.text ++ ·) isText
    cases text with
    | nil => exact ⟨⟨[], none⟩, ⟨by simp, by simp⟩, rfl⟩
    | cons c rest =>
      by_cases escape : c = 37
      · subst escape
        obtain ⟨modifiers, behind, rfl, chain, stops⟩ := exists_modifiers rest
        cases behind with
        | nil =>
          refine ⟨⟨[], some modifiers⟩, ⟨by simp, ?_⟩, ?_⟩
          · rintro _ ⟨⟩
            exact chain
          · rw [List.append_nil]
            rfl
        | cons c behind =>
          have notZero : c ≠ 0 := nonzero c (by simp)
          have notFlag : startsFlag c = false := stops c rfl
          cases known : isConversion c with
          | false =>
            refine longer (.literal modifiers c) behind ⟨chain, notZero, notFlag, known⟩ ?_ (by simp [Piece.text])
            simp [Piece.text, flagsText, modifiersText]
          | true =>
            obtain ⟨conversion, rfl⟩ : ∃ conversion : Conversion, conversion.byte = c := by
              simp only [isConversion, List.mem_cons, List.not_mem_nil, or_false, decide_eq_true_eq] at known
              rcases known with rfl | rfl | rfl | rfl | rfl | rfl | rfl | rfl | rfl
              · exact ⟨.character, rfl⟩
              · exact ⟨.error, rfl⟩
              · exact ⟨.string, rfl⟩
              · exact ⟨.decimal, rfl⟩
              · exact ⟨.unsigned, rfl⟩
              · exact ⟨.octal, rfl⟩
              · exact ⟨.pointer, rfl⟩
              · exact ⟨.hexadecimal, rfl⟩
              · exact ⟨.percent, rfl⟩
            refine longer (.escape modifiers conversion) behind chain ?_ (by simp [Piece.text])
            simp [Piece.text, flagsText, modifiersText]
      · exact longer (.plain c) rest ⟨escape, nonzero c List.mem_cons_self⟩ rfl Nat.one_pos

theorem converts_all (literals : constants.Hold bytes) (readable : Readable bytes strings) (conversion : Conversion) :
    Converts putch bytes constants strings conversion := by
  cases conversion with
  | character => exact converts_character
  | error => exact converts_error literals
  | string => exact converts_string literals readable
  | decimal => exact converts_decimal
  | unsigned => exact converts_unsigned rfl
  | octal => exact converts_unsigned rfl
  | pointer => exact converts_pointer
  | hexadecimal => exact converts_unsigned rfl
  | percent => exact converts_percent

/-- Every text is a format, and `vprintfmt` gives `putch` what the pieces of the format write. -/
theorem vprintfmt_exact (putch : BitVec 32 → σ → σ) (literals : constants.Hold bytes) (readable : Readable bytes strings)
    (holds : HoldsText bytes fmt text) :
    (∃ format : Format, format.Proper ∧ format.text = text) ∧
      ∀ format : Format, format.Proper → format.text = text → ∀ args out putdat, format.written strings args = some out →
        Returns (fun rounds => vprintfmt putch bytes constants rounds fmt args putdat) (emit putch out putdat) := by
  refine ⟨exists_format holds.nonzero, ?_⟩
  rintro ⟨pieces, cut⟩ proper rfl args out putdat written
  have converts : ∀ modifiers conversion, .escape modifiers conversion ∈ pieces →
      Converts putch bytes constants strings conversion := fun _ conversion _ => converts_all literals readable conversion
  have nothing : ∀ c ∈ ([] : List (Fin 256)), IsPlain c := by simp
  exact pieces_exact putdat proper converts nothing holds written

/-! ## A memory with the literals -/

/-- The texts of a memory with 64 bytes for each of them. -/
def slotText (format : List (Fin 256)) : Nat → List (Fin 256)
  | 30 => ascii "(null)"
  | 31 => ascii "error %d"
  | 32 => ascii "%s"
  | 33 => format
  | code => ((errorText code).map ascii).getD []

def slotBytes (format : List (Fin 256)) : Bytes := fun address => (slotText format (address / 64)).getD (address % 64) 0

def slotConstants : Constants where
  errorString code := (errorText code).map fun _ => 64 * code
  null := 64 * 30
  errorFormat := 64 * 31
  stringFormat := 64 * 32

/-- A short text stands in its place. -/
theorem holdsText_slot {format : List (Fin 256)} {slot : Nat} (isText : slotText format slot = text) (short : text.length < 64)
    (nonzero : ∀ c ∈ text, c ≠ 0) : HoldsText (slotBytes format) (64 * slot) text where
  holds index byte isByte := by
    obtain ⟨inside, _⟩ := List.getElem?_eq_some_iff.mp isByte
    have isSlot : (64 * slot + index) / 64 = slot := by omega
    have isIndex : (64 * slot + index) % 64 = index := by omega
    rw [slotBytes, isSlot, isIndex, isText, List.getD_eq_getElem?_getD, isByte, Option.getD_some]
  ended := by
    have isSlot : (64 * slot + text.length) / 64 = slot := by omega
    have isIndex : (64 * slot + text.length) % 64 = text.length := by omega
    rw [slotBytes, isSlot, isIndex, isText, List.getD_eq_getElem?_getD, List.getElem?_eq_none (Nat.le_refl _), Option.getD_none]
  nonzero := nonzero

theorem errorText_slot {code : Nat} {text : String} (isText : errorText code = some text) (format : List (Fin 256)) :
    slotText format code = ascii text := by
  obtain ⟨_, inTable, _⟩ := errorText_facts isText
  unfold slotText
  split
  · omega
  · omega
  · omega
  · omega
  · rw [isText]
    rfl

theorem slots_hold (format : List (Fin 256)) : slotConstants.Hold (slotBytes format) where
  null := holdsText_slot rfl (by decide) (by decide +kernel)
  errorFormat := holdsText_slot rfl (by decide) (by decide +kernel)
  stringFormat := holdsText_slot rfl (by decide) (by decide +kernel)
  unnamed := by
    intro code unnamed
    simp only [slotConstants, unnamed, Option.map_none]
  errorString := by
    intro code text isText
    obtain ⟨positive, small, short, nonzero⟩ := errorText_facts isText
    refine ⟨64 * code, ?_, by omega, by omega, holdsText_slot (errorText_slot isText format) short nonzero⟩
    simp only [slotConstants, isText, Option.map_some]

/-- A format with flags, an error code, a string and a percent sign. -/
def mixedFormat : Format where
  pieces := [.escape [.zero, .number 4 []] .decimal, .plain 58, .escape [.star, .minus] .string, .escape [] .error, .escape [] .percent]
  cut := none

theorem mixedFormat_proper : mixedFormat.Proper where
  pieces := by
    simp only [mixedFormat, List.forall_mem_cons, List.not_mem_nil, false_imp_iff, implies_true, and_true]
    exact ⟨List.isChain_pair.mpr trivial, ⟨by decide, by decide⟩, List.isChain_pair.mpr trivial, List.isChain_nil, List.isChain_nil⟩
  cut := by simp [mixedFormat]

/-- The format `%05d:%*-s%e%%` is printed. -/
theorem vprintfmt_exact_mixed : mixedFormat.text = ascii "%05d:%*-s%e%%" ∧
    Returns (fun rounds => vprintfmt (fun ch out => out ++ [ch]) (slotBytes (ascii "%05d:%*-s%e%%")) slotConstants rounds (64 * 33)
      [-42, 6, 0, -16] []) (charCodes (ascii "-00042:(null)no such file or directory%")) := by
  have isText : mixedFormat.text = ascii "%05d:%*-s%e%%" := by decide
  have holds : HoldsText (slotBytes (ascii "%05d:%*-s%e%%")) (64 * 33) (ascii "%05d:%*-s%e%%") :=
    holdsText_slot rfl (by decide) (by decide +kernel)
  have readable : Readable (slotBytes (ascii "%05d:%*-s%e%%")) fun _ => none := by
    intro p text isText
    cases isText
  have written : mixedFormat.written (fun _ => none) [-42, 6, 0, -16] =
      some (charCodes (ascii "-00042:(null)no such file or directory%")) := by decide +kernel
  exact ⟨isText, (vprintfmt_exact (fun ch out => out ++ [ch]) (slots_hold _) readable holds).2 mixedFormat mixedFormat_proper
    isText _ _ [] written⟩

end Ucore.Printfmt
