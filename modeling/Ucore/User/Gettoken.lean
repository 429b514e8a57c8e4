import Mathlib.Data.List.TakeWhile
import Ucore.Libs.Text

/-!
# Tokens of a command line

`gettoken` of `user/sh.c` cuts the next token off a command line, in place: it stores a 0 over
white space and over a symbol, and a blank over a quotation mark. The 0 behind a word is stored
by the next call.

A pointer that may be NULL is an option; `none` as a result is a loop that is not done within
the rounds given.
-/

namespace Ucore.Sh

/-- `WHITESPACE` -/
def whitespace : List (Fin 256) := [32, 9, 13, 10]

/-- `SYMBOLS` -/
def symbols : List (Fin 256) := [60, 124, 62, 38, 59]

/-- What `gettoken` returns and stores. -/
structure Got where
  token : Fin 256
  bytes : Bytes
  p1 : Option Nat
  p2 : Nat

/-- The loop over a word. -/
def wordLoop : Nat → Bytes → Bool → Nat → Option (Bytes × Nat)
  | 0, _, _, _ => none
  | rounds + 1, bytes, flag, s =>
      if bytes s ≠ 0 ∧ (flag = true ∨ strchr (whitespace ++ symbols) (bytes s) = false) then
        if bytes s = 34 then wordLoop rounds (Function.update bytes s 32) (!flag) (s + 1)
        else wordLoop rounds bytes flag (s + 1)
      else some (bytes, s)

/-- `gettoken` -/
def gettoken (limit : Nat) (bytes : Bytes) (p1 : Option Nat) (p2 : Nat) : Option Got :=
  match p1 with
  | none => some ⟨0, bytes, none, p2⟩
  | some start => do
      let (bytes, s) ← eraseWhile (strchr whitespace) limit bytes start
      if bytes s = 0 then some ⟨0, bytes, some start, p2⟩
      else if strchr symbols (bytes s) then
        let token := bytes s
        let bytes := Function.update bytes s 0
        some ⟨token, bytes, if bytes (s + 1) ≠ 0 then some (s + 1) else none, s⟩
      else
        let (bytes, next) ← wordLoop limit bytes false s
        some ⟨119, bytes, if bytes next ≠ 0 then some next else none, s⟩

/-! ## The tokens of a line -/

/-- A byte that ends a word, outside of quotation marks. -/
def isEnd (c : Fin 256) : Bool := strchr (whitespace ++ symbols) c

/-- The front part of a line up to such a byte; the flag is set between quotation marks. -/
def wordPart : Bool → List (Fin 256) → List (Fin 256)
  | _, [] => []
  | flag, c :: line => if flag || !isEnd c then c :: wordPart (if c = 34 then !flag else flag) line else []

/-- A word as it stands in the line, and what stands behind it. -/
structure Word where
  raw : List (Fin 256)
  behind : List (Fin 256)

/-- The text of a word: it has no quotation marks. -/
def Word.text (word : Word) : List (Fin 256) := word.raw.filter (· ≠ 34)

/-- What `gettoken` leaves of a word: blanks stand for the quotation marks. -/
def blanked (raw : List (Fin 256)) : List (Fin 256) := raw.map fun c => if c = 34 then 32 else c

/-- A token of a line. -/
inductive Token where
  | word (word : Word)
  | symbol (c : Fin 256)

/-- The first token of a line, and the rest of the line. -/
def nextToken (line : List (Fin 256)) : Option (Token × List (Fin 256)) :=
  match line.dropWhile (strchr whitespace) with
  | [] => none
  | c :: rest =>
      if strchr symbols c then some (.symbol c, rest)
      else
        let raw := wordPart false (c :: rest)
        let behind := (c :: rest).drop raw.length
        some (.word ⟨raw, behind⟩, behind)

/-- At most so many tokens of a line. -/
def tokensIn : Nat → List (Fin 256) → List Token
  | 0, _ => []
  | count + 1, line =>
      match nextToken line with
      | none => []
      | some (token, rest) => token :: tokensIn count rest

/-- The tokens of a line. -/
def tokens (line : List (Fin 256)) : List Token := tokensIn line.length line

variable {bytes : Bytes} {p1 : Option Nat} {s p2 limit rounds count : Nat} {flag : Bool}
  {c : Fin 256} {line rest raw : List (Fin 256)} {token : Token} {word : Word}

/-- A word that does not start with its end has a byte. -/
theorem wordPart_ne_nil (inside : isEnd c = false) : wordPart false (c :: rest) ≠ [] := by
  simp [wordPart, inside]

/-- Behind a word, the line ends or has a byte that ends the word. -/
theorem wordPart_ends (flag : Bool) (line : List (Fin 256)) :
    ∀ c ∈ (line.drop (wordPart flag line).length).head?, isEnd c = true := by
  induction line generalizing flag with
  | nil => simp [wordPart]
  | cons c line ih =>
    rw [wordPart]
    split
    · exact ih _
    · rename_i stops
      simp only [Bool.or_eq_true, Bool.not_eq_true', not_or, Bool.not_eq_false] at stops
      simpa using stops.2

/-- A byte ends a word when it is white space or a symbol. -/
theorem isEnd_eq (c : Fin 256) : isEnd c = (strchr whitespace c || strchr symbols c) :=
  List.contains_append

/-- A token that is no symbol starts a word. -/
theorem isEnd_start (start : line.dropWhile (strchr whitespace) = c :: rest) (notSymbol : strchr symbols c = false) :
    isEnd c = false := by
  have stopped := List.head?_dropWhile_not (strchr whitespace) line
  rw [start] at stopped
  rw [isEnd_eq, notSymbol, Bool.or_false]
  simpa using stopped

theorem nextToken_shorter (next : nextToken line = some (token, rest)) : rest.length < line.length := by
  have fewer := (List.dropWhile_suffix (l := line) (strchr whitespace)).length_le
  unfold nextToken at next
  cases start : line.dropWhile (strchr whitespace) with
  | nil => simp [start] at next
  | cons c behind =>
    rw [start, List.length_cons] at fewer
    cases isSymbol : strchr symbols c with
    | true =>
      simp only [start, isSymbol, if_true, Option.some.injEq, Prod.mk.injEq] at next
      rw [← next.2]
      omega
    | false =>
      simp only [start, isSymbol, Bool.false_eq_true, if_false, Option.some.injEq, Prod.mk.injEq] at next
      have nonempty : 0 < (wordPart false (c :: behind)).length :=
        List.length_pos_iff.mpr (wordPart_ne_nil (isEnd_start start isSymbol))
      rw [← next.2, List.length_drop, List.length_cons]
      omega

/-- Counts that a line does not exceed give the same tokens. -/
theorem tokensIn_congr {more : Nat} (enough : line.length ≤ count) (enoughToo : line.length ≤ more) :
    tokensIn count line = tokensIn more line := by
  induction count generalizing line more with
  | zero =>
    obtain rfl := List.length_eq_zero_iff.mp (Nat.le_zero.mp enough)
    cases more with
    | zero => rfl
    | succ more => rfl
  | succ count ih =>
    cases more with
    | zero =>
      obtain rfl := List.length_eq_zero_iff.mp (Nat.le_zero.mp enoughToo)
      rfl
    | succ more =>
      cases next : nextToken line with
      | none => simp only [tokensIn, next]
      | some found =>
        have shorter := nextToken_shorter next
        simp only [tokensIn, next, @ih found.2 more (by omega) (by omega)]

theorem tokens_none (next : nextToken line = none) : tokens line = [] := by
  rw [tokens, tokensIn_congr (Nat.le_refl _) (Nat.le_succ _), tokensIn, next]

theorem tokens_some (next : nextToken line = some (token, rest)) : tokens line = token :: tokens rest := by
  have shorter := nextToken_shorter next
  rw [tokens, tokensIn_congr (Nat.le_refl _) (Nat.le_succ _), tokensIn, next]
  dsimp only
  rw [tokens, tokensIn_congr (Nat.le_of_lt shorter) (Nat.le_refl _)]

/-! ## The line in memory -/

/-- Memory that holds the rest of the line at a pointer; at NULL there is no rest. -/
def AtLine (bytes : Bytes) (p1 : Option Nat) (line : List (Fin 256)) : Prop :=
  match p1 with
  | none => line = []
  | some s => HoldsText bytes s line

/-- What a call does to the line in front of the rest: nothing, but for a 0 over the first byte of
the rest when that ends a word. -/
structure Cut (bytes : Bytes) (p1 : Option Nat) (line : List (Fin 256)) (after : Bytes) : Prop where
  frame : ∀ s ∈ p1, ∀ other < s, after other = bytes other
  closes : ∀ s ∈ p1, (∀ c ∈ line.head?, isEnd c = true) → after s = 0
  same : p1 = none → after = bytes

theorem blanked_length (raw : List (Fin 256)) : (blanked raw).length = raw.length := List.length_map _

/-- The loop over a word leaves it blanked. -/
theorem wordLoop_exact (holds : HoldsText bytes s line) (flag : Bool) :
    ∃ after, (∀ rounds, line.length < rounds →
        wordLoop rounds bytes flag s = some (after, s + (wordPart flag line).length)) ∧
      HoldsText after s (blanked (wordPart flag line) ++ line.drop (wordPart flag line).length) ∧
      ∀ other < s, after other = bytes other := by
  induction line generalizing bytes s flag with
  | nil =>
    refine ⟨bytes, fun rounds enough => ?_, by simpa [wordPart, blanked] using holds, fun _ _ => rfl⟩
    obtain ⟨more, rfl⟩ := Nat.exists_eq_add_of_lt enough
    simp [wordLoop, holds.nil, wordPart]
  | cons c line ih =>
    have nonzero := holds.nonzero c List.mem_cons_self
    cases goesOn : flag || !isEnd c with
    | false =>
      have stops : ¬ (c ≠ 0 ∧ (flag = true ∨ isEnd c = false)) := by
        simpa [nonzero, Bool.or_eq_false_iff] using goesOn
      have isPart : wordPart flag (c :: line) = [] := by
        rw [wordPart, goesOn]
        rfl
      rw [isPart]
      refine ⟨bytes, fun rounds enough => ?_, holds, fun _ _ => rfl⟩
      obtain ⟨more, rfl⟩ := Nat.exists_eq_add_of_lt enough
      rw [wordLoop, holds.first, ← isEnd, if_neg stops]
      rfl
    | true =>
      have inside : c ≠ 0 ∧ (flag = true ∨ isEnd c = false) := by
        simpa [nonzero] using goesOn
      -- the byte is blanked when it is a quotation mark, and the flag turns
      obtain ⟨written, isWritten⟩ : ∃ written, (if c = 34 then Function.update bytes s 32 else bytes) = written := ⟨_, rfl⟩
      obtain ⟨flag', isFlag⟩ : ∃ flag', (if c = 34 then !flag else flag) = flag' := ⟨_, rfl⟩
      have here : written s = if c = 34 then 32 else c := by
        rw [← isWritten]
        split
        · exact Function.update_self ..
        · exact holds.first
      have others : ∀ other, other ≠ s → written other = bytes other := by
        intro other different
        rw [← isWritten]
        split
        · exact Function.update_of_ne different ..
        · rfl
      have step : ∀ rounds, wordLoop (rounds + 1) bytes flag s = wordLoop rounds written flag' (s + 1) := by
        intro rounds
        rw [wordLoop, holds.first, ← isEnd, if_pos inside, ← isWritten, ← isFlag]
        by_cases quote : c = 34
        · simp only [if_pos quote]
        · simp only [if_neg quote]
      have isPart : wordPart flag (c :: line) = c :: wordPart flag' line := by
        rw [wordPart, if_pos goesOn, isFlag]
      have later : HoldsText written (s + 1) line := holds.tail.congr fun index _ => others _ (by omega)
      obtain ⟨after, runs, text, frame⟩ := ih later flag'
      refine ⟨after, fun rounds enough => ?_, ?_, fun other before => ?_⟩
      · obtain ⟨more, rfl⟩ := Nat.exists_eq_add_of_lt enough
        rw [step, runs _ (by simp only [List.length_cons]; omega), isPart, List.length_cons, Nat.add_assoc s, Nat.add_comm 1]
      · rw [isPart]
        refine HoldsText.cons ?_ ?_ text
        · dsimp only
          split
          · decide
          · exact nonzero
        · rw [frame s (Nat.lt_succ_self s), here]
      · rw [frame other (by omega), others other (by omega)]

/-- The white space in front of the first token is erased. -/
theorem erase_exact (holds : HoldsText bytes s line) :
    ∃ erased start, (∀ limit, line.length < limit →
        eraseWhile (strchr whitespace) limit bytes s = some (erased, start)) ∧ s ≤ start ∧
      HoldsText erased start (line.dropWhile (strchr whitespace)) ∧ (∀ other < s, erased other = bytes other) ∧
      (start = s → line.dropWhile (strchr whitespace) = line) ∧ (s < start → erased s = 0) := by
  refine ⟨_, _, fun limit enough => eraseWhile_exact (by decide) holds enough, Nat.le_add_right _ _, ?_,
    fun other before => ?_, fun none => ?_, fun some => ?_⟩
  · have split : HoldsText bytes s (line.takeWhile (strchr whitespace) ++ line.dropWhile (strchr whitespace)) := by
      rwa [List.takeWhile_append_dropWhile]
    exact split.behind.congr fun index _ => if_neg (by omega)
  · exact if_neg (by omega)
  · have empty : line.takeWhile (strchr whitespace) = [] := List.length_eq_zero_iff.mp (by omega)
    have split := List.takeWhile_append_dropWhile (p := strchr whitespace) (l := line)
    rwa [empty, List.nil_append] at split
  · exact if_pos ⟨Nat.le_refl _, some⟩

/-- A pointer to the rest of the line, or NULL. -/
def pointerTo (s : Nat) (rest : List (Fin 256)) : Option Nat := if rest = [] then none else some s

theorem pointer_exact (text : HoldsText bytes s rest) : (if bytes s ≠ 0 then some s else none) = pointerTo s rest := by
  cases rest with
  | nil => simp [pointerTo, text.nil]
  | cons c rest =>
    have nonzero := text.nonzero c List.mem_cons_self
    simp [pointerTo, text.first, nonzero]

theorem atLine_pointerTo (text : HoldsText bytes s rest) : AtLine bytes (pointerTo s rest) rest := by
  cases rest with
  | nil => rfl
  | cons c rest => exact text

theorem pointerTo_eq {next : Nat} (isNext : next ∈ pointerTo s rest) : next = s := by
  unfold pointerTo at isNext
  split at isNext
  · cases isNext
  · exact (Option.some.inj isNext).symm

/-- The code of a token. -/
def Token.code : Token → Fin 256
  | .word _ => 119
  | .symbol c => c

/-- What `gettoken` has found: the token, and the rest of the line. -/
structure Got.Finds (got : Got) (token : Token) (rest : List (Fin 256)) : Prop where
  isToken : got.token = token.code
  atLine : AtLine got.bytes got.p1 rest
  isWord : ∀ word, token = .word word → HoldsText got.bytes got.p2 (blanked word.raw ++ word.behind) ∧
    got.p1 = pointerTo (got.p2 + word.raw.length) word.behind

/-- At the end of the line there is no token. -/
theorem gettoken_none (holds : AtLine bytes p1 line) (p2 : Nat) (next : nextToken line = none) :
    ∃ got, (∀ limit, line.length < limit → gettoken limit bytes p1 p2 = some got) ∧ got.token = 0 ∧
      Cut bytes p1 line got.bytes := by
  cases p1 with
  | none => exact ⟨⟨0, bytes, none, p2⟩, fun _ _ => rfl, rfl, nofun, nofun, fun _ => rfl⟩
  | some s =>
    have isText : HoldsText bytes s line := holds
    obtain ⟨erased, start, erases, first, text, frame, same, closes⟩ := erase_exact isText
    have ended : line.dropWhile (strchr whitespace) = [] := by
      unfold nextToken at next
      split at next
      · assumption
      · split at next <;> cases next
    rw [ended] at text same
    refine ⟨⟨0, erased, some s, p2⟩, fun limit enough => ?_, rfl, ?_, ?_, nofun⟩
    · simp [gettoken, erases limit enough, text.nil]
    · rintro _ ⟨⟩
      exact frame
    · rintro _ ⟨⟩ _
      by_cases empty : start = s
      · rw [← empty]
        exact text.nil
      · exact closes (by omega)

/-- A token is found, and what stands in front of the rest of the line is left. -/
theorem gettoken_some (holds : AtLine bytes p1 line) (p2 : Nat) (next : nextToken line = some (token, rest)) :
    ∃ got, (∀ limit, line.length < limit → gettoken limit bytes p1 p2 = some got) ∧ got.Finds token rest ∧
      Cut bytes p1 line got.bytes ∧ ∃ s ∈ p1, ∀ after ∈ got.p1, s < after := by
  cases p1 with
  | none =>
    obtain rfl : line = [] := holds
    cases next
  | some s =>
    have isText : HoldsText bytes s line := holds
    obtain ⟨erased, start, erases, first, text, frame, same, closes⟩ := erase_exact isText
    unfold nextToken at next
    cases isStart : line.dropWhile (strchr whitespace) with
    | nil => simp [isStart] at next
    | cons c behind =>
      rw [isStart] at text same
      have nonzero := text.nonzero c List.mem_cons_self
      cases isSymbol : strchr symbols c with
      | true =>
        simp only [isStart, isSymbol, if_true, Option.some.injEq, Prod.mk.injEq] at next
        obtain ⟨rfl, rfl⟩ := next
        have later : HoldsText (Function.update erased start 0) (start + 1) behind :=
          text.tail.congr fun index _ => Function.update_of_ne (by omega) ..
        refine ⟨⟨c, Function.update erased start 0, pointerTo (start + 1) behind, start⟩, fun limit enough => ?_,
          ⟨rfl, atLine_pointerTo later, nofun⟩, ⟨?_, ?_, nofun⟩, s, rfl, fun after isAfter => ?_⟩
        · simp only [gettoken, erases limit enough, Option.bind_eq_bind, Option.bind_some, text.first, if_neg nonzero,
            isSymbol, if_true, pointer_exact later]
        · rintro _ ⟨⟩ other before
          exact (Function.update_of_ne (by omega) ..).trans (frame other before)
        · rintro _ ⟨⟩ _
          by_cases here : start = s
          · rw [here]
            exact Function.update_self ..
          · exact (Function.update_of_ne (Ne.symm here) ..).trans (closes (by omega))
        · have := pointerTo_eq isAfter
          omega
      | false =>
        simp only [isStart, isSymbol, Bool.false_eq_true, if_false, Option.some.injEq, Prod.mk.injEq] at next
        obtain ⟨rfl, rfl⟩ := next
        have inside := isEnd_start isStart isSymbol
        obtain ⟨after, loops, held, frameWord⟩ := wordLoop_exact text false
        obtain ⟨raw, isRaw⟩ : ∃ raw, wordPart false (c :: behind) = raw := ⟨_, rfl⟩
        obtain ⟨rest, isRest⟩ : ∃ rest, (c :: behind).drop raw.length = rest := ⟨_, rfl⟩
        rw [isRaw] at loops held
        rw [isRest] at held
        have heldRest : HoldsText after (start + raw.length) rest := by
          have behindWord := held.behind
          rwa [blanked_length] at behindWord
        simp only [isRaw, isRest]
        refine ⟨⟨119, after, pointerTo (start + raw.length) rest, start⟩, fun limit enough => ?_,
          ⟨rfl, atLine_pointerTo heldRest, ?_⟩, ⟨?_, ?_, nofun⟩, s, rfl, fun other isOther => ?_⟩
        · have shorter := (List.dropWhile_suffix (l := line) (strchr whitespace)).length_le
          rw [isStart] at shorter
          simp only [gettoken, erases limit enough, Option.bind_eq_bind, Option.bind_some, text.first, if_neg nonzero,
            isSymbol, Bool.false_eq_true, if_false, loops limit (by omega), pointer_exact heldRest]
        · rintro _ ⟨⟩
          exact ⟨held, rfl⟩
        · rintro _ ⟨⟩ other before
          exact (frameWord other (by omega)).trans (frame other before)
        · rintro _ ⟨⟩ ends
          have before : s < start := by
            refine Nat.lt_of_le_of_ne first fun none => ?_
            have isLine := same none.symm
            rw [← isLine] at ends
            have isEnd := ends c rfl
            rw [inside] at isEnd
            cases isEnd
          exact (frameWord s before).trans (closes before)
        · have := pointerTo_eq isOther
          have nonempty := List.length_pos_iff.mpr (isRaw ▸ wordPart_ne_nil inside)
          omega

/-- A symbol that is found is one. -/
theorem nextToken_symbol (next : nextToken line = some (.symbol c, rest)) : c ∈ symbols := by
  unfold nextToken at next
  split at next
  · cases next
  · split at next
    · rename_i isSymbol
      simp only [Option.some.injEq, Prod.mk.injEq, Token.symbol.injEq] at next
      rw [← next.1]
      exact List.contains_iff_mem.mp isSymbol
    · cases next

/-- A word that is found stands in front of the rest of the line, up to its end. -/
theorem nextToken_word (next : nextToken line = some (.word word, rest)) :
    word.behind = rest ∧ ∀ c ∈ rest.head?, isEnd c = true := by
  unfold nextToken at next
  split at next
  · cases next
  · split at next
    · cases next
    · simp only [Option.some.injEq, Prod.mk.injEq, Token.word.injEq] at next
      obtain ⟨rfl, rfl⟩ := next
      exact ⟨rfl, wordPart_ends _ _⟩

/-! ## Words found before -/

/-- A word found before: it is a text, or the rest of the line stands behind it. -/
inductive Kept (bytes : Bytes) (p1 : Option Nat) (line : List (Fin 256)) (address : Nat) (word : Word) : Prop where
  | ended (text : HoldsText bytes address (blanked word.raw)) (before : ∀ s ∈ p1, address + word.raw.length < s)
  | continued (text : HoldsText bytes address (blanked word.raw ++ line)) (here : p1 = some (address + word.raw.length))
      (ends : ∀ c ∈ line.head?, isEnd c = true)

/-- The next call ends the words found before. -/
theorem Kept.text {after : Bytes} {address : Nat} (kept : Kept bytes p1 line address word)
    (cut : Cut bytes p1 line after) : HoldsText after address (blanked word.raw) := by
  cases kept with
  | ended text before =>
    cases p1 with
    | none =>
      rw [cut.same rfl]
      exact text
    | some s =>
      have behind := before s rfl
      refine text.congr fun index inside => cut.frame s rfl _ ?_
      rw [blanked_length] at inside
      omega
  | continued text here ends =>
    refine text.front (fun index inside => cut.frame _ here _ ?_) ?_
    · rw [blanked_length] at inside
      omega
    · rw [blanked_length]
      exact cut.closes _ here ends

theorem Kept.later {after : Bytes} {address next : Nat} {p1' : Option Nat} (kept : Kept bytes p1 line address word)
    (cut : Cut bytes p1 line after) (isNext : next ∈ p1) (later : ∀ other ∈ p1', next < other) :
    Kept after p1' rest address word := by
  refine .ended (kept.text cut) fun other isOther => ?_
  have further := later other isOther
  cases kept with
  | ended text before =>
    have behind := before next isNext
    omega
  | continued text here ends =>
    rw [here] at isNext
    cases isNext
    exact further

/-- The word that is found is one of the words found before the rest of the line. -/
theorem Got.Finds.kept {got : Got} (finds : got.Finds (.word word) rest) (behind : word.behind = rest)
    (ends : ∀ c ∈ rest.head?, isEnd c = true) : Kept got.bytes got.p1 rest got.p2 word := by
  obtain ⟨text, pointer⟩ := finds.isWord word rfl
  rw [behind] at text pointer
  cases rest with
  | nil =>
    rw [List.append_nil] at text
    refine .ended text fun s isPointer => ?_
    rw [pointer] at isPointer
    cases isPointer
  | cons c rest => exact .continued text pointer ends

end Ucore.Sh
