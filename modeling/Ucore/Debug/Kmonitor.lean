import Mathlib.Data.List.Forall2
import Mathlib.Data.List.TakeWhile
import Ucore.Library.Transition
import Ucore.Libs.Text

/-!
# Arguments of the kernel monitor

`parse` of `kern/debug/kmonitor.c` cuts a line into its words in place: it stores a 0 over
each byte of white space and the address of each word in `argv`, which has `MAXARGS`
elements. With too many words it prints a message, and goes on.

The stores to `argv` are kept in their order, those behind its end too; these are taken not
to change the line.
-/

namespace Ucore.Kmonitor

/-- `MAXARGS` -/
def maxargs : Nat := 16

/-- `WHITESPACE` -/
def whitespace : List (Fin 256) := [32, 9, 10, 13]

/-- `*buf != '\0' && strchr(WHITESPACE, *buf) != NULL` -/
def isBlank (c : Fin 256) : Bool := c ≠ 0 && strchr whitespace c

/-- `*buf != '\0' && strchr(WHITESPACE, *buf) == NULL` -/
def inWord (c : Fin 256) : Bool := c ≠ 0 && !strchr whitespace c

/-- The line in memory, the elements of `argv` in the order in which they are stored, and the
messages printed. -/
structure Parsed where
  bytes : Bytes
  argv : List Nat
  printed : List String

/-- The loop of `parse`; its inner loops are given `limit` rounds. -/
def parseLoop (limit : Nat) : Nat → Nat → Parsed → Option Parsed
  | 0, _, _ => none
  | rounds + 1, buf, parsed => do
      let (bytes, buf) ← eraseWhile isBlank limit parsed.bytes buf
      if bytes buf = 0 then some { parsed with bytes := bytes }
      else
        let printed :=
          if parsed.argv.length = maxargs - 1 then
            parsed.printed ++ ["Too many arguments (max " ++ toString maxargs ++ ").\n"]
          else parsed.printed
        let next ← scanWhile inWord bytes limit buf
        parseLoop limit rounds next {
          bytes := bytes
          argv := parsed.argv ++ [buf]
          printed := printed }

/-- `parse`, which returns the number of the elements of `argv`. -/
def parse (rounds : Nat) (bytes : Bytes) (buf : Nat) : Option Parsed := parseLoop rounds rounds buf ⟨bytes, [], []⟩

/-! ## The words of a line -/

/-- The words of a line: its longest parts without white space. -/
def words (line : List (Fin 256)) : List (List (Fin 256)) := (line.splitOnP (strchr whitespace)).filter (· ≠ [])

/-- `parse` returns, stores inside `argv` only, and the addresses that it stores are those of the
first words of the line, as texts; of all words, when `argv` has room for them. -/
def ParsesLine (bytes : Bytes) (buf : Nat) (line : List (Fin 256)) : Prop :=
  ∃ parsed, Transition.Returns (fun rounds => parse rounds bytes buf) parsed ∧ parsed.argv.length ≤ maxargs ∧
    List.Forall₂ (HoldsText parsed.bytes) parsed.argv ((words line).take parsed.argv.length) ∧
    ((words line).length ≤ maxargs → parsed.argv.length = (words line).length)

variable {bytes : Bytes} {buf limit rounds : Nat} {c : Fin 256} {line word rest : List (Fin 256)}

theorem isBlank_eq : isBlank = strchr whitespace := by
  funext c
  by_cases zero : c = 0
  · subst zero
    decide
  · simp [isBlank, zero]

theorem inWord_eq (nonzero : c ≠ 0) : inWord c = !isBlank c := by
  simp [inWord, isBlank, nonzero]

@[simp] theorem words_nil : words [] = [] := rfl

/-- White space in front does not count. -/
theorem words_blank (blank : isBlank c = true) : words (c :: rest) = words rest := by
  rw [isBlank_eq] at blank
  rw [words, List.splitOnP_cons_eq_if_modifyHead, if_pos blank]
  simp [words]

theorem words_skip (line : List (Fin 256)) : words (line.dropWhile isBlank) = words line := by
  induction line with
  | nil => rfl
  | cons c rest ih =>
    cases blank : isBlank c with
    | true => rw [List.dropWhile_cons_of_pos blank, words_blank blank, ih]
    | false => rw [List.dropWhile_cons_of_neg (by simp [blank])]

/-- A word up to white space or to the end of the line. -/
theorem words_word (nonempty : word ≠ []) (plain : ∀ c ∈ word, isBlank c = false)
    (ends : ∀ c ∈ rest.head?, isBlank c = true) : words (word ++ rest) = word :: words rest := by
  cases rest with
  | nil =>
    rw [isBlank_eq] at plain
    rw [List.append_nil, words, List.splitOnP_eq_singleton plain]
    simp [nonempty]
  | cons c rest =>
    have blank := ends c rfl
    rw [words_blank blank]
    rw [isBlank_eq] at plain blank
    rw [words, List.splitOnP_append_cons_of_forall_mem plain c blank]
    simp [words, nonempty]

/-! ## The loop -/

/-- The white space in front of a line is erased. -/
theorem eraseBlanks_exact {bytes : Bytes} {buf : Nat} {line : List (Fin 256)} (holds : HoldsText bytes buf line) :
    ∃ blanks rest erased, line = blanks ++ rest ∧ words line = words rest ∧ (∀ c ∈ rest.head?, isBlank c = false) ∧
      (∀ limit, line.length < limit → eraseWhile isBlank limit bytes buf = some (erased, buf + blanks.length)) ∧
      (∀ other, other < buf ∨ buf + blanks.length ≤ other → erased other = bytes other) ∧
      HoldsText erased (buf + blanks.length) rest ∧ (blanks ≠ [] → erased buf = 0) := by
  obtain ⟨blanks, isBlanks⟩ : ∃ blanks, line.takeWhile isBlank = blanks := ⟨_, rfl⟩
  obtain ⟨rest, isRest⟩ : ∃ rest, line.dropWhile isBlank = rest := ⟨_, rfl⟩
  have split : line = blanks ++ rest := by
    rw [← isBlanks, ← isRest, List.takeWhile_append_dropWhile]
  obtain ⟨erased, isErased⟩ : ∃ erased : Bytes, (fun other =>
      if buf ≤ other ∧ other < buf + blanks.length then 0 else bytes other) = erased := ⟨_, rfl⟩
  have outside : ∀ other, other < buf ∨ buf + blanks.length ≤ other → erased other = bytes other := by
    intro other isOutside
    rw [← isErased]
    exact if_neg (by omega)
  refine ⟨blanks, rest, erased, split, ?_, fun c isFirst => ?_, fun limit enough => ?_, outside, ?_, fun nonempty => ?_⟩
  · rw [← isRest, words_skip]
  · have stopped := List.head?_dropWhile_not isBlank line
    rw [isRest, isFirst] at stopped
    simpa using stopped
  · rw [eraseWhile_exact (by decide) holds enough, isBlanks, isErased]
  · exact (HoldsText.behind (split ▸ holds)).congr fun index _ => outside _ (Or.inr (by omega))
  · have positive := List.length_pos_iff.mpr nonempty
    rw [← isErased]
    exact if_pos (by omega)

/-- A line that starts with a word is that word and a rest, which starts with white space. -/
theorem word_split {c : Fin 256} {rest : List (Fin 256)} (nonzero : ∀ other ∈ c :: rest, other ≠ 0)
    (plain : isBlank c = false) :
    ∃ word behind, (c :: rest).takeWhile inWord = word ∧ c :: rest = word ++ behind ∧ word ≠ [] ∧
      (∀ other ∈ word, isBlank other = false) ∧ ∀ other ∈ behind.head?, isBlank other = true := by
  have starts : inWord c = true := by
    rw [inWord_eq (nonzero c List.mem_cons_self), plain]
    rfl
  refine ⟨_, (c :: rest).dropWhile inWord, rfl, List.takeWhile_append_dropWhile.symm, ?_, fun other member => ?_,
    fun other isFirst => ?_⟩
  · rw [List.takeWhile_cons_of_pos starts]
    nofun
  · have inside := List.mem_takeWhile_imp member
    simp only [inWord, isBlank, Bool.and_eq_true, Bool.not_eq_true'] at inside ⊢
    rw [inside.2, Bool.and_false]
  · have stopped := List.head?_dropWhile_not inWord (c :: rest)
    rw [isFirst] at stopped
    have behind := (List.dropWhile_suffix inWord).subset (List.mem_of_mem_head? isFirst)
    simpa [inWord_eq (nonzero other behind)] using stopped

/-- The loop cuts the rest of a line into its words, and changes nothing outside of it. -/
theorem parseLoop_exact (line : List (Fin 256)) (buf : Nat) (parsed : Parsed)
    (holds : HoldsText parsed.bytes buf line) :
    ∃ after argv printed, (∀ limit rounds, line.length < limit → line.length < rounds →
        parseLoop limit rounds buf parsed = some ⟨after, parsed.argv ++ argv, printed⟩) ∧
      List.Forall₂ (HoldsText after) argv (words line) ∧
      (∀ other, other < buf ∨ buf + line.length < other → after other = parsed.bytes other) ∧
      ((∀ c ∈ line.head?, isBlank c = true) → after buf = 0) := by
  induction length : line.length using Nat.strongRecOn generalizing line buf parsed with
  | ind length ih =>
  subst length
  obtain ⟨blanks, rest, erased, split, sameWords, isFirst, erases, outside, holdsRest, startErased⟩ := eraseBlanks_exact holds
  have lengths : line.length = blanks.length + rest.length := by
    rw [split, List.length_append]
  cases rest with
  | nil =>
    refine ⟨erased, [], parsed.printed, fun limit rounds enough enoughRounds => ?_, ?_, fun other isOutside => ?_,
      fun ends => ?_⟩
    · obtain ⟨more, rfl⟩ := Nat.exists_eq_add_of_lt enoughRounds
      simp [parseLoop, erases limit enough, holdsRest.nil]
    · rw [sameWords]
      exact .nil
    · simp only [List.length_nil] at lengths
      exact outside other (by omega)
    · by_cases empty : blanks = []
      · rw [empty] at holdsRest
        exact holdsRest.nil
      · exact startErased empty
  | cons c rest =>
    -- a word starts here
    have plain : isBlank c = false := isFirst c rfl
    obtain ⟨word, behind, isWord, wordSplit, nonempty, plainWord, ends⟩ := word_split holdsRest.nonzero plain
    have lengthsToo : (c :: rest).length = word.length + behind.length := by
      rw [wordSplit, List.length_append]
    have positive := List.length_pos_iff.mpr nonempty
    have holdsWord : HoldsText erased (buf + blanks.length) (word ++ behind) := wordSplit ▸ holdsRest
    obtain ⟨after, argv, printed, ran, texts, frame, cut⟩ := ih behind.length (by omega) behind
      (buf + blanks.length + word.length) ⟨erased, parsed.argv ++ [buf + blanks.length],
        if parsed.argv.length = maxargs - 1 then
          parsed.printed ++ ["Too many arguments (max " ++ toString maxargs ++ ").\n"]
        else parsed.printed⟩ holdsWord.behind rfl
    have isText : HoldsText after (buf + blanks.length) word :=
      holdsWord.front (fun index inside => frame _ (Or.inl (by omega))) (cut ends)
    refine ⟨after, (buf + blanks.length) :: argv, printed, fun limit rounds enough enoughRounds => ?runs, ?texts,
      fun other isOutside => ?frame, fun first => ?cut⟩
    case runs =>
      obtain ⟨more, rfl⟩ := Nat.exists_eq_add_of_lt enoughRounds
      have scans : scanWhile inWord erased limit (buf + blanks.length) = some (buf + blanks.length + word.length) := by
        rw [scanWhile_exact (by decide) holdsRest (by omega), isWord]
      have goesOn := ran limit (line.length + more) (by omega) (by omega)
      have here : erased (buf + blanks.length) ≠ 0 := by
        rw [holdsRest.first]
        exact holdsRest.nonzero c List.mem_cons_self
      simp only [parseLoop, erases limit enough, scans, Option.bind_eq_bind, Option.bind_some, if_neg here, goesOn,
        List.append_assoc, List.singleton_append]
    case texts =>
      rw [sameWords, wordSplit, words_word nonempty plainWord ends]
      exact .cons isText texts
    case frame =>
      exact (frame other (by omega)).trans (outside other (by omega))
    case cut =>
      have blanksFirst : blanks ≠ [] := by
        rintro rfl
        have isPlain := first c (by rw [split]; rfl)
        rw [plain] at isPlain
        cases isPlain
      have := List.length_pos_iff.mpr blanksFirst
      exact (frame buf (Or.inl (by omega))).trans (startErased blanksFirst)

/-- `parse` returns the addresses of all words. -/
theorem parse_returns (holds : HoldsText bytes buf line) :
    ∃ parsed, Transition.Returns (fun rounds => parse rounds bytes buf) parsed ∧
      List.Forall₂ (HoldsText parsed.bytes) parsed.argv (words line) := by
  obtain ⟨after, argv, printed, ran, texts, _⟩ := parseLoop_exact line buf ⟨bytes, [], []⟩ holds
  exact ⟨⟨after, argv, printed⟩, ⟨line.length + 1, fun rounds enough => ran rounds rounds enough enough⟩, texts⟩

/-- Whatever the line, only the lines of at most `MAXARGS` words are parsed as promised. -/
theorem ParsesLine.few (parses : ParsesLine bytes buf line) (holds : HoldsText bytes buf line) :
    (words line).length ≤ maxargs := by
  obtain ⟨parsed, returns, texts⟩ := parse_returns holds
  obtain ⟨again, returned, inside, _, _⟩ := parses
  obtain rfl := returned.unique returns
  rw [← texts.length_eq]
  exact inside

/-- `parse` keeps its promises exactly for the lines of at most `MAXARGS` words. -/
theorem parse_exact (holds : HoldsText bytes buf line) : ParsesLine bytes buf line ↔ (words line).length ≤ maxargs := by
  constructor
  · intro parses
    exact parses.few holds
  · intro few
    obtain ⟨parsed, returns, texts⟩ := parse_returns holds
    refine ⟨_, returns, ?_, ?_, fun _ => texts.length_eq⟩
    · rw [texts.length_eq]
      exact few
    · rw [texts.length_eq, List.take_length]
      exact texts

/-- The line `help me` is parsed as promised. -/
theorem parse_exact_help :
    HoldsText (textAt 0 [104, 101, 108, 112, 32, 109, 101]) 0 [104, 101, 108, 112, 32, 109, 101] ∧
      ParsesLine (textAt 0 [104, 101, 108, 112, 32, 109, 101]) 0 [104, 101, 108, 112, 32, 109, 101] := by
  have holds : HoldsText (textAt 0 [104, 101, 108, 112, 32, 109, 101]) 0 [104, 101, 108, 112, 32, 109, 101] :=
    holdsText_textAt (by simp)
  exact ⟨holds, (parse_exact holds).mpr (by decide)⟩

/-- A line of 17 words is not. -/
theorem parse_seventeen :
    ∃ line, HoldsText (textAt 0 line) 0 line ∧ (words line).length = 17 ∧ ¬ ParsesLine (textAt 0 line) 0 line := by
  have holds : HoldsText (textAt 0 (List.replicate 17 [97, 32]).flatten) 0 (List.replicate 17 [97, 32]).flatten := by
    apply holdsText_textAt
    intro byte member
    obtain ⟨pair, inPair, isByte⟩ := List.mem_flatten.mp member
    rw [List.eq_of_mem_replicate inPair] at isByte
    simp only [List.mem_cons, List.not_mem_nil, or_false] at isByte
    cases isByte with
    | inl isA =>
      rw [isA]
      decide
    | inr isSpace =>
      rw [isSpace]
      decide
  have many : (words (List.replicate 17 [97, 32]).flatten).length = 17 := by decide
  refine ⟨_, holds, many, fun parses => ?_⟩
  have few := parses.few holds
  rw [many] at few
  exact absurd few (by decide)

end Ucore.Kmonitor
