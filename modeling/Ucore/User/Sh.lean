import Mathlib.Data.List.Forall2
import Ucore.Library.Transition
import Ucore.Libs.Error
import Ucore.User.Gettoken

/-!
# Words that the shell uses

`runcmd` of `user/sh.c` collects the words of a command in `argv`, gives the words behind `<`
and `>` to `reopen`, and executes the command at the end of the line or at a symbol that ends
it. A pipe and a semicolon fork; both processes go on in `runcmd`, with memory of their own.

The results of the calls of the system are a parameter: the n-th call of `reopen`, `fork`,
`dup2`, `testfile` and `__exec` returns `env n`, so that every way through `runcmd` that the
kernel can lead to is one for some `env`. What is kept of a word that is used is its address
and the memory at that moment. The command may be executed under its name behind a slash; that
name is made from the word at the same moment.
-/

namespace Ucore.Sh

/-- `EXEC_MAX_ARG_NUM` -/
def execMaxArgNum : Nat := 32

theorem c_ne_zero : (99 : Fin 256) ≠ 0 := by decide

theorem d_ne_zero : (100 : Fin 256) ≠ 0 := by decide

/-- The name of the command `cd`. -/
def cd : Name := [⟨99, c_ne_zero⟩, ⟨100, d_ne_zero⟩]

/-- What a word is used for: as an element of `argv` by `__exec`, or as a file name by `reopen`. -/
inductive Purpose where
  | argument
  | file
  deriving DecidableEq

/-- The use of a word: its address, and the memory at that moment. -/
structure Use where
  purpose : Purpose
  word : Nat
  bytes : Bytes

/-- The memory and the variables of `runcmd`, the number of calls of the system made, the uses of
words, and what was printed. -/
structure Shell where
  bytes : Bytes
  cmd : Option Nat
  t : Nat
  argv : List Nat
  calls : Nat
  uses : List Use
  printed : List String

/-- How a case of the `switch` ends: in the loop, or with a result. -/
inductive Next where
  | again (shell : Shell)
  | done (shell : Shell) (ret : Int)

/-- After `gettoken`. -/
def Shell.got (shell : Shell) (got : Got) : Shell := { shell with bytes := got.bytes, cmd := got.p1, t := got.p2 }

/-- After a call of the system. -/
def Shell.called (shell : Shell) : Shell := { shell with calls := shell.calls + 1 }

/-- `printf` -/
def Shell.printf (shell : Shell) (text : String) : Shell := { shell with printed := shell.printed ++ [text] }

/-- `runcmd`, from `runit` on. -/
def runit (env : Nat → Int) (shell : Shell) : Next :=
  match shell.argv with
  | [] => .done shell 0
  | name :: _ =>
      if strcmp cd (fun index => shell.bytes (name + index)) = 0 then
        .done shell (if shell.argv.length ≠ 2 then -1 else 0)
      else
        let ret := env shell.calls
        let shell := shell.called
        if ret ≠ 0 ∧ ret ≠ -eNoent then .done shell ret
        else
          let uses := shell.argv.map fun word => ⟨.argument, word, shell.bytes⟩
          .done { shell.called with uses := shell.uses ++ uses } (env shell.calls)

/-- The case of a word. -/
def wordCase (shell : Shell) : Next :=
  if shell.argv.length = execMaxArgNum then
    .done (shell.printf "sh error: too many arguments\n") (-1)
  else .again { shell with argv := shell.argv ++ [shell.t] }

/-- The cases of `<` and `>`. -/
def redirectCase (env : Nat → Int) (limit : Nat) (c : String) (shell : Shell) : Option Next := do
  let got ← gettoken limit shell.bytes shell.cmd shell.t
  let shell := shell.got got
  if got.token ≠ 119 then
    some (.done (shell.printf ("sh error: syntax error: " ++ c ++ " not followed by word\n")) (-1))
  else
    let ret := env shell.calls
    let shell := { shell.called with uses := shell.uses ++ [⟨.file, shell.t, shell.bytes⟩] }
    if ret ≠ 0 then some (.done shell ret)
    else some (.again shell)

/-- The case of `|`. -/
def pipeCase (env : Nat → Int) (shell : Shell) : Next :=
  let ret := env shell.calls
  let shell := shell.called
  if ret = 0 then
    let ret := env shell.calls
    let shell := shell.called
    if ret < 0 then .done shell ret
    else .again { shell with argv := [] }
  else if ret < 0 then .done shell ret
  else
    let ret := env shell.calls
    let shell := shell.called
    if ret < 0 then .done shell ret
    else runit env shell

/-- The case of `;`. -/
def semicolonCase (env : Nat → Int) (shell : Shell) : Next :=
  let ret := env shell.calls
  let shell := shell.called
  if ret = 0 then runit env shell
  else if ret < 0 then .done shell ret
  else .again { shell with argv := [] }

/-- One round of the loop of `runcmd`. -/
def round (env : Nat → Int) (limit : Nat) (shell : Shell) : Option Next := do
  let got ← gettoken limit shell.bytes shell.cmd shell.t
  let shell := shell.got got
  if got.token = 119 then some (wordCase shell)
  else if got.token = 60 then redirectCase env limit "<" shell
  else if got.token = 62 then redirectCase env limit ">" shell
  else if got.token = 124 then some (pipeCase env shell)
  else if got.token = 0 then some (runit env shell)
  else if got.token = 59 then some (semicolonCase env shell)
  else some (.done (shell.printf ("sh error: bad return " ++ toString got.token.val ++ " from gettoken\n")) (-1))

/-- The loop of `runcmd`. -/
def loop (env : Nat → Int) (limit : Nat) : Nat → Shell → Option (Shell × Int)
  | 0, _ => none
  | rounds + 1, shell => do
      match ← round env limit shell with
      | .again shell => loop env limit rounds shell
      | .done shell ret => some (shell, ret)

/-- `runcmd` -/
def runcmd (env : Nat → Int) (rounds : Nat) (bytes : Bytes) (cmd t : Nat) : Option (Shell × Int) :=
  loop env rounds rounds ⟨bytes, some cmd, t, [], 0, [], []⟩

/-! ## The words of a line that are used -/

/-- A word of a line, and what it is used for. -/
structure Used where
  purpose : Purpose
  word : Word

/-- The words of a command that is executed; `cd` is not. -/
def usedCommand (env : Nat → Int) (calls : Nat) (argv : List Word) : List Used :=
  match argv with
  | [] => []
  | name :: _ =>
      if name.raw = cd.map Subtype.val then []
      else if env calls ≠ 0 ∧ env calls ≠ -eNoent then []
      else argv.map fun word => ⟨.argument, word⟩

/-- The words that are used of some tokens, after so many calls of the system and some words. -/
def usedWords (env : Nat → Int) : List Token → Nat → List Word → List Used
  | [], calls, argv => usedCommand env calls argv
  | .word word :: tokens, calls, argv =>
      if argv.length = execMaxArgNum then [] else usedWords env tokens calls (argv ++ [word])
  | .symbol c :: tokens, calls, argv =>
      if c = 60 ∨ c = 62 then
        match tokens with
        | .word word :: tokens =>
            ⟨.file, word⟩ :: if env calls ≠ 0 then [] else usedWords env tokens (calls + 1) argv
        | _ => []
      else if c = 124 then
        if env calls = 0 then if env (calls + 1) < 0 then [] else usedWords env tokens (calls + 2) []
        else if env calls < 0 ∨ env (calls + 1) < 0 then []
        else usedCommand env (calls + 2) argv
      else if c = 59 then
        if env calls = 0 then usedCommand env (calls + 1) argv
        else if env calls < 0 then []
        else usedWords env tokens (calls + 1) []
      else []

/-- A use finds the text of the word, without quotation marks. -/
def UsesText (use : Use) (used : Used) : Prop :=
  use.purpose = used.purpose ∧ HoldsText use.bytes use.word used.word.text

/-- `runcmd` returns, and each word is used with its text. -/
def UsesWords (env : Nat → Int) (bytes : Bytes) (cmd t : Nat) (line : List (Fin 256)) : Prop :=
  ∃ shell ret, Transition.Returns (fun rounds => runcmd env rounds bytes cmd t) (shell, ret) ∧
    List.Forall₂ UsesText shell.uses (usedWords env (tokens line) 0 [])

/-- A word that stands in the line as it is used: without quotation marks and, for a file name, at
the end of the line. -/
def Used.Plain (used : Used) : Prop := 34 ∉ used.word.raw ∧ (used.purpose = .file → used.word.behind = [])

instance : DecidablePred Used.Plain := fun used =>
  inferInstanceAs (Decidable (34 ∉ used.word.raw ∧ (used.purpose = .file → used.word.behind = [])))

variable {env : Nat → Int} {shell : Shell} {next : Next} {uses : List Use} {argv : List Word} {expected : List Used}
  {line rest : List (Fin 256)} {size count : Nat} {word : Word} {bytes : Bytes} {cmd t : Nat}

/-! ## What a use finds -/

/-- A use finds the word with blanks for the quotation marks and, for a file name, with the rest of
the line behind it. -/
def Shows (use : Use) (used : Used) : Prop :=
  use.purpose = used.purpose ∧
    HoldsText use.bytes use.word (blanked used.word.raw ++ if used.purpose = .file then used.word.behind else [])

theorem blanked_plain {raw : List (Fin 256)} (plain : 34 ∉ raw) : blanked raw = raw := by
  have same : ∀ c ∈ raw, (if c = 34 then 32 else c) = c := by
    intro c member
    apply if_neg
    rintro rfl
    exact plain member
  rw [blanked, List.map_congr_left same, List.map_id']

/-- A word is left as `cd` when it is. -/
theorem blanked_cd (raw : List (Fin 256)) : cd.map Subtype.val = blanked raw ↔ raw = cd.map Subtype.val := by
  constructor
  · intro isCd
    have plain : 34 ∉ raw := by
      intro quote
      have blank : (32 : Fin 256) ∈ blanked raw := List.mem_map.mpr ⟨34, quote, rfl⟩
      rw [← isCd] at blank
      revert blank
      decide
    rw [isCd, blanked_plain plain]
  · rintro rfl
    decide

/-- What a use finds is the text of the word exactly for a plain one. -/
theorem shows_exact {use : Use} {used : Used} (shows : Shows use used) : UsesText use used ↔ used.Plain := by
  obtain ⟨purpose, found⟩ := shows
  constructor
  · rintro ⟨_, text⟩
    have same := congrArg List.length (found.unique text)
    have fewer := List.length_filter_le (fun c => decide (c ≠ 34)) used.word.raw
    rw [List.length_append, blanked_length, Word.text] at same
    have all := List.length_filter_eq_length_iff.mp (Nat.le_antisymm fewer (by omega))
    refine ⟨fun quote => ?_, fun isFile => ?_⟩
    · have different := all 34 quote
      simp at different
    · rw [if_pos isFile] at same
      exact List.length_eq_zero_iff.mp (by omega)
  · rintro ⟨plain, atEnd⟩
    refine ⟨purpose, ?_⟩
    have isText : used.word.text = used.word.raw :=
      List.filter_eq_self.mpr fun c member => decide_eq_true fun quote => plain (quote ▸ member)
    have none : (if used.purpose = .file then used.word.behind else []) = [] := by
      split
      · rename_i isFile
        exact atEnd isFile
      · rfl
    rw [isText]
    rwa [none, List.append_nil, blanked_plain plain] at found

/-! ## The loop -/

/-- What is left of the loop. -/
def finish (env : Nat → Int) (limit rounds : Nat) : Next → Option (Shell × Int)
  | .again shell => loop env limit rounds shell
  | .done shell ret => some (shell, ret)

/-- The loop ends within so many rounds, and its uses are those expected. -/
def Ends (env : Nat → Int) (size : Nat) (uses : List Use) (next : Next) (expected : List Used) : Prop :=
  ∃ final ret used, (∀ limit rounds, size ≤ limit → size ≤ rounds → finish env limit rounds next = some (final, ret)) ∧
    final.uses = uses ++ used ∧ List.Forall₂ Shows used expected

/-- The words of `argv`, and the rest of the line. -/
structure Follows (shell : Shell) (line : List (Fin 256)) (argv : List Word) : Prop where
  atLine : AtLine shell.bytes shell.cmd line
  words : List.Forall₂ (Kept shell.bytes shell.cmd line) shell.argv argv

theorem usedWords_symbol (env : Nat → Int) (c : Fin 256) (tokens : List Token) (calls : Nat) (argv : List Word) :
    usedWords env (.symbol c :: tokens) calls argv =
      if c = 60 ∨ c = 62 then
        match tokens with
        | .word word :: tokens =>
            ⟨.file, word⟩ :: if env calls ≠ 0 then [] else usedWords env tokens (calls + 1) argv
        | _ => []
      else if c = 124 then
        if env calls = 0 then if env (calls + 1) < 0 then [] else usedWords env tokens (calls + 2) []
        else if env calls < 0 ∨ env (calls + 1) < 0 then []
        else usedCommand env (calls + 2) argv
      else if c = 59 then
        if env calls = 0 then usedCommand env (calls + 1) argv
        else if env calls < 0 then []
        else usedWords env tokens (calls + 1) []
      else [] := by
  rw [usedWords.eq_def]

/-- A use is expected first. -/
theorem Ends.cons {use : Use} {used : Used} (ends : Ends env size (uses ++ [use]) next expected) (shows : Shows use used) :
    Ends env size uses next (used :: expected) := by
  obtain ⟨final, ret, uses', runs, isUses, all⟩ := ends
  exact ⟨final, ret, use :: uses', runs, by rw [isUses, List.append_assoc, List.singleton_append], .cons shows all⟩

theorem Ends.mono {more : Nat} (ends : Ends env size uses next expected) (less : size ≤ more) :
    Ends env more uses next expected := by
  obtain ⟨final, ret, used, runs, rest⟩ := ends
  exact ⟨final, ret, used, fun limit rounds enough enoughToo =>
    runs limit rounds (Nat.le_trans less enough) (Nat.le_trans less enoughToo), rest⟩

/-- The end without a use. -/
theorem ends_done (shell : Shell) (ret : Int) : Ends env size shell.uses (.done shell ret) [] :=
  ⟨shell, ret, [], fun _ _ _ _ => rfl, (List.append_nil _).symm, .nil⟩

/-- A round, and what is left of the loop behind it. -/
theorem ends_round (rounds : ∀ limit, size < limit → round env limit shell = some next)
    (ends : Ends env size uses next expected) : Ends env (size + 1) uses (.again shell) expected := by
  obtain ⟨final, ret, used, runs, rest⟩ := ends
  refine ⟨final, ret, used, fun limit more enough enoughToo => ?_, rest⟩
  obtain ⟨fewer, rfl⟩ := Nat.exists_eq_add_of_le' enoughToo
  have goesOn := runs limit (fewer + size) (by omega) (by omega)
  rw [finish, ← Nat.add_assoc, loop, rounds limit (by omega)]
  cases next with
  | again shell => exact goesOn
  | done shell ret => exact goesOn

/-- From `runit` on, the words of the command are used, which all have ended. -/
theorem runit_ends (texts : List.Forall₂ (fun address (word : Word) => HoldsText shell.bytes address (blanked word.raw))
      shell.argv argv) :
    Ends env size shell.uses (runit env shell) (usedCommand env shell.calls argv) := by
  obtain ⟨bytes, cmd, t, addresses, calls, uses, printed⟩ := shell
  dsimp only at texts ⊢
  cases texts with
  | nil => exact ends_done _ _
  | @cons name word names words first rest =>
    have isCd := (strcmp_text first cd).trans (blanked_cd word.raw)
    simp only [runit, usedCommand, isCd]
    by_cases cd : word.raw = Sh.cd.map Subtype.val
    · rw [if_pos cd, if_pos cd]
      exact ends_done _ _
    · rw [if_neg cd, if_neg cd]
      by_cases refused : env calls ≠ 0 ∧ env calls ≠ -eNoent
      · rw [if_pos refused, if_pos refused]
        exact ends_done _ _
      · rw [if_neg refused, if_neg refused]
        refine ⟨_, _, _, fun _ _ _ _ => rfl, rfl, ?_⟩
        rw [List.forall₂_map_left_iff, List.forall₂_map_right_iff]
        have texts : List.Forall₂ (fun address (word : Word) => HoldsText bytes address (blanked word.raw))
            (name :: names) (word :: words) := .cons first rest
        refine texts.imp fun address word text => ⟨rfl, ?_⟩
        rw [if_neg (by nofun), List.append_nil]
        exact text

/-- What the loop does with a part of the line that is shorter than the line. -/
def Shorter (env : Nat → Int) (line : List (Fin 256)) : Prop :=
  ∀ rest shell argv, rest.length < line.length → Follows shell rest argv →
    Ends env (rest.length + 1) shell.uses (.again shell) (usedWords env (tokens rest) shell.calls argv)

/-- No word behind `<` or `>` ends the command. -/
theorem redirect_refused {got : Got} (runs : ∀ limit, line.length < limit →
      gettoken limit shell.bytes shell.cmd shell.t = some got) (noWord : got.token ≠ 119) (c : String) :
    ∃ next, (∀ limit, line.length < limit → redirectCase env limit c shell = some next) ∧
      Ends env line.length shell.uses next [] := by
  obtain ⟨text, isText⟩ : ∃ text, "sh error: syntax error: " ++ c ++ " not followed by word\n" = text := ⟨_, rfl⟩
  refine ⟨.done ((shell.got got).printf text) (-1), fun limit enough => ?_, ends_done ((shell.got got).printf text) _⟩
  rw [redirectCase, runs limit enough, Option.bind_eq_bind, Option.bind_some, if_pos noWord, isText]

/-- The word behind `<` or `>` is used, with the rest of the line behind it. -/
theorem redirect_ends (shorter : Shorter env line) (follows : Follows shell line argv) (c : String) :
    ∃ next, (∀ limit, line.length < limit → redirectCase env limit c shell = some next) ∧
      Ends env line.length shell.uses next (
        match tokens line with
        | .word word :: tokens =>
            ⟨.file, word⟩ :: if env shell.calls ≠ 0 then [] else usedWords env tokens (shell.calls + 1) argv
        | _ => []) := by
  cases isNext : nextToken line with
  | none =>
    obtain ⟨got, runs, isZero, _⟩ := gettoken_none follows.atLine shell.t isNext
    have noWord : got.token ≠ 119 := by
      rw [isZero]
      decide
    rw [tokens_none isNext]
    exact redirect_refused runs noWord c
  | some found =>
    obtain ⟨token, rest⟩ := found
    obtain ⟨got, runs, finds, cut, s, isPointer, further⟩ := gettoken_some follows.atLine shell.t isNext
    rw [tokens_some isNext]
    cases token with
    | symbol other =>
      have noWord : got.token ≠ 119 := by
        rw [finds.isToken]
        rintro (rfl : other = 119)
        have member := nextToken_symbol isNext
        revert member
        decide
      exact redirect_refused runs noWord c
    | word word =>
      have isWord : ¬ got.token ≠ 119 := fun noWord => noWord finds.isToken
      have shows : Shows ⟨.file, got.p2, got.bytes⟩ ⟨.file, word⟩ := by
        refine ⟨rfl, ?_⟩
        rw [if_pos rfl]
        exact (finds.isWord word rfl).1
      obtain ⟨used, isUsed⟩ : ∃ used : Shell, { (shell.got got).called with
        uses := (shell.got got).uses ++ [⟨.file, (shell.got got).t, (shell.got got).bytes⟩] } = used := ⟨_, rfl⟩
      by_cases failed : env shell.calls ≠ 0
      · refine ⟨.done used (env shell.calls), fun limit enough => ?_, ?_⟩
        · rw [redirectCase, runs limit enough, Option.bind_eq_bind, Option.bind_some, if_neg isWord, ← isUsed]
          exact if_pos failed
        · dsimp only
          rw [if_pos failed]
          refine Ends.cons ?_ shows
          rw [← isUsed]
          exact ends_done { (shell.got got).called with uses := shell.uses ++ [⟨.file, got.p2, got.bytes⟩] } _
      · refine ⟨.again used, fun limit enough => ?_, ?_⟩
        · rw [redirectCase, runs limit enough, Option.bind_eq_bind, Option.bind_some, if_neg isWord, ← isUsed]
          exact if_neg failed
        · dsimp only
          rw [if_neg failed]
          refine Ends.cons ?_ shows
          have length := nextToken_shorter isNext
          have goesOn := shorter rest used argv length (isUsed ▸ ⟨finds.atLine, follows.words.imp fun address word kept =>
            kept.later cut isPointer further⟩)
          rw [← isUsed] at goesOn ⊢
          exact goesOn.mono length

/-- The words of `argv` have ended. -/
def Ended (shell : Shell) (argv : List Word) : Prop :=
  List.Forall₂ (fun address (word : Word) => HoldsText shell.bytes address (blanked word.raw)) shell.argv argv

theorem Shorter.mono (shorter : Shorter env line) (fewer : rest.length < line.length) : Shorter env rest :=
  fun other shell argv fewerToo => shorter other shell argv (Nat.lt_trans fewerToo fewer)

/-- A process that goes on with an empty `argv`. -/
theorem Shorter.empty (shorter : Shorter env line) (atLine : AtLine shell.bytes shell.cmd rest)
    (fewer : rest.length < line.length) (calls : Nat) :
    Ends env line.length shell.uses (.again { shell with argv := [], calls := calls }) (usedWords env (tokens rest) calls []) :=
  (shorter rest { shell with argv := [], calls := calls } [] fewer ⟨atLine, .nil⟩).mono fewer

theorem pipe_ends (shorter : Shorter env line) (atLine : AtLine shell.bytes shell.cmd rest)
    (fewer : rest.length < line.length) (ended : Ended shell argv) :
    Ends env line.length shell.uses (pipeCase env shell) (
      if env shell.calls = 0 then
        if env (shell.calls + 1) < 0 then [] else usedWords env (tokens rest) (shell.calls + 2) []
      else if env shell.calls < 0 ∨ env (shell.calls + 1) < 0 then []
      else usedCommand env (shell.calls + 2) argv) := by
  unfold pipeCase
  dsimp only [Shell.called]
  by_cases child : env shell.calls = 0
  · rw [if_pos child, if_pos child]
    split
    · exact ends_done _ _
    · exact shorter.empty atLine fewer _
  · rw [if_neg child, if_neg child]
    by_cases failed : env shell.calls < 0
    · rw [if_pos failed, if_pos (Or.inl failed)]
      exact ends_done _ _
    · rw [if_neg failed]
      by_cases failedToo : env (shell.calls + 1) < 0
      · rw [if_pos failedToo, if_pos (Or.inr failedToo)]
        exact ends_done _ _
      · rw [if_neg failedToo, if_neg (not_or.mpr ⟨failed, failedToo⟩)]
        exact @runit_ends env { shell with calls := shell.calls + 2 } argv _ ended

theorem semicolon_ends (shorter : Shorter env line) (atLine : AtLine shell.bytes shell.cmd rest)
    (fewer : rest.length < line.length) (ended : Ended shell argv) :
    Ends env line.length shell.uses (semicolonCase env shell) (
      if env shell.calls = 0 then usedCommand env (shell.calls + 1) argv
      else if env shell.calls < 0 then []
      else usedWords env (tokens rest) (shell.calls + 1) []) := by
  unfold semicolonCase
  dsimp only [Shell.called]
  split
  · exact @runit_ends env { shell with calls := shell.calls + 1 } argv _ ended
  · split
    · exact ends_done _ _
    · exact shorter.empty atLine fewer _

/-- The loop uses the words of the rest of the line. -/
theorem loop_exact (env : Nat → Int) (line : List (Fin 256)) (shell : Shell) (argv : List Word) (follows : Follows shell line argv) :
    Ends env (line.length + 1) shell.uses (.again shell) (usedWords env (tokens line) shell.calls argv) := by
  induction length : line.length using Nat.strongRecOn generalizing line shell argv with
  | ind length ih =>
  subst length
  have shorter : Shorter env line := fun rest shell argv fewer follows => ih rest.length fewer rest shell argv follows rfl
  cases isNext : nextToken line with
  | none =>
    obtain ⟨got, runs, isZero, cut⟩ := gettoken_none follows.atLine shell.t isNext
    have ended : Ended (shell.got got) argv := follows.words.imp fun address word kept => kept.text cut
    rw [tokens_none isNext, usedWords]
    refine ends_round (fun limit enough => ?_) (@runit_ends env (shell.got got) argv _ ended)
    simp [round, runs limit enough, isZero]
  | some found =>
    obtain ⟨token, rest⟩ := found
    have fewer := nextToken_shorter isNext
    obtain ⟨got, runs, finds, cut, s, isPointer, further⟩ := gettoken_some follows.atLine shell.t isNext
    have ended : Ended (shell.got got) argv := follows.words.imp fun address word kept => kept.text cut
    have followsRest : Follows (shell.got got) rest argv :=
      ⟨finds.atLine, follows.words.imp fun address word kept => kept.later cut isPointer further⟩
    rw [tokens_some isNext]
    cases token with
    | word word =>
      have isWord : got.token = 119 := finds.isToken
      obtain ⟨behind, ends⟩ := nextToken_word isNext
      have ran : ∀ limit, line.length < limit → round env limit shell = some (wordCase (shell.got got)) := by
        intro limit enough
        simp [round, runs limit enough, isWord]
      refine ends_round ran ?_
      rw [usedWords, wordCase, show (shell.got got).argv.length = argv.length from followsRest.words.length_eq]
      by_cases many : argv.length = execMaxArgNum
      · rw [if_pos many, if_pos many]
        exact ends_done ((shell.got got).printf _) _
      · rw [if_neg many, if_neg many]
        have followsWord : Follows { shell.got got with argv := (shell.got got).argv ++ [(shell.got got).t] } rest
            (argv ++ [word]) :=
          ⟨finds.atLine, List.rel_append followsRest.words (.cons (finds.kept behind ends) .nil)⟩
        exact (shorter rest _ _ fewer followsWord).mono fewer
    | symbol c =>
      have isSymbol : got.token = c := finds.isToken
      have member := nextToken_symbol isNext
      simp only [symbols, List.mem_cons, List.not_mem_nil, or_false] at member
      rw [usedWords_symbol]
      rcases member with rfl | rfl | rfl | rfl | rfl
      · rw [if_pos (Or.inl rfl)]
        obtain ⟨next, ran, goesOn⟩ := redirect_ends (shorter.mono fewer) followsRest "<"
        refine ends_round (fun limit enough => ?_) (goesOn.mono (Nat.le_of_lt fewer))
        simp [round, runs limit enough, isSymbol, ran limit (by omega)]
      · rw [if_neg (by decide), if_pos rfl]
        have goesOn := pipe_ends shorter followsRest.atLine fewer ended
        refine ends_round (fun limit enough => ?_) goesOn
        simp [round, runs limit enough, isSymbol]
      · rw [if_pos (Or.inr rfl)]
        obtain ⟨next, ran, goesOn⟩ := redirect_ends (shorter.mono fewer) followsRest ">"
        refine ends_round (fun limit enough => ?_) (goesOn.mono (Nat.le_of_lt fewer))
        simp [round, runs limit enough, isSymbol, ran limit (by omega)]
      · rw [if_neg (by decide), if_neg (by decide), if_neg (by decide)]
        have ran : ∀ limit, line.length < limit → round env limit shell = some (.done ((shell.got got).printf
            ("sh error: bad return " ++ toString (38 : Fin 256).val ++ " from gettoken\n")) (-1)) := by
          intro limit enough
          rw [round, runs limit enough, Option.bind_eq_bind, Option.bind_some, isSymbol]
          rfl
        exact ends_round ran (ends_done ((shell.got got).printf _) (-1))
      · rw [if_neg (by decide), if_neg (by decide), if_pos rfl]
        have goesOn := semicolon_ends shorter followsRest.atLine fewer ended
        refine ends_round (fun limit enough => ?_) goesOn
        simp [round, runs limit enough, isSymbol]

/-- `runcmd` returns, and each use shows the word with blanks for the quotation marks. -/
theorem runcmd_returns (env : Nat → Int) (holds : HoldsText bytes cmd line) (t : Nat) :
    ∃ shell ret, Transition.Returns (fun rounds => runcmd env rounds bytes cmd t) (shell, ret) ∧
      List.Forall₂ Shows shell.uses (usedWords env (tokens line) 0 []) := by
  obtain ⟨final, ret, used, runs, isUsed, shows⟩ := loop_exact env line ⟨bytes, some cmd, t, [], 0, [], []⟩ [] ⟨holds, .nil⟩
  rw [List.nil_append] at isUsed
  rw [← isUsed] at shows
  exact ⟨final, ret, ⟨line.length + 1, fun rounds enough => runs rounds rounds enough enough⟩, shows⟩

/-- Uses that show their words find the texts when the words are plain. -/
theorem usesText_iff {uses : List Use} (shows : List.Forall₂ Shows uses expected) :
    List.Forall₂ UsesText uses expected ↔ ∀ used ∈ expected, used.Plain := by
  induction shows with
  | nil => simp
  | cons first _ ih => rw [List.forall₂_cons, shows_exact first, ih, List.forall_mem_cons]

/-- When each word is used with its text, all words used are plain. -/
theorem UsesWords.plain (uses : UsesWords env bytes cmd t line) (holds : HoldsText bytes cmd line) :
    ∀ used ∈ usedWords env (tokens line) 0 [], used.Plain := by
  obtain ⟨shell, ret, returns, shows⟩ := runcmd_returns env holds t
  obtain ⟨again, retAgain, returned, texts⟩ := uses
  obtain ⟨rfl, rfl⟩ := Prod.mk.inj (returned.unique returns)
  exact (usesText_iff shows).mp texts

/-- `runcmd` uses the words of a line with their texts exactly when each word that is used has no
quotation mark and each file name stands at the end of the line. -/
theorem runcmd_exact (env : Nat → Int) (holds : HoldsText bytes cmd line) (t : Nat) :
    UsesWords env bytes cmd t line ↔ ∀ used ∈ usedWords env (tokens line) 0 [], used.Plain := by
  constructor
  · intro uses
    exact uses.plain holds
  · intro plain
    obtain ⟨shell, ret, returns, shows⟩ := runcmd_returns env holds t
    exact ⟨shell, ret, returns, (usesText_iff shows).mpr plain⟩

/-- The line `a <b` is used as it should be. -/
theorem runcmd_exact_redirect :
    HoldsText (textAt 0 [97, 32, 60, 98]) 0 [97, 32, 60, 98] ∧
      UsesWords (fun _ => 0) (textAt 0 [97, 32, 60, 98]) 0 0 [97, 32, 60, 98] := by
  have holds : HoldsText (textAt 0 [97, 32, 60, 98]) 0 [97, 32, 60, 98] := holdsText_textAt (by simp)
  exact ⟨holds, (runcmd_exact _ holds 0).mpr (by decide)⟩

/-- The file name of the line `<b a` is used with the rest of the line. -/
theorem runcmd_continued :
    HoldsText (textAt 0 [60, 98, 32, 97]) 0 [60, 98, 32, 97] ∧
      ¬ UsesWords (fun _ => 0) (textAt 0 [60, 98, 32, 97]) 0 0 [60, 98, 32, 97] := by
  have holds : HoldsText (textAt 0 [60, 98, 32, 97]) 0 [60, 98, 32, 97] := holdsText_textAt (by simp)
  exact ⟨holds, fun uses => absurd (uses.plain holds) (by decide)⟩

end Ucore.Sh
