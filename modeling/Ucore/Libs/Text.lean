import Ucore.Libs.Memory

/-!
# Texts in memory

A text in memory ends with a 0 and has none inside. Loops that go along a text look at one
byte after the other, up to one that a test refuses; the loops here take the test as a
parameter. `none` is a loop that is not done within the rounds given.
-/

namespace Ucore

/-- `strchr` of `libs/string.c`, as far as whether it finds the byte in a string. -/
def strchr (s : List (Fin 256)) (c : Fin 256) : Bool := s.contains c

/-- Memory that holds a text. -/
structure HoldsText (bytes : Bytes) (address : Nat) (text : List (Fin 256)) : Prop where
  holds : HoldsAt bytes address text
  ended : bytes (address + text.length) = 0
  nonzero : ∀ byte ∈ text, byte ≠ 0

/-- `while (test(*s)) s ++;` -/
def scanWhile (test : Fin 256 → Bool) (bytes : Bytes) : Nat → Nat → Option Nat
  | 0, _ => none
  | rounds + 1, s => if test (bytes s) then scanWhile test bytes rounds (s + 1) else some s

/-- `while (test(*s)) *s ++ = '\0';` -/
def eraseWhile (test : Fin 256 → Bool) : Nat → Bytes → Nat → Option (Bytes × Nat)
  | 0, _, _ => none
  | rounds + 1, bytes, s =>
      if test (bytes s) then eraseWhile test rounds (Function.update bytes s 0) (s + 1) else some (bytes, s)

/-- Memory that holds a text at an address, and 0 elsewhere. -/
def textAt (address : Nat) (text : List (Fin 256)) : Bytes := fun other =>
  if address ≤ other then text.getD (other - address) 0 else 0

variable {bytes next : Bytes} {address : Nat} {byte : Fin 256} {text rest : List (Fin 256)}

theorem holdsText_textAt (nonzero : ∀ byte ∈ text, byte ≠ 0) : HoldsText (textAt address text) address text where
  holds index byte isByte := by
    simp [textAt, List.getD_eq_getElem?_getD, isByte]
  ended := by
    simp [textAt, List.getD_eq_getElem?_getD]
  nonzero := nonzero

theorem HoldsText.nil (holds : HoldsText bytes address []) : bytes address = 0 := holds.ended

/-- The first byte of a text. -/
theorem HoldsText.first (holds : HoldsText bytes address (byte :: rest)) : bytes address = byte := holds.holds 0 byte rfl

/-- The text behind a front part. -/
theorem HoldsText.behind (holds : HoldsText bytes address (text ++ rest)) : HoldsText bytes (address + text.length) rest where
  holds index byte isByte := by
    have here := holds.holds (text.length + index) byte (by
      rwa [List.getElem?_append_right (Nat.le_add_right _ _), Nat.add_sub_cancel_left])
    rwa [← Nat.add_assoc] at here
  ended := by
    have ended := holds.ended
    rwa [List.length_append, ← Nat.add_assoc] at ended
  nonzero other member := holds.nonzero other (List.mem_append_right _ member)

theorem HoldsText.tail (holds : HoldsText bytes address (byte :: rest)) : HoldsText bytes (address + 1) rest :=
  HoldsText.behind (show HoldsText bytes address ([byte] ++ rest) from holds)

/-- The front part of a text is a text once there is a 0 behind it. -/
theorem HoldsText.front (holds : HoldsText bytes address (text ++ rest))
    (same : ∀ index < text.length, next (address + index) = bytes (address + index))
    (ended : next (address + text.length) = 0) : HoldsText next address text where
  holds := HoldsAt.congr (fun index byte isByte => by
    obtain ⟨inside, _⟩ := List.getElem?_eq_some_iff.mp isByte
    exact holds.holds index byte (by rwa [List.getElem?_append_left inside])) same
  ended := ended
  nonzero other member := holds.nonzero other (List.mem_append_left _ member)

/-- A byte in front of a text. -/
theorem HoldsText.cons (nonzero : byte ≠ 0) (first : bytes address = byte) (behind : HoldsText bytes (address + 1) text) :
    HoldsText bytes address (byte :: text) where
  holds := HoldsAt.cons_iff.mpr ⟨first, behind.holds⟩
  ended := by
    have ended := behind.ended
    rwa [Nat.add_assoc, Nat.add_comm 1] at ended
  nonzero := List.forall_mem_cons.mpr ⟨nonzero, behind.nonzero⟩

/-- Memory that agrees where a text is held. -/
theorem HoldsText.congr (holds : HoldsText bytes address text)
    (same : ∀ index ≤ text.length, next (address + index) = bytes (address + index)) : HoldsText next address text where
  holds := holds.holds.congr fun index inside => same index (Nat.le_of_lt inside)
  ended := (same text.length (Nat.le_refl _)).trans holds.ended
  nonzero := holds.nonzero

/-- There is one text at an address. -/
theorem HoldsText.unique (holds : HoldsText bytes address text) (again : HoldsText bytes address rest) : text = rest := by
  induction text generalizing address rest with
  | nil =>
    cases rest with
    | nil => rfl
    | cons byte rest => exact absurd (again.first.symm.trans holds.nil) (again.nonzero byte List.mem_cons_self)
  | cons byte text ih =>
    cases rest with
    | nil => exact absurd (holds.first.symm.trans again.nil) (holds.nonzero byte List.mem_cons_self)
    | cons other rest =>
      obtain rfl := holds.first.symm.trans again.first
      rw [ih holds.tail again.tail]

/-- A text starts with the bytes that stand at its address. -/
theorem HoldsText.isPrefix_iff {word : List (Fin 256)} (holds : HoldsText bytes address text) (nonzero : ∀ byte ∈ word, byte ≠ 0) :
    word <+: text ↔ HoldsAt bytes address word := by
  induction word generalizing address text with
  | nil => simp [HoldsAt]
  | cons byte word ih =>
    have first := nonzero byte List.mem_cons_self
    cases text with
    | nil =>
      simp only [List.prefix_nil, reduceCtorEq, false_iff]
      intro held
      exact first ((held 0 byte rfl).symm.trans holds.nil)
    | cons other text =>
      rw [List.cons_prefix_cons, ih holds.tail fun byte member => nonzero byte (List.mem_cons_of_mem _ member), HoldsAt.cons_iff,
        holds.first, eq_comm]

/-- `strcmp` tells whether a string is the text at an address. -/
theorem strcmp_text (holds : HoldsText bytes address text) (name : Name) :
    strcmp name (fun index => bytes (address + index)) = 0 ↔ name.map Subtype.val = text := by
  obtain ⟨held, rfl⟩ : ∃ held : Name, held.map Subtype.val = text :=
    ⟨text.attachWith _ holds.nonzero, List.attachWith_map_subtype_val ..⟩
  have string : HoldsString (fun index => bytes (address + index)) held := by
    refine ⟨fun index byte isByte => holds.holds index byte.val ?_, ?_⟩
    · rw [List.getElem?_map, isByte]
      rfl
    · have ended := holds.ended
      rwa [List.length_map] at ended
  rw [strcmp_exact string]
  exact (List.map_injective_iff.mpr Subtype.val_injective).eq_iff.symm

/-- A scan stops behind the longest front part that the test accepts. -/
theorem scanWhile_exact {test : Fin 256 → Bool} {rounds : Nat} (stops : test 0 = false) (holds : HoldsText bytes address text)
    (enough : text.length < rounds) :
    scanWhile test bytes rounds address = some (address + (text.takeWhile test).length) := by
  induction text generalizing address rounds with
  | nil =>
    obtain ⟨more, rfl⟩ := Nat.exists_eq_add_of_lt enough
    simp [scanWhile, holds.nil, stops]
  | cons byte text ih =>
    obtain ⟨more, rfl⟩ := Nat.exists_eq_add_of_lt enough
    rw [scanWhile, holds.first]
    cases accepts : test byte with
    | false => simp [accepts]
    | true =>
      rw [if_pos rfl, ih holds.tail (by simp only [List.length_cons]; omega), List.takeWhile_cons_of_pos accepts, List.length_cons]
      congr 1
      omega

/-- A loop that erases does so with the longest front part that the test accepts. -/
theorem eraseWhile_exact {test : Fin 256 → Bool} {rounds : Nat} (stops : test 0 = false) (holds : HoldsText bytes address text)
    (enough : text.length < rounds) :
    eraseWhile test rounds bytes address = some (
      fun other => if address ≤ other ∧ other < address + (text.takeWhile test).length then 0 else bytes other,
      address + (text.takeWhile test).length) := by
  induction text generalizing address rounds bytes with
  | nil =>
    obtain ⟨more, rfl⟩ := Nat.exists_eq_add_of_lt enough
    have none : ∀ other, ¬ (address ≤ other ∧ other < address) := fun other => by omega
    simp [eraseWhile, holds.nil, stops, none]
  | cons byte text ih =>
    obtain ⟨more, rfl⟩ := Nat.exists_eq_add_of_lt enough
    rw [eraseWhile, holds.first]
    cases accepts : test byte with
    | false =>
      have none : ∀ other, ¬ (address ≤ other ∧ other < address) := fun other => by omega
      simp [accepts, none]
    | true =>
      have later : HoldsText (Function.update bytes address 0) (address + 1) text :=
        holds.tail.congr fun index _ => Function.update_of_ne (by omega) ..
      rw [if_pos rfl, ih later (by simp only [List.length_cons]; omega), List.takeWhile_cons_of_pos accepts, List.length_cons]
      simp only [Option.some.injEq, Prod.mk.injEq]
      constructor
      · funext other
        by_cases here : other = address
        · subst here
          rw [if_neg (by omega), if_pos (by omega), Function.update_self]
        · rw [Function.update_of_ne here]
          by_cases inside : address + 1 ≤ other ∧ other < address + 1 + (text.takeWhile test).length
          · rw [if_pos inside, if_pos (by omega)]
          · rw [if_neg inside, if_neg (by omega)]
      · omega

end Ucore
