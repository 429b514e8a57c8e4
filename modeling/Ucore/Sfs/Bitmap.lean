import Mathlib.Data.Finset.Card
import Mathlib.Data.Finset.Range
import Mathlib.Logic.Function.Basic
import Ucore.Libs.Error

/-!
# The bitmap

`kern/fs/sfs/bitmap.c` keeps one bit for each block, set while the block is free.
`bitmap_alloc` takes the first set bit of the first nonzero word.
-/

namespace Ucore.Volume

/-- `WORD_BITS` -/
def wordBits : Nat := 32

/-- `struct bitmap`. The words cover the bits. -/
structure Bitmap where
  nbits : Nat
  nwords : Nat
  map : Nat → BitVec 32
  covered : nbits ≤ wordBits * nwords

/-- A bitmap of one word. -/
theorem oneWord_covers : 32 ≤ wordBits * 1 := by decide

/-- `1 << offset` -/
def bitmapMask (offset : Nat) : BitVec 32 := 1#32 <<< offset

/-- The loop at the end of `bitmap_create`: the bits of a word from `overbits` on are cleared. -/
def clearOverbits (word : BitVec 32) (overbits : Nat) : BitVec 32 :=
  (List.range' overbits (wordBits - overbits)).foldl (fun word bit => word ^^^ bitmapMask bit) word

/-- The words of a new bitmap. -/
def bitmapWords (nbits nwords : Nat) : Option (Nat → BitVec 32) :=
  let full := fun _ => BitVec.allOnes 32
  if nbits = nwords * wordBits then some full
  else
    let overbits := nbits - (nwords - 1) * wordBits
    if nbits / wordBits = nwords - 1 ∧ 0 < overbits ∧ overbits < wordBits then
      some (Function.update full (nwords - 1) (clearOverbits (full (nwords - 1)) overbits))
    else none

/-- `ROUNDUP_DIV(nbits, WORD_BITS)` words cover the bits. -/
theorem covered_roundup (nbits : Nat) : nbits ≤ wordBits * ((nbits + wordBits - 1) / wordBits) := by
  simp only [wordBits]
  omega

/-- `bitmap_create`, which may find no memory. `WORD_BITS` is a `size_t`. -/
def bitmapCreate (memory : Bool) (nbits : Nat) : Option (Option Bitmap) :=
  if nbits ≠ 0 ∧ nbits < (nbits + wordBits) % 2 ^ 64 then
    if memory = false then some none
    else do
      let nwords := (nbits + wordBits - 1) / wordBits
      let map ← bitmapWords nbits nwords
      some (some { nbits, nwords, map, covered := covered_roundup nbits })
  else none

/-- `bitmap_alloc`; `none` is a failed assertion, here and below. -/
def bitmapAlloc (bitmap : Bitmap) : Option (Except Int Nat × Bitmap) :=
  match (List.range bitmap.nwords).find? fun ix => bitmap.map ix ≠ 0 with
  | none => some (.error (-eNoMem), bitmap)
  | some ix =>
      match (List.range wordBits).find? fun offset => bitmap.map ix &&& bitmapMask offset ≠ 0 with
      | none => none
      | some offset =>
          let map := Function.update bitmap.map ix (bitmap.map ix ^^^ bitmapMask offset)
          some (.ok (ix * wordBits + offset), { bitmap with map })

/-- `bitmap_test` -/
def bitmapTest (bitmap : Bitmap) (index : Nat) : Option Bool :=
  if index < bitmap.nbits then
    some (bitmap.map (index / wordBits) &&& bitmapMask (index % wordBits) ≠ 0)
  else none

/-- `bitmap_free` -/
def bitmapFree (bitmap : Bitmap) (index : Nat) : Option Bitmap :=
  if index < bitmap.nbits then
    if bitmap.map (index / wordBits) &&& bitmapMask (index % wordBits) = 0 then
      let word := bitmap.map (index / wordBits) ||| bitmapMask (index % wordBits)
      some { bitmap with map := Function.update bitmap.map (index / wordBits) word }
    else none
  else none

/-- The bit of a block. -/
def Bitmap.bit (bitmap : Bitmap) (index : Nat) : Bool :=
  (bitmap.map (index / wordBits)).getLsbD (index % wordBits)

/-- The number of set bits. -/
def Bitmap.setBits (bitmap : Bitmap) : Nat :=
  ((Finset.range (wordBits * bitmap.nwords)).filter fun index => bitmap.bit index = true).card

variable {bitmap after : Bitmap} {index : Nat}

theorem bitmapMask_bit (offset bit : Nat) (inside : bit < 32) :
    (bitmapMask offset).getLsbD bit = decide (bit = offset) := by
  rw [bitmapMask, ← BitVec.twoPow_eq, BitVec.getLsbD_twoPow]
  by_cases same : bit = offset
  · subst same
    simp [inside]
  · simp [same, Ne.symm same]

/-- The mask tests one bit of a word. -/
theorem mask_test (word : BitVec 32) {offset : Nat} (inside : offset < 32) :
    word &&& bitmapMask offset ≠ 0 ↔ word.getLsbD offset = true := by
  have nonzero : BitVec.twoPow 32 offset ≠ 0#32 := by
    intro zero
    have selected := congrArg (fun bits => bits.getLsbD offset) zero
    simp [inside] at selected
  rw [bitmapMask, ← BitVec.twoPow_eq, BitVec.and_twoPow]
  cases word.getLsbD offset
  · simp
  · simpa using nonzero

/-- One word changes in one bit. -/
theorem bit_update (bitmap : Bitmap) (word : BitVec 32) (index other : Nat) (value : Bool)
    (here : word.getLsbD (index % wordBits) = value)
    (elsewhere : ∀ bit < 32, bit ≠ index % wordBits →
      word.getLsbD bit = (bitmap.map (index / wordBits)).getLsbD bit) :
    (Function.update bitmap.map (index / wordBits) word (other / wordBits)).getLsbD (other % wordBits) =
      Function.update bitmap.bit index value other := by
  by_cases same : other = index
  · subst same
    simp [here]
  · rw [Function.update_of_ne same, Bitmap.bit]
    by_cases sameWord : other / wordBits = index / wordBits
    · have small : other % wordBits < 32 := Nat.mod_lt _ (by decide)
      have differ : other % wordBits ≠ index % wordBits := by
        intro sameBit
        apply same
        rw [← Nat.div_add_mod other wordBits, ← Nat.div_add_mod index wordBits, sameWord, sameBit]
      rw [sameWord, Function.update_self, elsewhere _ small differ]
    · rw [Function.update_of_ne sameWord]

/-- A test reads the bit. -/
theorem bitmapTest_exact (inside : index < bitmap.nbits) : bitmapTest bitmap index = some (bitmap.bit index) := by
  have small : index % wordBits < 32 := Nat.mod_lt _ (by decide)
  have test := mask_test (bitmap.map (index / wordBits)) small
  rw [bitmapTest, if_pos inside, Bitmap.bit]
  cases value : (bitmap.map (index / wordBits)).getLsbD (index % wordBits)
  · simpa [value] using test
  · simpa [value] using test

/-- An allocation clears a set bit, or finds none. -/
theorem bitmapAlloc_exact (bitmap : Bitmap) :
    bitmapAlloc bitmap = some (.error (-eNoMem), bitmap) ∨
      ∃ index after, bitmapAlloc bitmap = some (.ok index, after) ∧ bitmap.bit index = true ∧
        index < wordBits * bitmap.nwords ∧ after.bit = Function.update bitmap.bit index false ∧
        after.nbits = bitmap.nbits ∧ after.nwords = bitmap.nwords := by
  cases word : (List.range bitmap.nwords).find? fun ix => decide (bitmap.map ix ≠ 0) with
  | none => exact Or.inl (by simp only [bitmapAlloc, word])
  | some ix =>
    right
    have nonzero : bitmap.map ix ≠ 0 := by simpa using List.find?_some word
    have inside : ix < bitmap.nwords := List.mem_range.mp (List.mem_of_find?_eq_some word)
    cases bit : (List.range wordBits).find? fun offset => decide (bitmap.map ix &&& bitmapMask offset ≠ 0) with
    | none =>
      exfalso
      apply nonzero
      apply BitVec.eq_of_getLsbD_eq
      intro offset small
      have clear := List.find?_eq_none.mp bit offset (List.mem_range.mpr small)
      have test := mask_test (bitmap.map ix) small
      simp only [decide_eq_true_eq] at clear
      simpa using mt test.mpr clear
    | some offset =>
      have small : offset < 32 := List.mem_range.mp (List.mem_of_find?_eq_some bit)
      have isSet : (bitmap.map ix).getLsbD offset = true :=
        (mask_test _ small).mp (by simpa using List.find?_some bit)
      have isWord : (ix * wordBits + offset) / wordBits = ix := by
        simp only [wordBits]
        omega
      have isBit : (ix * wordBits + offset) % wordBits = offset := by
        simp only [wordBits]
        omega
      let map := Function.update bitmap.map ix (bitmap.map ix ^^^ bitmapMask offset)
      refine ⟨ix * wordBits + offset, { bitmap with map }, ?_, ?_, ?_, ?_, rfl, rfl⟩
      · simp only [bitmapAlloc, word, bit, map]
      · rw [Bitmap.bit, isWord, isBit, isSet]
      · simp only [wordBits]
        omega
      · funext other
        have updated := bit_update bitmap (bitmap.map ix ^^^ bitmapMask offset) (ix * wordBits + offset) other false
        rw [isWord, isBit] at updated
        refine updated ?_ ?_
        · rw [BitVec.getLsbD_xor, bitmapMask_bit _ _ small, isSet]
          simp
        · intro bit inside different
          rw [BitVec.getLsbD_xor, bitmapMask_bit _ _ inside]
          simp [different]

/-- An allocation takes the first set bit, and fails when there is none. -/
theorem bitmapAlloc_first (bitmap : Bitmap) :
    bitmapAlloc bitmap = some (.error (-eNoMem), bitmap) ∧
        (∀ index < wordBits * bitmap.nwords, bitmap.bit index = false) ∨
      ∃ index after, bitmapAlloc bitmap = some (.ok index, after) ∧
        ∀ earlier < index, bitmap.bit earlier = false := by
  cases word : (List.range bitmap.nwords).find? fun ix => decide (bitmap.map ix ≠ 0) with
  | none =>
    refine Or.inl ⟨by simp only [bitmapAlloc, word], fun index inside => ?_⟩
    have isWord : index / wordBits < bitmap.nwords := Nat.div_lt_of_lt_mul inside
    have zero := List.find?_eq_none.mp word (index / wordBits) (List.mem_range.mpr isWord)
    have isZero : bitmap.map (index / wordBits) = 0 := by simpa using zero
    rw [Bitmap.bit, isZero]
    exact BitVec.getLsbD_zero
  | some ix =>
    right
    rcases bitmapAlloc_exact bitmap with failed | ⟨index, after, taken, isSet, inside, _⟩
    · simp only [bitmapAlloc, word] at failed
      split at failed
      · cases failed
      · cases failed
    refine ⟨index, after, taken, fun earlier before => ?_⟩
    simp only [bitmapAlloc, word] at taken
    cases bit : (List.range wordBits).find? fun offset => decide (bitmap.map ix &&& bitmapMask offset ≠ 0) with
    | none =>
      simp only [bit] at taken
      cases taken
    | some offset =>
      simp only [bit, Option.some.injEq, Prod.mk.injEq, Except.ok.injEq] at taken
      obtain ⟨isIndex, _⟩ := taken
      obtain ⟨_, _, words⟩ := List.find?_range_eq_some.mp word
      obtain ⟨_, isOffset, bits⟩ := List.find?_range_eq_some.mp bit
      have small : offset < wordBits := List.mem_range.mp isOffset
      simp only [wordBits] at small isIndex
      by_cases sameWord : earlier / wordBits = ix
      · have isBit : earlier % wordBits < offset := by
          simp only [wordBits] at sameWord ⊢
          omega
        have inside : earlier % wordBits < 32 := Nat.mod_lt _ (by decide)
        have clear := bits (earlier % wordBits) isBit
        have test := mask_test (bitmap.map ix) inside
        rw [Bitmap.bit, sameWord]
        simp only [Bool.not_eq_true', decide_eq_false_iff_not] at clear
        simpa using mt test.mpr clear
      · have isWord : earlier / wordBits < ix := by
          simp only [wordBits] at sameWord ⊢
          omega
        have isZero : bitmap.map (earlier / wordBits) = 0 := by simpa using words _ isWord
        rw [Bitmap.bit, isZero]
        exact BitVec.getLsbD_zero

/-- A release sets a clear bit. -/
theorem bitmapFree_exact (inside : index < bitmap.nbits) (clear : bitmap.bit index = false) :
    ∃ after, bitmapFree bitmap index = some after ∧ after.bit = Function.update bitmap.bit index true ∧
      after.nbits = bitmap.nbits ∧ after.nwords = bitmap.nwords := by
  have small : index % wordBits < 32 := Nat.mod_lt _ (by decide)
  have test := mask_test (bitmap.map (index / wordBits)) small
  have isClear : bitmap.map (index / wordBits) &&& bitmapMask (index % wordBits) = 0 := by
    by_contra isSet
    rw [Bitmap.bit, test.mp isSet] at clear
    cases clear
  let map := Function.update bitmap.map (index / wordBits)
    (bitmap.map (index / wordBits) ||| bitmapMask (index % wordBits))
  refine ⟨{ bitmap with map }, ?_, ?_, rfl, rfl⟩
  · rw [bitmapFree, if_pos inside, if_pos isClear]
  funext other
  refine bit_update bitmap _ index other true ?_ ?_
  · rw [BitVec.getLsbD_or, bitmapMask_bit _ _ small]
    simp
  · intro bit inside different
    rw [BitVec.getLsbD_or, bitmapMask_bit _ _ inside]
    simp [different]

/-- What a release asserts. -/
theorem bitmapFree_some (freed : bitmapFree bitmap index = some after) :
    index < bitmap.nbits ∧ bitmap.bit index = false := by
  unfold bitmapFree at freed
  split at freed
  · rename_i inside
    refine ⟨inside, ?_⟩
    split at freed
    · rename_i clear
      have small : index % wordBits < 32 := Nat.mod_lt _ (by decide)
      have test := mask_test (bitmap.map (index / wordBits)) small
      cases value : bitmap.bit index
      · rfl
      · exact absurd clear (test.mpr value)
    · cases freed
  · cases freed

/-- A set bit that is cleared no longer counts. -/
theorem setBits_clear (inside : index < wordBits * bitmap.nwords) (isSet : bitmap.bit index = true)
    (cleared : after.bit = Function.update bitmap.bit index false) (nwords : after.nwords = bitmap.nwords) :
    after.setBits + 1 = bitmap.setBits := by
  have erased : ((Finset.range (wordBits * after.nwords)).filter fun other => after.bit other = true) =
      ((Finset.range (wordBits * bitmap.nwords)).filter fun other => bitmap.bit other = true).erase index := by
    ext other
    by_cases same : other = index
    · simp [cleared, same]
    · simp [cleared, nwords, same]
  rw [Bitmap.setBits, erased, Bitmap.setBits]
  apply Finset.card_erase_add_one
  simp [inside, isSet]

/-- A clear bit that is set counts. -/
theorem setBits_set (inside : index < wordBits * bitmap.nwords) (isClear : bitmap.bit index = false)
    (changed : after.bit = Function.update bitmap.bit index true) (nwords : after.nwords = bitmap.nwords) :
    after.setBits = bitmap.setBits + 1 := by
  have isSet : after.bit index = true := by simp [changed]
  have cleared : bitmap.bit = Function.update after.bit index false := by
    rw [changed, Function.update_idem, ← isClear, Function.update_eq_self]
  exact (setBits_clear (nwords ▸ inside) isSet cleared nwords.symm).symm

end Ucore.Volume
