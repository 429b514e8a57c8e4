import Mathlib.Data.Finset.Max
import Ucore.Library.Transition
import Ucore.Sfs.Bitmap

/-!
# The bitmap as a set

A bitmap is created full and then allocated from, released to and tested in any order.
It answers like a set of free indices, which an allocation takes the least element of.
The bits of the last word behind `nbits` are never set, so that no index beyond it is
ever handed out.
-/

namespace Ucore.Volume

open Transition

/-- The calls on a bitmap. -/
inductive BitmapCall where
  | alloc
  | free (index : Nat)
  | test (index : Nat)

/-- What the calls return. -/
inductive BitmapAnswer where
  | alloc (result : Except Int Nat)
  | free
  | test (isFree : Bool)

/-- One call on a bitmap; `none` is a failed assertion, here and below. -/
def bitmapCall (bitmap : Bitmap) : BitmapCall → Option (BitmapAnswer × Bitmap)
  | .alloc => (bitmapAlloc bitmap).map fun (result, bitmap) => (.alloc result, bitmap)
  | .free index => (bitmapFree bitmap index).map fun bitmap => (.free, bitmap)
  | .test index => (bitmapTest bitmap index).map fun isFree => (.test isFree, bitmap)

/-- The same call on a set of free indices below `nbits`. -/
def setCall (nbits : Nat) (free : Finset Nat) : BitmapCall → Option (BitmapAnswer × Finset Nat)
  | .alloc =>
      if nonempty : free.Nonempty then some (.alloc (.ok (free.min' nonempty)), free.erase (free.min' nonempty))
      else some (.alloc (.error (-eNoMem)), free)
  | .free index => if index < nbits ∧ index ∉ free then some (.free, insert index free) else none
  | .test index => if index < nbits then some (.test (decide (index ∈ free)), free) else none

/-- The set bits are the free indices, and they are below `nbits`. -/
structure Bitmap.Represents (nbits : Nat) (bitmap : Bitmap) (free : Finset Nat) : Prop where
  size : bitmap.nbits = nbits
  exact : ∀ index < wordBits * bitmap.nwords, bitmap.bit index = true ↔ index ∈ free
  below : ∀ index ∈ free, index < nbits

variable {bitmap : Bitmap} {nbits : Nat} {free : Finset Nat}

/-- A free index is in a word. -/
theorem Bitmap.Represents.covered (represents : bitmap.Represents nbits free) {index : Nat} (inside : index < nbits) :
    index < wordBits * bitmap.nwords :=
  Nat.lt_of_lt_of_le (represents.size ▸ inside) bitmap.covered

theorem Bitmap.Represents.bit_eq (represents : bitmap.Represents nbits free) {index : Nat} (inside : index < nbits) :
    bitmap.bit index = decide (index ∈ free) := by
  rw [Bool.eq_iff_iff, decide_eq_true_iff]
  exact represents.exact index (represents.covered inside)

theorem allOnes_bit {bit : Nat} (inside : bit < 32) : (BitVec.allOnes 32).getLsbD bit = true := by
  rw [BitVec.getLsbD_allOnes, decide_eq_true inside]

/-- The loop at the end of `bitmap_create` clears the bits from `overbits` on. -/
theorem clearOverbits_bit (overbits bit : Nat) (small : overbits ≤ 32) (inside : bit < 32) :
    (clearOverbits (BitVec.allOnes 32) overbits).getLsbD bit = decide (bit < overbits) := by
  have cleared : ∀ (count start : Nat) (word : BitVec 32), start + count = 32 →
      (∀ bit < 32, start ≤ bit → word.getLsbD bit = true) →
      ∀ bit < 32, ((List.range' start count).foldl (fun word bit => word ^^^ bitmapMask bit) word).getLsbD bit =
        (word.getLsbD bit && decide (bit < start)) := by
    intro count
    induction count with
    | zero =>
      intro start word sum _ bit inside
      have before : bit < start := by omega
      simp [before]
    | succ count ih =>
      intro start word sum isSet bit inside
      rw [List.range'_succ, List.foldl_cons]
      have later : ∀ other < 32, start + 1 ≤ other →
          (word ^^^ bitmapMask start).getLsbD other = true := by
        intro other small behind
        have different : other ≠ start := by omega
        rw [BitVec.getLsbD_xor, bitmapMask_bit _ _ small, isSet other small (by omega)]
        simp [different]
      rw [ih (start + 1) _ (by omega) later bit inside, BitVec.getLsbD_xor, bitmapMask_bit _ _ inside]
      by_cases here : bit = start
      · subst here
        simp [isSet bit inside (Nat.le_refl _)]
      · have order : bit < start + 1 ↔ bit < start := by omega
        simp [here, order]
  have sum : overbits + (wordBits - overbits) = 32 := by
    simp only [wordBits]
    omega
  have result := cleared _ overbits (BitVec.allOnes 32) sum (fun _ inside _ => allOnes_bit inside) bit inside
  rw [clearOverbits, result, allOnes_bit inside, Bool.true_and]

/-- A new bitmap is the set of all indices. -/
theorem bitmapCreate_exact (positive : 0 < nbits) (fits : nbits < 2 ^ 32) :
    bitmapCreate false nbits = some none ∧
      ∃ bitmap, bitmapCreate true nbits = some (some bitmap) ∧ bitmap.Represents nbits (Finset.range nbits) := by
  have accepted : nbits ≠ 0 ∧ nbits < (nbits + wordBits) % 2 ^ 64 := by
    simp only [wordBits]
    omega
  refine ⟨by rw [bitmapCreate, if_pos accepted, if_pos rfl], ?_⟩
  rw [bitmapCreate, if_pos accepted]
  simp only [Bool.true_eq_false, if_false]
  by_cases whole : nbits = (nbits + wordBits - 1) / wordBits * wordBits
  · have words : bitmapWords nbits ((nbits + wordBits - 1) / wordBits) = some fun _ => BitVec.allOnes 32 := by
      rw [bitmapWords, if_pos whole]
    rw [words]
    refine ⟨_, rfl, rfl, fun index inside => ?_, fun index member => Finset.mem_range.mp member⟩
    have small : index % wordBits < 32 := Nat.mod_lt _ (by decide)
    rw [Finset.mem_range, Bitmap.bit]
    dsimp only at inside
    rw [Nat.mul_comm, ← whole] at inside
    exact iff_of_true (allOnes_bit small) inside
  · have last : nbits / wordBits = (nbits + wordBits - 1) / wordBits - 1 ∧
        0 < nbits - ((nbits + wordBits - 1) / wordBits - 1) * wordBits ∧
        nbits - ((nbits + wordBits - 1) / wordBits - 1) * wordBits < wordBits := by
      simp only [wordBits] at whole ⊢
      omega
    have words : bitmapWords nbits ((nbits + wordBits - 1) / wordBits) =
        some (Function.update (fun _ => BitVec.allOnes 32) (nbits / wordBits)
          (clearOverbits (BitVec.allOnes 32) (nbits % wordBits))) := by
      rw [bitmapWords, if_neg whole]
      simp only [if_pos last]
      rw [← last.1]
      have isLeft : nbits - nbits / wordBits * wordBits = nbits % wordBits := by
        simp only [wordBits]
        omega
      rw [isLeft]
    rw [words]
    refine ⟨_, rfl, rfl, fun index inside => ?_, fun index member => Finset.mem_range.mp member⟩
    have small : index % wordBits < 32 := Nat.mod_lt _ (by decide)
    rw [Finset.mem_range, Bitmap.bit]
    dsimp only at inside ⊢
    by_cases inLast : index / wordBits = nbits / wordBits
    · have few : nbits % wordBits ≤ 32 := Nat.le_of_lt (Nat.mod_lt _ (by decide))
      rw [inLast, Function.update_self, clearOverbits_bit _ _ few small, decide_eq_true_iff]
      simp only [wordBits] at inLast ⊢
      omega
    · rw [Function.update_of_ne inLast]
      have before : index < nbits := by
        simp only [wordBits] at inside inLast ⊢
        omega
      exact iff_of_true (allOnes_bit small) before

/-- A bitmap answers each call like the set it represents. -/
theorem bitmapCall_alike (call : BitmapCall) (represents : bitmap.Represents nbits free) :
    Alike (Bitmap.Represents nbits) (bitmapCall bitmap call) (setCall nbits free call) := by
  cases call with
  | alloc =>
    rcases bitmapAlloc_exact bitmap with failed | ⟨index, after, taken, isSet, inside, cleared, sameBits, sameWords⟩
    · rcases bitmapAlloc_first bitmap with ⟨_, clear⟩ | ⟨index, after, taken, _⟩
      · have empty : ¬ free.Nonempty := by
          rintro ⟨index, member⟩
          have inside := represents.covered (represents.below index member)
          have isSet := (represents.exact index inside).mpr member
          rw [clear index inside] at isSet
          cases isSet
        exact Or.inr ⟨_, bitmap, free, by rw [bitmapCall, failed]; rfl, by rw [setCall, dif_neg empty], represents⟩
      · rw [failed] at taken
        cases taken
    · have member := (represents.exact index inside).mp isSet
      have nonempty : free.Nonempty := ⟨index, member⟩
      have least : free.min' nonempty = index := by
        apply Nat.le_antisymm (Finset.min'_le _ _ member)
        rcases bitmapAlloc_first bitmap with ⟨failed, _⟩ | ⟨same, _, takenToo, earlier⟩
        · rw [taken] at failed
          cases failed
        · rw [taken] at takenToo
          obtain ⟨sameIndex, _⟩ := Prod.mk.inj (Option.some.inj takenToo)
          obtain rfl := Except.ok.inj sameIndex
          by_contra before
          have isMember := free.min'_mem nonempty
          have clear := earlier _ (Nat.not_le.mp before)
          have isOne := (represents.exact _ (represents.covered (represents.below _ isMember))).mpr isMember
          rw [clear] at isOne
          cases isOne
      refine Or.inr ⟨_, after, free.erase index, by rw [bitmapCall, taken]; rfl, ?_, ?_⟩
      · rw [setCall, dif_pos nonempty, least]
      · refine ⟨sameBits.trans represents.size, fun other inWords => ?_, fun other isFree => ?_⟩
        · rw [sameWords] at inWords
          rw [cleared, Finset.mem_erase]
          by_cases same : other = index
          · simp [same]
          · rw [Function.update_of_ne same, represents.exact other inWords]
            simp [same]
        · exact represents.below other (Finset.mem_of_mem_erase isFree)
  | free index =>
    by_cases allowed : index < nbits ∧ index ∉ free
    · obtain ⟨inside, notFree⟩ := allowed
      have clear : bitmap.bit index = false := by rw [represents.bit_eq inside, decide_eq_false notFree]
      obtain ⟨after, freed, isSet, sameBits, sameWords⟩ := bitmapFree_exact (represents.size ▸ inside) clear
      refine Or.inr ⟨.free, after, insert index free, by rw [bitmapCall, freed]; rfl, ?_, ?_⟩
      · rw [setCall, if_pos ⟨inside, notFree⟩]
      · refine ⟨sameBits.trans represents.size, fun other inWords => ?_, fun other isFree => ?_⟩
        · rw [sameWords] at inWords
          rw [isSet, Finset.mem_insert]
          by_cases same : other = index
          · simp [same]
          · rw [Function.update_of_ne same, represents.exact other inWords]
            simp [same]
        · rcases Finset.mem_insert.mp isFree with rfl | old
          · exact inside
          · exact represents.below other old
    · refine Or.inl ⟨?_, by rw [setCall, if_neg allowed]⟩
      cases freed : bitmapFree bitmap index with
      | none => rw [bitmapCall, freed]; rfl
      | some after =>
        obtain ⟨inside, clear⟩ := bitmapFree_some freed
        rw [represents.size] at inside
        rw [represents.bit_eq inside, decide_eq_false_iff_not] at clear
        exact absurd ⟨inside, clear⟩ allowed
  | test index =>
    by_cases inside : index < nbits
    · refine Or.inr ⟨.test (decide (index ∈ free)), bitmap, free, ?_, by rw [setCall, if_pos inside], represents⟩
      rw [bitmapCall, bitmapTest_exact (represents.size ▸ inside), represents.bit_eq inside]
      rfl
    · refine Or.inl ⟨?_, by rw [setCall, if_neg inside]⟩
      rw [bitmapCall, bitmapTest, if_neg (represents.size ▸ inside)]
      rfl

/-- A set hands out indices below `nbits` only. -/
theorem setCall_below {last : Finset Nat} {given : List BitmapAnswer} (calls : List BitmapCall)
    (below : ∀ index ∈ free, index < nbits) (ran : answers (setCall nbits) calls free = some (given, last)) :
    ∀ index, .alloc (.ok index) ∈ given → index < nbits := by
  induction calls generalizing free given with
  | nil =>
    obtain ⟨rfl, _⟩ := Prod.mk.inj (Option.some.inj ran)
    simp
  | cons call rest ih =>
    simp only [answers] at ran
    split at ran
    · cases ran
    · rename_i answer next called
      obtain ⟨⟨later, last⟩, ranLater, isGiven⟩ := Option.map_eq_some_iff.mp ran
      obtain ⟨rfl, rfl⟩ := Prod.mk.inj isGiven
      have stays : (∀ index ∈ next, index < nbits) ∧ ∀ index, answer = .alloc (.ok index) → index < nbits := by
        cases call with
        | alloc =>
          rw [setCall] at called
          split at called
          · rename_i nonempty
            obtain ⟨rfl, rfl⟩ := Prod.mk.inj (Option.some.inj called)
            refine ⟨fun index member => below index (Finset.mem_of_mem_erase member), fun index isIndex => ?_⟩
            cases isIndex
            exact below _ (free.min'_mem nonempty)
          · obtain ⟨rfl, rfl⟩ := Prod.mk.inj (Option.some.inj called)
            exact ⟨below, fun index isIndex => by cases isIndex⟩
        | free index =>
          rw [setCall] at called
          split at called
          · rename_i allowed
            obtain ⟨rfl, rfl⟩ := Prod.mk.inj (Option.some.inj called)
            refine ⟨fun other member => ?_, fun other isIndex => by cases isIndex⟩
            rcases Finset.mem_insert.mp member with rfl | old
            · exact allowed.1
            · exact below other old
          · cases called
        | test index =>
          rw [setCall] at called
          split at called
          · obtain ⟨rfl, rfl⟩ := Prod.mk.inj (Option.some.inj called)
            exact ⟨below, fun index isIndex => by cases isIndex⟩
          · cases called
      intro index member
      rcases List.mem_cons.mp member with same | isLater
      · exact stays.2 index same.symm
      · exact ih stays.1 ranLater index isLater

/-- A bitmap of `nbits` bits is created, if there is memory, and from then on it answers
every list of calls like the set of all indices below `nbits`: an allocation takes the
least free index, or fails when there is none; a release adds an index, which may not be
free; a test asks for membership. No index beyond `nbits` is handed out. -/
theorem bitmap_refines_set (nbits : Nat) (positive : 0 < nbits) (fits : nbits < 2 ^ 32) :
    bitmapCreate false nbits = some none ∧
      ∃ bitmap, bitmapCreate true nbits = some (some bitmap) ∧ ∀ calls,
        (answers bitmapCall calls bitmap).map Prod.fst =
            (answers (setCall nbits) calls (Finset.range nbits)).map Prod.fst ∧
          ∀ given last, answers bitmapCall calls bitmap = some (given, last) →
            ∀ index, .alloc (.ok index) ∈ given → index < nbits := by
  obtain ⟨noMemory, bitmap, created, represents⟩ := bitmapCreate_exact positive fits
  refine ⟨noMemory, bitmap, created, fun calls => ?_⟩
  have below : ∀ index ∈ Finset.range nbits, index < nbits := fun index member => Finset.mem_range.mp member
  rcases answers_alike (fun _ _ call here => bitmapCall_alike call here) calls bitmap (Finset.range nbits) represents with
    ⟨refused, refusedToo⟩ | ⟨given, last, lastSet, ran, ranToo, _⟩
  · refine ⟨by rw [refused, refusedToo]; rfl, fun given last ran => ?_⟩
    rw [refused] at ran
    cases ran
  · refine ⟨by rw [ran, ranToo]; rfl, fun other otherLast ranOther => ?_⟩
    obtain ⟨rfl, rfl⟩ := Prod.mk.inj (Option.some.inj (ran.symm.trans ranOther))
    exact setCall_below calls below ranToo

/-- A bitmap of 33 bits. -/
theorem bitmap_refines_set_33 : 0 < 33 ∧ 33 < 2 ^ 32 ∧
    bitmapCreate false 33 = some none ∧
      ∃ bitmap, bitmapCreate true 33 = some (some bitmap) ∧ ∀ calls,
        (answers bitmapCall calls bitmap).map Prod.fst =
            (answers (setCall 33) calls (Finset.range 33)).map Prod.fst ∧
          ∀ given last, answers bitmapCall calls bitmap = some (given, last) →
            ∀ index, .alloc (.ok index) ∈ given → index < 33 :=
  ⟨by decide, by decide, bitmap_refines_set 33 (by decide) (by decide)⟩

end Ucore.Volume
