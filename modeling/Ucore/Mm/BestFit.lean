import Ucore.Mm.FirstFit

/-!
# The best-fit page allocator

`best_fit_alloc_pages` of `lab2/kern/mm/best_fit_pmm.c` searches the whole free list for the
smallest block that is large enough. The search starts from a fixed size, and blocks of that
size and more are never found.
-/

namespace Ucore.DefaultPmm

open CircularList EmbeddedList Spans

/-- `min_property` in front of the search. -/
def minProperty : Nat := 999999

/-- The search loop of `best_fit_alloc_pages`, with the size and the page of the smallest
block so far. -/
def bestLoop (n : Nat) (area : FreeArea) : Nat → Le → Nat → Option Nat → Option (Option Nat)
  | 0, _, _, _ => none
  | fuel + 1, le, smallest, page =>
      match listNext area.links le with
      | .head => some page
      | .link p =>
          if n ≤ (area.pages p).property ∧ (area.pages p).property < smallest then
            bestLoop n area fuel (.link p) (area.pages p).property (some p)
          else bestLoop n area fuel (.link p) smallest page

/-- `best_fit_alloc_pages`; the first component is the page returned, `none` for `NULL`. -/
def bestFitAllocPages (npage n : Nat) (area : FreeArea) : Option (Option Nat × FreeArea) :=
  if n = 0 then none
  else if area.nrFree < n then some (none, area)
  else do
    let found ← bestLoop n area (npage + 1) .head minProperty none
    match found with
    | none => some (none, area)
    | some page => some (some page, takePages n page area)

/-- The search on a list of blocks. -/
def bestOf (n : Nat) : List Span → Nat → Option Span → Option Span
  | [], _, best => best
  | block :: rest, smallest, best =>
      if n ≤ block.size ∧ block.size < smallest then bestOf n rest block.size (some block)
      else bestOf n rest smallest best

/-- A block of the least size among those that are large enough gives its first pages, and
what is left of it stays in its place; nothing is taken if no block is large enough. -/
def BestFit (managed : Nat → Prop) (n : Nat) (blocks : List Span) (area : FreeArea) (page : Option Nat)
    (after : FreeArea) : Prop :=
  (page = none ↔ ∀ block ∈ blocks, block.size < n) ∧ (page = none → after = area) ∧
    ∀ start, page = some start → ∃ before block rest, blocks = before ++ block :: rest ∧ start = block.start ∧
      n ≤ block.size ∧ (∀ other ∈ blocks, n ≤ other.size → block.size ≤ other.size) ∧
        Represents managed after (before ++ (remainder n block ++ rest)) ∧ after.nrFree = area.nrFree - n

variable {managed : Nat → Prop} {area : FreeArea} {npage n : Nat} {blocks : List Span}

/-! ## The search -/

/-- The search finds a smallest block below the size where it starts, or nothing is smaller. -/
theorem bestOf_cases (n : Nat) (blocks : List Span) (smallest : Nat) (best : Option Span) :
    (bestOf n blocks smallest best = best ∧ ∀ block ∈ blocks, n ≤ block.size → smallest ≤ block.size) ∨
      ∃ block ∈ blocks, bestOf n blocks smallest best = some block ∧ n ≤ block.size ∧ block.size < smallest ∧
        ∀ other ∈ blocks, n ≤ other.size → block.size ≤ other.size := by
  induction blocks generalizing smallest best with
  | nil => exact Or.inl ⟨rfl, by simp⟩
  | cons head rest ih =>
    unfold bestOf
    split
    · rename_i smaller
      obtain ⟨fits, below⟩ := smaller
      rcases ih head.size (some head) with ⟨isHead, larger⟩ | ⟨block, member, isBlock, blockFits, less, minimal⟩
      · refine Or.inr ⟨head, List.mem_cons_self, isHead, fits, below, fun other member otherFits => ?_⟩
        rcases List.mem_cons.mp member with rfl | inRest
        · exact Nat.le_refl _
        · exact larger other inRest otherFits
      · refine Or.inr ⟨block, List.mem_cons_of_mem _ member, isBlock, blockFits, by omega, fun other isOther otherFits => ?_⟩
        rcases List.mem_cons.mp isOther with rfl | inRest
        · exact Nat.le_of_lt less
        · exact minimal other inRest otherFits
    · rename_i notSmaller
      rcases ih smallest best with ⟨isBest, larger⟩ | ⟨block, member, isBlock, blockFits, less, minimal⟩
      · refine Or.inl ⟨isBest, fun other member otherFits => ?_⟩
        rcases List.mem_cons.mp member with rfl | inRest
        · omega
        · exact larger other inRest otherFits
      · refine Or.inr ⟨block, List.mem_cons_of_mem _ member, isBlock, blockFits, less, fun other isOther otherFits => ?_⟩
        rcases List.mem_cons.mp isOther with rfl | inRest
        · omega
        · exact minimal other inRest otherFits

/-- The loop follows the list, with `before` behind it. -/
theorem bestLoop_exact (before after : List Span) (fuel smallest : Nat) (best : Option Span)
    (ring : Ring area.links .head (entries (before ++ after)))
    (stored : ∀ block ∈ after, (area.pages block.start).property = block.size) (enough : after.length < fuel) :
    bestLoop n area fuel ((entries before).getLastD .head) smallest (best.map Span.start) =
      some ((bestOf n after smallest best).map Span.start) := by
  induction after generalizing before fuel smallest best with
  | nil =>
    obtain ⟨fuel, rfl⟩ := Nat.exists_eq_succ_of_ne_zero (by omega : fuel ≠ 0)
    have atEnd : listNext area.links ((entries before).getLastD .head) = .head := by
      rw [entries_append] at ring
      exact ring.next_front
    simp only [bestLoop, atEnd, bestOf]
  | cons block rest ih =>
    obtain ⟨fuel, rfl⟩ := Nat.exists_eq_succ_of_ne_zero (by omega : fuel ≠ 0)
    have next : listNext area.links ((entries before).getLastD .head) = .link block.start := by
      rw [entries_append] at ring
      exact ring.next_front
    have size := stored block List.mem_cons_self
    have position : (entries (before ++ [block])).getLastD .head = .link block.start := by
      rw [entries_append]
      exact List.getLastD_concat ..
    have further := fun smallest best => ih (before ++ [block]) fuel smallest best (by simpa using ring)
      (fun later member => stored later (List.mem_cons_of_mem _ member))
      (by simp only [List.length_cons] at enough; omega)
    rw [position] at further
    simp only [bestLoop, next, size, bestOf]
    split
    · exact further block.size (some block)
    · exact further smallest best

/-! ## The allocation -/

/-- The call returns; a list too short for a request has no block that is large enough. -/
theorem bestFitAllocPages_exact (rep : Represents managed area blocks) (positive : 0 < n) (short : blocks.length ≤ npage) :
    (area.nrFree < n ∧ (∀ block ∈ blocks, block.size < n) ∧ bestFitAllocPages npage n area = some (none, area)) ∨
      bestFitAllocPages npage n area = some (match bestOf n blocks minProperty none with
        | none => (none, area)
        | some block => (some block.start, takePages n block.start area)) := by
  have nonzero : n ≠ 0 := by omega
  by_cases scarce : area.nrFree < n
  · refine Or.inl ⟨scarce, fun block member => ?_, ?_⟩
    · have part : block.size ≤ total blocks := size_le_total member
      have counted := rep.counted
      omega
    · rw [bestFitAllocPages, if_neg nonzero, if_pos scarce]
  · right
    have searched := @bestLoop_exact area n [] blocks (npage + 1) minProperty none rep.ring rep.stored (by omega)
    simp only [entries_nil, List.getLastD_nil, Option.map_none] at searched
    rw [bestFitAllocPages, if_neg nonzero, if_neg scarce, searched]
    cases bestOf n blocks minProperty none with
    | none => rfl
    | some block => rfl

theorem takePages_nrFree (n page : Nat) (area : FreeArea) : (takePages n page area).nrFree = area.nrFree - n := by
  unfold takePages
  simp only
  split
  · rfl
  · rfl

/-- `best_fit_alloc_pages` returns, and takes the best block if and only if no block is large
enough or one of them is below the size where the search starts. -/
theorem best_fit_exact (managed : Nat → Prop) (area : FreeArea) (npage n : Nat) (blocks : List Span)
    (rep : Represents managed area blocks) (ordered : Ordered blocks) (positive : 0 < n) (short : blocks.length ≤ npage) :
    ∃ page after, bestFitAllocPages npage n area = some (page, after) ∧
      (BestFit managed n blocks area page after ↔
        (∀ block ∈ blocks, block.size < n) ∨ ∃ block ∈ blocks, n ≤ block.size ∧ block.size < minProperty) := by
  rcases @bestFitAllocPages_exact managed area npage n blocks rep positive short with ⟨_, none, called⟩ | called
  · refine ⟨_, _, called, fun _ => Or.inl none, fun _ => ⟨⟨fun _ => none, fun _ => rfl⟩, fun _ => rfl, ?_⟩⟩
    rintro start ⟨⟩
  rcases bestOf_cases n blocks minProperty none with ⟨isNone, larger⟩ | ⟨block, member, isBlock, fits, below, minimal⟩
  · rw [isNone] at called
    refine ⟨_, _, called, fun best => Or.inl (best.1.mp rfl), fun condition => ⟨⟨fun _ => ?_, fun _ => rfl⟩, fun _ => rfl, ?_⟩⟩
    · rcases condition with none | ⟨block, member, fits, below⟩
      · exact none
      · have reaches := larger block member fits
        omega
    · rintro start ⟨⟩
  · rw [isBlock] at called
    refine ⟨_, _, called, fun _ => Or.inr ⟨block, member, fits, below⟩, fun _ => ⟨⟨?_, fun none => ?_⟩, ?_, ?_⟩⟩
    · rintro ⟨⟩
    · have less := none block member
      omega
    · rintro ⟨⟩
    · rintro start ⟨⟩
      obtain ⟨before, rest, rfl⟩ := List.append_of_mem member
      exact ⟨before, block, rest, rfl, rfl, fits, minimal, takePages_represents rep ordered positive fits,
        takePages_nrFree n block.start area⟩

/-! ## One block -/

/-- A free list of one block at the first page. -/
def oneBlock (size : Nat) : FreeArea where
  pages := fun page => { ref := 0, flags := if page = 0 then 2#64 else 0#64, property := if page = 0 then size else 0 }
  links := {
    prev := fun entry => if entry = .head then .link 0 else .head
    next := fun entry => if entry = .head then .link 0 else .head }
  nrFree := size

theorem oneBlock_represents (size : Nat) : Represents (fun _ => True) (oneBlock size) [⟨0, size⟩] where
  ring := by
    refine ⟨by simp, ?_⟩
    simp [oneBlock, Adjacent]
  stored := by
    intro block member
    rw [List.mem_singleton.mp member]
    rfl
  counted := by
    simp [oneBlock]
  heads := by
    intro page _
    by_cases first : page = 0
    · subst first
      simp [oneBlock, pageProperty, testBit_eq, pgProperty]
    · simp [oneBlock, pageProperty, testBit_eq, pgProperty, first]
  usable := by
    intro page _
    by_cases first : page = 0
    · subst first
      simp [oneBlock, pageReserved, testBit_eq, pgReserved]
    · simp [oneBlock, pageReserved, testBit_eq, pgReserved, first]

theorem oneBlock_ordered {size : Nat} (positive : 0 < size) : Ordered [(⟨0, size⟩ : Span)] :=
  ordered_cons.mpr ⟨positive, by simp, ordered_nil⟩

/-- A block of four pages gives one. -/
theorem best_fit_exact_four : ∃ page after, bestFitAllocPages 1 1 (oneBlock 4) = some (page, after) ∧
    BestFit (fun _ => True) 1 [⟨0, 4⟩] (oneBlock 4) page after := by
  obtain ⟨page, after, called, right⟩ := best_fit_exact (fun _ => True) (oneBlock 4) 1 1 [⟨0, 4⟩] (oneBlock_represents 4)
    (oneBlock_ordered (by decide)) (by decide) (by decide)
  exact ⟨page, after, called, right.mpr (Or.inr ⟨⟨0, 4⟩, List.mem_cons_self, by decide, by decide⟩)⟩

/-- A block of a million pages is not found for one page. -/
theorem large_block_missed : ∃ after, bestFitAllocPages 1 1 (oneBlock 1000000) = some (none, after) ∧
    Represents (fun _ => True) (oneBlock 1000000) [⟨0, 1000000⟩] ∧ Ordered [(⟨0, 1000000⟩ : Span)] ∧
      ¬ BestFit (fun _ => True) 1 [⟨0, 1000000⟩] (oneBlock 1000000) none after := by
  refine ⟨oneBlock 1000000, by rfl, oneBlock_represents _, oneBlock_ordered (by decide), fun best => ?_⟩
  have small := best.1.mp rfl ⟨0, 1000000⟩ List.mem_cons_self
  exact absurd small (by decide)

end Ucore.DefaultPmm
