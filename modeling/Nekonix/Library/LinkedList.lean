import Mathlib.Data.FinEnum
import Mathlib.Data.Fintype.Card
import Mathlib.Data.List.Nodup

/-!
# Singly linked lists in a store of cells

A `next` function leads from cell to cell.  A segment lists the cells from a
first one up to a stop cell, such as the null pointer.  A segment is determined
by where it begins, has no cell twice, and changes only where a link of one of
its cells is rewritten.
-/

namespace LinkedList

universe u

variable {Cell : Type u}

/-- The cells from `start` on, up to `stop`. -/
def Segment (next : Cell → Cell) (stop : Cell) : Cell → List Cell → Prop
  | start, [] => start = stop
  | start, cell :: rest => start = cell ∧ cell ≠ stop ∧ Segment next stop (next cell) rest

variable {next other : Cell → Cell} {stop start : Cell} {list : List Cell}

@[simp]
theorem segment_nil : Segment next stop start [] ↔ start = stop := Iff.rfl

@[simp]
theorem segment_cons {cell : Cell} {rest : List Cell} :
    Segment next stop start (cell :: rest) ↔
      start = cell ∧ cell ≠ stop ∧ Segment next stop (next cell) rest := Iff.rfl

namespace Segment

/-- A list that begins at the stop cell is empty. -/
theorem eq_nil (segment : Segment next stop stop list) : list = [] := by
  cases list with
  | nil => rfl
  | cons cell rest => exact (segment.2.1 segment.1.symm).elim

/-- A list that is not empty begins where it is entered. -/
theorem start_mem (segment : Segment next stop start list) (nonempty : list ≠ []) :
    start ∈ list := by
  cases list with
  | nil => exact absurd rfl nonempty
  | cons cell rest => exact segment.1 ▸ List.mem_cons_self

theorem ne_stop (segment : Segment next stop start list) : ∀ cell ∈ list, cell ≠ stop := by
  induction list generalizing start with
  | nil => simp
  | cons first rest inductionHypothesis =>
      intro cell membership
      rcases List.mem_cons.mp membership with rfl | later
      · exact segment.2.1
      · exact inductionHypothesis segment.2.2 cell later

theorem unique {list' : List Cell} (segment : Segment next stop start list)
    (segment' : Segment next stop start list') : list = list' := by
  induction list generalizing start list' with
  | nil =>
      cases segment
      exact segment'.eq_nil.symm
  | cons first rest inductionHypothesis =>
      obtain ⟨rfl, notStop, further⟩ := segment
      cases list' with
      | nil => exact (notStop segment').elim
      | cons first' rest' =>
          obtain ⟨rfl, -, further'⟩ := segment'
          rw [inductionHypothesis further further']

/-- The segment from a cell in the middle. -/
theorem drop {before after : List Cell} {cell : Cell}
    (segment : Segment next stop start (before ++ cell :: after)) :
    Segment next stop cell (cell :: after) := by
  induction before generalizing start with
  | nil =>
      obtain ⟨rfl, notStop, further⟩ := segment
      exact ⟨rfl, notStop, further⟩
  | cons first rest inductionHypothesis => exact inductionHypothesis segment.2.2

/-- A cell in front of the last one leads to a cell. -/
theorem next_ne_stop {last : Cell} (segment : Segment next stop start (list ++ [last])) :
    ∀ cell ∈ list, next cell ≠ stop := by
  intro cell membership stops
  obtain ⟨before, after, rfl⟩ := List.append_of_mem membership
  rw [List.append_assoc, List.cons_append] at segment
  have further := segment.drop.2.2
  rw [stops] at further
  exact absurd further.eq_nil (by simp)

theorem nodup (segment : Segment next stop start list) : list.Nodup := by
  induction list generalizing start with
  | nil => exact List.nodup_nil
  | cons first rest inductionHypothesis =>
      refine List.nodup_cons.mpr ⟨?_, inductionHypothesis segment.2.2⟩
      intro again
      -- the list from the second occurrence would be the whole list
      obtain ⟨before, after, rfl⟩ := List.append_of_mem again
      have whole : Segment next stop first (first :: (before ++ first :: after)) :=
        ⟨rfl, segment.2.1, segment.2.2⟩
      have lengths := congrArg List.length (whole.unique segment.2.2.drop)
      simp at lengths
      omega

/-- Stores that agree on the links of the cells have the same segment. -/
theorem congr (segment : Segment next stop start list)
    (agree : ∀ cell ∈ list, other cell = next cell) : Segment other stop start list := by
  induction list generalizing start with
  | nil => exact segment
  | cons first rest inductionHypothesis =>
      obtain ⟨atFirst, notStop, further⟩ := segment
      refine ⟨atFirst, notStop, ?_⟩
      rw [agree first (List.mem_cons_self ..)]
      exact inductionHypothesis further fun cell later =>
        agree cell (List.mem_cons_of_mem _ later)

/-- A segment leads through its first part to the rest. -/
theorem append_iff {before after : List Cell} {cell : Cell} :
    Segment next stop start (before ++ cell :: after) ↔
      Segment next cell start before ∧ (∀ earlier ∈ before, earlier ≠ stop) ∧
        cell ∉ before ∧ cell ≠ stop ∧ Segment next stop (next cell) after := by
  induction before generalizing start with
  | nil => simp
  | cons first rest inductionHypothesis =>
      constructor
      · intro segment
        have nodup := segment.nodup
        obtain ⟨rfl, notStop, further⟩ := segment
        obtain ⟨front, apart, notIn, cellNotStop, back⟩ := inductionHypothesis.mp further
        have different : start ≠ cell := by
          rintro rfl
          exact (List.nodup_cons.mp nodup).1 (by simp)
        refine ⟨⟨rfl, different, front⟩, ?_, ?_, cellNotStop, back⟩
        · intro earlier membership
          rcases List.mem_cons.mp membership with rfl | later
          · exact notStop
          · exact apart earlier later
        · intro membership
          rcases List.mem_cons.mp membership with same | later
          · exact different same.symm
          · exact notIn later
      · rintro ⟨⟨rfl, -, front⟩, apart, notIn, cellNotStop, back⟩
        refine ⟨rfl, apart start (by simp), ?_⟩
        exact inductionHypothesis.mpr ⟨front,
          fun earlier later => apart earlier (List.mem_cons_of_mem _ later),
          fun later => notIn (List.mem_cons_of_mem _ later), cellNotStop, back⟩

/-- In a finite type the cells and the stop cell can be counted. -/
theorem length_lt [Fintype Cell] (segment : Segment next stop start list) :
    list.length < Fintype.card Cell := by
  have distinct : (stop :: list).Nodup := by
    refine List.nodup_cons.mpr ⟨?_, segment.nodup⟩
    exact fun membership => segment.ne_stop stop membership rfl
  exact distinct.length_le_card

/-- A list of machine words is not longer than a counter of their width can count. -/
theorem length_lt_width {width : Nat} {next : BitVec width → BitVec width}
    {stop start : BitVec width} {list : List (BitVec width)}
    (segment : Segment next stop start list) : list.length < 2 ^ width := by
  have bound := segment.length_lt
  rwa [← FinEnum.card_eq_fintypeCard, FinEnum.card_bitVec] at bound

/-- Linking a new cell behind another one. -/
theorem insert {before after : List Cell} {last cell : Cell}
    (segment : Segment next stop start (before ++ last :: after)) (notStop : cell ≠ stop)
    (leads : other cell = next last) (relinked : other last = cell)
    (agree : ∀ listed ∈ before ++ after, other listed = next listed) :
    Segment other stop start (before ++ last :: cell :: after) := by
  obtain ⟨front, apart, notIn, lastNotStop, back⟩ := append_iff.mp segment
  refine append_iff.mpr ⟨front.congr ?_, apart, notIn, lastNotStop, relinked, notStop, ?_⟩
  · exact fun listed membership => agree listed (List.mem_append_left _ membership)
  · rw [leads]
    exact back.congr fun listed membership => agree listed (List.mem_append_right _ membership)

/-- Linking past some cells. -/
theorem cut {before passed after : List Cell} {last : Cell}
    (segment : Segment next stop start (before ++ last :: (passed ++ after)))
    (relinked : Segment next stop (other last) after)
    (agree : ∀ listed ∈ before ++ after, other listed = next listed) :
    Segment other stop start (before ++ last :: after) := by
  obtain ⟨front, apart, notIn, lastNotStop, -⟩ := append_iff.mp segment
  refine append_iff.mpr ⟨front.congr ?_, apart, notIn, lastNotStop, relinked.congr ?_⟩
  · exact fun listed membership => agree listed (List.mem_append_left _ membership)
  · exact fun listed membership => agree listed (List.mem_append_right _ membership)

end Segment

end LinkedList
