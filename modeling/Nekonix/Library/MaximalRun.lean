import Mathlib.Data.List.Basic
import Mathlib.Tactic.Common

/-!
# Maximal runs of a list

The longest stretches of a list without an element at which a run stops.
-/

universe u

/-- The `length` elements from `start` on are a run that cannot be made longer. -/
structure MaximalRun {α : Type u} (stops : α → Prop) (list : List α) (start length : Nat) :
    Prop where
  nonempty : 0 < length
  free : ∀ position, start ≤ position → position < start + length →
    ∃ a, list[position]? = some a ∧ ¬stops a
  begins : ∀ position a, position + 1 = start → list[position]? = some a → stops a
  ends : ∀ a, list[start + length]? = some a → stops a

namespace MaximalRun

variable {α : Type u} {stops : α → Prop} {list gap run rest : List α} {start length : Nat}

theorem inside (maximal : MaximalRun stops list start length) : start + length ≤ list.length := by
  have positive := maximal.nonempty
  obtain ⟨a, isLast, -⟩ := maximal.free (start + length - 1) (by omega) (by omega)
  have bound := (List.getElem?_eq_some_iff.mp isLast).1
  omega

/-- Where every element stops a run there is none. -/
theorem not_of_stops (allStop : ∀ a ∈ list, stops a) : ¬MaximalRun stops list start length := by
  intro maximal
  obtain ⟨a, isFirst, keeps⟩ :=
    maximal.free start (Nat.le_refl _) (Nat.lt_add_of_pos_right maximal.nonempty)
  exact keeps (allStop a (List.mem_of_getElem? isFirst))

theorem getElem?_run {position : Nat} (inRun : position < run.length) :
    (gap ++ (run ++ rest))[gap.length + position]? = some run[position] := by
  rw [List.getElem?_append_right (Nat.le_add_right _ _), Nat.add_sub_cancel_left,
    List.getElem?_append_left inRun, List.getElem?_eq_getElem inRun]

theorem getElem?_rest (position : Nat) :
    (gap ++ (run ++ rest))[gap.length + run.length + position]? = rest[position]? := by
  rw [Nat.add_assoc, List.getElem?_append_right (Nat.le_add_right _ _), Nat.add_sub_cancel_left,
    List.getElem?_append_right (Nat.le_add_right _ _), Nat.add_sub_cancel_left]

theorem getElem?_tail (position : Nat) :
    (gap ++ (run ++ rest))[gap.length + run.length + 1 + position]? = rest.tail[position]? := by
  rw [Nat.add_assoc _ 1, getElem?_rest, List.getElem?_tail, Nat.add_comm 1]

/-- Behind the first run and the element that stops it the runs are those of the rest. -/
theorem behind (restStops : ∀ a ∈ rest.head?, stops a)
    (maximal : MaximalRun stops rest.tail start length) :
    MaximalRun stops (gap ++ (run ++ rest)) (gap.length + run.length + 1 + start) length where
  nonempty := maximal.nonempty
  free := by
    intro position atLeast below
    obtain ⟨offset, rfl⟩ := Nat.exists_eq_add_of_le atLeast
    obtain ⟨a, isElement, keeps⟩ :=
      maximal.free (start + offset) (Nat.le_add_right _ _) (by omega)
    rw [Nat.add_assoc _ start, getElem?_tail]
    exact ⟨a, isElement, keeps⟩
  begins := by
    intro position a before isElement
    cases start with
    | zero =>
        have atRest := @getElem?_rest α gap run rest 0
        obtain rfl : position = gap.length + run.length + 0 := by omega
        rw [isElement, ← List.head?_eq_getElem?] at atRest
        exact restStops a atRest.symm
    | succ start =>
        obtain rfl : position = gap.length + run.length + 1 + start := by omega
        rw [getElem?_tail] at isElement
        exact maximal.begins start a rfl isElement
  ends := by
    intro a isElement
    rw [Nat.add_assoc _ start, getElem?_tail] at isElement
    exact maximal.ends a isElement

section

variable (gapStops : ∀ a ∈ gap, stops a) (runKeeps : ∀ a ∈ run, ¬stops a)
  (restStops : ∀ a ∈ rest.head?, stops a)

include gapStops runKeeps restStops

/-- The first run is maximal. -/
theorem first (nonempty : run ≠ []) :
    MaximalRun stops (gap ++ (run ++ rest)) gap.length run.length where
  nonempty := List.length_pos_iff.mpr nonempty
  free := by
    intro position atLeast below
    obtain ⟨offset, rfl⟩ := Nat.exists_eq_add_of_le atLeast
    have inRun : offset < run.length := Nat.lt_of_add_lt_add_left below
    exact ⟨run[offset], getElem?_run inRun, runKeeps _ (List.getElem_mem inRun)⟩
  begins := by
    intro position a before isElement
    rw [List.getElem?_append_left (by omega)] at isElement
    exact gapStops a (List.mem_of_getElem? isElement)
  ends := by
    intro a isElement
    have atRest := @getElem?_rest α gap run rest 0
    rw [Nat.add_zero, isElement, ← List.head?_eq_getElem?] at atRest
    exact restStops a atRest.symm

/-- There are no other runs. -/
theorem first_or_behind (maximal : MaximalRun stops (gap ++ (run ++ rest)) start length) :
    (start = gap.length ∧ length = run.length) ∨
      ∃ later, start = gap.length + run.length + 1 + later ∧
        MaximalRun stops rest.tail later length := by
  have positive := maximal.nonempty
  have noStop : ∀ a ∈ rest.head?, ¬(start ≤ gap.length + run.length ∧
      gap.length + run.length < start + length) := by
    rintro a isHead ⟨atLeast, below⟩
    obtain ⟨b, isElement, keeps⟩ := maximal.free _ atLeast below
    have atRest := @getElem?_rest α gap run rest 0
    rw [Nat.add_zero, isElement, ← List.head?_eq_getElem?] at atRest
    exact keeps (restStops b atRest.symm)
  have noEnd : rest.head? = none → start + length ≤ gap.length + run.length := by
    intro isEnd
    have noRest : rest = [] := List.head?_eq_none_iff.mp isEnd
    have bound := maximal.inside
    rw [noRest, List.append_nil, List.length_append] at bound
    exact bound
  rcases Nat.lt_or_ge start gap.length with inGap | afterGap
  · -- an element of the gap stops every run
    obtain ⟨a, isElement, keeps⟩ := maximal.free start (Nat.le_refl _) (by omega)
    rw [List.getElem?_append_left inGap] at isElement
    exact absurd (gapStops a (List.mem_of_getElem? isElement)) keeps
  obtain ⟨offset, rfl⟩ := Nat.exists_eq_add_of_le afterGap
  rcases Nat.lt_or_ge offset run.length with inRun | afterRun
  · left
    obtain rfl : offset = 0 := by
      by_contra inside
      obtain ⟨before, rfl⟩ := Nat.exists_eq_succ_of_ne_zero inside
      have inRun : before < run.length := by omega
      exact runKeeps _ (List.getElem_mem inRun)
        (maximal.begins (gap.length + before) run[before] rfl (getElem?_run inRun))
    refine ⟨rfl, ?_⟩
    rcases Nat.lt_trichotomy length run.length with shorter | same | longer
    · exact absurd (maximal.ends run[length] (getElem?_run shorter))
        (runKeeps _ (List.getElem_mem shorter))
    · exact same
    · cases isHead : rest.head? with
      | none =>
          have bound := noEnd isHead
          omega
      | some a => exact absurd ⟨by omega, by omega⟩ (noStop a isHead)
  · right
    have notStop : offset ≠ run.length := by
      rintro rfl
      cases isHead : rest.head? with
      | none =>
          have bound := noEnd isHead
          omega
      | some a => exact noStop a isHead ⟨(Nat.le_refl _), by omega⟩
    obtain ⟨later, rfl⟩ := Nat.exists_eq_add_of_le (Nat.lt_of_le_of_ne afterRun notStop.symm)
    have position : ∀ further, gap.length + (run.length.succ + later) + further =
        gap.length + run.length + 1 + (later + further) := by
      intro further
      omega
    refine ⟨later, by omega, positive, ?_, ?_, ?_⟩
    · intro place atLeast below
      obtain ⟨further, rfl⟩ := Nat.exists_eq_add_of_le atLeast
      have found := maximal.free (gap.length + (run.length.succ + later) + further) (by omega)
        (by omega)
      rwa [position, getElem?_tail] at found
    · rintro place a rfl isElement
      refine maximal.begins (gap.length + run.length + 1 + place) a (by omega) ?_
      rw [getElem?_tail]
      exact isElement
    · intro a isElement
      refine maximal.ends a ?_
      rw [position, getElem?_tail]
      exact isElement

end

end MaximalRun
