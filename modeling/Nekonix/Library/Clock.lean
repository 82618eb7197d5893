import Mathlib.Logic.Function.Iterate

/-!
# Clocks

A clock by what it shows and in which order: each tick leads to the next thing it can
show.  Between two moments it shows exactly what lies between the two.
-/

namespace Clock

universe u

variable {Shown : Type u}

/-- `tick` leads from each valid state to the next one in the order of the ranks. -/
structure Ordered (tick : Shown → Shown) (Valid : Shown → Prop) (rank : Shown → Nat) : Prop where
  valid : ∀ state, Valid state → Valid (tick state)
  later : ∀ state, Valid state → rank state < rank (tick state)
  next : ∀ state other, Valid state → Valid other → rank state < rank other →
    rank (tick state) ≤ rank other
  injective : ∀ state other, Valid state → Valid other → rank state = rank other → state = other

namespace Ordered

variable {tick : Shown → Shown} {Valid : Shown → Prop} {rank : Shown → Nat} {start state : Shown}
  {count more : Nat}

theorem iterate_valid (ordered : Ordered tick Valid rank) (valid : Valid start) (count : Nat) :
    Valid (tick^[count] start) := by
  induction count with
  | zero => exact valid
  | succ count inductionHypothesis =>
      rw [Function.iterate_succ_apply']
      exact ordered.valid _ inductionHypothesis

theorem rank_mono (ordered : Ordered tick Valid rank) (valid : Valid start)
    (atLeast : count ≤ more) : rank (tick^[count] start) ≤ rank (tick^[more] start) := by
  induction atLeast with
  | refl => exact Nat.le_refl _
  | @step more _ inductionHypothesis =>
      rw [Function.iterate_succ_apply']
      exact Nat.le_trans inductionHypothesis
        (Nat.le_of_lt (ordered.later _ (ordered.iterate_valid valid more)))

/-- What the clock shows within `count` ticks. -/
theorem shown_iff (ordered : Ordered tick Valid rank) (valid : Valid start) :
    (∃ earlier ≤ count, tick^[earlier] start = state) ↔
      Valid state ∧ rank start ≤ rank state ∧ rank state ≤ rank (tick^[count] start) := by
  constructor
  · rintro ⟨earlier, within, rfl⟩
    exact ⟨ordered.iterate_valid valid earlier, ordered.rank_mono valid (Nat.zero_le _),
      ordered.rank_mono valid within⟩
  · rintro ⟨stateValid, fromStart, toEnd⟩
    induction count with
    | zero =>
        exact ⟨0, Nat.le_refl _,
          ordered.injective _ _ valid stateValid (Nat.le_antisymm fromStart toEnd)⟩
    | succ count inductionHypothesis =>
        by_cases earlier : rank state ≤ rank (tick^[count] start)
        · obtain ⟨moment, within, shown⟩ := inductionHypothesis earlier
          exact ⟨moment, Nat.le_succ_of_le within, shown⟩
        · -- the last tick leads no further than to the state
          have before := ordered.iterate_valid valid count
          refine ⟨count + 1, Nat.le_refl _, ?_⟩
          refine ordered.injective _ _ (ordered.iterate_valid valid _) stateValid ?_
          rw [Function.iterate_succ_apply'] at toEnd ⊢
          exact Nat.le_antisymm (ordered.next _ _ before stateValid (Nat.lt_of_not_le earlier)) toEnd

end Ordered

end Clock
