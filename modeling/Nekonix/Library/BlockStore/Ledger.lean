import Nekonix.Library.BlockStore
import Nekonix.Library.HeapLedger

/-!
# The log of a store of blocks

A store of blocks is an honest heap: what it gives out is not in use, and it knows which blocks
are live.
-/

namespace BlockStore

open Transition HeapLedger

universe u v

variable {Ptr : Type u} {Byte : Type v}

namespace Action

/-- The call of the heap; a write is none. -/
def call : Action Ptr Byte → Option (Call Ptr)
  | .alloc _ result => some (.alloc result)
  | .zeroed _ result => some (.alloc result)
  | .resize ptr _ result => some (.realloc ptr result)
  | .free ptr => some (.free ptr)
  | .write _ _ _ => none

/-- The pointer that is given out. -/
def given : Action Ptr Byte → Option Ptr
  | .alloc _ result => some result
  | .zeroed _ result => some result
  | .resize _ _ result => some result
  | .free _ => none
  | .write _ _ _ => none

end Action

/-- The pointers of the blocks that are out. -/
def out (store : Store Ptr Byte) : Set Ptr := {ptr | store ptr ≠ none}

variable {null ptr : Ptr} {zero : Byte} {store start finish : Store Ptr Byte}
  {action : Action Ptr Byte} {actions : List (Action Ptr Byte)} {contents : List Byte}
  {excluded : Ptr → Prop}

theorem mem_out : ptr ∈ out store ↔ store ptr ≠ none := Iff.rfl

theorem out_held (held : store ptr = some contents) : ptr ∈ out store := by
  simp [mem_out, held]

theorem not_out (fresh : Fresh null store ptr) : ptr ∉ out store := fun isOut => isOut fresh.2

variable [DecidableEq Ptr]

theorem out_put : out (put store ptr (some contents)) = insert ptr (out store) := by
  ext other
  by_cases here : other = ptr
  · simp [mem_out, here]
  · simp [mem_out, put_other here, here]

theorem out_remove : out (put store ptr none) = out store \ {ptr} := by
  ext other
  by_cases here : other = ptr
  · simp [mem_out, here]
  · simp [mem_out, put_other here, here]

/-- What a step gives out is out after it. -/
theorem Step.given_out (step : Step null zero store action finish) (given : action.given = some ptr)
    (nonnull : ptr ≠ null) : ptr ∈ out finish := by
  cases step with
  | refused => exact absurd (Option.some.inj given).symm nonnull
  | alloc _ _ =>
      obtain rfl := Option.some.inj given
      rw [out_put]
      exact Set.mem_insert _ _
  | zeroed _ =>
      obtain rfl := Option.some.inj given
      rw [out_put]
      exact Set.mem_insert _ _
  | shrink _ _ =>
      obtain rfl := Option.some.inj given
      rw [out_put]
      exact Set.mem_insert _ _
  | move _ _ _ =>
      obtain rfl := Option.some.inj given
      rw [out_put]
      exact Set.mem_insert _ _
  | free _ => cases given
  | write _ _ => cases given

/-- One step is an honest call or none, and the live blocks are those that are out. -/
theorem Step.honest (step : Step null zero store action finish) (nonnull : null ∉ out store)
    (allowed : ∀ ptr, action.given = some ptr → ptr ≠ null → ¬excluded ptr) :
    Honest null excluded (out store) action.call.toList ∧
      blocks null (out store) action.call.toList = out finish := by
  cases step with
  | refused => exact ⟨⟨Or.inl rfl, trivial⟩, if_pos rfl⟩
  | alloc fresh _ =>
      refine ⟨⟨Or.inr ⟨not_out fresh, allowed _ rfl fresh.1⟩, trivial⟩, ?_⟩
      rw [out_put]
      exact if_neg fresh.1
  | zeroed fresh =>
      refine ⟨⟨Or.inr ⟨not_out fresh, allowed _ rfl fresh.1⟩, trivial⟩, ?_⟩
      rw [out_put]
      exact if_neg fresh.1
  | @shrink ptr _ _ held _ =>
      have isOut := out_held held
      have notNull : ptr ≠ null := by
        rintro rfl
        exact nonnull isOut
      refine ⟨⟨Or.inr ⟨fun kept => kept.2 rfl, allowed _ rfl notNull⟩, trivial⟩, ?_⟩
      rw [out_put, Set.insert_eq_of_mem isOut]
      have stays : insert ptr (out store \ {ptr}) = out store := by
        rw [Set.insert_sdiff_singleton, Set.insert_eq_of_mem isOut]
      exact (if_neg notNull).trans stays
  | move _ fresh _ =>
      refine ⟨⟨Or.inr ⟨fun kept => not_out fresh kept.1, allowed _ rfl fresh.1⟩, trivial⟩, ?_⟩
      rw [out_put, out_remove]
      exact if_neg fresh.1
  | free _ => exact ⟨⟨trivial, trivial⟩, out_remove.symm⟩
  | @write ptr _ _ _ held _ =>
      refine ⟨trivial, ?_⟩
      rw [out_put, Set.insert_eq_of_mem (out_held held)]
      rfl

/-- No step gives out `null`. -/
theorem Step.null_not_out (step : Step null zero store action finish) (nonnull : null ∉ out store) :
    null ∉ out finish := by
  have kept : ∀ {ptr contents}, ptr ≠ null → null ∉ out (put store ptr (some contents)) := by
    intro ptr contents different
    rw [out_put]
    exact fun isOut => (Set.mem_insert_iff.mp isOut).elim (fun same => different same.symm) nonnull
  have heldNonnull : ∀ {ptr contents}, store ptr = some contents → ptr ≠ null := by
    rintro ptr contents held rfl
    exact nonnull (out_held held)
  cases step with
  | refused => exact nonnull
  | alloc fresh _ => exact kept fresh.1
  | zeroed fresh => exact kept fresh.1
  | shrink held _ => exact kept (heldNonnull held)
  | move _ fresh _ =>
      rw [out_put, out_remove]
      rintro (isResult | isOld)
      · exact fresh.1 isResult.symm
      · exact nonnull isOld.1
  | free _ =>
      rw [out_remove]
      exact fun isOut => nonnull isOut.1
  | write held _ => exact kept (heldNonnull held)

/-- The log of a run is honest, and the blocks that it leaves live are those that are out. -/
theorem run_honest (run : Run (Step null zero) start actions finish) (nonnull : null ∉ out start)
    (allowed : ∀ action ∈ actions, ∀ ptr, action.given = some ptr → ptr ≠ null → ¬excluded ptr) :
    Honest null excluded (out start) (actions.filterMap Action.call) ∧
      blocks null (out start) (actions.filterMap Action.call) = out finish ∧ null ∉ out finish := by
  induction run with
  | nil => exact ⟨trivial, rfl, nonnull⟩
  | @snoc earlier middle action finish _ step inductionHypothesis =>
      obtain ⟨honest, isOut, stillNonnull⟩ := inductionHypothesis fun action member =>
        allowed action (List.mem_append_left _ member)
      obtain ⟨honestStep, isFinish⟩ := step.honest stillNonnull
        (allowed action (List.mem_append_right _ (List.mem_singleton_self _)))
      have calls : (earlier ++ [action]).filterMap Action.call =
          earlier.filterMap Action.call ++ action.call.toList := by
        rw [List.filterMap_append]
        cases isCall : action.call <;> simp [isCall]
      rw [calls, blocks_append, isOut, isFinish]
      refine ⟨along_append.mpr ⟨honest, ?_⟩, rfl, step.null_not_out stillNonnull⟩
      rwa [isOut]

end BlockStore
