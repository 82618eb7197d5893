import Mathlib.Data.List.ProdSigma
import Nekonix.Library.Loop.Counter

/-!
# Loops that may return

A loop over a list whose turns may return from the function around it, with an error.
Nested, such loops are one loop over the pairs.
-/

namespace Loop

universe u v w x

variable {State : Type u} {Error : Type v} {Item : Type w} {Other : Type x}
  {turn : State → Item → Except Error State} {items : List Item} {state final : State}

/-- If no turn returns, the loop does all of them. -/
theorem foldlM_eq_ok {step : State → Item → State}
    (goesOn : ∀ state, ∀ item ∈ items, turn state item = .ok (step state item)) :
    items.foldlM turn state = .ok (items.foldl step state) := by
  induction items generalizing state with
  | nil => rfl
  | cons item items inductionHypothesis =>
      rw [List.foldlM_cons, goesOn state item List.mem_cons_self, List.foldl_cons]
      exact inductionHypothesis fun state other otherIn =>
        goesOn state other (List.mem_cons_of_mem _ otherIn)

/-- If the loop comes to its end, each turn went on. -/
theorem turn_eq_ok_of_foldlM (ended : items.foldlM turn state = .ok final) {item : Item}
    (itemIn : item ∈ items) : ∃ before after, turn before item = .ok after := by
  induction items generalizing state with
  | nil => cases itemIn
  | cons first items inductionHypothesis =>
      rw [List.foldlM_cons] at ended
      cases taken : turn state first with
      | error error =>
          rw [taken] at ended
          cases ended
      | ok next =>
          rw [taken] at ended
          rcases List.mem_cons.mp itemIn with rfl | inRest
          · exact ⟨state, next, taken⟩
          · exact inductionHypothesis ended inRest

/-- If the loop returns, it does so in one of its turns. -/
theorem turn_eq_error_of_foldlM {error : Error}
    (returned : items.foldlM turn state = .error error) :
    ∃ before, ∃ item ∈ items, turn before item = .error error := by
  induction items generalizing state with
  | nil => cases returned
  | cons first items inductionHypothesis =>
      rw [List.foldlM_cons] at returned
      cases taken : turn state first with
      | error failure =>
          rw [taken] at returned
          cases returned
          exact ⟨state, first, List.mem_cons_self, taken⟩
      | ok next =>
          rw [taken] at returned
          obtain ⟨before, item, itemIn, turned⟩ := inductionHypothesis returned
          exact ⟨before, item, List.mem_cons_of_mem _ itemIn, turned⟩

/-- Two nested loops are a loop over the pairs. -/
theorem foldlM_product {others : List Other} (turn : State → Item × Other → Except Error State) :
    items.foldlM (fun state item =>
        others.foldlM (fun state other => turn state (item, other)) state) state =
      (items ×ˢ others).foldlM turn state := by
  induction items generalizing state with
  | nil => rfl
  | cons item items inductionHypothesis =>
      rw [List.foldlM_cons, List.product_cons, List.foldlM_append, List.foldlM_map]
      congr 1
      funext state
      exact inductionHypothesis

/-! The counters from 0 up to a bound -/

variable {width : Nat} {bound i : BitVec width}

theorem mem_upwards_one :
    i ∈ upwards (BitVec.ofNat width 1) (BitVec.ofNat width 0) bound.toNat ↔ i < bound := by
  rw [BitVec.lt_def]
  constructor
  · intro membership
    obtain ⟨turn, inRange, rfl⟩ := List.mem_map.mp membership
    have less := List.mem_range.mp inRange
    have small := bound.isLt
    rw [BitVec.mul_one, BitVec.zero_add, BitVec.toNat_ofNat]
    exact (Nat.mod_le _ _).trans_lt less
  · intro less
    refine List.mem_map.mpr ⟨i.toNat, List.mem_range.mpr less, ?_⟩
    rw [BitVec.mul_one, BitVec.zero_add, BitVec.ofNat_toNat, BitVec.setWidth_eq]

theorem nodup_upwards_one :
    (upwards (BitVec.ofNat width 1) (BitVec.ofNat width 0) bound.toNat).Nodup := by
  refine List.Nodup.map_on ?_ List.nodup_range
  intro first firstIn second secondIn same
  have firstLess := List.mem_range.mp firstIn
  have secondLess := List.mem_range.mp secondIn
  have small := bound.isLt
  rw [BitVec.mul_one, BitVec.zero_add, BitVec.mul_one, BitVec.zero_add] at same
  have numbers := congrArg BitVec.toNat same
  rw [BitVec.toNat_ofNat, BitVec.toNat_ofNat, Nat.mod_eq_of_lt (by omega),
    Nat.mod_eq_of_lt (by omega)] at numbers
  exact numbers

end Loop
