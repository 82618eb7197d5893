import Nekonix.Library.FlatMemory

/-!
# Stacks of words

A stack of 64-bit words that grows down in flat memory, as a list from its top word on.
-/

namespace WordStack

open FlatMemory

variable {memory : Memory} {top : BitVec 64} {words : List (BitVec 64)}

/-- The words lie one after the other from `top` on. -/
def Holds (memory : Memory) : (top : BitVec 64) → (words : List (BitVec 64)) → Prop
  | _, [] => True
  | top, word :: words => load memory 8 top = word ∧ Holds memory (top + 8#64) words

@[simp]
theorem holds_nil : Holds memory top [] := trivial

@[simp]
theorem holds_cons {word : BitVec 64} : Holds memory top (word :: words) ↔
    load memory 8 top = word ∧ Holds memory (top + 8#64) words :=
  Iff.rfl

theorem next_word (top : BitVec 64) (index : Nat) :
    top + 8#64 + BitVec.ofNat 64 (8 * index) = top + BitVec.ofNat 64 (8 * (index + 1)) := by
  rw [BitVec.add_assoc, ← BitVec.ofNat_add, Nat.add_comm 8, Nat.mul_succ]

/-- A stack is known by its words, each at eight times its index. -/
theorem holds_iff : Holds memory top words ↔ ∀ index (bound : index < words.length),
    load memory 8 (top + BitVec.ofNat 64 (8 * index)) = words[index] := by
  induction words generalizing top with
  | nil => simp
  | cons word words inductionHypothesis =>
      rw [holds_cons, inductionHypothesis]
      constructor
      · rintro ⟨atTop, above⟩ index bound
        cases index with
        | zero => simpa using atTop
        | succ index => simpa [next_word] using above index (Nat.lt_of_succ_lt_succ bound)
      · intro all
        refine ⟨by simpa using all 0 (Nat.zero_lt_succ _), fun index bound => ?_⟩
        simpa [next_word] using all (index + 1) (Nat.succ_lt_succ bound)

/-- The upper part of a stack. -/
theorem Holds.left {rest : List (BitVec 64)} (holds : Holds memory top (words ++ rest)) :
    Holds memory top words := by
  refine holds_iff.mpr fun index bound => ?_
  have inBoth : index < (words ++ rest).length := by
    rw [List.length_append]
    exact Nat.lt_add_right _ bound
  rw [holds_iff.mp holds index inBoth, List.getElem_append_left bound]

/-- A word is pushed below the stack. -/
theorem Holds.push (holds : Holds memory top words) (word : BitVec 64)
    (small : 8 * (words.length + 1) ≤ 2 ^ 64) :
    Holds (store memory 8 (top - 8#64) word) (top - 8#64) (word :: words) := by
  have back : top - 8#64 + 8#64 = top := BitVec.sub_add_cancel top 8#64
  refine ⟨@load_store_same memory 8 (top - 8#64) word (by decide), ?_⟩
  rw [back]
  refine holds_iff.mpr fun index bound => ?_
  have separate : Separate (top + BitVec.ofNat 64 (8 * index)) 8 (top - 8#64) 8 := by
    intro address inside inPushed
    have below : 8 * index + 16 ≤ 2 ^ 64 := by omega
    unfold InRange at inside inPushed
    bv_omega
  rw [load_store_separate separate (by decide), holds_iff.mp holds index bound]

end WordStack
