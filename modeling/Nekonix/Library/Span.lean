import Nekonix.Library.FlatMemory

/-!
# Spans of memory

What one access reads or writes, and when it lies in a buffer.
-/

namespace FlatMemory

/-- The bytes of one access. -/
structure Span where
  start : BitVec 64
  count : Nat
deriving DecidableEq

/-- Every byte lies in the `size` bytes at `data`. -/
def Span.Within (span : Span) (data : BitVec 64) (size : Nat) : Prop :=
  ∀ position < span.count, InRange data size (span.start + BitVec.ofNat 64 position)

/-- A buffer shorter than the address space has no byte past its end, nor around it. -/
theorem Span.within_iff {data offset : BitVec 64} {count size : Nat} (small : size < 2 ^ 64) :
    (Span.mk (data + offset) count).Within data size ↔ count = 0 ∨ offset.toNat + count ≤ size := by
  have distance : ∀ position, offset.toNat + position < 2 ^ 64 →
      (data + offset + BitVec.ofNat 64 position - data).toNat = offset.toNat + position := by
    intro position below
    have small : position < 2 ^ 64 := by omega
    have isOffset : data + offset + BitVec.ofNat 64 position - data =
        offset + BitVec.ofNat 64 position := by
      rw [BitVec.add_assoc, BitVec.add_comm, BitVec.add_sub_cancel]
    rw [isOffset, BitVec.toNat_add, BitVec.toNat_ofNat, Nat.mod_eq_of_lt small,
      Nat.mod_eq_of_lt below]
  have bound := offset.isLt
  constructor
  · intro within
    by_contra outside
    rw [not_or, Nat.not_le] at outside
    by_cases start : offset.toNat < size
    · -- the first byte past the end
      have past := within (size - offset.toNat) (by dsimp only; omega)
      rw [InRange, distance _ (by omega)] at past
      omega
    · have first := within 0 (by dsimp only; omega)
      rw [InRange, distance _ (by omega)] at first
      omega
  · rintro (none | below) position inside
    · dsimp only at inside
      omega
    · dsimp only at inside
      rw [InRange, distance _ (by omega)]
      omega

end FlatMemory
