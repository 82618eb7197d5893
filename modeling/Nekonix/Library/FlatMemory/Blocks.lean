import Nekonix.Library.FlatMemory

/-!
# Block copies in pieces

A block copy may be made word by word, or in two parts.
-/

namespace FlatMemory

variable {memory source : Memory} {base start address : BitVec 64}

theorem sub_add_ofNat (size : Nat) : address - (base + BitVec.ofNat 64 size) =
    address - base - BitVec.ofNat 64 size := by
  rw [BitVec.sub_sub]

/-- A range is its first bytes and those behind. -/
theorem inRange_append {size further : Nat} (short : size + further ≤ 2 ^ 64) :
    InRange base (size + further) address ↔
      InRange base size address ∨ InRange (base + BitVec.ofNat 64 size) further address := by
  unfold InRange
  rw [sub_add_ofNat]
  generalize address - base = distance
  have bound := distance.isLt
  rw [BitVec.toNat_sub, BitVec.toNat_ofNat]
  by_cases whole : size = 2 ^ 64
  · omega
  · rw [Nat.mod_eq_of_lt (by omega : size < 2 ^ 64)]
    omega

/-- A copy, and then that of the bytes behind, is the copy of both. -/
theorem copy_append {size further : Nat} (short : size + further ≤ 2 ^ 64) :
    copy (copy memory source size base start) source further (base + BitVec.ofNat 64 size)
      (start + BitVec.ofNat 64 size) = copy memory source (size + further) base start := by
  funext address
  have position : start + BitVec.ofNat 64 size + (address - (base + BitVec.ofNat 64 size)) =
      start + (address - base) := by
    rw [sub_add_ofNat, BitVec.add_assoc, BitVec.add_comm (BitVec.ofNat 64 size),
      BitVec.sub_add_cancel]
  have inEither : InRange base (size + further) address ↔ _ := inRange_append short
  unfold copy
  rw [position]
  split_ifs with inBehind inWhole inFront inWhole inWhole
  · rfl
  · exact absurd (inEither.mpr (Or.inr inBehind)) inWhole
  · rfl
  · exact absurd (inEither.mpr (Or.inl inFront)) inWhole
  · exact absurd (inEither.mp inWhole) (by tauto)
  · rfl

/-- To store the word of another place is to copy its bytes. -/
theorem store_load_eq_copy {size : Nat} (memory source : Memory) (base start : BitVec 64) :
    store memory size base (load source size start) = copy memory source size base start := by
  funext address
  by_cases inside : InRange base size address
  · rw [store, if_pos inside, copy_inside inside]
    apply BitVec.eq_of_getLsbD_eq
    intro bit bound
    have byte : (8 * (address - base).toNat + bit) / 8 = (address - base).toNat := by omega
    have offset : (8 * (address - base).toNat + bit) % 8 = bit := by omega
    have position : BitVec.ofNat 64 (address - base).toNat = address - base := by
      rw [BitVec.ofNat_toNat, BitVec.setWidth_eq]
    unfold InRange at inside
    rw [BitVec.getLsbD_extractLsb', getLsbD_load source size start (by omega), byte, offset,
      position, decide_eq_true bound, Bool.true_and]
  · rw [store_outside inside, copy_outside inside]

end FlatMemory
