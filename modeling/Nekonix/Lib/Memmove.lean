import Nekonix.Lib.String

/-!
# `memmove` of `lib/string.c`

It copies upwards or downwards, so that a byte is read before it is overwritten.
-/

namespace Nekonix

open FlatMemory

/-- `while (n--) *(--d) = *(--s);` -/
def memmoveDown (memory : Memory) (d s : U64) : (n : Nat) → Memory
  | 0 => memory
  | n + 1 =>
      memmoveDown (Function.update memory (d - 1#64) (memory (s - 1#64))) (d - 1#64) (s - 1#64) n

/-- `memmove`, whose upward loop is that of `memcpy`. -/
def memmove (memory : Memory) (dest src : U64) (n : Nat) : Memory :=
  if dest < src then
    memcpy memory dest src n
  else
    memmoveDown memory (dest + BitVec.ofNat 64 n) (src + BitVec.ofNat 64 n) n

variable {memory source : Memory} {dest src : U64} {n : Nat}

/-- The last byte of a range, and the range before it. -/
theorem inRange_succ_last {base address : U64} (small : n + 1 ≤ 2 ^ 64) :
    InRange base (n + 1) address ↔ InRange base n address ∨ address = base + BitVec.ofNat 64 n := by
  have atLast : address = base + BitVec.ofNat 64 n ↔ (address - base).toNat = n := by
    constructor
    · rintro rfl
      exact offset_toNat base (by omega)
    · intro distance
      rw [← distance, BitVec.ofNat_toNat, BitVec.setWidth_eq, BitVec.add_comm,
        BitVec.sub_add_cancel]
  unfold InRange
  rw [atLast]
  omega

/-- A downward copy is the block copy where no byte of the source is overwritten before it
is read. -/
theorem memmoveDown_eq_copy (small : n ≤ 2 ^ 64)
    (agree : ∀ offset < n,
      memory (src + BitVec.ofNat 64 offset) = source (src + BitVec.ofNat 64 offset))
    (unread : ∀ offset < n, ∀ later < n, offset < later →
      src + BitVec.ofNat 64 offset ≠ dest + BitVec.ofNat 64 later) :
    memmoveDown memory (dest + BitVec.ofNat 64 n) (src + BitVec.ofNat 64 n) n =
      copy memory source n dest src := by
  induction n generalizing memory with
  | zero =>
      funext address
      simp [memmoveDown, copy, InRange]
  | succ n inductionHypothesis =>
      have stepBack : ∀ pointer : U64,
          pointer + BitVec.ofNat 64 (n + 1) - 1#64 = pointer + BitVec.ofNat 64 n := by
        intro pointer
        rw [BitVec.ofNat_add, ← BitVec.add_assoc]
        exact BitVec.add_sub_cancel _ _
      have lastByte := agree n (Nat.lt_succ_self n)
      have restAgree : ∀ offset < n,
          Function.update memory (dest + BitVec.ofNat 64 n) (memory (src + BitVec.ofNat 64 n))
            (src + BitVec.ofNat 64 offset) = source (src + BitVec.ofNat 64 offset) := by
        intro offset below
        rw [Function.update_of_ne (unread offset (by omega) n (by omega) below)]
        exact agree offset (by omega)
      rw [memmoveDown, stepBack, stepBack, inductionHypothesis (by omega) restAgree
        (fun offset below later before => unread offset (by omega) later (by omega))]
      funext address
      simp only [copy, inRange_succ_last small]
      by_cases before : InRange dest n address
      · rw [if_pos before, if_pos (Or.inl before)]
      · rw [if_neg before]
        by_cases last : address = dest + BitVec.ofNat 64 n
        · rw [if_pos (Or.inr last), last, Function.update_self, lastByte]
          congr 1
          bv_omega
        · rw [if_neg (fun h => h.elim before last), Function.update_of_ne last]

theorem memmove_eq_copy (memory : Memory) (destFits : dest.toNat + n ≤ 2 ^ 64)
    (srcFits : src.toNat + n ≤ 2 ^ 64) :
    memmove memory dest src n = copy memory memory n dest src := by
  unfold memmove
  split_ifs with upwards
  · refine memcpy_eq_copy_of_unread (by omega) (fun _ _ => rfl) ?_
    intro offset below earlier before
    bv_omega
  · refine memmoveDown_eq_copy (by omega) (fun _ _ => rfl) ?_
    intro offset below later _ before
    bv_omega

/-- `memmove` moves the bytes, whatever the ranges have in common, and `memcpy` does the same
unless it would overwrite a byte before it reads it. -/
theorem memmove_moves (memory : Memory) (dest src : U64) (n : Nat)
    (destFits : dest.toNat + n ≤ 2 ^ 64) (srcFits : src.toNat + n ≤ 2 ^ 64) :
    (∀ offset < n, memmove memory dest src n (dest + BitVec.ofNat 64 offset) =
      memory (src + BitVec.ofNat 64 offset)) ∧
    (∀ address, ¬InRange dest n address → memmove memory dest src n address = memory address) ∧
    (Separate dest n src n ∨ dest < src →
      memcpy memory dest src n = memmove memory dest src n) := by
  rw [memmove_eq_copy memory destFits srcFits]
  refine ⟨?_, fun address outside => copy_outside outside, ?_⟩
  · intro offset below
    rw [copy_inside (inRange_offset dest (by omega) below)]
    congr 1
    bv_omega
  · rintro (separate | upwards)
    · refine memcpy_eq_copy (by omega) (fun _ _ => rfl) fun offset below inDest => ?_
      exact separate _ inDest (inRange_offset src (by omega) below)
    · rw [← memmove_eq_copy memory destFits srcFits, memmove, if_pos upwards]

/-- Four bytes are moved up by one. -/
theorem memmove_moves_up :
    memmove (fun address => address.setWidth 8) 0x101#64 0x100#64 4 0x104#64 = 3#8 := by
  have moved := (memmove_moves (fun address => address.setWidth 8) 0x101#64 0x100#64 4
    (by decide) (by decide)).1 3 (by decide)
  exact moved

end Nekonix
