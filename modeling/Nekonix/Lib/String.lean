import Nekonix.Lib.Types

/-!
# The memory functions of `lib/string.c`

The byte loops as they are written, the block operations they amount to, and the
bytes of a range as a list.
-/

namespace Nekonix

open FlatMemory

/-- `while (n--) *p++ = (unsigned char)c;` -/
def memset (memory : Memory) (s : U64) (c : U8) : (n : Nat) → Memory
  | 0 => memory
  | n + 1 => memset (Function.update memory s c) (s + 1) c n

/-- `while (n--) *d++ = *s++;` -/
def memcpy (memory : Memory) (dest src : U64) : (n : Nat) → Memory
  | 0 => memory
  | n + 1 => memcpy (Function.update memory dest (memory src)) (dest + 1) (src + 1) n

/-- The first byte of a range, and the range behind it. -/
theorem inRange_succ {base address : U64} {n : Nat} (small : n + 1 ≤ 2 ^ 64) :
    InRange base (n + 1) address ↔ address = base ∨ InRange (base + 1) n address := by
  have behind : address - (base + 1) = address - base - 1 := by
    rw [BitVec.sub_sub]
  have atBase : address = base ↔ address - base = 0 := by
    constructor <;> intro h <;> bv_omega
  unfold InRange
  rw [behind, atBase]
  generalize address - base = distance
  constructor <;> intro h <;> bv_omega

theorem memset_eq_fill (memory : Memory) (s : U64) (c : U8) {n : Nat} (small : n ≤ 2 ^ 64) :
    memset memory s c n = fill memory n s c := by
  induction n generalizing memory s with
  | zero =>
      funext address
      simp [memset, fill, InRange]
  | succ n inductionHypothesis =>
      funext address
      rw [memset, inductionHypothesis _ _ (by omega)]
      simp only [fill, inRange_succ small]
      by_cases behind : InRange (s + 1) n address
      · rw [if_pos behind, if_pos (Or.inr behind)]
      · rw [if_neg behind]
        by_cases first : address = s
        · rw [if_pos (Or.inl first), first, Function.update_self]
        · rw [if_neg (fun h => h.elim first behind), Function.update_of_ne first]

/-- A copy leaves every byte outside the destination alone, whatever it reads. -/
theorem memcpy_outside {memory : Memory} {dest src address : U64} {n : Nat}
    (small : n ≤ 2 ^ 64) (outside : ¬InRange dest n address) :
    memcpy memory dest src n address = memory address := by
  induction n generalizing memory dest src with
  | zero => rfl
  | succ n inductionHypothesis =>
      rw [inRange_succ small] at outside
      rw [memcpy, inductionHypothesis (by omega) (fun behind => outside (Or.inr behind))]
      exact Function.update_of_ne (fun first => outside (Or.inl first)) _ _

/-- A copy is the block copy where no byte of the source is overwritten before it is read. -/
theorem memcpy_eq_copy_of_unread {memory source : Memory} {dest src : U64} {n : Nat}
    (small : n ≤ 2 ^ 64)
    (agree : ∀ offset < n,
      memory (src + BitVec.ofNat 64 offset) = source (src + BitVec.ofNat 64 offset))
    (unread : ∀ offset < n, ∀ earlier < offset,
      src + BitVec.ofNat 64 offset ≠ dest + BitVec.ofNat 64 earlier) :
    memcpy memory dest src n = copy memory source n dest src := by
  induction n generalizing memory dest src with
  | zero =>
      funext address
      simp [memcpy, copy, InRange]
  | succ n inductionHypothesis =>
      have firstByte : memory src = source src := by
        simpa using agree 0 (by omega)
      have restUnread : ∀ offset < n, ∀ earlier < offset,
          src + 1 + BitVec.ofNat 64 offset ≠ dest + 1 + BitVec.ofNat 64 earlier := by
        intro offset below earlier before
        rw [add_one_add_ofNat, add_one_add_ofNat]
        exact unread (offset + 1) (by omega) (earlier + 1) (by omega)
      have restAgree : ∀ offset < n,
          Function.update memory dest (memory src) (src + 1 + BitVec.ofNat 64 offset) =
            source (src + 1 + BitVec.ofNat 64 offset) := by
        intro offset below
        have different : src + 1 + BitVec.ofNat 64 offset ≠ dest := by
          have later := unread (offset + 1) (by omega) 0 (by omega)
          rwa [BitVec.add_zero, ← add_one_add_ofNat] at later
        rw [Function.update_of_ne different, add_one_add_ofNat]
        exact agree (offset + 1) (by omega)
      funext address
      rw [memcpy, inductionHypothesis (by omega) restAgree restUnread]
      simp only [copy, inRange_succ small]
      by_cases behind : InRange (dest + 1) n address
      · have position : src + 1 + (address - (dest + 1)) = src + (address - dest) := by
          bv_omega
        rw [if_pos behind, if_pos (Or.inr behind), position]
      · rw [if_neg behind]
        by_cases first : address = dest
        · rw [if_pos (Or.inl first), first, Function.update_self, firstByte]
          simp
        · rw [if_neg (fun h => h.elim first behind), Function.update_of_ne first]

/-- A copy between ranges without a common byte is the block copy. -/
theorem memcpy_eq_copy {memory source : Memory} {dest src : U64} {n : Nat} (small : n ≤ 2 ^ 64)
    (agree : ∀ offset < n,
      memory (src + BitVec.ofNat 64 offset) = source (src + BitVec.ofNat 64 offset))
    (apart : ∀ offset < n, ¬InRange dest n (src + BitVec.ofNat 64 offset)) :
    memcpy memory dest src n = copy memory source n dest src := by
  refine memcpy_eq_copy_of_unread small agree fun offset below earlier before same => ?_
  apply apart offset below
  rw [same]
  exact inRange_offset dest (by omega) (by omega)

/-- The `n` bytes from `base` on. -/
def bytesAt (memory : Memory) (base : U64) (n : Nat) : List U8 :=
  (List.range n).map fun offset => memory (base + BitVec.ofNat 64 offset)

@[simp]
theorem length_bytesAt (memory : Memory) (base : U64) (n : Nat) :
    (bytesAt memory base n).length = n := by
  simp [bytesAt]

theorem bytesAt_getElem? (memory : Memory) (base : U64) (n offset : Nat) :
    (bytesAt memory base n)[offset]? =
      if offset < n then some (memory (base + BitVec.ofNat 64 offset)) else none := by
  unfold bytesAt
  split_ifs with inside
  · rw [List.getElem?_map, List.getElem?_range inside]
    rfl
  · exact List.getElem?_eq_none (by simpa using inside)

theorem bytesAt_congr {memory other : Memory} {base : U64} {n : Nat}
    (agree : ∀ offset < n,
      other (base + BitVec.ofNat 64 offset) = memory (base + BitVec.ofNat 64 offset)) :
    bytesAt other base n = bytesAt memory base n := by
  apply List.map_congr_left
  intro offset membership
  exact agree offset (List.mem_range.mp membership)

end Nekonix
