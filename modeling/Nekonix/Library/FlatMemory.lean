import Mathlib.Algebra.Group.Nat.Defs
import Mathlib.Logic.Function.Basic
import Mathlib.Tactic.Common

/-!
# Flat byte memory

A 64-bit address space as a function from addresses to bytes, with
little-endian words of any byte width, block fill and block copy.  Ranges are
counted modulo `2 ^ 64`: an address lies in `[base, base + size)` when its
distance from `base` is below `size`.
-/

namespace FlatMemory

/-- The contents of a 64-bit address space. -/
abbrev Memory := BitVec 64 → BitVec 8

/-- `address` is one of the `size` bytes that start at `base`. -/
def InRange (base : BitVec 64) (size : Nat) (address : BitVec 64) : Prop :=
  (address - base).toNat < size

instance (base : BitVec 64) (size : Nat) (address : BitVec 64) :
    Decidable (InRange base size address) :=
  inferInstanceAs (Decidable (_ < _))

/-- What lies in the first bytes of a range lies in the range. -/
theorem InRange.mono {base address : BitVec 64} {part size : Nat}
    (inside : InRange base part address) (shorter : part ≤ size) : InRange base size address :=
  Nat.lt_of_lt_of_le inside shorter

/-- The little-endian word of `size` bytes at `address`. -/
def load (memory : Memory) : (size : Nat) → (address : BitVec 64) → BitVec (8 * size)
  | 0, _ => 0#0
  | size + 1, address => load memory size (address + 1) ++ memory address

/-- Replace the `size` bytes at `base` by the bytes of `value`. -/
def store (memory : Memory) (size : Nat) (base : BitVec 64) (value : BitVec (8 * size)) : Memory :=
  fun address =>
    if InRange base size address then
      value.extractLsb' (8 * (address - base).toNat) 8
    else
      memory address

/-- Set the `size` bytes at `base` to `byte`. -/
def fill (memory : Memory) (size : Nat) (base : BitVec 64) (byte : BitVec 8) : Memory :=
  fun address => if InRange base size address then byte else memory address

/-- Copy into the `size` bytes at `base` the bytes that `source` has at `start`. -/
def copy (memory source : Memory) (size : Nat) (base start : BitVec 64) : Memory :=
  fun address =>
    if InRange base size address then source (start + (address - base)) else memory address

@[simp]
theorem store_outside {memory : Memory} {size : Nat} {base address : BitVec 64}
    {value : BitVec (8 * size)} (outside : ¬InRange base size address) :
    store memory size base value address = memory address := by
  simp [store, outside]

@[simp]
theorem fill_inside {memory : Memory} {size : Nat} {base address : BitVec 64} {byte : BitVec 8}
    (inside : InRange base size address) :
    fill memory size base byte address = byte := by
  simp [fill, inside]

@[simp]
theorem fill_outside {memory : Memory} {size : Nat} {base address : BitVec 64} {byte : BitVec 8}
    (outside : ¬InRange base size address) :
    fill memory size base byte address = memory address := by
  simp [fill, outside]

@[simp]
theorem copy_inside {memory source : Memory} {size : Nat} {base start address : BitVec 64}
    (inside : InRange base size address) :
    copy memory source size base start address = source (start + (address - base)) := by
  simp [copy, inside]

@[simp]
theorem copy_outside {memory source : Memory} {size : Nat} {base start address : BitVec 64}
    (outside : ¬InRange base size address) :
    copy memory source size base start address = memory address := by
  simp [copy, outside]

theorem offset_toNat (base : BitVec 64) {offset : Nat} (small : offset < 2 ^ 64) :
    (base + BitVec.ofNat 64 offset - base).toNat = offset := by
  have cancelled : base + BitVec.ofNat 64 offset - base = BitVec.ofNat 64 offset := by
    rw [BitVec.add_comm, BitVec.add_sub_cancel]
  rw [cancelled, BitVec.toNat_ofNat, Nat.mod_eq_of_lt small]

theorem inRange_offset (base : BitVec 64) {offset size : Nat} (small : offset < 2 ^ 64)
    (inside : offset < size) : InRange base size (base + BitVec.ofNat 64 offset) := by
  rw [InRange, offset_toNat base small]
  exact inside

theorem add_one_add_ofNat (address : BitVec 64) (offset : Nat) :
    address + 1 + BitVec.ofNat 64 offset = address + BitVec.ofNat 64 (offset + 1) := by
  rw [BitVec.add_assoc, BitVec.ofNat_add]
  congr 1
  exact BitVec.add_comm _ _

/-- Bit `bit` of a word is bit `bit % 8` of its byte `bit / 8`. -/
theorem getLsbD_load (memory : Memory) (size : Nat) (address : BitVec 64) {bit : Nat}
    (bound : bit < 8 * size) :
    (load memory size address).getLsbD bit =
      (memory (address + BitVec.ofNat 64 (bit / 8))).getLsbD (bit % 8) := by
  induction size generalizing address bit with
  | zero => omega
  | succ size inductionHypothesis =>
      rw [load, BitVec.getLsbD_append]
      by_cases lowest : bit < 8
      · have quotient : bit / 8 = 0 := by omega
        have remainder : bit % 8 = bit := by omega
        simp [lowest, quotient, remainder]
      · have quotient : bit / 8 = (bit - 8) / 8 + 1 := by omega
        have remainder : bit % 8 = (bit - 8) % 8 := by omega
        rw [if_neg lowest, inductionHypothesis (address + 1) (by omega), add_one_add_ofNat,
          quotient, remainder]

/-- A word is determined by its bytes. -/
theorem load_eq_of_bytes {memory : Memory} {size : Nat} {address : BitVec 64}
    {value : BitVec (8 * size)}
    (bytes : ∀ offset < size,
      memory (address + BitVec.ofNat 64 offset) = value.extractLsb' (8 * offset) 8) :
    load memory size address = value := by
  apply BitVec.eq_of_getLsbD_eq
  intro bit bound
  rw [getLsbD_load memory size address bound, bytes (bit / 8) (by omega),
    BitVec.getLsbD_extractLsb']
  have inByte : bit % 8 < 8 := Nat.mod_lt _ (by decide)
  have position : 8 * (bit / 8) + bit % 8 = bit := Nat.div_add_mod bit 8
  rw [decide_eq_true inByte, Bool.true_and, position]

theorem load_congr {memory other : Memory} {size : Nat} {address : BitVec 64}
    (agree : ∀ offset < size,
      memory (address + BitVec.ofNat 64 offset) = other (address + BitVec.ofNat 64 offset)) :
    load memory size address = load other size address := by
  induction size generalizing address with
  | zero => rfl
  | succ size inductionHypothesis =>
      have lower : memory address = other address := by
        simpa using agree 0 (by omega)
      have upper : load memory size (address + 1) = load other size (address + 1) := by
        apply inductionHypothesis
        intro offset below
        rw [add_one_add_ofNat]
        exact agree (offset + 1) (by omega)
      rw [load, load, lower, upper]

theorem load_store_same (memory : Memory) {size : Nat} (base : BitVec 64)
    (value : BitVec (8 * size)) (small : size ≤ 2 ^ 64) :
    load (store memory size base value) size base = value := by
  apply load_eq_of_bytes
  intro offset below
  have inside := inRange_offset base (by omega) below
  rw [store, if_pos inside, offset_toNat base (by omega)]

/-- Two ranges without a common address. -/
def Separate (base : BitVec 64) (size : Nat) (other : BitVec 64) (otherSize : Nat) : Prop :=
  ∀ address, InRange base size address → ¬InRange other otherSize address

theorem Separate.symm {base other : BitVec 64} {size otherSize : Nat}
    (separate : Separate base size other otherSize) : Separate other otherSize base size :=
  fun address inOther inBase => separate address inBase inOther

theorem load_store_separate {memory : Memory} {size otherSize : Nat} {base other : BitVec 64}
    {value : BitVec (8 * otherSize)} (separate : Separate base size other otherSize)
    (small : size ≤ 2 ^ 64) :
    load (store memory otherSize other value) size base = load memory size base := by
  apply load_congr
  intro offset below
  exact store_outside (separate _ (inRange_offset base (by omega) below))

theorem load_fill_inside {memory : Memory} {size blockSize : Nat} {base block : BitVec 64}
    (inside : ∀ offset < size, InRange block blockSize (base + BitVec.ofNat 64 offset)) :
    load (fill memory blockSize block 0) size base = 0 := by
  apply load_eq_of_bytes
  intro offset below
  rw [fill_inside (inside offset below)]
  ext bit bound
  simp

end FlatMemory
