import Nekonix.Library.FlatMemory

/-!
Fixed-width integers of `lib/types.h`, the page macros of `mm/pmm.h` and the
direct-map macros.  `hhdm_offset` is set once at boot, so it is a parameter of
every function that dereferences a physical address.
-/

namespace Nekonix

abbrev U8 := BitVec 8
abbrev U16 := BitVec 16
abbrev U32 := BitVec 32
abbrev U64 := BitVec 64

export FlatMemory (Memory)

/-- `PAGE_SIZE` -/
def pageSize : U64 := 4096#64

/-- `DIV_ROUND_UP` -/
def divRoundUp (x y : U64) : U64 := (x + (y - 1#64)) / y

/-- `ALIGN_UP` -/
def alignUp (x y : U64) : U64 := divRoundUp x y * y

/-- `ALIGN_DOWN` -/
def alignDown (x y : U64) : U64 := x / y * y

theorem alignDown_toNat (x : U64) : (alignDown x pageSize).toNat = x.toNat / 4096 * 4096 := by
  have bound := x.isLt
  simp only [alignDown, pageSize, BitVec.toNat_mul, BitVec.toNat_udiv, BitVec.toNat_ofNat,
    Nat.reducePow, Nat.reduceMod]
  omega

theorem alignUp_toNat {x : U64} (small : x.toNat + 4095 < 2 ^ 64) :
    (alignUp x pageSize).toNat = (x.toNat + 4095) / 4096 * 4096 := by
  simp only [alignUp, divRoundUp, pageSize, BitVec.toNat_mul, BitVec.toNat_udiv, BitVec.toNat_add,
    BitVec.toNat_sub, BitVec.toNat_ofNat, Nat.reducePow, Nat.reduceMod, Nat.reduceSub, Nat.reduceAdd]
  omega

/-- `HIGHER_HALF` -/
def higherHalf (hhdmOffset ptr : U64) : U64 := ptr + hhdmOffset

/-- `PHYSICAL` -/
def physical (hhdmOffset ptr : U64) : U64 := ptr - hhdmOffset

@[simp]
theorem physical_higherHalf (hhdmOffset ptr : U64) :
    physical hhdmOffset (higherHalf hhdmOffset ptr) = ptr := by
  unfold physical higherHalf
  exact BitVec.add_sub_cancel ptr hhdmOffset

@[simp]
theorem higherHalf_inj {hhdmOffset first second : U64} :
    higherHalf hhdmOffset first = higherHalf hhdmOffset second ↔ first = second := by
  simp [higherHalf]

theorem physical_inj {hhdmOffset first second : U64} :
    physical hhdmOffset first = physical hhdmOffset second ↔ first = second := by
  simp [physical]

namespace Memory

/-- A `u64` access. -/
def load64 (memory : Memory) (address : U64) : U64 := FlatMemory.load memory 8 address

def store64 (memory : Memory) (address value : U64) : Memory :=
  FlatMemory.store memory 8 address value

/-- A `u32` access. -/
def load32 (memory : Memory) (address : U64) : U32 := FlatMemory.load memory 4 address

def store32 (memory : Memory) (address : U64) (value : U32) : Memory :=
  FlatMemory.store memory 4 address value

/-- A `u16` read. -/
def load16 (memory : Memory) (address : U64) : U16 := FlatMemory.load memory 2 address

@[simp]
theorem load64_store64_same (memory : Memory) (address value : U64) :
    load64 (store64 memory address value) address = value :=
  @FlatMemory.load_store_same memory 8 address value (by decide)

theorem load64_store64_separate {memory : Memory} {address other value : U64}
    (separate : FlatMemory.Separate address 8 other 8) :
    load64 (store64 memory other value) address = load64 memory address :=
  FlatMemory.load_store_separate separate (by decide)

end Memory

end Nekonix
