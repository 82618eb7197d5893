import Mathlib.Data.List.Nodup
import Mathlib.Data.List.Perm.Subperm
import Nekonix.Library.FlatMemory.Blocks

/-!
# Records in flat memory

A record takes up the `extent` bytes from its base on, and a field of it some of them.  What
is stored to one field is read back there, and leaves the other fields and every record apart
from this one alone.
-/

namespace FlatMemory

/-- A field of `size` bytes in records of `extent` bytes. -/
structure Field (extent size : Nat) where
  offset : Nat
  fits : offset + size ≤ extent

/-- No wrap, so a range is an interval of numbers. -/
theorem inRange_iff_toNat {base address : BitVec 64} {size : Nat}
    (noWrap : base.toNat + size ≤ 2 ^ 64) :
    InRange base size address ↔
      base.toNat ≤ address.toNat ∧ address.toNat < base.toNat + size := by
  have low := base.isLt
  have high := address.isLt
  rw [InRange, BitVec.toNat_sub]
  omega

/-- One range ends before the other begins. -/
theorem separate_of_le {base other : BitVec 64} {size otherSize : Nat}
    (noWrap : base.toNat + size ≤ 2 ^ 64) (otherNoWrap : other.toNat + otherSize ≤ 2 ^ 64)
    (before : base.toNat + size ≤ other.toNat ∨ other.toNat + otherSize ≤ base.toNat) :
    Separate base size other otherSize := by
  intro address inBase inOther
  rw [inRange_iff_toNat noWrap] at inBase
  rw [inRange_iff_toNat otherNoWrap] at inOther
  omega

theorem InRange.ne {base address other : BitVec 64} {size : Nat} (inside : InRange base size address)
    (outside : ¬InRange base size other) : address ≠ other := by
  rintro rfl
  exact outside inside

theorem Separate.mono {base other : BitVec 64} {size part otherSize otherPart : Nat}
    (separate : Separate base size other otherSize) (shorter : part ≤ size)
    (otherShorter : otherPart ≤ otherSize) : Separate base part other otherPart :=
  fun address inPart inOtherPart =>
    separate address (inPart.mono shorter) (inOtherPart.mono otherShorter)

/-- There are fewer bases apart from NULL than addresses. -/
theorem length_lt_of_nodup {bases : List (BitVec 64)} (distinct : bases.Nodup)
    (nonnull : ∀ base ∈ bases, base ≠ 0#64) : bases.length < 2 ^ 64 := by
  have notNull : 0#64 ∉ bases := fun member => nonnull _ member rfl
  have positions : ((0#64 :: bases).map BitVec.toNat).Nodup :=
    (List.nodup_cons.mpr ⟨notNull, distinct⟩).map fun _ _ => BitVec.eq_of_toNat_eq
  have below : (0#64 :: bases).map BitVec.toNat ⊆ List.range (2 ^ 64) := by
    intro position member
    obtain ⟨base, -, rfl⟩ := List.mem_map.mp member
    exact List.mem_range.mpr base.isLt
  have few := (List.subperm_of_subset positions below).length_le
  rw [List.length_map, List.length_cons, List.length_range] at few
  omega

/-- To store what is there changes nothing. -/
theorem store_load (memory : Memory) {size : Nat} (base : BitVec 64) :
    store memory size base (load memory size base) = memory := by
  rw [store_load_eq_copy]
  funext address
  have position : base + (address - base) = address := by
    rw [BitVec.add_comm, BitVec.sub_add_cancel]
  simp [copy, position]

theorem load_zeros (size : Nat) (address : BitVec 64) :
    load (fun _ => 0#8) size address = 0#(8 * size) :=
  load_eq_of_bytes fun _ _ => by simp

namespace Field

variable {extent otherExtent size otherSize : Nat} {memory other : Memory}
  {base second address : BitVec 64}

def read (field : Field extent size) (memory : Memory) (base : BitVec 64) : BitVec (8 * size) :=
  load memory size (base + BitVec.ofNat 64 field.offset)

def write (field : Field extent size) (memory : Memory) (base : BitVec 64)
    (value : BitVec (8 * size)) : Memory :=
  store memory size (base + BitVec.ofNat 64 field.offset) value

/-- The fields have no byte in common. -/
def Apart (field : Field extent size) (further : Field extent otherSize) : Prop :=
  field.offset + size ≤ further.offset ∨ further.offset + otherSize ≤ field.offset

instance (field : Field extent size) (further : Field extent otherSize) :
    Decidable (field.Apart further) :=
  inferInstanceAs (Decidable (_ ∨ _))

/-- The bytes of a field are bytes of the record. -/
theorem inRange (field : Field extent size) (short : extent ≤ 2 ^ 64)
    (inside : InRange (base + BitVec.ofNat 64 field.offset) size address) :
    InRange base extent address := by
  have fits := field.fits
  have position : address - (base + BitVec.ofNat 64 field.offset) =
      address - base - BitVec.ofNat 64 field.offset := by
    rw [BitVec.sub_sub]
  unfold InRange at inside ⊢
  rw [position] at inside
  generalize address - base = distance at *
  have bound := distance.isLt
  rw [BitVec.toNat_sub, BitVec.toNat_ofNat] at inside
  by_cases whole : field.offset = 2 ^ 64
  · omega
  · have small : field.offset < 2 ^ 64 := by omega
    rw [Nat.mod_eq_of_lt small] at inside
    omega

@[simp]
theorem read_write_same (field : Field extent size) (memory : Memory) (base : BitVec 64)
    (value : BitVec (8 * size)) (short : extent ≤ 2 ^ 64) :
    field.read (field.write memory base value) base = value := by
  have fits := field.fits
  exact load_store_same memory _ value (by omega)

theorem write_read (field : Field extent size) (memory : Memory) (base : BitVec 64) :
    field.write memory base (field.read memory base) = memory :=
  store_load memory _

/-- A field keeps its value where no byte of the record changes. -/
theorem read_congr (field : Field extent size) (short : extent ≤ 2 ^ 64)
    (agree : ∀ address, InRange base extent address → other address = memory address) :
    field.read other base = field.read memory base := by
  have fits := field.fits
  refine load_congr fun position below => agree _ (field.inRange short ?_)
  exact inRange_offset _ (by omega) below

theorem write_outside {field : Field extent size} {value : BitVec (8 * size)}
    (short : extent ≤ 2 ^ 64) (outside : ¬InRange base extent address) :
    field.write memory base value address = memory address :=
  store_outside fun inside => outside (field.inRange short inside)

theorem read_write_apart {field : Field extent size} {further : Field extent otherSize}
    {value : BitVec (8 * otherSize)} (apart : field.Apart further) (short : extent ≤ 2 ^ 64) :
    field.read (further.write memory base value) base = field.read memory base := by
  have fits := field.fits
  have otherFits := further.fits
  refine load_store_separate ?_ (by omega)
  intro address inField inFurther
  unfold InRange at inField inFurther
  have split : ∀ offset, address - (base + BitVec.ofNat 64 offset) =
      address - base - BitVec.ofNat 64 offset := by
    intro offset
    rw [BitVec.sub_sub]
  rw [split] at inField inFurther
  generalize address - base = distance at *
  have bound := distance.isLt
  rw [BitVec.toNat_sub, BitVec.toNat_ofNat] at inField inFurther
  unfold Apart at apart
  omega

end Field

end FlatMemory
