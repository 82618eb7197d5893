import Nekonix.Library.RadixTable
import Nekonix.Mm.Vmm

/-!
# Page tables as a radix tree

A frame number of 40 bits names a page-aligned physical address below 2^52, an
index of nine bits a slot of a table.  Under the direct map different slots
occupy different words of memory, so the kernel's memory is a store of tables,
and a virtual address is a path of three indices followed by a leaf index.
-/

namespace Nekonix

open FlatMemory RadixTable

/-- The number of a page frame below 2^52. -/
abbrev Frame := BitVec 40

/-- A position in a table. -/
abbrev Slot := BitVec 9

/-- The physical address of a frame. -/
def Frame.address (frame : Frame) : U64 := frame.setWidth 64 <<< 12

theorem Frame.address_toNat (frame : Frame) : frame.address.toNat = frame.toNat * 4096 := by
  simp only [address, BitVec.toNat_shiftLeft, BitVec.toNat_setWidth, Nat.shiftLeft_eq]
  omega

theorem Frame.address_inj {frame other : Frame} :
    frame.address = other.address ↔ frame = other := by
  constructor
  · intro same
    have numbers := congrArg BitVec.toNat same
    rw [address_toNat, address_toNat] at numbers
    apply BitVec.eq_of_toNat_eq
    omega
  · exact congrArg _

/-- The frame the kernel reaches at `frame`'s address in the direct map. -/
def Frame.pointer (hhdmOffset : U64) (frame : Frame) : U64 := higherHalf hhdmOffset frame.address

/-- `address` is a byte of the frame, as the kernel reaches it. -/
def Frame.Holds (hhdmOffset : U64) (frame : Frame) (address : U64) : Prop :=
  InRange (frame.pointer hhdmOffset) 4096 address

variable {hhdmOffset : U64}

/-- Two frames share no byte. -/
theorem Frame.Holds.unique {frame other : Frame} {address : U64}
    (inFrame : frame.Holds hhdmOffset address) (inOther : other.Holds hhdmOffset address) :
    frame = other := by
  unfold Holds InRange pointer higherHalf at inFrame inOther
  rw [BitVec.add_comm, ← BitVec.sub_sub] at inFrame inOther
  generalize address - hhdmOffset = offset at inFrame inOther
  have frameNumber := frame.address_toNat
  have otherNumber := other.address_toNat
  apply BitVec.eq_of_toNat_eq
  rw [BitVec.toNat_sub] at inFrame inOther
  omega

/-- The address of a slot. -/
def Frame.slot (hhdmOffset : U64) (frame : Frame) (index : Slot) : U64 :=
  frame.pointer hhdmOffset + index.setWidth 64 * 8#64

theorem Frame.slot_offset (frame : Frame) (index : Slot) :
    frame.slot hhdmOffset index =
      frame.pointer hhdmOffset + BitVec.ofNat 64 (index.toNat * 8) := by
  unfold slot
  congr 1

theorem Frame.slot_holds (frame : Frame) (index : Slot) {address : U64}
    (inSlot : InRange (frame.slot hhdmOffset index) 8 address) :
    frame.Holds hhdmOffset address := by
  unfold Holds InRange at *
  rw [slot_offset, ← BitVec.sub_sub, BitVec.toNat_sub, BitVec.toNat_ofNat] at inSlot
  omega

theorem Frame.slot_separate {frame other : Frame} {index position : Slot}
    (different : ¬(other = frame ∧ position = index)) :
    Separate (other.slot hhdmOffset position) 8 (frame.slot hhdmOffset index) 8 := by
  intro address inOther inFrame
  have same := (other.slot_holds position inOther).unique (frame.slot_holds index inFrame)
  subst same
  have positions : position = index := by
    unfold InRange at inOther inFrame
    rw [slot_offset, ← BitVec.sub_sub, BitVec.toNat_sub, BitVec.toNat_ofNat] at inOther inFrame
    apply BitVec.eq_of_toNat_eq
    omega
  exact different ⟨rfl, positions⟩

/-- The x86-64 entry format: bit 0 and bits 12 to 51. -/
def pageFormat : Format Frame U64 where
  present entry := entry.getLsbD 0
  target entry := entry.extractLsb' 12 40

/-- The tables in a memory. -/
def tables (hhdmOffset : U64) (memory : Memory) : Store Frame Slot U64 :=
  fun frame index => Memory.load64 memory (frame.slot hhdmOffset index)

theorem tables_congr {memory other : Memory} {frame : Frame}
    (agree : ∀ address, frame.Holds hhdmOffset address → memory address = other address) :
    tables hhdmOffset memory frame = tables hhdmOffset other frame := by
  funext index
  apply load_congr
  intro offset below
  exact agree _ (frame.slot_holds index (inRange_offset _ (by omega) below))

theorem tables_store (memory : Memory) (frame : Frame) (index : Slot) (entry : U64) :
    tables hhdmOffset (Memory.store64 memory (frame.slot hhdmOffset index) entry) =
      write (tables hhdmOffset memory) frame index entry := by
  funext other position
  by_cases same : other = frame ∧ position = index
  · obtain ⟨rfl, rfl⟩ := same
    rw [write_same]
    exact Memory.load64_store64_same memory _ entry
  · rw [write_other same]
    exact Memory.load64_store64_separate (Frame.slot_separate same)

/-- Clearing a page blanks the table in it. -/
theorem tables_fill (memory : Memory) (frame : Frame) :
    tables hhdmOffset (fill memory 4096 (frame.pointer hhdmOffset) 0#8) =
      blank (tables hhdmOffset memory) frame 0#64 := by
  funext other position
  by_cases same : other = frame
  · subst same
    rw [blank_same]
    apply load_fill_inside
    intro offset below
    exact other.slot_holds position (inRange_offset _ (by omega) below)
  · simp only [blank, if_neg same]
    apply load_congr
    intro offset below
    apply fill_outside
    intro inFrame
    have inSlot := inRange_offset (other.slot hhdmOffset position) (by omega) below
    exact same ((other.slot_holds position inSlot).unique inFrame)

/-! The fields of entries and of virtual addresses -/

theorem entryMask_getLsbD (bit : Nat) :
    entryMask.getLsbD bit = decide (12 ≤ bit ∧ bit < 52) := by
  by_cases bound : bit < 64
  · revert bit
    decide
  · rw [BitVec.getLsbD_of_ge _ _ (by omega)]
    simp
    omega

theorem and_entryMask (entry : U64) :
    entry &&& entryMask = Frame.address (entry.extractLsb' 12 40) := by
  apply BitVec.eq_of_getLsbD_eq
  intro bit bound
  simp only [BitVec.getLsbD_and, entryMask_getLsbD, Frame.address, BitVec.getLsbD_shiftLeft,
    BitVec.getLsbD_setWidth, BitVec.getLsbD_extractLsb', bound]
  by_cases low : bit < 12
  · simp [low]
  · by_cases high : bit < 52
    · have position : 12 + (bit - 12) = bit := by omega
      have small : bit - 12 < 40 := by omega
      have small' : bit - 12 < 64 := by omega
      simp [low, high, position, small, small']
      omega
    · have large : ¬bit - 12 < 40 := by omega
      simp [high, large]

theorem notPresent_iff (entry : U64) : notPresent entry ↔ entry.getLsbD 0 = false := by
  unfold notPresent
  constructor
  · intro masked
    have bit := congrArg (fun word => BitVec.getLsbD word 0) masked
    simpa using bit
  · intro unset
    apply BitVec.eq_of_getLsbD_eq
    intro bit bound
    rw [BitVec.getLsbD_and]
    by_cases zero : bit = 0
    · rw [zero, unset, Bool.false_and]
      rfl
    · have one : (1#64).getLsbD bit = false := by
        rw [BitVec.getLsbD_one]
        simp [zero]
      simp [one]

theorem field_eq (virt : U64) (shift : Nat) (bound : shift ≤ 39) :
    (virt &&& (0x1ff#64 <<< shift)) >>> shift = (virt.extractLsb' shift 9).setWidth 64 := by
  apply BitVec.eq_of_getLsbD_eq
  intro bit inWord
  have ones : ∀ bit, (0x1ff#64).getLsbD bit = decide (bit < 9) := by
    intro bit
    by_cases small : bit < 64
    · revert bit
      decide
    · rw [BitVec.getLsbD_of_ge _ _ (by omega)]
      simp
      omega
  simp only [BitVec.getLsbD_ushiftRight, BitVec.getLsbD_and, BitVec.getLsbD_shiftLeft,
    BitVec.getLsbD_setWidth, BitVec.getLsbD_extractLsb', ones]
  have position : shift + bit - shift = bit := by omega
  by_cases inField : bit < 9
  · have inside : shift + bit < 64 := by omega
    have above : ¬shift + bit < shift := by omega
    simp [position, inField, inside, above, inWord]
  · simp [position, inField]

/-! The path of a virtual address -/

def slot4 (virt : U64) : Slot := virt.extractLsb' 39 9
def slot3 (virt : U64) : Slot := virt.extractLsb' 30 9
def slot2 (virt : U64) : Slot := virt.extractLsb' 21 9
def slot1 (virt : U64) : Slot := virt.extractLsb' 12 9

/-- The indices that lead from the top-level table to the leaf table. -/
def tablePath (virt : U64) : List Slot := [slot4 virt, slot3 virt, slot2 virt]

/-- Bits 12 to 47 of an address. -/
def pageNumber (virt : U64) : BitVec 36 := virt.extractLsb' 12 36

theorem pml4Idx_eq (virt : U64) : pml4Idx virt = (slot4 virt).setWidth 64 :=
  field_eq virt 39 (by decide)

theorem pml3Idx_eq (virt : U64) : pml3Idx virt = (slot3 virt).setWidth 64 :=
  field_eq virt 30 (by decide)

theorem pml2Idx_eq (virt : U64) : pml2Idx virt = (slot2 virt).setWidth 64 :=
  field_eq virt 21 (by decide)

theorem pml1Idx_eq (virt : U64) : pml1Idx virt = (slot1 virt).setWidth 64 :=
  field_eq virt 12 (by decide)

/-- The four indices together are the page number. -/
theorem pageNumber_eq_iff {virt other : U64} :
    pageNumber other = pageNumber virt ↔
      tablePath other = tablePath virt ∧ slot1 other = slot1 virt := by
  have number : ∀ address : U64, pageNumber address =
      (slot4 address ++ slot3 address ++ slot2 address ++ slot1 address : BitVec 36) := by
    intro address
    simp only [pageNumber, slot4, slot3, slot2, slot1]
    rw [BitVec.extractLsb'_append_extractLsb'_eq_extractLsb' (by decide),
      BitVec.extractLsb'_append_extractLsb'_eq_extractLsb' (by decide),
      BitVec.extractLsb'_append_extractLsb'_eq_extractLsb' (by decide)]
  have field : ∀ (address : U64) (start : Nat), 12 ≤ start → start ≤ 39 →
      address.extractLsb' start 9 = (pageNumber address).extractLsb' (start - 12) 9 := by
    intro address start above below
    apply BitVec.eq_of_getLsbD_eq
    intro bit bound
    simp only [pageNumber, BitVec.getLsbD_extractLsb']
    have inNumber : start - 12 + bit < 36 := by omega
    have position : 12 + (start - 12 + bit) = start + bit := by omega
    simp [bound, inNumber, position]
  constructor
  · intro same
    simp only [tablePath, slot4, slot3, slot2, slot1, List.cons.injEq, and_true]
    refine ⟨⟨?_, ?_, ?_⟩, ?_⟩ <;>
      rw [field _ _ (by decide) (by decide), field virt _ (by decide) (by decide), same]
  · rintro ⟨samePath, sameLeaf⟩
    simp only [tablePath, List.cons.injEq, and_true] at samePath
    rw [number, number, samePath.1, samePath.2.1, samePath.2.2, sameLeaf]

theorem slot4_of_pageNumber {virt other : U64} (same : pageNumber other = pageNumber virt) :
    slot4 other = slot4 virt := by
  have samePath := (pageNumber_eq_iff.mp same).1
  simp only [tablePath, List.cons.injEq] at samePath
  exact samePath.1

theorem readEntry_pointer (memory : Memory) (frame : Frame) (index : Slot) :
    readEntry memory (frame.pointer hhdmOffset) (index.setWidth 64) =
      tables hhdmOffset memory frame index := rfl

theorem tables_writeEntry (memory : Memory) (frame : Frame) (index : Slot) (entry : U64) :
    tables hhdmOffset
        (writeEntry memory (frame.pointer hhdmOffset) (index.setWidth 64) entry) =
      write (tables hhdmOffset memory) frame index entry :=
  tables_store memory frame index entry

theorem writeEntry_outside {memory : Memory} {frame : Frame} {index : Slot} {entry address : U64}
    (outside : ¬frame.Holds hhdmOffset address) :
    writeEntry memory (frame.pointer hhdmOffset) (index.setWidth 64) entry address =
      memory address :=
  store_outside fun inSlot => outside (frame.slot_holds index inSlot)

theorem entryTable_eq (entry : U64) :
    entryTable hhdmOffset entry = (pageFormat.target entry).pointer hhdmOffset := by
  rw [entryTable, and_entryMask]
  rfl

theorem notPresent_eq (entry : U64) :
    notPresent entry ↔ pageFormat.present entry = false := notPresent_iff entry

end Nekonix
