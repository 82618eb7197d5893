import Nekonix.Library.FlatMemory.Record
import Nekonix.Lib.Types

/-!
# The gates of `idt_init`

The descriptors lie in memory, byte for byte.  A vector without a gate has a descriptor of zeros,
which is not present.
-/

namespace Nekonix

open FlatMemory

variable {memory : Memory} {idt address : U64} {vector : Nat}

/-! `idt_entry_t` -/

def idtOffsetLow : Field 16 2 := ⟨0, by decide⟩
def idtSelector : Field 16 2 := ⟨2, by decide⟩
def idtIst : Field 16 1 := ⟨4, by decide⟩
def idtFlags : Field 16 1 := ⟨5, by decide⟩
def idtOffsetMiddle : Field 16 2 := ⟨6, by decide⟩
def idtOffsetHigh : Field 16 4 := ⟨8, by decide⟩
def idtZero : Field 16 4 := ⟨12, by decide⟩

/-- `IDT_ENTRY_COUNT` -/
def idtEntryCount : Nat := 256

/-- `&idt[num]` -/
def idtEntry (idt : U64) (num : Nat) : U64 := idt + BitVec.ofNat 64 (16 * num)

/-- `idt_set_gate` -/
def idtSetGate (memory : Memory) (idt : U64) (num : Nat) (base : U64) (sel : U16) (flags : U8) :
    Memory :=
  let entry := idtEntry idt num
  let memory := idtOffsetLow.write memory entry (base.setWidth 16)
  let memory := idtOffsetMiddle.write memory entry ((base >>> 16).setWidth 16)
  let memory := idtOffsetHigh.write memory entry ((base >>> 32).setWidth 32)
  let memory := idtSelector.write memory entry sel
  let memory := idtIst.write memory entry 0#8
  let memory := idtFlags.write memory entry flags
  idtZero.write memory entry 0#32

/-- The same selector and flags for some vectors, each with its own stub. -/
def idtSetGates (isrTable : Nat → U64) (sel : U16) (flags : U8) (idt : U64) (nums : List Nat)
    (memory : Memory) : Memory :=
  nums.foldl (fun memory num => idtSetGate memory idt num (isrTable num) sel flags) memory

/-- What `idt_init` makes of `idt_entries`. -/
def idtInitGates (isrTable : Nat → U64) (memory : Memory) (idt : U64) : Memory :=
  let memory := idtSetGates isrTable 0x08#16 0x8E#8 idt (List.range 32) memory
  let memory := idtSetGates isrTable 0x08#16 0x8E#8 idt (List.range' 0x20 16) memory
  idtSetGate memory idt 0x80 (isrTable 0x80) 0x08#16 0xEE#8

/-! The processor's view -/

/-- A descriptor as the processor takes it apart. -/
structure Gate where
  offset : U64
  selector : U16
  ist : U8
  flags : U8
  zero : U32
deriving DecidableEq

def gateAt (memory : Memory) (idt : U64) (num : Nat) : Gate where
  offset := idtOffsetHigh.read memory (idtEntry idt num) ++
    idtOffsetMiddle.read memory (idtEntry idt num) ++ idtOffsetLow.read memory (idtEntry idt num)
  selector := idtSelector.read memory (idtEntry idt num)
  ist := idtIst.read memory (idtEntry idt num)
  flags := idtFlags.read memory (idtEntry idt num)
  zero := idtZero.read memory (idtEntry idt num)

namespace Gate

def present (gate : Gate) : Bool := gate.flags.getLsbD 7

/-- The least privileged ring that may take the gate with `int`. -/
def ring (gate : Gate) : BitVec 2 := gate.flags.extractLsb' 5 2

/-- An interrupt gate, which clears the interrupt flag. -/
def closesInterrupts (gate : Gate) : Bool := gate.flags.extractLsb' 0 4 == 0xE#4

end Gate

/-! One gate -/

/-- The three parts of an address. -/
theorem append_parts (base : U64) : (base >>> 32).setWidth 32 ++ (base >>> 16).setWidth 16 ++
    base.setWidth 16 = base := by
  refine BitVec.eq_of_getLsbD_eq fun position small => ?_
  simp only [BitVec.getLsbD_append, BitVec.getLsbD_setWidth, BitVec.getLsbD_ushiftRight]
  by_cases low : position < 16
  · simp [low]
  · by_cases middle : position - 16 < 16
    · have back : 16 + (position - 16) = position := by omega
      simp [low, middle, back]
    · have high : position - 16 - 16 < 32 := by omega
      have back : 32 + (position - 16 - 16) = position := by omega
      simp [low, middle, high, back]

theorem gateAt_idtSetGate (memory : Memory) (idt : U64) (num : Nat) (base : U64) (sel : U16)
    (flags : U8) :
    gateAt (idtSetGate memory idt num base sel flags) idt num = ⟨base, sel, 0#8, flags, 0#32⟩ := by
  unfold gateAt idtSetGate
  simp (disch := decide) only [Field.read_write_same, Field.read_write_apart]
  rw [append_parts]

/-- What has the same bytes is the same gate. -/
theorem gateAt_congr {other : Memory}
    (agree : ∀ address, InRange (idtEntry idt vector) 16 address → other address = memory address) :
    gateAt other idt vector = gateAt memory idt vector := by
  unfold gateAt
  rw [idtOffsetHigh.read_congr (by decide) agree, idtOffsetMiddle.read_congr (by decide) agree,
    idtOffsetLow.read_congr (by decide) agree, idtSelector.read_congr (by decide) agree,
    idtIst.read_congr (by decide) agree, idtFlags.read_congr (by decide) agree,
    idtZero.read_congr (by decide) agree]

theorem idtSetGate_outside {num : Nat} {base : U64} {sel : U16} {flags : U8}
    (outside : ¬InRange (idtEntry idt num) 16 address) :
    idtSetGate memory idt num base sel flags address = memory address := by
  have short : 16 ≤ 2 ^ 64 := by decide
  unfold idtSetGate
  simp only [Field.write_outside short outside]

/-! The table -/

section Table

variable (room : idt.toNat + 16 * idtEntryCount ≤ 2 ^ 64)
include room

theorem idtEntry_toNat (small : vector < idtEntryCount) :
    (idtEntry idt vector).toNat = idt.toNat + 16 * vector := by
  unfold idtEntryCount at room small
  unfold idtEntry
  rw [BitVec.toNat_add, BitVec.toNat_ofNat]
  omega

/-- Different vectors have separate descriptors. -/
theorem idtEntry_separate {other : Nat} (small : vector < idtEntryCount)
    (otherSmall : other < idtEntryCount) (different : vector ≠ other) :
    Separate (idtEntry idt vector) 16 (idtEntry idt other) 16 := by
  have place := idtEntry_toNat room small
  have otherPlace := idtEntry_toNat room otherSmall
  unfold idtEntryCount at *
  refine separate_of_le ?_ ?_ ?_ <;> omega

theorem idtEntry_inTable (small : vector < idtEntryCount)
    (inside : InRange (idtEntry idt vector) 16 address) :
    InRange idt (16 * idtEntryCount) address := by
  have place := idtEntry_toNat room small
  rw [inRange_iff_toNat (by omega), place] at inside
  rw [inRange_iff_toNat room]
  omega

theorem gateAt_other {num : Nat} {base : U64} {sel : U16} {flags : U8}
    (small : vector < idtEntryCount) (numSmall : num < idtEntryCount) (different : vector ≠ num) :
    gateAt (idtSetGate memory idt num base sel flags) idt vector = gateAt memory idt vector :=
  gateAt_congr fun _ inside =>
    idtSetGate_outside (idtEntry_separate room small numSmall different _ inside)

/-- After a loop over some vectors these have their gates, and the others what they had. -/
theorem gateAt_idtSetGates {isrTable : Nat → U64} {sel : U16} {flags : U8} {nums : List Nat}
    (small : vector < idtEntryCount) (numsSmall : ∀ num ∈ nums, num < idtEntryCount) :
    gateAt (idtSetGates isrTable sel flags idt nums memory) idt vector =
      if vector ∈ nums then ⟨isrTable vector, sel, 0#8, flags, 0#32⟩
      else gateAt memory idt vector := by
  induction nums generalizing memory with
  | nil => rfl
  | cons num rest inductionHypothesis =>
      have step : idtSetGates isrTable sel flags idt (num :: rest) memory =
          idtSetGates isrTable sel flags idt rest
            (idtSetGate memory idt num (isrTable num) sel flags) := rfl
      rw [step, inductionHypothesis fun later member =>
        numsSmall later (List.mem_cons_of_mem num member)]
      by_cases later : vector ∈ rest
      · rw [if_pos later, if_pos (List.mem_cons_of_mem num later)]
      · rw [if_neg later]
        by_cases same : vector = num
        · subst same
          rw [gateAt_idtSetGate, if_pos List.mem_cons_self]
        · have absent : vector ∉ num :: rest := List.not_mem_cons_of_ne_of_not_mem same later
          rw [if_neg absent, gateAt_other room small (numsSmall num List.mem_cons_self) same]

theorem idtSetGates_outside {isrTable : Nat → U64} {sel : U16} {flags : U8} {nums : List Nat}
    (numsSmall : ∀ num ∈ nums, num < idtEntryCount)
    (outside : ¬InRange idt (16 * idtEntryCount) address) :
    idtSetGates isrTable sel flags idt nums memory address = memory address := by
  induction nums generalizing memory with
  | nil => rfl
  | cons num rest inductionHypothesis =>
      have step : idtSetGates isrTable sel flags idt (num :: rest) memory =
          idtSetGates isrTable sel flags idt rest
            (idtSetGate memory idt num (isrTable num) sel flags) := rfl
      rw [step, inductionHypothesis fun later member =>
        numsSmall later (List.mem_cons_of_mem num member)]
      exact idtSetGate_outside fun inside =>
        outside (idtEntry_inTable room (numsSmall num List.mem_cons_self) inside)

end Table

/-- The flags of the gates that user code may not enter by. -/
theorem kernelGate_flags : (0x8E#8).getLsbD 7 = true ∧ ((0x8E#8).extractLsb' 0 4 == 0xE#4) = true ∧
    (0x8E#8).extractLsb' 5 2 ≠ 3#2 := by
  decide

/-- The flags of the gate of the system call. -/
theorem userGate_flags : (0xEE#8).getLsbD 7 = true ∧ ((0xEE#8).extractLsb' 0 4 == 0xE#4) = true ∧
    (0xEE#8).extractLsb' 5 2 = 3#2 := by
  decide

/-- A descriptor of zeros. -/
theorem gateAt_cleared (cleared : ∀ address, InRange (idtEntry idt vector) 16 address →
      memory address = 0#8) : gateAt memory idt vector = ⟨0#64, 0#16, 0#8, 0#8, 0#32⟩ := by
  have same : gateAt memory idt vector = gateAt (fun _ => 0#8) idt vector := gateAt_congr cleared
  rw [same]
  unfold gateAt Field.read
  simp only [load_zeros]
  rfl

/-- The gates of the exceptions and the IRQs, that of the system call, and nothing else. -/
theorem gateAt_idtInitGates (isrTable : Nat → U64) (room : idt.toNat + 16 * idtEntryCount ≤ 2 ^ 64)
    (small : vector < idtEntryCount) :
    gateAt (idtInitGates isrTable memory idt) idt vector =
      if vector = 0x80 then ⟨isrTable vector, 0x08#16, 0#8, 0xEE#8, 0#32⟩
      else if vector < 48 then ⟨isrTable vector, 0x08#16, 0#8, 0x8E#8, 0#32⟩
      else gateAt memory idt vector := by
  unfold idtInitGates
  by_cases isCall : vector = 0x80
  · subst isCall
    rw [gateAt_idtSetGate, if_pos rfl]
  · rw [if_neg isCall, gateAt_other room small (by decide) isCall,
      gateAt_idtSetGates room small (by decide), gateAt_idtSetGates room small (by decide)]
    simp only [List.mem_range'_1, List.mem_range]
    by_cases below : vector < 48
    · rw [if_pos below]
      by_cases isException : vector < 32
      · rw [if_pos isException, ite_self]
      · rw [if_pos (by omega)]
    · rw [if_neg below, if_neg (by omega), if_neg (by omega)]

theorem idtInitGates_outside (isrTable : Nat → U64)
    (room : idt.toNat + 16 * idtEntryCount ≤ 2 ^ 64)
    (outside : ¬InRange idt (16 * idtEntryCount) address) :
    idtInitGates isrTable memory idt address = memory address := by
  have systemCall : 0x80 < idtEntryCount := by decide
  unfold idtInitGates
  rw [idtSetGate_outside fun inside => outside (idtEntry_inTable room systemCall inside),
    idtSetGates_outside room (by decide) outside, idtSetGates_outside room (by decide) outside]

/-- The table after `idt_init`: the exceptions, the IRQs and the system call have gates, each to its
own stub in the kernel's code segment with interrupts off, and user code may enter by the system
call alone.  Nothing outside the table changes. -/
theorem idt_init_gates (isrTable : Nat → U64) (room : idt.toNat + 16 * idtEntryCount ≤ 2 ^ 64)
    (cleared : ∀ address, InRange idt (16 * idtEntryCount) address → memory address = 0#8) :
    (∀ vector < idtEntryCount, ∃ gate,
      gateAt (idtInitGates isrTable memory idt) idt vector = gate ∧
      (gate.present = true ↔ vector < 48 ∨ vector = 0x80) ∧
      (gate.present = true → gate.offset = isrTable vector ∧ gate.selector = 0x08#16 ∧
        gate.ist = 0#8 ∧ gate.closesInterrupts = true ∧ (gate.ring = 3#2 ↔ vector = 0x80))) ∧
    ∀ address, ¬InRange idt (16 * idtEntryCount) address →
      idtInitGates isrTable memory idt address = memory address := by
  refine ⟨fun vector small => ⟨_, gateAt_idtInitGates isrTable room small, ?_⟩,
    fun address outside => idtInitGates_outside isrTable room outside⟩
  by_cases isCall : vector = 0x80
  · rw [if_pos isCall]
    obtain ⟨present, closes, ring⟩ := userGate_flags
    exact ⟨iff_of_true present (Or.inr isCall), fun _ => ⟨rfl, rfl, rfl, closes,
      iff_of_true ring isCall⟩⟩
  · rw [if_neg isCall]
    by_cases below : vector < 48
    · rw [if_pos below]
      obtain ⟨present, closes, ring⟩ := kernelGate_flags
      exact ⟨iff_of_true present (Or.inl below), fun _ => ⟨rfl, rfl, rfl, closes,
        iff_of_false ring isCall⟩⟩
    · have absent : Gate.present ⟨0#64, 0#16, 0#8, 0#8, 0#32⟩ ≠ true := by decide
      rw [if_neg below,
        gateAt_cleared fun _ inside => cleared _ (idtEntry_inTable room small inside)]
      exact ⟨iff_of_false absent (by omega), fun present => absurd present absent⟩

theorem idt_init_gates_clock :
    ∃ gate, gateAt (idtInitGates (fun num => BitVec.ofNat 64 (0x1000 + num)) (fun _ => 0#8)
        0x4000#64) 0x4000#64 0x20 = gate ∧ gate.present = true ∧ gate.offset = 0x1020#64 := by
  obtain ⟨gate, isGate, isPresent, further⟩ :=
    (idt_init_gates (fun num => BitVec.ofNat 64 (0x1000 + num))
      (show (0x4000#64).toNat + 16 * idtEntryCount ≤ 2 ^ 64 by decide)
      (fun _ _ => rfl)).1 0x20 (by decide)
  have present := isPresent.mpr (Or.inl (by decide))
  exact ⟨gate, isGate, present, (further present).1⟩

end Nekonix
