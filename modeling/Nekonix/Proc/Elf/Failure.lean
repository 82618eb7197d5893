import Nekonix.Mm.Vmm.Drawn
import Nekonix.Proc.Elf

/-!
# When `elf_load` fails

`elf_load` returns 0 for a wrong magic or class, for lack of a frame for a page, and
for an image whose entry is 0.  Whatever it does, frames only come off the free stack.
-/

namespace Nekonix

variable {hhdmOffset data pagemap ph addr : U64} {machine before middle after : Machine}
  {header : ElfProgramHeader}

/-! Frames that come off the stack -/

namespace Drawn

theorem loadPage (hhdmOffset data pagemap ph : U64) (header : ElfProgramHeader)
    (machine : Machine) (addr : U64) :
    Drawn machine (elfLoadPage hhdmOffset data pagemap ph header machine addr).2 := by
  unfold elfLoadPage
  dsimp only
  split_ifs
  · exact request hhdmOffset machine
  · have mapped := map hhdmOffset (pmmRequestPage hhdmOffset machine).2 pagemap addr
      (pmmRequestPage hhdmOffset machine).1 header.flags
    exact ((request hhdmOffset machine).trans mapped).trans (of_stack rfl)

theorem loadPages (hhdmOffset data pagemap ph : U64) (header : ElfProgramHeader) (fuel : Nat)
    (machine : Machine) (addr : U64) :
    Drawn machine (elfLoadPages hhdmOffset data pagemap ph header fuel machine addr).2 := by
  induction fuel generalizing machine addr with
  | zero => exact of_stack rfl
  | succ fuel inductionHypothesis =>
      have first := loadPage hhdmOffset data pagemap ph header machine addr
      rw [elfLoadPages]
      dsimp only
      split_ifs
      · exact first.trans (inductionHypothesis _ _)
      · exact first
      · exact of_stack rfl

theorem loadSegment (hhdmOffset data pagemap : U64) (machine : Machine) (ph : U64) :
    Drawn machine (elfLoadSegment hhdmOffset data pagemap machine ph).2 := by
  unfold elfLoadSegment
  dsimp only
  split_ifs
  · exact of_stack rfl
  · exact loadPages ..

theorem loadSegments (hhdmOffset data pagemap ph : U64) (fuel : Nat) (machine : Machine) (i : U16) :
    Drawn machine (elfLoadSegments hhdmOffset data pagemap ph fuel machine i).2 := by
  induction fuel generalizing machine i with
  | zero => exact of_stack rfl
  | succ fuel inductionHypothesis =>
      have first := loadSegment hhdmOffset data pagemap machine
        (ph + i.setWidth 64 * elfProgramHeaderSize)
      rw [elfLoadSegments]
      dsimp only
      split_ifs
      · exact first.trans (inductionHypothesis _ _)
      · exact first
      · exact of_stack rfl

theorem load (hhdmOffset : U64) (machine : Machine) (data pagemap : U64) :
    Drawn machine (elfLoad hhdmOffset machine data pagemap).2 := by
  unfold elfLoad
  dsimp only
  split_ifs
  · exact of_stack rfl
  · exact of_stack rfl
  · exact loadSegments ..
  · exact loadSegments ..

end Drawn

/-! Pages that find a frame -/

/-- Every page of the image finds a frame when its turn comes. -/
def AllBacked (visits : List PageVisit) : Prop := ∀ visit ∈ visits, visit.machine.free ≠ []

theorem allBacked_cons {visit : PageVisit} {visits : List PageVisit} :
    AllBacked (visit :: visits) ↔ visit.machine.free ≠ [] ∧ AllBacked visits :=
  List.forall_mem_cons

theorem allBacked_append {visits further : List PageVisit} :
    AllBacked (visits ++ further) ↔ AllBacked visits ∧ AllBacked further :=
  List.forall_mem_append

theorem pmmRequestPage_eq_zero_iff (usable : machine.stack.Usable) :
    (pmmRequestPage hhdmOffset machine).1 = 0#64 ↔ machine.free = [] := by
  refine ⟨?_, fun empty => by rw [pmmRequestPage_empty empty]⟩
  intro isNull
  by_contra available
  obtain ⟨frame, nonzero, isFrame, -⟩ := (pmmRequestPage_spec hhdmOffset available).frame usable
  have zero : (0#64 : U64) = Frame.address 0#40 := by decide
  rw [isNull, zero] at isFrame
  exact nonzero (Frame.address_inj.mp isFrame).symm

theorem elfLoadPage_loaded_iff (usable : machine.stack.Usable) :
    (elfLoadPage hhdmOffset data pagemap ph header machine addr).1 = true ↔ machine.free ≠ [] := by
  rw [ne_eq, ← @pmmRequestPage_eq_zero_iff hhdmOffset machine usable]
  unfold elfLoadPage
  dsimp only
  split_ifs with failed <;> simp [failed]

theorem elfLoadPages_loaded_iff (fuel : Nat) (usable : machine.stack.Usable) :
    (elfLoadPages hhdmOffset data pagemap ph header fuel machine addr).1 = true ↔
      AllBacked (elfPageVisits hhdmOffset data pagemap ph header fuel machine addr) := by
  induction fuel generalizing machine addr with
  | zero => simp [elfLoadPages, elfPageVisits, AllBacked]
  | succ fuel inductionHypothesis =>
      have loadedIff := @elfLoadPage_loaded_iff hhdmOffset data pagemap ph addr machine header usable
      have drawn := Drawn.loadPage hhdmOffset data pagemap ph header machine addr
      rw [elfLoadPages, elfPageVisits]
      dsimp only
      by_cases inside : addr < header.vaddrEnd
      · rw [if_pos inside, if_pos inside, allBacked_cons, ← loadedIff]
        by_cases loaded : (elfLoadPage hhdmOffset data pagemap ph header machine addr).1 = true
        · rw [if_pos loaded, if_pos loaded, inductionHypothesis (drawn.usable usable)]
          simp [loaded]
        · rw [if_neg loaded]
          simp [loaded]
      · rw [if_neg inside, if_neg inside]
        simp [AllBacked]

theorem elfLoadSegment_loaded_iff (usable : machine.stack.Usable) :
    (elfLoadSegment hhdmOffset data pagemap machine ph).1 = true ↔
      AllBacked (elfSegmentVisits hhdmOffset data pagemap machine ph) := by
  unfold elfLoadSegment elfSegmentVisits
  dsimp only
  split_ifs
  · simp [AllBacked]
  · exact elfLoadPages_loaded_iff _ usable

theorem elfLoadSegments_loaded_iff (fuel : Nat) {i : U16} (usable : machine.stack.Usable) :
    (elfLoadSegments hhdmOffset data pagemap ph fuel machine i).1 = true ↔
      AllBacked (elfSegmentsVisits hhdmOffset data pagemap ph fuel machine i) := by
  induction fuel generalizing machine i with
  | zero => simp [elfLoadSegments, elfSegmentsVisits, AllBacked]
  | succ fuel inductionHypothesis =>
      have loadedIff := @elfLoadSegment_loaded_iff hhdmOffset data pagemap
        (ph + i.setWidth 64 * elfProgramHeaderSize) machine usable
      have drawn := Drawn.loadSegment hhdmOffset data pagemap machine
        (ph + i.setWidth 64 * elfProgramHeaderSize)
      rw [elfLoadSegments, elfSegmentsVisits]
      dsimp only
      by_cases further : i < (readElfHeader machine.memory data).ePhnum
      · rw [if_pos further, if_pos further, allBacked_append, ← loadedIff]
        by_cases loaded : (elfLoadSegment hhdmOffset data pagemap machine
            (ph + i.setWidth 64 * elfProgramHeaderSize)).1 = true
        · rw [if_pos loaded, if_pos loaded, inductionHypothesis (drawn.usable usable)]
          simp [loaded]
        · rw [if_neg loaded]
          simp [loaded]
      · rw [if_neg further, if_neg further]
        simp [AllBacked]

/-- An image that `elf_load` loads: an ELF file of 64 bits, a frame for each page, and
an entry that is not 0. -/
structure ElfLoadable (hhdmOffset : U64) (machine : Machine) (data pagemap : U64) : Prop where
  magic : (readElfHeader machine.memory data).eMagic = elfMagic
  elfClass : (readElfHeader machine.memory data).eClass = 2#8
  backed : AllBacked (elfVisits hhdmOffset machine data pagemap)
  entry : (readElfHeader (elfLoad hhdmOffset machine data pagemap).2.memory data).eEntry ≠ 0#64

theorem elfLoad_ne_zero_iff (usable : machine.stack.Usable) :
    (elfLoad hhdmOffset machine data pagemap).1 ≠ 0#64 ↔
      ElfLoadable hhdmOffset machine data pagemap := by
  have loadedIff := @elfLoadSegments_loaded_iff hhdmOffset data pagemap
    (data + (readElfHeader machine.memory data).ePhoff) machine 65536 0#16 usable
  constructor
  · intro nonzero
    by_cases magic : (readElfHeader machine.memory data).eMagic = elfMagic
    · by_cases elfClass : (readElfHeader machine.memory data).eClass = 2#8
      · by_cases loaded : (elfLoadSegments hhdmOffset data pagemap
            (data + (readElfHeader machine.memory data).ePhoff) 65536 machine 0#16).1 = true
        · have backed := loadedIff.mp loaded
          refine ⟨magic, elfClass, ?_, ?_⟩
          · simpa only [elfVisits, magic, elfClass, ne_eq, not_true_eq_false, if_false] using backed
          · simpa only [elfLoad, magic, elfClass, ne_eq, not_true_eq_false, if_false, loaded,
              if_true] using nonzero
        · simp [elfLoad, magic, elfClass, loaded] at nonzero
      · simp [elfLoad, magic, elfClass] at nonzero
    · simp [elfLoad, magic] at nonzero
  · rintro ⟨magic, elfClass, backed, entry⟩
    simp only [elfVisits, magic, elfClass, ne_eq, not_true_eq_false, if_false] at backed
    have loaded := loadedIff.mpr backed
    simpa only [elfLoad, magic, elfClass, ne_eq, not_true_eq_false, if_false, loaded,
      if_true] using entry

end Nekonix
