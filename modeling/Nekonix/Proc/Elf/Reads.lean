import Nekonix.Library.Span
import Nekonix.Proc.Elf.Bounds
import Nekonix.Proc.Elf.Failure

/-!
# What `elf_load` reads of the file

`elf_load` is not told how long the file is.  Which bytes it reads follows from the
file alone, as long as it does not write over the file it reads.
-/

namespace Nekonix

open FlatMemory RadixTable

variable {hhdmOffset data pagemap ph : U64} {machine next finish : Machine} {root : Frame}
  {slots : Set Slot} {header : ElfProgramHeader} {addr : U64} {source memory other : Memory}
  {size : Nat} {offset : U64}

/-! The reads, in order -/

def PageFill.reads (data : U64) : PageFill → List Span
  | .copy fileOffset toCopy => [⟨data + fileOffset, toCopy.toNat⟩]
  | .clear => []

/-- A turn of the page loop reads `p_filesz` and what it copies. -/
def elfPageReads (hhdmOffset data pagemap ph : U64) (header : ElfProgramHeader)
    (machine : Machine) (addr : U64) : List Span :=
  let (phys, machine) := pmmRequestPage hhdmOffset machine
  if phys = 0#64 then
    []
  else
    let machine := vmmMap hhdmOffset machine pagemap addr phys header.flags
    ⟨ph + 32#64, 8⟩ ::
      (elfPageFill machine.memory ph header.pOffset header.vaddrStart addr).reads data

def elfPagesReads (hhdmOffset data pagemap ph : U64) (header : ElfProgramHeader) :
    (fuel : Nat) → Machine → (addr : U64) → List Span
  | 0, _, _ => []
  | fuel + 1, machine, addr =>
      if addr < header.vaddrEnd then
        let (loaded, next) := elfLoadPage hhdmOffset data pagemap ph header machine addr
        elfPageReads hhdmOffset data pagemap ph header machine addr ++
          if loaded then
            elfPagesReads hhdmOffset data pagemap ph header fuel next (addr + pageSize)
          else []
      else []

/-- `p_type`, and of a segment that is loaded `p_vaddr`, `p_memsz`, `p_offset` and `p_flags`. -/
def elfSegmentReads (hhdmOffset data pagemap : U64) (machine : Machine) (ph : U64) : List Span :=
  let header := readElfProgramHeader machine.memory ph
  ⟨ph, 4⟩ ::
    if header.pType ≠ ptLoad then
      []
    else
      [⟨ph + 16#64, 8⟩, ⟨ph + 40#64, 8⟩, ⟨ph + 8#64, 8⟩, ⟨ph + 4#64, 4⟩] ++
        elfPagesReads hhdmOffset data pagemap ph header (2 ^ 52) machine header.vaddrStart

/-- Every turn of the segment loop reads `e_phnum`. -/
def elfSegmentsReads (hhdmOffset data pagemap ph : U64) :
    (fuel : Nat) → Machine → (i : U16) → List Span
  | 0, _, _ => []
  | fuel + 1, machine, i =>
      ⟨data + 56#64, 2⟩ ::
        if i < (readElfHeader machine.memory data).ePhnum then
          let header := ph + i.setWidth 64 * elfProgramHeaderSize
          let (loaded, next) := elfLoadSegment hhdmOffset data pagemap machine header
          elfSegmentReads hhdmOffset data pagemap machine header ++
            if loaded then elfSegmentsReads hhdmOffset data pagemap ph fuel next (i + 1#16) else []
        else []

/-- What `elf_load` reads through `data`. -/
def elfReads (hhdmOffset : U64) (machine : Machine) (data pagemap : U64) : List Span :=
  let header := readElfHeader machine.memory data
  ⟨data, 4⟩ ::
    if header.eMagic ≠ elfMagic then
      []
    else
      ⟨data + 4#64, 1⟩ ::
        if header.eClass ≠ 2#8 then
          []
        else
          let ph := data + header.ePhoff
          let (loaded, _) := elfLoadSegments hhdmOffset data pagemap ph 65536 machine 0#16
          ⟨data + 32#64, 8⟩ :: elfSegmentsReads hhdmOffset data pagemap ph 65536 machine 0#16 ++
            if loaded then [⟨data + 24#64, 8⟩] else []

/-- Every span lies in the file. -/
def AllWithin (data : U64) (size : Nat) (spans : List Span) : Prop :=
  ∀ span ∈ spans, span.Within data size

theorem allWithin_nil : AllWithin data size [] := List.forall_mem_nil _

theorem allWithin_cons {span : Span} {spans : List Span} :
    AllWithin data size (span :: spans) ↔ span.Within data size ∧ AllWithin data size spans :=
  List.forall_mem_cons

theorem allWithin_append {spans further : List Span} :
    AllWithin data size (spans ++ further) ↔
      AllWithin data size spans ∧ AllWithin data size further :=
  List.forall_mem_append

/-! Files whose headers and segments lie in the file -/

/-- The `count` bytes at an offset of the file. -/
def InFileAt (size : Nat) (offset : U64) (count : Nat) : Prop := offset.toNat + count ≤ size

instance (size : Nat) (offset : U64) (count : Nat) : Decidable (InFileAt size offset count) :=
  inferInstanceAs (Decidable (_ ≤ _))

def PageFill.Fits (size : Nat) : PageFill → Prop
  | .copy fileOffset toCopy => InFileAt size fileOffset toCopy.toNat
  | .clear => True

instance (size : Nat) : (fill : PageFill) → Decidable (fill.Fits size)
  | .copy fileOffset toCopy => inferInstanceAs (Decidable (InFileAt size fileOffset toCopy.toNat))
  | .clear => inferInstanceAs (Decidable True)

/-- What goes into each page of a segment, from a page on. -/
def PagesFit (source : Memory) (data : U64) (size : Nat) (offset pOffset vaddrStart vaddrEnd
    addr : U64) : Prop :=
  ∀ page, addr ≤ page → page < vaddrEnd → 4096 ∣ page.toNat →
    InFileAt size (offset + 32#64) 8 ∧
      (elfPageFill source (data + offset) pOffset vaddrStart page).Fits size

/-- The program header at an offset of the file, and the segment's contents. -/
structure SegmentFits (source : Memory) (data : U64) (size : Nat) (offset : U64)
    (header : ElfProgramHeader) : Prop where
  type : InFileAt size offset 4
  fields : header.pType = ptLoad →
    InFileAt size (offset + 16#64) 8 ∧ InFileAt size (offset + 40#64) 8 ∧
      InFileAt size (offset + 8#64) 8 ∧ InFileAt size (offset + 4#64) 4
  pages : header.pType = ptLoad →
    PagesFit source data size offset header.pOffset header.vaddrStart header.vaddrEnd
      header.vaddrStart

/-- Where the program header `i` lies in the file. -/
def headerOffset (source : Memory) (data : U64) (i : U16) : U64 :=
  (readElfHeader source data).ePhoff + i.setWidth 64 * elfProgramHeaderSize

/-- The program headers from `i` on. -/
def SegmentsFit (source : Memory) (data : U64) (size : Nat) (i : U16) : Prop :=
  ∀ j, i ≤ j → j < (readElfHeader source data).ePhnum →
    SegmentFits source data size (headerOffset source data j)
      (readElfProgramHeader source (data + headerOffset source data j))

/-- The file has all the bytes that its headers ask for. -/
structure FileFits (source : Memory) (data : U64) (size : Nat) : Prop where
  magic : 4 ≤ size
  elfClass : (readElfHeader source data).eMagic = elfMagic → 5 ≤ size
  header : (readElfHeader source data).eMagic = elfMagic →
    (readElfHeader source data).eClass = 2#8 → 58 ≤ size
  segments : (readElfHeader source data).eMagic = elfMagic →
    (readElfHeader source data).eClass = 2#8 → SegmentsFit source data size 0#16

/-! A file that stays put is read as it was -/

/-- The address space is sound, and the file is where it was. -/
structure Intact (hhdmOffset : U64) (root : Frame) (slots : Set Slot) (source : Memory)
    (data : U64) (size : Nat) (machine : Machine) : Prop where
  usable : machine.stack.Usable
  space : AddressSpace hhdmOffset machine root slots
  quiet : QuietRange hhdmOffset root slots machine data size
  same : SameBytes data size source machine.memory

theorem Intact.step {mapping : Mapping}
    (intact : Intact hhdmOffset root slots source data size machine)
    (step : MapStep hhdmOffset root slots machine mapping next) :
    Intact hhdmOffset root slots source data size next := by
  obtain ⟨quiet, same⟩ := intact.quiet.step step
  refine ⟨step.2.usable, step.2.space, quiet, ?_⟩
  intro address inside
  rw [same address inside, intact.same address inside]

theorem Intact.run {mappings : List Mapping}
    (intact : Intact hhdmOffset root slots source data size machine)
    (run : MapRun hhdmOffset root slots machine mappings finish) :
    Intact hhdmOffset root slots source data size finish := by
  induction run with
  | nil => exact intact
  | snoc _ step inductionHypothesis => exact inductionHypothesis.step step

theorem SameBytes.loadWithin (same : SameBytes data size memory other) {address : U64} {count : Nat}
    (within : (Span.mk address count).Within data size) :
    FlatMemory.load other count address = FlatMemory.load memory count address :=
  load_congr fun position below => same _ (within position below)

theorem within_iff_inFileAt (small : size < 2 ^ 64) {count : Nat} (positive : 0 < count) :
    (Span.mk (data + offset) count).Within data size ↔ InFileAt size offset count := by
  rw [Span.within_iff small, InFileAt]
  omega

theorem field_within_iff (small : size < 2 ^ 64) {count : Nat} (field : U64)
    (positive : 0 < count) :
    (Span.mk (data + offset + field) count).Within data size ↔
      InFileAt size (offset + field) count := by
  rw [BitVec.add_assoc]
  exact within_iff_inFileAt small positive

/-! The page loop -/

theorem PageFill.reads_within_iff (small : size < 2 ^ 64) {fill : PageFill}
    (bounded : fill.Bounded) : AllWithin data size (fill.reads data) ↔ fill.Fits size := by
  cases fill with
  | copy fileOffset toCopy =>
      rw [reads, allWithin_cons, within_iff_inFileAt small bounded.1]
      exact and_iff_left allWithin_nil
  | clear => exact iff_of_true allWithin_nil trivial

theorem elfPageFill_congr {pOffset vaddrStart : U64}
    (same : Memory.load64 other (ph + 32#64) = Memory.load64 memory (ph + 32#64)) :
    elfPageFill other ph pOffset vaddrStart addr = elfPageFill memory ph pOffset vaddrStart addr := by
  have filesz : (readElfProgramHeader other ph).pFilesz =
      (readElfProgramHeader memory ph).pFilesz := same
  rw [elfPageFill, filesz, elfPageFill]

/-- A turn that finds its frames reads what the file at rest says, and leaves it at rest. -/
theorem elfPageReads_within_iff (small : size < 2 ^ 64)
    (intact : Intact hhdmOffset root slots source data size machine) (start : slot4 addr ∈ slots)
    (enough : 1 + missingTables hhdmOffset machine.memory (root.pointer hhdmOffset) addr ≤
      machine.free.length) :
    AllWithin data size (elfPageReads hhdmOffset data (root.pointer hhdmOffset) (data + offset)
        header machine addr) ↔
      InFileAt size (offset + 32#64) 8 ∧
        (elfPageFill source (data + offset) header.pOffset header.vaddrStart addr).Fits size := by
  obtain ⟨frame, created, nonzero, isFrame, -, backed⟩ :=
    backPage_spec intact.usable intact.space start header.entryFlags enough
  have nonnull : frame.address ≠ 0#64 := by
    intro null
    apply nonzero
    rw [← Frame.address_inj, null]
    rfl
  have mapStep : MapStep hhdmOffset root slots machine
      ⟨⟨addr, frame.address, header.flags⟩, frame :: created⟩
      (vmmMap hhdmOffset (pmmRequestPage hhdmOffset machine).2 (root.pointer hhdmOffset) addr
        frame.address header.flags) :=
    ⟨start, (backed _ (fun _ _ => rfl) rfl).mapped⟩
  have mapped := intact.step mapStep
  have reads : elfPageReads hhdmOffset data (root.pointer hhdmOffset) (data + offset) header
      machine addr =
      ⟨data + offset + 32#64, 8⟩ ::
        (elfPageFill (vmmMap hhdmOffset (pmmRequestPage hhdmOffset machine).2
          (root.pointer hhdmOffset) addr frame.address header.flags).memory (data + offset)
            header.pOffset header.vaddrStart addr).reads data := by
    simp only [elfPageReads, isFrame, if_neg nonnull]
  rw [reads, allWithin_cons, ← field_within_iff small _ (by decide)]
  constructor
  · rintro ⟨filesz, fill⟩
    rw [PageFill.reads_within_iff small (elfPageFill_bounded _ _ _ _ _),
      elfPageFill_congr (mapped.same.loadWithin filesz)] at fill
    exact ⟨filesz, fill⟩
  · rintro ⟨filesz, fill⟩
    refine ⟨filesz, ?_⟩
    rw [PageFill.reads_within_iff small (elfPageFill_bounded _ _ _ _ _),
      elfPageFill_congr (mapped.same.loadWithin filesz)]
    exact fill

/-- A turn that finds no frame reads nothing. -/
theorem elfPageReads_empty (empty : machine.free = []) :
    elfPageReads hhdmOffset data pagemap ph header machine addr = [] := by
  simp [elfPageReads, pmmRequestPage_empty empty]

theorem PagesFit.tail {pOffset vaddrStart vaddrEnd : U64}
    (fit : PagesFit source data size offset pOffset vaddrStart vaddrEnd addr)
    (further : addr ≤ addr + pageSize) :
    PagesFit source data size offset pOffset vaddrStart vaddrEnd (addr + pageSize) :=
  fun page later => fit page (BitVec.le_trans further later)

/-- The page at hand and those after it. -/
theorem PagesFit.cons (aligned : 4096 ∣ addr.toNat) (inside : addr < header.vaddrEnd)
    {pOffset vaddrStart : U64}
    (here : InFileAt size (offset + 32#64) 8 ∧
      (elfPageFill source (data + offset) pOffset vaddrStart addr).Fits size)
    (rest : PagesFit source data size offset pOffset vaddrStart header.vaddrEnd
      (addr + pageSize)) :
    PagesFit source data size offset pOffset vaddrStart header.vaddrEnd addr := by
  intro page later before pageAligned
  by_cases isHere : page = addr
  · rw [isHere]
    exact here
  · refine rest page ?_ before pageAligned
    have exactly := (header.next_page aligned inside).1
    have different : page.toNat ≠ addr.toNat := fun same => isHere (BitVec.eq_of_toNat_eq same)
    rw [BitVec.le_def] at later ⊢
    omega

theorem elfPagesReads_within (small : size < 2 ^ 64) (fuel : Nat)
    (intact : Intact hhdmOffset root slots source data size machine)
    (aligned : 4096 ∣ addr.toNat)
    (allowed : VisitsAllowed hhdmOffset root slots (elfPageVisits hhdmOffset data
      (root.pointer hhdmOffset) (data + offset) header fuel machine addr))
    (fit : PagesFit source data size offset header.pOffset header.vaddrStart header.vaddrEnd addr) :
    AllWithin data size (elfPagesReads hhdmOffset data (root.pointer hhdmOffset) (data + offset)
      header fuel machine addr) := by
  induction fuel generalizing machine addr with
  | zero => exact allWithin_nil
  | succ fuel inductionHypothesis =>
      unfold elfPageVisits at allowed
      unfold elfPagesReads
      by_cases inside : addr < header.vaddrEnd
      · simp only [if_pos inside] at allowed ⊢
        obtain ⟨enough, start⟩ := allowed _ List.mem_cons_self
        rcases enough with empty | enough
        · rw [elfPageReads_empty empty, elfLoadPage_empty empty]
          exact allWithin_nil
        · obtain ⟨loaded, frame, created, mapped, turn⟩ :=
            elfLoadPage_spec data (data + offset) header intact.usable intact.space start enough
          rw [if_pos loaded] at allowed ⊢
          have exactly := (header.next_page aligned inside).1
          have further : addr ≤ addr + pageSize := by
            rw [BitVec.le_def]
            omega
          refine allWithin_append.mpr ⟨?_, ?_⟩
          · exact (elfPageReads_within_iff small intact start enough).mpr
              (fit addr (BitVec.le_refl addr) inside aligned)
          · exact inductionHypothesis (intact.step (turn.step start)) (by omega)
              (fun visit later => allowed visit (List.mem_cons_of_mem _ later)) (fit.tail further)
      · simp only [if_neg inside]
        exact allWithin_nil

/-- With a frame for each page the page loop comes to read what goes into each. -/
theorem pagesFit_of_reads (small : size < 2 ^ 64) (fuel : Nat)
    (intact : Intact hhdmOffset root slots source data size machine)
    (aligned : 4096 ∣ addr.toNat)
    (allowed : VisitsAllowed hhdmOffset root slots (elfPageVisits hhdmOffset data
      (root.pointer hhdmOffset) (data + offset) header fuel machine addr))
    (backed : AllBacked (elfPageVisits hhdmOffset data
      (root.pointer hhdmOffset) (data + offset) header fuel machine addr))
    (fueled : header.vaddrEnd.toNat - addr.toNat ≤ 4096 * fuel)
    (within : AllWithin data size (elfPagesReads hhdmOffset data (root.pointer hhdmOffset)
      (data + offset) header fuel machine addr)) :
    PagesFit source data size offset header.pOffset header.vaddrStart header.vaddrEnd addr := by
  induction fuel generalizing machine addr with
  | zero =>
      intro page later before
      rw [BitVec.le_def] at later
      rw [BitVec.lt_def] at before
      omega
  | succ fuel inductionHypothesis =>
      unfold elfPageVisits at allowed backed
      unfold elfPagesReads at within
      by_cases inside : addr < header.vaddrEnd
      · simp only [if_pos inside] at allowed backed within
        obtain ⟨enough, start⟩ := allowed _ List.mem_cons_self
        obtain ⟨nonempty, othersBacked⟩ := allBacked_cons.mp backed
        have enough := enough.resolve_left nonempty
        obtain ⟨loaded, frame, created, mapped, turn⟩ :=
          elfLoadPage_spec data (data + offset) header intact.usable intact.space start enough
        rw [if_pos loaded] at allowed othersBacked within
        obtain ⟨here, rest⟩ := allWithin_append.mp within
        have exactly := (header.next_page aligned inside).1
        refine PagesFit.cons aligned inside ((elfPageReads_within_iff small intact start enough).mp
          here) ?_
        exact inductionHypothesis (intact.step (turn.step start)) (by omega)
          (fun visit later => allowed visit (List.mem_cons_of_mem _ later)) othersBacked (by omega)
          rest
      · intro page later before
        rw [BitVec.le_def] at later
        rw [BitVec.lt_def] at before inside
        omega

/-! The segment loop -/

theorem headerType_same (same : SameBytes data size source memory)
    (within : (Span.mk ph 4).Within data size) :
    (readElfProgramHeader memory ph).pType = (readElfProgramHeader source ph).pType :=
  same.loadWithin within

/-- The four fields read before the page loop say where the pages are. -/
theorem headerFields_same (same : SameBytes data size source memory)
    (within : AllWithin data size
      [⟨ph + 16#64, 8⟩, ⟨ph + 40#64, 8⟩, ⟨ph + 8#64, 8⟩, ⟨ph + 4#64, 4⟩]) :
    (readElfProgramHeader memory ph).pOffset = (readElfProgramHeader source ph).pOffset ∧
    (readElfProgramHeader memory ph).vaddrStart = (readElfProgramHeader source ph).vaddrStart ∧
    (readElfProgramHeader memory ph).vaddrEnd = (readElfProgramHeader source ph).vaddrEnd := by
  obtain ⟨vaddrWithin, rest⟩ := allWithin_cons.mp within
  obtain ⟨memszWithin, rest⟩ := allWithin_cons.mp rest
  obtain ⟨offsetWithin, -⟩ := allWithin_cons.mp rest
  have vaddr : (readElfProgramHeader memory ph).pVaddr = (readElfProgramHeader source ph).pVaddr :=
    same.loadWithin vaddrWithin
  have memsz : (readElfProgramHeader memory ph).pMemsz = (readElfProgramHeader source ph).pMemsz :=
    same.loadWithin memszWithin
  refine ⟨same.loadWithin offsetWithin, ?_, ?_⟩
  · rw [ElfProgramHeader.vaddrStart, vaddr, ElfProgramHeader.vaddrStart]
  · rw [ElfProgramHeader.vaddrEnd, vaddr, memsz, ElfProgramHeader.vaddrEnd]

theorem headerFields_within_iff (data offset : U64) (small : size < 2 ^ 64) :
    AllWithin data size [⟨data + offset + 16#64, 8⟩, ⟨data + offset + 40#64, 8⟩,
        ⟨data + offset + 8#64, 8⟩, ⟨data + offset + 4#64, 4⟩] ↔
      InFileAt size (offset + 16#64) 8 ∧ InFileAt size (offset + 40#64) 8 ∧
        InFileAt size (offset + 8#64) 8 ∧ InFileAt size (offset + 4#64) 4 := by
  rw [allWithin_cons, allWithin_cons, allWithin_cons, allWithin_cons,
    field_within_iff small _ (by decide), field_within_iff small _ (by decide),
    field_within_iff small _ (by decide), field_within_iff small _ (by decide),
    and_iff_left allWithin_nil]

theorem elfSegmentReads_within (small : size < 2 ^ 64)
    (intact : Intact hhdmOffset root slots source data size machine)
    (allowed : VisitsAllowed hhdmOffset root slots
      (elfSegmentVisits hhdmOffset data (root.pointer hhdmOffset) machine (data + offset)))
    (fits : SegmentFits source data size offset (readElfProgramHeader source (data + offset))) :
    AllWithin data size (elfSegmentReads hhdmOffset data (root.pointer hhdmOffset) machine
      (data + offset)) := by
  have typeWithin := (@within_iff_inFileAt data size offset small 4 (by decide)).mpr fits.type
  have sameType := headerType_same intact.same typeWithin
  unfold elfSegmentVisits at allowed
  unfold elfSegmentReads
  dsimp only at allowed ⊢
  refine allWithin_cons.mpr ⟨typeWithin, ?_⟩
  split_ifs at allowed ⊢ with skipped
  · exact allWithin_nil
  · rw [not_not, sameType] at skipped
    have fields := (headerFields_within_iff data offset small).mpr (fits.fields skipped)
    refine allWithin_append.mpr ⟨fields, ?_⟩
    obtain ⟨sameOffset, sameStart, sameEnd⟩ := headerFields_same intact.same fields
    refine elfPagesReads_within small _ intact (ElfProgramHeader.vaddrStart_dvd _) allowed ?_
    rw [sameOffset, sameStart, sameEnd]
    exact fits.pages skipped

theorem segmentFits_of_reads (small : size < 2 ^ 64)
    (intact : Intact hhdmOffset root slots source data size machine)
    (allowed : VisitsAllowed hhdmOffset root slots
      (elfSegmentVisits hhdmOffset data (root.pointer hhdmOffset) machine (data + offset)))
    (backed : AllBacked
      (elfSegmentVisits hhdmOffset data (root.pointer hhdmOffset) machine (data + offset)))
    (within : AllWithin data size (elfSegmentReads hhdmOffset data (root.pointer hhdmOffset) machine
      (data + offset))) :
    SegmentFits source data size offset (readElfProgramHeader source (data + offset)) := by
  unfold elfSegmentVisits at allowed backed
  unfold elfSegmentReads at within
  dsimp only at allowed backed within
  obtain ⟨typeWithin, rest⟩ := allWithin_cons.mp within
  have sameType := headerType_same intact.same typeWithin
  have type := (within_iff_inFileAt small (by decide)).mp typeWithin
  rw [sameType] at allowed backed rest
  by_cases skipped : (readElfProgramHeader source (data + offset)).pType ≠ ptLoad
  · exact ⟨type, fun load => absurd load skipped, fun load => absurd load skipped⟩
  · rw [if_neg skipped] at allowed backed rest
    obtain ⟨fields, pages⟩ := allWithin_append.mp rest
    obtain ⟨sameOffset, sameStart, sameEnd⟩ := headerFields_same intact.same fields
    have bound := (readElfProgramHeader machine.memory (data + offset)).vaddrEnd.isLt
    have fit := pagesFit_of_reads small _ intact (ElfProgramHeader.vaddrStart_dvd _) allowed backed
      (by omega) pages
    rw [sameOffset, sameStart, sameEnd] at fit
    exact ⟨type, fun _ => (headerFields_within_iff data offset small).mp fields, fun _ => fit⟩

/-- With `e_phnum` in the file the segment loop goes by the file at rest. -/
theorem Intact.phnum (intact : Intact hhdmOffset root slots source data size machine)
    (within : (Span.mk (data + 56#64) 2).Within data size) :
    (readElfHeader machine.memory data).ePhnum = (readElfHeader source data).ePhnum :=
  intact.same.loadWithin within

theorem SegmentsFit.tail {i : U16} (fit : SegmentsFit source data size i)
    (inside : i < (readElfHeader source data).ePhnum) :
    SegmentsFit source data size (i + 1#16) := by
  intro j later
  refine fit j ?_
  have step := next_index inside
  rw [BitVec.le_def] at later ⊢
  omega

theorem SegmentsFit.cons {i : U16} (inside : i < (readElfHeader source data).ePhnum)
    (here : SegmentFits source data size (headerOffset source data i)
      (readElfProgramHeader source (data + headerOffset source data i)))
    (rest : SegmentsFit source data size (i + 1#16)) : SegmentsFit source data size i := by
  intro j later before
  by_cases isHere : j = i
  · rw [isHere]
    exact here
  · refine rest j ?_ before
    have step := next_index inside
    have different : j.toNat ≠ i.toNat := fun same => isHere (BitVec.eq_of_toNat_eq same)
    rw [BitVec.le_def] at later ⊢
    omega

theorem headerOffset_address (source : Memory) (data : U64) (i : U16) :
    data + (readElfHeader source data).ePhoff + i.setWidth 64 * elfProgramHeaderSize =
      data + headerOffset source data i :=
  BitVec.add_assoc ..

theorem elfSegmentsReads_within (small : size < 2 ^ 64) (fuel : Nat) {i : U16}
    (intact : Intact hhdmOffset root slots source data size machine)
    (phnum : (Span.mk (data + 56#64) 2).Within data size)
    (allowed : VisitsAllowed hhdmOffset root slots (elfSegmentsVisits hhdmOffset data
      (root.pointer hhdmOffset) (data + (readElfHeader source data).ePhoff) fuel machine i))
    (fit : SegmentsFit source data size i) :
    AllWithin data size (elfSegmentsReads hhdmOffset data (root.pointer hhdmOffset)
      (data + (readElfHeader source data).ePhoff) fuel machine i) := by
  induction fuel generalizing machine i with
  | zero => exact allWithin_nil
  | succ fuel inductionHypothesis =>
      unfold elfSegmentsVisits at allowed
      unfold elfSegmentsReads
      refine allWithin_cons.mpr ⟨phnum, ?_⟩
      rw [intact.phnum phnum] at allowed ⊢
      by_cases inside : i < (readElfHeader source data).ePhnum
      · simp only [if_pos inside, headerOffset_address] at allowed ⊢
        have here : VisitsAllowed hhdmOffset root slots _ :=
          fun visit membership => allowed visit (List.mem_append_left _ membership)
        obtain ⟨mappings, first⟩ := elfLoadSegment_run _ intact.usable intact.space here
        refine allWithin_append.mpr
          ⟨elfSegmentReads_within small intact here (fit i (BitVec.le_refl i) inside), ?_⟩
        by_cases loaded : (elfLoadSegment hhdmOffset data (root.pointer hhdmOffset) machine
            (data + headerOffset source data i)).1 = true
        · rw [if_pos loaded] at allowed ⊢
          exact inductionHypothesis (intact.run first.run)
            (fun visit later => allowed visit (List.mem_append_right _ later)) (fit.tail inside)
        · rw [if_neg loaded]
          exact allWithin_nil
      · simp only [if_neg inside]
        exact allWithin_nil

theorem segmentsFit_of_reads (small : size < 2 ^ 64) (fuel : Nat) {i : U16}
    (intact : Intact hhdmOffset root slots source data size machine)
    (phnum : (Span.mk (data + 56#64) 2).Within data size)
    (allowed : VisitsAllowed hhdmOffset root slots (elfSegmentsVisits hhdmOffset data
      (root.pointer hhdmOffset) (data + (readElfHeader source data).ePhoff) fuel machine i))
    (backed : AllBacked (elfSegmentsVisits hhdmOffset data
      (root.pointer hhdmOffset) (data + (readElfHeader source data).ePhoff) fuel machine i))
    (fueled : 65536 ≤ i.toNat + fuel)
    (within : AllWithin data size (elfSegmentsReads hhdmOffset data (root.pointer hhdmOffset)
      (data + (readElfHeader source data).ePhoff) fuel machine i)) :
    SegmentsFit source data size i := by
  induction fuel generalizing machine i with
  | zero =>
      have bound := i.isLt
      omega
  | succ fuel inductionHypothesis =>
      unfold elfSegmentsVisits at allowed backed
      unfold elfSegmentsReads at within
      have within := (allWithin_cons.mp within).2
      rw [intact.phnum phnum] at allowed backed within
      by_cases inside : i < (readElfHeader source data).ePhnum
      · simp only [if_pos inside, headerOffset_address] at allowed backed within
        have here : VisitsAllowed hhdmOffset root slots _ :=
          fun visit membership => allowed visit (List.mem_append_left _ membership)
        obtain ⟨mappings, first⟩ := elfLoadSegment_run _ intact.usable intact.space here
        obtain ⟨hereBacked, othersBacked⟩ := allBacked_append.mp backed
        obtain ⟨hereWithin, othersWithin⟩ := allWithin_append.mp within
        have loaded := (elfLoadSegment_loaded_iff intact.usable).mpr hereBacked
        rw [if_pos loaded] at allowed othersBacked othersWithin
        have step := next_index inside
        refine SegmentsFit.cons inside
          (segmentFits_of_reads small intact here hereBacked hereWithin) ?_
        exact inductionHypothesis (intact.run first.run)
          (fun visit later => allowed visit (List.mem_append_right _ later)) othersBacked
          (by omega) othersWithin
      · intro j later before
        rw [BitVec.le_def] at later
        rw [BitVec.lt_def] at before inside
        omega

/-! The load -/

/-- `elf_load` reads bytes of the file alone, and rejects a file that lacks some of the bytes
its headers ask for. -/
structure ReadsOnlyFile (hhdmOffset : U64) (machine : Machine) (data pagemap : U64) (size : Nat) :
    Prop where
  inside : AllWithin data size (elfReads hhdmOffset machine data pagemap)
  rejected : ¬FileFits machine.memory data size → (elfLoad hhdmOffset machine data pagemap).1 = 0#64

theorem magic_within_iff (data : U64) (small : size < 2 ^ 64) :
    (Span.mk data 4).Within data size ↔ 4 ≤ size := by
  have atStart := @Span.within_iff data 0#64 4 size small
  rw [BitVec.add_zero] at atStart
  simpa using atStart

theorem elfReads_within (small : size < 2 ^ 64)
    (intact : Intact hhdmOffset root slots machine.memory data size machine)
    (allowed : VisitsAllowed hhdmOffset root slots
      (elfVisits hhdmOffset machine data (root.pointer hhdmOffset)))
    (fits : FileFits machine.memory data size) :
    AllWithin data size (elfReads hhdmOffset machine data (root.pointer hhdmOffset)) := by
  have field : ∀ offset : U64, ∀ count, offset.toNat + count ≤ size →
      (Span.mk (data + offset) count).Within data size :=
    fun offset count fits => (Span.within_iff small).mpr (.inr fits)
  unfold elfVisits at allowed
  unfold elfReads
  dsimp only at allowed ⊢
  refine allWithin_cons.mpr ⟨(magic_within_iff data small).mpr fits.magic, ?_⟩
  by_cases magic : (readElfHeader machine.memory data).eMagic ≠ elfMagic
  · rw [if_pos magic]
    exact allWithin_nil
  rw [if_neg magic] at allowed ⊢
  rw [not_not] at magic
  refine allWithin_cons.mpr ⟨field 4#64 1 (fits.elfClass magic), ?_⟩
  by_cases elfClass : (readElfHeader machine.memory data).eClass ≠ 2#8
  · rw [if_pos elfClass]
    exact allWithin_nil
  rw [if_neg elfClass] at allowed ⊢
  rw [not_not] at elfClass
  have long := fits.header magic elfClass
  have entry : (Span.mk (data + 24#64) 8).Within data size :=
    field 24#64 8 (Nat.le_trans (by decide) long)
  refine allWithin_append.mpr ⟨allWithin_cons.mpr ⟨?_, ?_⟩, ?_⟩
  · exact field 32#64 8 (Nat.le_trans (by decide) long)
  · exact elfSegmentsReads_within small _ intact (field 56#64 2 long) allowed
      (fits.segments magic elfClass)
  · split
    · exact allWithin_cons.mpr ⟨entry, allWithin_nil⟩
    · exact allWithin_nil

theorem fileFits_of_reads (small : size < 2 ^ 64)
    (intact : Intact hhdmOffset root slots machine.memory data size machine)
    (allowed : VisitsAllowed hhdmOffset root slots
      (elfVisits hhdmOffset machine data (root.pointer hhdmOffset)))
    (backed : AllBacked (elfVisits hhdmOffset machine data (root.pointer hhdmOffset)))
    (within : AllWithin data size (elfReads hhdmOffset machine data (root.pointer hhdmOffset))) :
    FileFits machine.memory data size := by
  have field : ∀ offset : U64, ∀ count, 0 < count →
      (Span.mk (data + offset) count).Within data size → offset.toNat + count ≤ size :=
    fun offset count positive => (within_iff_inFileAt small positive).mp
  unfold elfVisits at allowed backed
  unfold elfReads at within
  dsimp only at allowed backed within
  obtain ⟨magicWithin, rest⟩ := allWithin_cons.mp within
  have magicFits := (magic_within_iff data small).mp magicWithin
  by_cases magic : (readElfHeader machine.memory data).eMagic ≠ elfMagic
  · exact ⟨magicFits, fun right => absurd right magic, fun right => absurd right magic,
      fun right => absurd right magic⟩
  rw [if_neg magic] at allowed backed rest
  obtain ⟨classWithin, rest⟩ := allWithin_cons.mp rest
  have classFits := field 4#64 1 (by decide) classWithin
  by_cases elfClass : (readElfHeader machine.memory data).eClass ≠ 2#8
  · exact ⟨magicFits, fun _ => classFits, fun _ right => absurd right elfClass,
      fun _ right => absurd right elfClass⟩
  rw [if_neg elfClass] at allowed backed rest
  have segments := (allWithin_cons.mp (allWithin_append.mp rest).1).2
  have phnum : (Span.mk (data + 56#64) 2).Within data size := by
    unfold elfSegmentsReads at segments
    exact (allWithin_cons.mp segments).1
  exact ⟨magicFits, fun _ => classFits, fun _ _ => field 56#64 2 (by decide) phnum,
    fun _ _ => segmentsFit_of_reads small _ intact phnum allowed backed (by decide) segments⟩

/-- A file that has all the bytes its headers ask for is read alone; where a frame is left
for each page, no other file is. -/
theorem elf_load_reads_file_iff (small : size < 2 ^ 64) (usable : machine.stack.Usable)
    (space : AddressSpace hhdmOffset machine root slots)
    (quiet : QuietRange hhdmOffset root slots machine data size)
    (allowed : VisitsAllowed hhdmOffset root slots
      (elfVisits hhdmOffset machine data (root.pointer hhdmOffset))) :
    (FileFits machine.memory data size →
      ReadsOnlyFile hhdmOffset machine data (root.pointer hhdmOffset) size) ∧
    (ReadsOnlyFile hhdmOffset machine data (root.pointer hhdmOffset) size →
      FileFits machine.memory data size ∨
        ¬AllBacked (elfVisits hhdmOffset machine data (root.pointer hhdmOffset))) := by
  have intact : Intact hhdmOffset root slots machine.memory data size machine :=
    ⟨usable, space, quiet, fun _ _ => rfl⟩
  constructor
  · intro fits
    exact ⟨elfReads_within small intact allowed fits, fun lacks => absurd fits lacks⟩
  · intro reads
    by_cases backed : AllBacked (elfVisits hhdmOffset machine data (root.pointer hhdmOffset))
    · exact .inl (fileFits_of_reads small intact allowed backed reads.inside)
    · exact .inr backed

/-- The machine that holds the sample file. -/
def sampleMachine : Machine := Machine.holding (sampleFile 0x400010#64) sampleAddress 9

/-- The sample file has the bytes it asks for. -/
theorem sample_fits : FileFits sampleMachine.memory sampleAddress 120 := by
  have isHeader : readElfHeader sampleMachine.memory sampleAddress = _ := readElfHeader_sample
  have isProgramHeader : readElfProgramHeader sampleMachine.memory (sampleAddress + 64#64) = _ :=
    readElfProgramHeader_sample
  refine ⟨by decide, fun _ => by decide, fun _ _ => by decide, fun _ _ => ?_⟩
  intro i _ below
  rw [isHeader] at below
  have first : i = 0#16 := by
    change i < 1#16 at below
    bv_omega
  have atOffset : headerOffset sampleMachine.memory sampleAddress i = 64#64 := by
    rw [headerOffset, isHeader, first]
    rfl
  rw [atOffset, isProgramHeader]
  refine ⟨by decide, fun _ => by decide, fun _ => ?_⟩
  intro page later before aligned
  have only : page = 0x400000#64 := by
    change 0x400000#64 ≤ page at later
    change page < 0x401000#64 at before
    bv_omega
  rw [only, elfPageFill, isProgramHeader]
  decide

/-- A load of the sample file into the kernel's empty pagemap finds its frames. -/
theorem sample_allowed :
    VisitsAllowed 0#64 1#40 Set.univ
      (elfVisits 0#64 sampleMachine sampleAddress (Frame.pointer 0#64 1#40)) := by
  obtain ⟨usable, space, quiet, count⟩ := sample_kernel 0x400010#64
  have missing := missingTables_le 0#64 sampleMachine.memory (Frame.pointer 0#64 1#40)
    (sampleHeader 0x400010#64).vaddrStart
  have enough : 1 + missingTables 0#64 sampleMachine.memory (Frame.pointer 0#64 1#40)
      (sampleHeader 0x400010#64).vaddrStart ≤ sampleMachine.free.length := by
    rw [sampleMachine, count]
    exact Nat.le_trans (Nat.add_le_add_left missing 1) (by decide)
  have visits := (elfVisits_single usable space
    (fun address inside => quiet address (inside.mono (by decide))) readElfHeader_sample
    readElfProgramHeader_sample rfl (by decide) (by decide) (Set.mem_univ _) enough).1
  intro visit membership
  rw [sampleMachine, visits, List.mem_singleton] at membership
  rw [membership]
  exact ⟨.inr enough, Set.mem_univ _⟩

theorem elf_load_reads_file_iff_sample :
    ReadsOnlyFile 0#64 sampleMachine sampleAddress (Frame.pointer 0#64 1#40) 120 := by
  obtain ⟨usable, space, quiet, -⟩ := sample_kernel 0x400010#64
  exact (elf_load_reads_file_iff (by decide) usable space quiet sample_allowed).1 sample_fits

/-- A file with a program header has the type of its first one read. -/
theorem elfReads_firstType (magic : (readElfHeader machine.memory data).eMagic = elfMagic)
    (elfClass : (readElfHeader machine.memory data).eClass = 2#8)
    (some : 0#16 < (readElfHeader machine.memory data).ePhnum) :
    ⟨data + (readElfHeader machine.memory data).ePhoff + 0#64, 4⟩ ∈
      elfReads hhdmOffset machine data pagemap := by
  unfold elfReads
  dsimp only
  rw [if_neg (not_not.mpr magic), if_neg (not_not.mpr elfClass)]
  refine List.mem_cons_of_mem _ (List.mem_cons_of_mem _ ?_)
  refine List.mem_append_left _ (List.mem_cons_of_mem _ ?_)
  unfold elfSegmentsReads
  rw [if_pos some]
  exact List.mem_cons_of_mem _ (List.mem_append_left _ List.mem_cons_self)

/-- The first 64 bytes of the sample file are its header, and the load goes on to read the
program header behind it. -/
theorem elf_load_reads_behind_file :
    ¬∀ (hhdmOffset data : U64) (machine : Machine) (root : Frame) (size : Nat), size < 2 ^ 64 →
      machine.stack.Usable → AddressSpace hhdmOffset machine root Set.univ →
      QuietRange hhdmOffset root Set.univ machine data size →
      VisitsAllowed hhdmOffset root Set.univ
        (elfVisits hhdmOffset machine data (root.pointer hhdmOffset)) →
      ReadsOnlyFile hhdmOffset machine data (root.pointer hhdmOffset) size := by
  intro claim
  obtain ⟨usable, space, quiet, -⟩ := sample_kernel 0x400010#64
  have reads := (claim 0#64 sampleAddress sampleMachine 1#40 64 (by decide) usable space
    (fun address inside => quiet address (inside.mono (by decide))) sample_allowed).inside
  have isHeader : readElfHeader sampleMachine.memory sampleAddress = _ := readElfHeader_sample
  have type : (Span.mk (sampleAddress + 64#64) 4).Within sampleAddress 64 := by
    have first := @elfReads_firstType 0#64 sampleAddress (Frame.pointer 0#64 1#40) sampleMachine
    rw [isHeader] at first
    exact reads _ (first rfl rfl (by decide))
  rw [Span.within_iff (by decide)] at type
  exact absurd type (by decide)

end Nekonix
