import Nekonix.Proc.Elf.Reading

/-!
# What a load leaves in memory

The page loop copies from the rounded-down start of a segment.  So byte `d` of
the rounded range gets byte `d` of the segment's contents, and of several
segments on one page the last one wins.
-/

namespace Nekonix

open FlatMemory RadixTable Transition

variable {hhdmOffset data ph : U64} {machine next : Machine} {root : Frame} {slots : Set Slot}
  {memory source : Memory} {header : ElfProgramHeader} {addr : U64} {size : Nat}

/-- What loading `header` puts at a distance from the rounded-down start. -/
def ElfProgramHeader.loadedByte (source : Memory) (data : U64) (header : ElfProgramHeader)
    (distance : U64) : U8 :=
  if distance < header.pFilesz then source (data + (header.pOffset + distance)) else 0#8

/-- The segment's contents lie in the first `size` bytes of the file. -/
def ElfProgramHeader.InFile (size : Nat) (header : ElfProgramHeader) : Prop :=
  header.pOffset.toNat + header.pFilesz.toNat ≤ size

/-- Copying `count` bytes of the file into a cleared frame. -/
theorem memcpy_frame {frame : Frame} {start : U64} {count position : Nat}
    (cleared : ∀ address, frame.Holds hhdmOffset address → memory address = 0#8)
    (same : SameBytes data size source memory)
    (apart : ∀ address, InRange data size address → ¬frame.Holds hhdmOffset address)
    (inFile : start.toNat + count ≤ size) (short : count ≤ 4096) (below : position < 4096) :
    memcpy memory (higherHalf hhdmOffset frame.address) (data + start) count
        (frame.pointer hhdmOffset + BitVec.ofNat 64 position) =
      if position < count then source (data + (start + BitVec.ofNat 64 position)) else 0#8 := by
  have inside : ∀ offset < count, InRange data size (data + start + BitVec.ofNat 64 offset) := by
    intro offset bound
    have distance : data + start + BitVec.ofNat 64 offset - data =
        start + BitVec.ofNat 64 offset := by
      rw [BitVec.add_assoc, BitVec.add_comm, BitVec.add_sub_cancel]
    unfold InRange
    rw [distance]
    bv_omega
  have agree : ∀ offset < count, memory (data + start + BitVec.ofNat 64 offset) =
      source (data + start + BitVec.ofNat 64 offset) :=
    fun offset bound => same _ (inside offset bound)
  have separate : ∀ offset < count, ¬InRange (higherHalf hhdmOffset frame.address) count
      (data + start + BitVec.ofNat 64 offset) := by
    intro offset bound inCopy
    exact apart _ (inside offset bound) (inCopy.mono short)
  have target : (frame.pointer hhdmOffset + BitVec.ofNat 64 position -
      frame.pointer hhdmOffset).toNat = position := offset_toNat _ (by omega)
  have reached : InRange (higherHalf hhdmOffset frame.address) count
      (frame.pointer hhdmOffset + BitVec.ofNat 64 position) ↔ position < count := by
    change (frame.pointer hhdmOffset + BitVec.ofNat 64 position -
      frame.pointer hhdmOffset).toNat < count ↔ _
    rw [target]
  rw [memcpy_eq_copy (by omega) agree separate]
  by_cases copied : position < count
  · have distance : frame.pointer hhdmOffset + BitVec.ofNat 64 position -
        higherHalf hhdmOffset frame.address = BitVec.ofNat 64 position := by
      change frame.pointer hhdmOffset + BitVec.ofNat 64 position - frame.pointer hhdmOffset = _
      rw [BitVec.add_comm, BitVec.add_sub_cancel]
    rw [copy_inside (reached.mpr copied), distance, if_pos copied, BitVec.add_assoc]
  · rw [copy_outside (fun inCopy => copied (reached.mp inCopy)), if_neg copied]
    exact cleared _ (inRange_offset _ (by omega) below)

theorem elfFillPage_byte {frame : Frame}
    (reread : (readElfProgramHeader memory ph).pFilesz = header.pFilesz)
    (cleared : ∀ address, frame.Holds hhdmOffset address → memory address = 0#8)
    (inFile : header.InFile size) (fits : size ≤ 2 ^ 52)
    (near : (addr - header.vaddrStart).toNat < 2 ^ 48) (same : SameBytes data size source memory)
    (apart : ∀ address, InRange data size address → ¬frame.Holds hhdmOffset address)
    {position : Nat} (below : position < 4096) :
    elfFillPage memory data ph header.pOffset header.vaddrStart addr frame.address hhdmOffset
        (frame.pointer hhdmOffset + BitVec.ofNat 64 position) =
      header.loadedByte source data (addr - header.vaddrStart + BitVec.ofNat 64 position) := by
  unfold elfFillPage ElfProgramHeader.loadedByte
  unfold ElfProgramHeader.InFile at inFile
  rw [reread]
  dsimp only
  generalize addr - header.vaddrStart = distance at near
  have inFrame : frame.Holds hhdmOffset (frame.pointer hhdmOffset + BitVec.ofNat 64 position) :=
    inRange_offset _ (by omega) below
  have sum : header.pOffset + (distance + BitVec.ofNat 64 position) =
      header.pOffset + distance + BitVec.ofNat 64 position := (BitVec.add_assoc _ _ _).symm
  by_cases further : header.pOffset + distance < header.pOffset + header.pFilesz
  · rw [if_pos further]
    have within : distance.toNat < header.pFilesz.toNat := by bv_omega
    have start : (header.pOffset + distance).toNat =
        header.pOffset.toNat + distance.toNat := by bv_omega
    have rest : (header.pOffset + header.pFilesz - (header.pOffset + distance)).toNat =
        header.pFilesz.toNat - distance.toNat := by bv_omega
    have reaches : distance + BitVec.ofNat 64 position < header.pFilesz ↔
        position < header.pFilesz.toNat - distance.toNat := by bv_omega
    split_ifs with last inContents inContents
    · rw [memcpy_frame cleared same apart (by omega) (by unfold pageSize at last; bv_omega) below,
        rest, if_pos (reaches.mp inContents), sum]
    · rw [memcpy_frame cleared same apart (by omega) (by unfold pageSize at last; bv_omega) below,
        rest, if_neg (fun inside => inContents (reaches.mpr inside))]
    · have whole : pageSize.toNat = 4096 := rfl
      rw [memcpy_frame cleared same apart (by unfold pageSize at last; bv_omega) (by omega) below,
        whole, if_pos below, sum]
    · exact absurd (reaches.mpr (by unfold pageSize at last; bv_omega)) inContents
  · have beyond : ¬distance + BitVec.ofNat 64 position < header.pFilesz := by bv_omega
    rw [if_neg further, if_neg beyond, memset_eq_fill _ _ _ (by decide)]
    exact fill_inside inFrame

/-! The pages of a segment -/

/-- A page that is loaded for a segment. -/
structure PageLoad where
  header : ElfProgramHeader
  addr : U64

def PageLoad.page (load : PageLoad) : BitVec 36 := pageNumber load.addr

/-- `count` pages of a segment from `addr` on. -/
def pagesFrom (header : ElfProgramHeader) : (count : Nat) → (addr : U64) → List PageLoad
  | 0, _ => []
  | count + 1, addr => ⟨header, addr⟩ :: pagesFrom header count (addr + pageSize)

def ElfProgramHeader.pageCount (header : ElfProgramHeader) : Nat :=
  (header.vaddrEnd.toNat - header.vaddrStart.toNat) / 4096

/-- All pages of a segment, in order. -/
def ElfProgramHeader.pages (header : ElfProgramHeader) : List PageLoad :=
  pagesFrom header header.pageCount header.vaddrStart

/-- The segment lies in the lower half of the address space. -/
def ElfProgramHeader.InLowerHalf (header : ElfProgramHeader) : Prop :=
  header.pVaddr.toNat + header.pMemsz.toNat ≤ 2 ^ 47

theorem ElfProgramHeader.vaddrStart_toNat (header : ElfProgramHeader) :
    header.vaddrStart.toNat = header.pVaddr.toNat / 4096 * 4096 :=
  alignDown_toNat header.pVaddr

theorem ElfProgramHeader.vaddrEnd_toNat (lower : header.InLowerHalf) :
    header.vaddrEnd.toNat = (header.pVaddr.toNat + header.pMemsz.toNat + 4095) / 4096 * 4096 := by
  unfold InLowerHalf at lower
  have sum : (header.pVaddr + header.pMemsz).toNat = header.pVaddr.toNat + header.pMemsz.toNat := by
    rw [BitVec.toNat_add]
    omega
  rw [vaddrEnd, alignUp_toNat (by omega), sum]

theorem slot4_lowerHalf {virt : U64} (lower : virt.toNat < 2 ^ 47) :
    slot4 virt ∈ NewPagemap.lowerHalf := by
  change (slot4 virt).toNat < 256
  simp only [slot4, BitVec.extractLsb'_toNat, Nat.shiftRight_eq_div_pow]
  omega

/-- Loading one page: it is backed by a fresh frame with the segment's bytes. -/
def LoadStep (hhdmOffset data : U64) (root : Frame) (source : Memory) (machine : Machine)
    (load : PageLoad) (next : Machine) : Prop :=
  slot4 load.addr ∈ NewPagemap.lowerHalf ∧ ∃ frame created,
    Backed hhdmOffset root NewPagemap.lowerHalf load.addr load.header.flags frame created machine
      next ∧
    ∀ position < 4096, next.memory (frame.pointer hhdmOffset + BitVec.ofNat 64 position) =
      load.header.loadedByte source data
        (load.addr - load.header.vaddrStart + BitVec.ofNat 64 position)

/-- The file is where it was, beside a sound address space. -/
structure Resident (hhdmOffset : U64) (root : Frame) (source : Memory) (data : U64) (size : Nat)
    (machine : Machine) : Prop where
  usable : machine.stack.Usable
  space : AddressSpace hhdmOffset machine root NewPagemap.lowerHalf
  quiet : QuietRange hhdmOffset root NewPagemap.lowerHalf machine data size
  same : SameBytes data size source machine.memory

theorem Resident.step {load : PageLoad}
    (resident : Resident hhdmOffset root source data size machine)
    (step : LoadStep hhdmOffset data root source machine load next) :
    Resident hhdmOffset root source data size next := by
  obtain ⟨start, frame, created, backed, -⟩ := step
  have mapStep : MapStep hhdmOffset root NewPagemap.lowerHalf machine
      ⟨⟨load.addr, frame.address, load.header.flags⟩, frame :: created⟩ next :=
    ⟨start, backed.mapped⟩
  have quiet := resident.quiet.step mapStep
  refine ⟨backed.mapped.usable, backed.mapped.space, quiet.1, ?_⟩
  intro address inside
  rw [quiet.2 address inside, resident.same address inside]

/-- All requests for this visit find a frame. -/
def PageVisit.Supplied (hhdmOffset pagemap : U64) (visit : PageVisit) : Prop :=
  1 + missingTables hhdmOffset visit.machine.memory pagemap visit.addr ≤ visit.machine.free.length

/-- One turn of the page loop is a load step. -/
theorem elfLoadPage_image (resident : Resident hhdmOffset root source data size machine)
    (isHeader : readElfProgramHeader source ph = header)
    (part : ∀ address, InRange ph 56 address → InRange data size address)
    (inFile : header.InFile size) (fits : size ≤ 2 ^ 52)
    (near : (addr - header.vaddrStart).toNat < 2 ^ 48) (start : slot4 addr ∈ NewPagemap.lowerHalf)
    (supplied : PageVisit.Supplied hhdmOffset (root.pointer hhdmOffset)
      ⟨machine, addr, header⟩) :
    let result := elfLoadPage hhdmOffset data (root.pointer hhdmOffset) ph header machine addr
    result.1 = true ∧ LoadStep hhdmOffset data root source machine ⟨header, addr⟩ result.2 := by
  intro result
  obtain ⟨loaded, frame, created, mapped, turn⟩ :=
    elfLoadPage_spec data ph header resident.usable resident.space start supplied
  have mapStep : MapStep hhdmOffset root NewPagemap.lowerHalf machine
      ⟨⟨addr, frame.address, header.flags⟩, frame :: created⟩ mapped :=
    ⟨start, turn.backed.mapped⟩
  obtain ⟨quiet, kept⟩ := resident.quiet.step mapStep
  have same : SameBytes data size source mapped.memory := by
    intro address inside
    rw [kept address inside, resident.same address inside]
  have reread : (readElfProgramHeader mapped.memory ph).pFilesz = header.pFilesz := by
    rw [(same.part part).readElfProgramHeader, isHeader]
  have apart : ∀ address, InRange data size address → ¬frame.Holds hhdmOffset address := by
    intro address inside
    exact (resident.quiet address inside).notFree frame
      (turn.backed.mapped.taken_free List.mem_cons_self)
  refine ⟨loaded, start, frame, created, turn.loaded, ?_⟩
  intro position below
  rw [turn.filled]
  exact elfFillPage_byte reread turn.cleared inFile fits near same apart below

/-- The page loop loads the rest of a segment. -/
theorem elfLoadPages_image (count fuel : Nat)
    (resident : Resident hhdmOffset root source data size machine)
    (isHeader : readElfProgramHeader source ph = header)
    (part : ∀ address, InRange ph 56 address → InRange data size address)
    (inFile : header.InFile size) (fits : size ≤ 2 ^ 52) (lower : header.InLowerHalf)
    (after : header.vaddrStart.toNat ≤ addr.toNat)
    (remaining : addr.toNat + count * 4096 = header.vaddrEnd.toNat) (enough : count ≤ fuel)
    (supplied : ∀ visit ∈ elfPageVisits hhdmOffset data (root.pointer hhdmOffset) ph header fuel
      machine addr, visit.Supplied hhdmOffset (root.pointer hhdmOffset)) :
    ∃ finish,
      elfLoadPages hhdmOffset data (root.pointer hhdmOffset) ph header fuel machine addr =
        (true, finish) ∧
      Run (LoadStep hhdmOffset data root source) machine (pagesFrom header count addr) finish ∧
      Resident hhdmOffset root source data size finish := by
  have top := header.vaddrEnd_toNat lower
  unfold ElfProgramHeader.InLowerHalf at lower
  induction count generalizing machine addr fuel with
  | zero =>
      have finished : ¬addr < header.vaddrEnd := by bv_omega
      exact ⟨machine, elfLoadPages_done fuel finished, .nil, resident⟩
  | succ count inductionHypothesis =>
      have inside : addr < header.vaddrEnd := by bv_omega
      have near : (addr - header.vaddrStart).toNat < 2 ^ 48 := by bv_omega
      have start : slot4 addr ∈ NewPagemap.lowerHalf := slot4_lowerHalf (by omega)
      have advance : (addr + pageSize).toNat = addr.toNat + 4096 := by
        unfold pageSize
        bv_omega
      cases fuel with
      | zero => cases enough
      | succ fuel =>
          rw [elfPageVisits] at supplied
          simp only [if_pos inside] at supplied
          obtain ⟨loaded, step⟩ := elfLoadPage_image resident isHeader part inFile fits near start
            (supplied _ List.mem_cons_self)
          rw [if_pos loaded] at supplied
          obtain ⟨finish, rest, run, kept⟩ := inductionHypothesis fuel (resident.step step)
            (by omega) (by omega) (by omega)
            (fun visit later => supplied visit (List.mem_cons_of_mem _ later))
          refine ⟨finish, ?_, ?_, kept⟩
          · rw [elfLoadPages_step (Nat.succ_pos fuel) inside loaded]
            exact rest
          · exact (Run.single step).append run

/-! The segments of a file -/

/-- `ph[index]` -/
def programHeaderAt (memory : Memory) (data : U64) (index : Nat) : ElfProgramHeader :=
  readElfProgramHeader memory
    (data + (readElfHeader memory data).ePhoff + BitVec.ofNat 64 index * elfProgramHeaderSize)

/-- The `PT_LOAD` headers among some indices. -/
def loadSegmentsAt (memory : Memory) (data : U64) (indices : List Nat) : List ElfProgramHeader :=
  (indices.map (programHeaderAt memory data)).filter fun header => header.pType = ptLoad

/-- The `PT_LOAD` headers of a file, in order. -/
def loadSegments (memory : Memory) (data : U64) : List ElfProgramHeader :=
  loadSegmentsAt memory data (List.range (readElfHeader memory data).ePhnum.toNat)

/-- An ELF64 file of `size` bytes whose headers and contents lie inside it and
whose segments lie in the lower half. -/
structure ElfFile (memory : Memory) (data : U64) (size : Nat) : Prop where
  fits : size ≤ 2 ^ 52
  magic : (readElfHeader memory data).eMagic = elfMagic
  width : (readElfHeader memory data).eClass = 2#8
  header : 64 ≤ size
  table : (readElfHeader memory data).ePhoff.toNat +
    (readElfHeader memory data).ePhnum.toNat * 56 ≤ size
  contents : ∀ segment ∈ loadSegments memory data, segment.InFile size
  lower : ∀ segment ∈ loadSegments memory data, segment.InLowerHalf

/-- The program header table lies in the file. -/
theorem ElfFile.part (file : ElfFile source data size) {index : Nat}
    (bound : index < (readElfHeader source data).ePhnum.toNat) {address : U64}
    (inside : InRange (data + (readElfHeader source data).ePhoff +
      BitVec.ofNat 64 index * elfProgramHeaderSize) 56 address) : InRange data size address := by
  have table := file.table
  have fits := file.fits
  have phnum := (readElfHeader source data).ePhnum.isLt
  unfold InRange elfProgramHeaderSize at *
  generalize (readElfHeader source data).ePhoff = phoff at table inside
  have offset : (BitVec.ofNat 64 index * 56#64).toNat = index * 56 := by
    rw [BitVec.toNat_mul, BitVec.toNat_ofNat, BitVec.toNat_ofNat]
    omega
  generalize BitVec.ofNat 64 index * 56#64 = position at offset inside
  bv_omega

theorem Resident.elfHeader (resident : Resident hhdmOffset root source data size machine)
    (file : ElfFile source data size) :
    readElfHeader machine.memory data = readElfHeader source data := by
  refine (resident.same.part ?_).readElfHeader
  exact fun address inside => inside.mono file.header

theorem Resident.programHeader (resident : Resident hhdmOffset root source data size machine)
    (file : ElfFile source data size) {index : Nat}
    (bound : index < (readElfHeader source data).ePhnum.toNat) :
    readElfProgramHeader machine.memory (data + (readElfHeader source data).ePhoff +
      BitVec.ofNat 64 index * elfProgramHeaderSize) = programHeaderAt source data index :=
  (resident.same.part fun _ inside => file.part bound inside).readElfProgramHeader

theorem ElfFile.segment_mem {index : Nat}
    (bound : index < (readElfHeader source data).ePhnum.toNat)
    (load : (programHeaderAt source data index).pType = ptLoad) :
    programHeaderAt source data index ∈ loadSegments source data := by
  rw [loadSegments, loadSegmentsAt, List.mem_filter]
  exact ⟨List.mem_map_of_mem (List.mem_range.mpr bound), decide_eq_true load⟩

/-- One turn of the segment loop. -/
theorem elfLoadSegment_image (resident : Resident hhdmOffset root source data size machine)
    (file : ElfFile source data size) (index : Nat)
    (bound : index < (readElfHeader source data).ePhnum.toNat)
    (isPh : ph = data + (readElfHeader source data).ePhoff +
      BitVec.ofNat 64 index * elfProgramHeaderSize)
    (supplied : ∀ visit ∈ elfSegmentVisits hhdmOffset data (root.pointer hhdmOffset) machine ph,
      visit.Supplied hhdmOffset (root.pointer hhdmOffset)) :
    ∃ finish,
      elfLoadSegment hhdmOffset data (root.pointer hhdmOffset) machine ph = (true, finish) ∧
      Run (LoadStep hhdmOffset data root source) machine
        ((loadSegmentsAt source data [index]).flatMap ElfProgramHeader.pages) finish ∧
      Resident hhdmOffset root source data size finish := by
  have isHeader := resident.programHeader file bound
  rw [← isPh] at isHeader
  unfold elfSegmentVisits at supplied
  unfold elfLoadSegment
  rw [isHeader] at supplied ⊢
  dsimp only at supplied ⊢
  by_cases load : (programHeaderAt source data index).pType = ptLoad
  · have lower := file.lower _ (ElfFile.segment_mem bound load)
    have first := (programHeaderAt source data index).vaddrStart_toNat
    have last := ElfProgramHeader.vaddrEnd_toNat lower
    have listed : loadSegmentsAt source data [index] = [programHeaderAt source data index] := by
      simp [loadSegmentsAt, load]
    rw [if_neg (not_not.mpr load)] at supplied ⊢
    rw [listed, List.flatMap_singleton]
    refine elfLoadPages_image _ _ resident ?_ ?_ (file.contents _ (ElfFile.segment_mem bound load))
      file.fits lower le_rfl ?_ ?_ supplied
    · rw [isPh]
      rfl
    · rw [isPh]
      exact fun address inside => file.part bound inside
    · unfold ElfProgramHeader.pageCount
      omega
    · have top := (programHeaderAt source data index).vaddrEnd.isLt
      unfold ElfProgramHeader.pageCount
      omega
  · have skipped : loadSegmentsAt source data [index] = [] := by
      simp [loadSegmentsAt, load]
    rw [if_pos load, skipped]
    exact ⟨machine, rfl, .nil, resident⟩

theorem loadSegmentsAt_cons (index : Nat) (indices : List Nat) :
    loadSegmentsAt memory data (index :: indices) =
      loadSegmentsAt memory data [index] ++ loadSegmentsAt memory data indices := by
  rw [loadSegmentsAt, loadSegmentsAt, loadSegmentsAt, ← List.filter_append, ← List.map_append,
    List.singleton_append]

/-- The segment loop loads the segments from `i` on. -/
theorem elfLoadSegments_image (count fuel : Nat) (i : U16)
    (resident : Resident hhdmOffset root source data size machine)
    (file : ElfFile source data size)
    (remaining : i.toNat + count = (readElfHeader source data).ePhnum.toNat)
    (enough : count ≤ fuel)
    (supplied : ∀ visit ∈ elfSegmentsVisits hhdmOffset data (root.pointer hhdmOffset)
      (data + (readElfHeader source data).ePhoff) fuel machine i,
      visit.Supplied hhdmOffset (root.pointer hhdmOffset)) :
    ∃ finish,
      elfLoadSegments hhdmOffset data (root.pointer hhdmOffset)
        (data + (readElfHeader source data).ePhoff) fuel machine i = (true, finish) ∧
      Run (LoadStep hhdmOffset data root source) machine
        ((loadSegmentsAt source data (List.range' i.toNat count)).flatMap
          ElfProgramHeader.pages) finish ∧
      Resident hhdmOffset root source data size finish := by
  induction count generalizing machine i fuel with
  | zero =>
      have finished : ¬i < (readElfHeader machine.memory data).ePhnum := by
        rw [resident.elfHeader file]
        bv_omega
      refine ⟨machine, ?_, .nil, resident⟩
      cases fuel with
      | zero => rfl
      | succ fuel => rw [elfLoadSegments, if_neg finished]
  | succ count inductionHypothesis =>
      have phnum := (readElfHeader source data).ePhnum.isLt
      have further : i < (readElfHeader machine.memory data).ePhnum := by
        rw [resident.elfHeader file]
        bv_omega
      have next : (i + 1#16).toNat = i.toNat + 1 := by bv_omega
      have position : i.setWidth 64 = BitVec.ofNat 64 i.toNat := by
        rw [BitVec.ofNat_toNat]
      cases fuel with
      | zero => cases enough
      | succ fuel =>
          rw [elfSegmentsVisits] at supplied
          simp only [if_pos further] at supplied
          rw [elfLoadSegments]
          simp only [if_pos further]
          obtain ⟨middle, loaded, first, kept⟩ := elfLoadSegment_image resident file
            i.toNat (by omega) (by rw [position])
            fun visit here => supplied visit (List.mem_append_left _ here)
          rw [loaded] at supplied ⊢
          obtain ⟨finish, rest, second, still⟩ := inductionHypothesis fuel (i + 1#16) kept
            (by omega) (by omega)
            fun visit later => supplied visit (List.mem_append_right _ later)
          refine ⟨finish, rest, ?_, still⟩
          rw [List.range'_succ, loadSegmentsAt_cons, List.flatMap_append, ← next]
          exact first.append second

/-- `elf_load` loads the pages of all segments, in order. -/
theorem elfLoad_image (resident : Resident hhdmOffset root machine.memory data size machine)
    (file : ElfFile machine.memory data size)
    (supplied : ∀ visit ∈ elfVisits hhdmOffset machine data (root.pointer hhdmOffset),
      visit.Supplied hhdmOffset (root.pointer hhdmOffset)) :
    ∃ finish,
      elfLoad hhdmOffset machine data (root.pointer hhdmOffset) =
        ((readElfHeader machine.memory data).eEntry, finish) ∧
      Run (LoadStep hhdmOffset data root machine.memory) machine
        ((loadSegments machine.memory data).flatMap ElfProgramHeader.pages) finish := by
  have phnum := (readElfHeader machine.memory data).ePhnum.isLt
  unfold elfVisits at supplied
  unfold elfLoad
  dsimp only at supplied ⊢
  rw [if_neg (not_not.mpr file.magic), if_neg (not_not.mpr file.width)] at supplied ⊢
  obtain ⟨finish, loaded, run, kept⟩ := elfLoadSegments_image
    (readElfHeader machine.memory data).ePhnum.toNat 65536 0#16 resident file (Nat.zero_add _)
    (by omega) supplied
  refine ⟨finish, ?_, ?_⟩
  · rw [loaded, if_pos rfl, kept.elfHeader file]
  · rw [loadSegments, List.range_eq_range']
    exact run

end Nekonix
