import Mathlib.Data.List.GetD
import Nekonix.Mm.Vmm.Cleared
import Nekonix.Mm.Vmm.NewPagemap
import Nekonix.Proc.Elf.Loading

/-!
# A file that stays put

`elf_load` reads the headers again and again while it changes memory.  A file in
memory that is neither free nor a page table reads the same every time.
-/

namespace Nekonix

open FlatMemory RadixTable Transition

variable {hhdmOffset data ph : U64} {machine next : Machine} {root : Frame} {slots : Set Slot}
  {memory other : Memory}

/-- The `size` bytes at `base` are in no free frame and no reached table. -/
def QuietRange (hhdmOffset : U64) (root : Frame) (slots : Set Slot) (machine : Machine)
    (base : U64) (size : Nat) : Prop :=
  ∀ address, InRange base size address → Quiet hhdmOffset root slots machine address

/-- Both memories have the same `size` bytes at `base`. -/
def SameBytes (base : U64) (size : Nat) (memory other : Memory) : Prop :=
  ∀ address, InRange base size address → other address = memory address

theorem SameBytes.part {base inner : U64} {size count : Nat}
    (same : SameBytes base size memory other)
    (part : ∀ address, InRange inner count address → InRange base size address) :
    SameBytes inner count memory other :=
  fun address inside => same address (part address inside)

theorem SameBytes.load {base : U64} {size : Nat} (same : SameBytes base size memory other)
    (count offset : Nat) (inside : offset + count ≤ size) (small : size < 2 ^ 64) :
    load other count (base + BitVec.ofNat 64 offset) =
      load memory count (base + BitVec.ofNat 64 offset) := by
  apply load_congr
  intro position below
  apply same
  rw [BitVec.add_assoc, ← BitVec.ofNat_add]
  exact inRange_offset base (by omega) (by omega)

theorem SameBytes.loadFirst {base : U64} {size : Nat} (same : SameBytes base size memory other)
    (count : Nat) (inside : count ≤ size) (small : size < 2 ^ 64) :
    FlatMemory.load other count base = FlatMemory.load memory count base := by
  have start : base + BitVec.ofNat 64 0 = base := BitVec.add_zero base
  rw [← start]
  exact same.load count 0 (by omega) small

theorem SameBytes.readElfHeader (same : SameBytes data 64 memory other) :
    readElfHeader other data = Nekonix.readElfHeader memory data := by
  have width : other (data + 4#64) = memory (data + 4#64) :=
    same _ (inRange_offset data (by decide) (by decide))
  simp only [Nekonix.readElfHeader, Memory.load32, Memory.load64, Memory.load16, width,
    same.loadFirst 4 (by decide) (by decide), same.load 8 24 (by decide) (by decide),
    same.load 8 32 (by decide) (by decide), same.load 2 56 (by decide) (by decide)]

theorem SameBytes.readElfProgramHeader (same : SameBytes ph 56 memory other) :
    readElfProgramHeader other ph = Nekonix.readElfProgramHeader memory ph := by
  simp only [Nekonix.readElfProgramHeader, Memory.load32, Memory.load64,
    same.loadFirst 4 (by decide) (by decide), same.load 4 4 (by decide) (by decide),
    same.load 8 8 (by decide) (by decide), same.load 8 16 (by decide) (by decide),
    same.load 8 32 (by decide) (by decide), same.load 8 40 (by decide) (by decide)]

theorem QuietRange.step {base : U64} {size : Nat} {mapping : Mapping}
    (quiet : QuietRange hhdmOffset root slots machine base size)
    (step : MapStep hhdmOffset root slots machine mapping next) :
    QuietRange hhdmOffset root slots next base size ∧
      SameBytes base size machine.memory next.memory := by
  constructor
  · exact fun address inside => step.2.quiet (quiet address inside)
  · exact fun address inside => step.2.byte step.1 (quiet address inside)

/-- Bytes that are quiet for the kernel are quiet for a fresh pagemap. -/
theorem NewPagemap.quiet {kernel pagemap : Frame}
    (made : NewPagemap hhdmOffset kernel machine pagemap next)
    (space : AddressSpace hhdmOffset machine kernel Set.univ) {base : U64} {size : Nat}
    (quiet : QuietRange hhdmOffset kernel Set.univ machine base size) :
    QuietRange hhdmOffset pagemap Set.univ next base size ∧
      SameBytes base size machine.memory next.memory := by
  have notPagemap : ∀ address, InRange base size address →
      ¬pagemap.Holds hhdmOffset address := by
    intro address inside
    apply (quiet address inside).notFree
    rw [made.free]
    simp
  refine ⟨?_, fun address inside => made.outside address (notPagemap address inside)⟩
  intro address inside
  constructor
  · intro frame free
    apply (quiet address inside).notFree
    rw [made.free]
    exact List.mem_append_left _ free
  · intro path membership table reached
    cases path with
    | nil =>
        cases reached
        exact notPagemap address inside
    | cons index rest =>
        rw [made.follow_pagemap space membership] at reached
        split_ifs at reached
        exact (quiet address inside).notTable _ membership table reached

/-! The loops where they end, and where they go on -/

variable {pagemap addr : U64} {header : ElfProgramHeader} {i : U16}

theorem elfPageVisits_done (fuel : Nat) (outside : ¬addr < header.vaddrEnd) :
    elfPageVisits hhdmOffset data pagemap ph header fuel machine addr = [] := by
  cases fuel with
  | zero => rfl
  | succ fuel => rw [elfPageVisits, if_neg outside]

theorem elfPageVisits_step {fuel : Nat} (positive : 0 < fuel) (inside : addr < header.vaddrEnd)
    (loaded : (elfLoadPage hhdmOffset data pagemap ph header machine addr).1 = true) :
    elfPageVisits hhdmOffset data pagemap ph header fuel machine addr =
      ⟨machine, addr, header⟩ ::
        elfPageVisits hhdmOffset data pagemap ph header (fuel - 1)
          (elfLoadPage hhdmOffset data pagemap ph header machine addr).2 (addr + pageSize) := by
  cases fuel with
  | zero => cases positive
  | succ fuel =>
      simp only [elfPageVisits, if_pos inside]
      rw [if_pos loaded]
      rfl

theorem elfLoadPages_done (fuel : Nat) (outside : ¬addr < header.vaddrEnd) :
    elfLoadPages hhdmOffset data pagemap ph header fuel machine addr = (true, machine) := by
  cases fuel with
  | zero => rfl
  | succ fuel => rw [elfLoadPages, if_neg outside]

theorem elfLoadPages_step {fuel : Nat} (positive : 0 < fuel) (inside : addr < header.vaddrEnd)
    (loaded : (elfLoadPage hhdmOffset data pagemap ph header machine addr).1 = true) :
    elfLoadPages hhdmOffset data pagemap ph header fuel machine addr =
      elfLoadPages hhdmOffset data pagemap ph header (fuel - 1)
        (elfLoadPage hhdmOffset data pagemap ph header machine addr).2 (addr + pageSize) := by
  cases fuel with
  | zero => cases positive
  | succ fuel =>
      simp only [elfLoadPages, if_pos inside]
      rw [if_pos loaded]
      rfl

theorem elfSegmentsVisits_done (fuel : Nat)
    (finished : ¬i < (readElfHeader machine.memory data).ePhnum) :
    elfSegmentsVisits hhdmOffset data pagemap ph fuel machine i = [] := by
  cases fuel with
  | zero => rfl
  | succ fuel => rw [elfSegmentsVisits, if_neg finished]

theorem elfSegmentsVisits_step {fuel : Nat} (positive : 0 < fuel)
    (further : i < (readElfHeader machine.memory data).ePhnum)
    (loaded : (elfLoadSegment hhdmOffset data pagemap machine
      (ph + i.setWidth 64 * elfProgramHeaderSize)).1 = true) :
    elfSegmentsVisits hhdmOffset data pagemap ph fuel machine i =
      elfSegmentVisits hhdmOffset data pagemap machine
          (ph + i.setWidth 64 * elfProgramHeaderSize) ++
        elfSegmentsVisits hhdmOffset data pagemap ph (fuel - 1)
          (elfLoadSegment hhdmOffset data pagemap machine
            (ph + i.setWidth 64 * elfProgramHeaderSize)).2 (i + 1#16) := by
  cases fuel with
  | zero => cases positive
  | succ fuel =>
      simp only [elfSegmentsVisits, if_pos further]
      rw [if_pos loaded]
      rfl

theorem elfLoadSegments_done (fuel : Nat)
    (finished : ¬i < (readElfHeader machine.memory data).ePhnum) :
    elfLoadSegments hhdmOffset data pagemap ph fuel machine i = (true, machine) := by
  cases fuel with
  | zero => rfl
  | succ fuel => rw [elfLoadSegments, if_neg finished]

theorem elfLoadSegments_step {fuel : Nat} (positive : 0 < fuel)
    (further : i < (readElfHeader machine.memory data).ePhnum)
    (loaded : (elfLoadSegment hhdmOffset data pagemap machine
      (ph + i.setWidth 64 * elfProgramHeaderSize)).1 = true) :
    elfLoadSegments hhdmOffset data pagemap ph fuel machine i =
      elfLoadSegments hhdmOffset data pagemap ph (fuel - 1)
        (elfLoadSegment hhdmOffset data pagemap machine
          (ph + i.setWidth 64 * elfProgramHeaderSize)).2 (i + 1#16) := by
  cases fuel with
  | zero => cases positive
  | succ fuel =>
      simp only [elfLoadSegments, if_pos further]
      rw [if_pos loaded]
      rfl

/-- The segment loop goes once around where there is one program header. -/
theorem elfSegments_single {entry : U64} {segment : Machine}
    (isHeader : readElfHeader machine.memory data = ⟨elfMagic, 2#8, entry, ph, 1#16⟩)
    (loaded : elfLoadSegment hhdmOffset data pagemap machine (data + ph) = (true, segment))
    (sameHeader : readElfHeader segment.memory data = readElfHeader machine.memory data) :
    elfVisits hhdmOffset machine data pagemap =
        elfSegmentVisits hhdmOffset data pagemap machine (data + ph) ∧
      elfLoad hhdmOffset machine data pagemap = (entry, segment) := by
  have programHeader : data + ph + (0#16).setWidth 64 * elfProgramHeaderSize = data + ph :=
    BitVec.add_zero _
  have further : (0#16 : U16) < (readElfHeader machine.memory data).ePhnum := by
    rw [isHeader]
    change 0#16 < 1#16
    decide
  have finished : ¬(0#16 + 1#16 : U16) < (readElfHeader segment.memory data).ePhnum := by
    rw [sameHeader, isHeader]
    change ¬0#16 + 1#16 < 1#16
    decide
  have segmentLoaded : (elfLoadSegment hhdmOffset data pagemap machine
      (data + ph + (0#16).setWidth 64 * elfProgramHeaderSize)).1 = true := by
    rw [programHeader, loaded]
  constructor
  · rw [elfVisits, isHeader]
    simp only [ne_eq, not_true_eq_false, if_false]
    rw [elfSegmentsVisits_step (by decide) further segmentLoaded, programHeader, loaded,
      elfSegmentsVisits_done _ finished, List.append_nil]
  · rw [elfLoad, isHeader]
    simp only [ne_eq, not_true_eq_false, if_false]
    rw [elfLoadSegments_step (by decide) further segmentLoaded, programHeader, loaded,
      elfLoadSegments_done _ finished]
    simp only [if_true, sameHeader, isHeader]

/-- A file with one program header whose segment has one page. -/
theorem elfVisits_single {entry : U64} (usable : machine.stack.Usable)
    (space : AddressSpace hhdmOffset machine root slots)
    (quiet : QuietRange hhdmOffset root slots machine data 64)
    (isHeader : readElfHeader machine.memory data = ⟨elfMagic, 2#8, entry, ph, 1#16⟩)
    (isProgramHeader : readElfProgramHeader machine.memory (data + ph) = header)
    (load : header.pType = ptLoad) (first : header.vaddrStart < header.vaddrEnd)
    (only : ¬header.vaddrStart + pageSize < header.vaddrEnd) (start : slot4 header.vaddrStart ∈ slots)
    (enough : 1 + missingTables hhdmOffset machine.memory (root.pointer hhdmOffset)
      header.vaddrStart ≤ machine.free.length) :
    elfVisits hhdmOffset machine data (root.pointer hhdmOffset) =
        [⟨machine, header.vaddrStart, header⟩] ∧
      elfLoad hhdmOffset machine data (root.pointer hhdmOffset) =
        (entry, (elfLoadPage hhdmOffset data (root.pointer hhdmOffset) (data + ph) header machine
          header.vaddrStart).2) := by
  obtain ⟨loaded, frame, created, mapped, turn⟩ :=
    elfLoadPage_spec data (data + ph) header usable space start enough
  have sameHeader := ((quiet.step (turn.step start)).2).readElfHeader
  have segment : elfLoadSegment hhdmOffset data (root.pointer hhdmOffset) machine (data + ph) =
      (true, (elfLoadPage hhdmOffset data (root.pointer hhdmOffset) (data + ph) header machine
        header.vaddrStart).2) := by
    rw [elfLoadSegment, isProgramHeader]
    simp only [load, ne_eq, not_true_eq_false, if_false]
    rw [elfLoadPages_step (by decide) first loaded, elfLoadPages_done _ only]
  have visits : elfSegmentVisits hhdmOffset data (root.pointer hhdmOffset) machine (data + ph) =
      [⟨machine, header.vaddrStart, header⟩] := by
    rw [elfSegmentVisits, isProgramHeader]
    simp only [load, ne_eq, not_true_eq_false, if_false]
    rw [elfPageVisits_step (by decide) first loaded, elfPageVisits_done _ only]
  have single := elfSegments_single isHeader segment sameHeader
  rw [visits] at single
  exact single

/-- Such a file, loaded into a fresh pagemap. -/
theorem NewPagemap.elfVisits_single {kernel pagemap : Frame} {before : Machine} {entry phoff : U64}
    (made : NewPagemap hhdmOffset kernel before pagemap machine) (usable : before.stack.Usable)
    (space : AddressSpace hhdmOffset before kernel Set.univ) {size : Nat}
    (quiet : QuietRange hhdmOffset kernel Set.univ before data size)
    (headerPart : ∀ address, InRange data 64 address → InRange data size address)
    (programHeaderPart : ∀ address, InRange (data + phoff) 56 address →
      InRange data size address)
    (isHeader : readElfHeader before.memory data = ⟨elfMagic, 2#8, entry, phoff, 1#16⟩)
    (isProgramHeader : readElfProgramHeader before.memory (data + phoff) = header)
    (load : header.pType = ptLoad) (first : header.vaddrStart < header.vaddrEnd)
    (only : ¬header.vaddrStart + pageSize < header.vaddrEnd) (enough : 5 ≤ before.free.length) :
    elfVisits hhdmOffset machine data (pagemap.pointer hhdmOffset) =
        [⟨machine, header.vaddrStart, header⟩] ∧
      1 + missingTables hhdmOffset machine.memory (pagemap.pointer hhdmOffset)
        header.vaddrStart ≤ machine.free.length ∧
      (elfLoad hhdmOffset machine data (pagemap.pointer hhdmOffset)).1 = entry ∧
      before.free.length ≤
        (elfLoad hhdmOffset machine data (pagemap.pointer hhdmOffset)).2.free.length + 5 := by
  obtain ⟨stillQuiet, same⟩ := made.quiet space quiet
  have count : before.free.length = machine.free.length + 1 := by
    rw [made.free, List.length_append, List.length_singleton]
  have supplied : 1 + missingTables hhdmOffset machine.memory (pagemap.pointer hhdmOffset)
      header.vaddrStart ≤ machine.free.length := by
    have missing := missingTables_le hhdmOffset machine.memory
      (pagemap.pointer hhdmOffset) header.vaddrStart
    omega
  have sameHeader : readElfHeader machine.memory data = ⟨elfMagic, 2#8, entry, phoff, 1#16⟩ := by
    rw [(same.part headerPart).readElfHeader]
    exact isHeader
  have sameProgramHeader : readElfProgramHeader machine.memory (data + phoff) = header := by
    rw [(same.part programHeaderPart).readElfProgramHeader]
    exact isProgramHeader
  have inner := made.space usable space
  obtain ⟨visits, load⟩ := Nekonix.elfVisits_single made.usable inner
    (fun address inside => stillQuiet address (headerPart address inside)) sameHeader
    sameProgramHeader load first only (Set.mem_univ _) supplied
  rw [load]
  refine ⟨visits, supplied, rfl, ?_⟩
  rw [count]
  exact Nat.succ_le_succ (elfLoadPage_supply made.usable inner (by omega))

/-! A machine that holds a file -/

/-- A cleared machine with a file in memory. -/
def Machine.holding (file : List U8) (data : U64) (count : Nat) : Machine :=
  { Machine.cleared count with
    memory := fun address => file.getD (address - data).toNat 0#8 }

theorem Machine.holding_outside {file : List U8} {count : Nat} {address : U64}
    (outside : ¬InRange data file.length address) :
    (Machine.holding file data count).memory address = 0#8 :=
  List.getD_eq_default _ _ (Nat.not_lt.mp outside)

section Holding

variable {file : List U8} {count : Nat}

/-- The file lies above the frames of the machine. -/
theorem Machine.file_above (small : count < 2 ^ 20)
    (above : data = 0x40000000000#64) (short : file.length < 2 ^ 20) {frame : Frame}
    (low : frame.toNat < count + 2) {address : U64} (inFile : InRange data file.length address) :
    ¬frame.Holds 0#64 address := by
  have number := frame.address_toNat
  unfold InRange at inFile
  unfold Frame.Holds InRange Frame.pointer higherHalf
  rw [above] at inFile
  rw [BitVec.add_zero]
  generalize frame.address = base at number
  intro inFrame
  rw [BitVec.toNat_sub] at inFile inFrame
  simp only [BitVec.toNat_ofNat] at inFile
  omega

theorem Machine.free_holding : (Machine.holding file data count).free =
    (Machine.cleared count).free := rfl

theorem Machine.tables_holding (small : count < 2 ^ 20) (above : data = 0x40000000000#64)
    (short : file.length < 2 ^ 20) (index : Slot) :
    tables 0#64 (Machine.holding file data count).memory 1#40 index = 0#64 := by
  have same : tables 0#64 (Machine.holding file data count).memory 1#40 =
      tables 0#64 (Machine.cleared count).memory 1#40 := by
    apply tables_congr
    intro address inFrame
    apply Machine.holding_outside
    intro inFile
    have low : (1#40 : Frame).toNat < count + 2 := by
      change 1 < count + 2
      omega
    exact Machine.file_above small above short low inFile inFrame
  rw [same, Machine.tables_cleared]

theorem Machine.addressSpace_holding (small : count < 2 ^ 20) (above : data = 0x40000000000#64)
    (short : file.length < 2 ^ 20) :
    AddressSpace 0#64 (Machine.holding file data count) 1#40 slots :=
  .of_cleared (fun index _ => Machine.tables_holding small above short index)
    (Machine.root_not_free (by omega))

theorem Machine.quiet_holding (small : count < 2 ^ 20) (above : data = 0x40000000000#64)
    (short : file.length < 2 ^ 20) :
    QuietRange 0#64 1#40 slots (Machine.holding file data count) data file.length := by
  intro address inFile
  constructor
  · intro frame free
    have bounds := Machine.mem_free_cleared (by omega) free
    exact Machine.file_above small above short bounds.2 inFile
  · intro path membership table reached
    have isRoot := reached_of_cleared
      (fun index _ => Machine.tables_holding small above short index) membership reached
    rw [isRoot.2]
    refine Machine.file_above small above short ?_ inFile
    change 1 < count + 2
    omega

end Holding

/-- A file with one segment: eight bytes from offset 16 on, at `pVaddr`. -/
def sampleFile (pVaddr : U64) : List U8 :=
  [0x7f#8, 0x45#8, 0x4c#8, 0x46#8, 2#8, 1#8, 1#8, 0#8] ++ List.replicate 8 0#8 ++
    [2#8, 0#8, 0x3e#8, 0#8, 1#8, 0#8, 0#8, 0#8] ++
    [0x10#8, 0#8, 0x40#8, 0#8, 0#8, 0#8, 0#8, 0#8] ++
    [64#8, 0#8, 0#8, 0#8, 0#8, 0#8, 0#8, 0#8] ++ List.replicate 8 0#8 ++
    [0#8, 0#8, 0#8, 0#8, 64#8, 0#8, 56#8, 0#8] ++ [1#8, 0#8, 0#8, 0#8, 0#8, 0#8, 0#8, 0#8] ++
    [1#8, 0#8, 0#8, 0#8, 5#8, 0#8, 0#8, 0#8] ++ [16#8, 0#8, 0#8, 0#8, 0#8, 0#8, 0#8, 0#8] ++
    (List.range 8).map (fun byte => pVaddr.extractLsb' (8 * byte) 8) ++ List.replicate 8 0#8 ++
    [8#8, 0#8, 0#8, 0#8, 0#8, 0#8, 0#8, 0#8] ++ [8#8, 0#8, 0#8, 0#8, 0#8, 0#8, 0#8, 0#8] ++
    [0#8, 0x10#8, 0#8, 0#8, 0#8, 0#8, 0#8, 0#8]

/-- Where the sample file lies. -/
def sampleAddress : U64 := 0x40000000000#64

/-- The only program header of the sample file. -/
def sampleHeader (pVaddr : U64) : ElfProgramHeader where
  pType := ptLoad
  pFlags := 5#32
  pOffset := 16#64
  pVaddr := pVaddr
  pFilesz := 8#64
  pMemsz := 8#64

theorem readElfHeader_sample :
    readElfHeader (Machine.holding (sampleFile 0x400010#64) sampleAddress 9).memory
      sampleAddress = ⟨elfMagic, 2#8, 0x400010#64, 64#64, 1#16⟩ := by
  decide +kernel

theorem readElfProgramHeader_sample :
    readElfProgramHeader (Machine.holding (sampleFile 0x400010#64) sampleAddress 9).memory
      (sampleAddress + 64#64) = sampleHeader 0x400010#64 := by
  decide +kernel

theorem readElfHeader_upperSample :
    readElfHeader (Machine.holding (sampleFile 0xffff800000000010#64) sampleAddress 9).memory
      sampleAddress = ⟨elfMagic, 2#8, 0x400010#64, 64#64, 1#16⟩ := by
  decide +kernel

theorem readElfProgramHeader_upperSample :
    readElfProgramHeader
      (Machine.holding (sampleFile 0xffff800000000010#64) sampleAddress 9).memory
      (sampleAddress + 64#64) = sampleHeader 0xffff800000000010#64 := by
  decide +kernel

theorem sampleFile_length (pVaddr : U64) : (sampleFile pVaddr).length = 120 := by
  simp [sampleFile]

/-- A part of the sample file. -/
theorem sample_part {offset size : Nat} (bound : offset + size ≤ 120) {address : U64}
    (inside : InRange (sampleAddress + BitVec.ofNat 64 offset) size address) :
    InRange sampleAddress 120 address := by
  unfold InRange at *
  bv_omega

/-- The kernel's empty top-level table beside the sample file. -/
theorem sample_kernel (pVaddr : U64) :
    let before := Machine.holding (sampleFile pVaddr) sampleAddress 9
    before.stack.Usable ∧ AddressSpace 0#64 before 1#40 Set.univ ∧
      QuietRange 0#64 1#40 Set.univ before sampleAddress 120 ∧ before.free.length = 9 := by
  have length := sampleFile_length pVaddr
  refine ⟨Machine.usable_cleared (by decide), ?_, ?_, ?_⟩
  · exact Machine.addressSpace_holding (by decide) rfl (by omega)
  · rw [← length]
    exact Machine.quiet_holding (by decide) rfl (by omega)
  · rw [Machine.free_holding, Machine.length_free_cleared (by decide)]

/-- The machine and the pagemap that `vmm_new_pagemap` makes for the sample file. -/
theorem sample_created (pVaddr : U64) :
    ∃ (pagemap : Frame) (machine : Machine),
      vmmNewPagemap 0#64 (Frame.pointer 0#64 1#40)
          (Machine.holding (sampleFile pVaddr) sampleAddress 9) =
        (pagemap.pointer 0#64, machine) ∧
      pagemap.pointer 0#64 ≠ 0#64 ∧
      NewPagemap 0#64 1#40 (Machine.holding (sampleFile pVaddr) sampleAddress 9) pagemap
        machine := by
  obtain ⟨usable, space, -, count⟩ := sample_kernel pVaddr
  exact vmmNewPagemap_identity usable (List.ne_nil_of_length_pos (by omega))
    (space.apart [] nil_mem_within 1#40 rfl)

/-- A load of the sample file goes through one page. -/
theorem sample_visits {pVaddr : U64} {pagemap : Frame} {machine : Machine}
    (made : NewPagemap 0#64 1#40 (Machine.holding (sampleFile pVaddr) sampleAddress 9) pagemap
      machine)
    (isHeader : readElfHeader (Machine.holding (sampleFile pVaddr) sampleAddress 9).memory
      sampleAddress = ⟨elfMagic, 2#8, 0x400010#64, 64#64, 1#16⟩)
    (isProgramHeader : readElfProgramHeader
      (Machine.holding (sampleFile pVaddr) sampleAddress 9).memory (sampleAddress + 64#64) =
        sampleHeader pVaddr)
    (first : (sampleHeader pVaddr).vaddrStart < (sampleHeader pVaddr).vaddrEnd)
    (only : ¬(sampleHeader pVaddr).vaddrStart + pageSize < (sampleHeader pVaddr).vaddrEnd) :
    elfVisits 0#64 machine sampleAddress (pagemap.pointer 0#64) =
        [⟨machine, (sampleHeader pVaddr).vaddrStart, sampleHeader pVaddr⟩] ∧
      1 + missingTables 0#64 machine.memory (pagemap.pointer 0#64)
        (sampleHeader pVaddr).vaddrStart ≤ machine.free.length ∧
      (elfLoad 0#64 machine sampleAddress (pagemap.pointer 0#64)).1 = 0x400010#64 ∧
      9 ≤ (elfLoad 0#64 machine sampleAddress (pagemap.pointer 0#64)).2.free.length + 5 := by
  obtain ⟨usable, space, quiet, count⟩ := sample_kernel pVaddr
  rw [← count]
  refine made.elfVisits_single usable space quiet ?_ ?_ isHeader isProgramHeader rfl first only
    (by omega)
  · exact fun address inside => inside.mono (by decide)
  · exact fun address inside => sample_part (by decide) inside

end Nekonix
