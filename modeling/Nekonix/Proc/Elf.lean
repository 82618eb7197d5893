import Nekonix.Mm.Vmm

/-!
# The ELF loader of `proc/elf.c`

The headers stay in memory and are read where the code reads them, also inside
the loops.  Log output is left out.
-/

namespace Nekonix

/-- `ELF_MAGIC` -/
def elfMagic : U32 := 0x464C457F#32

/-- `PT_LOAD` -/
def ptLoad : U32 := 1#32

/-- `PF_X` -/
def pfX : U32 := 1#32

/-- `PF_W` -/
def pfW : U32 := 2#32

/-- The fields of `elf_h_t` that `elf_load` reads. -/
structure ElfHeader where
  eMagic : U32
  eClass : U8
  eEntry : U64
  ePhoff : U64
  ePhnum : U16
deriving DecidableEq

/-- The fields of `elf_ph_t` that `elf_load` reads. -/
structure ElfProgramHeader where
  pType : U32
  pFlags : U32
  pOffset : U64
  pVaddr : U64
  pFilesz : U64
  pMemsz : U64
deriving DecidableEq

/-- The packed `elf_h_t` at `data`. -/
def readElfHeader (memory : Memory) (data : U64) : ElfHeader where
  eMagic := Memory.load32 memory data
  eClass := memory (data + 4#64)
  eEntry := Memory.load64 memory (data + 24#64)
  ePhoff := Memory.load64 memory (data + 32#64)
  ePhnum := Memory.load16 memory (data + 56#64)

/-- The packed `elf_ph_t` at `ph`. -/
def readElfProgramHeader (memory : Memory) (ph : U64) : ElfProgramHeader where
  pType := Memory.load32 memory ph
  pFlags := Memory.load32 memory (ph + 4#64)
  pOffset := Memory.load64 memory (ph + 8#64)
  pVaddr := Memory.load64 memory (ph + 16#64)
  pFilesz := Memory.load64 memory (ph + 32#64)
  pMemsz := Memory.load64 memory (ph + 40#64)

/-- `sizeof(elf_ph_t)` -/
def elfProgramHeaderSize : U64 := 56#64

/-- `vaddr_start` -/
def ElfProgramHeader.vaddrStart (header : ElfProgramHeader) : U64 :=
  alignDown header.pVaddr pageSize

/-- `vaddr_end` -/
def ElfProgramHeader.vaddrEnd (header : ElfProgramHeader) : U64 :=
  alignUp (header.pVaddr + header.pMemsz) pageSize

/-- The flags `elf_load` maps a segment with. -/
def ElfProgramHeader.flags (header : ElfProgramHeader) : U64 :=
  let flags := vmmPresent
  let flags := if header.pFlags &&& pfW ≠ 0#32 then flags ||| vmmWritable else flags
  if header.pFlags &&& pfX = 0#32 then flags ||| vmmNx else flags

/-- The bytes that go into a page once it is mapped. -/
def elfFillPage (memory : Memory) (data ph offset vaddrStart addr phys : U64)
    (hhdmOffset : U64) : Memory :=
  let fileOffset := offset + (addr - vaddrStart)
  let fileEnd := offset + (readElfProgramHeader memory ph).pFilesz
  if fileOffset < fileEnd then
    let toCopy := if fileOffset + pageSize > fileEnd then fileEnd - fileOffset else pageSize
    memcpy memory (higherHalf hhdmOffset phys) (data + fileOffset) toCopy.toNat
  else
    memset memory (higherHalf hhdmOffset phys) 0#8 4096

/-- One turn of the page loop; `false` is the return for lack of memory.  `header`
is the program header as it was read before the loop. -/
def elfLoadPage (hhdmOffset data pagemap ph : U64) (header : ElfProgramHeader)
    (machine : Machine) (addr : U64) : Bool × Machine :=
  let (phys, machine) := pmmRequestPage hhdmOffset machine
  if phys = 0#64 then
    (false, machine)
  else
    let machine := vmmMap hhdmOffset machine pagemap addr phys header.flags
    (true,
      { machine with
        memory := elfFillPage machine.memory data ph header.pOffset header.vaddrStart addr phys
          hhdmOffset })

/-- The page loop.  A segment has at most 2^52 pages. -/
def elfLoadPages (hhdmOffset data pagemap ph : U64) (header : ElfProgramHeader) :
    (fuel : Nat) → Machine → (addr : U64) → Bool × Machine
  | 0, machine, _ => (true, machine)
  | fuel + 1, machine, addr =>
      if addr < header.vaddrEnd then
        let (loaded, machine) := elfLoadPage hhdmOffset data pagemap ph header machine addr
        if loaded then
          elfLoadPages hhdmOffset data pagemap ph header fuel machine (addr + pageSize)
        else
          (false, machine)
      else
        (true, machine)

/-- One turn of the segment loop. -/
def elfLoadSegment (hhdmOffset data pagemap : U64) (machine : Machine) (ph : U64) :
    Bool × Machine :=
  let header := readElfProgramHeader machine.memory ph
  if header.pType ≠ ptLoad then
    (true, machine)
  else
    elfLoadPages hhdmOffset data pagemap ph header (2 ^ 52) machine header.vaddrStart

/-- The segment loop.  `e_phnum` has 16 bits. -/
def elfLoadSegments (hhdmOffset data pagemap ph : U64) :
    (fuel : Nat) → Machine → (i : U16) → Bool × Machine
  | 0, machine, _ => (true, machine)
  | fuel + 1, machine, i =>
      if i < (readElfHeader machine.memory data).ePhnum then
        let (loaded, machine) := elfLoadSegment hhdmOffset data pagemap machine
          (ph + i.setWidth 64 * elfProgramHeaderSize)
        if loaded then
          elfLoadSegments hhdmOffset data pagemap ph fuel machine (i + 1#16)
        else
          (false, machine)
      else
        (true, machine)

/-- `elf_load` -/
def elfLoad (hhdmOffset : U64) (machine : Machine) (data pagemap : U64) : U64 × Machine :=
  let header := readElfHeader machine.memory data
  if header.eMagic ≠ elfMagic then
    (0#64, machine)
  else if header.eClass ≠ 2#8 then
    (0#64, machine)
  else
    let (loaded, machine) := elfLoadSegments hhdmOffset data pagemap (data + header.ePhoff)
      65536 machine 0#16
    if loaded then ((readElfHeader machine.memory data).eEntry, machine) else (0#64, machine)

/-! The states in which `elf_load` is about to back a page -/

/-- A turn of the page loop: the state it starts in, the page and its header. -/
structure PageVisit where
  machine : Machine
  addr : U64
  header : ElfProgramHeader

def elfPageVisits (hhdmOffset data pagemap ph : U64) (header : ElfProgramHeader) :
    (fuel : Nat) → Machine → (addr : U64) → List PageVisit
  | 0, _, _ => []
  | fuel + 1, machine, addr =>
      if addr < header.vaddrEnd then
        let (loaded, next) := elfLoadPage hhdmOffset data pagemap ph header machine addr
        ⟨machine, addr, header⟩ ::
          if loaded then
            elfPageVisits hhdmOffset data pagemap ph header fuel next (addr + pageSize)
          else []
      else []

def elfSegmentVisits (hhdmOffset data pagemap : U64) (machine : Machine) (ph : U64) :
    List PageVisit :=
  let header := readElfProgramHeader machine.memory ph
  if header.pType ≠ ptLoad then []
  else elfPageVisits hhdmOffset data pagemap ph header (2 ^ 52) machine header.vaddrStart

def elfSegmentsVisits (hhdmOffset data pagemap ph : U64) :
    (fuel : Nat) → Machine → (i : U16) → List PageVisit
  | 0, _, _ => []
  | fuel + 1, machine, i =>
      if i < (readElfHeader machine.memory data).ePhnum then
        let header := ph + i.setWidth 64 * elfProgramHeaderSize
        let (loaded, next) := elfLoadSegment hhdmOffset data pagemap machine header
        elfSegmentVisits hhdmOffset data pagemap machine header ++
          if loaded then elfSegmentsVisits hhdmOffset data pagemap ph fuel next (i + 1#16) else []
      else []

/-- The pages `elf_load` goes through, in order, each with the state before it. -/
def elfVisits (hhdmOffset : U64) (machine : Machine) (data pagemap : U64) : List PageVisit :=
  let header := readElfHeader machine.memory data
  if header.eMagic ≠ elfMagic then []
  else if header.eClass ≠ 2#8 then []
  else elfSegmentsVisits hhdmOffset data pagemap (data + header.ePhoff) 65536 machine 0#16

end Nekonix
