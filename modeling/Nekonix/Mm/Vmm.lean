import Nekonix.Mm.Pmm

/-!
# The page-table functions of `mm/vmm.c`

Tables are arrays of 512 entries in the kernel's memory, reached through the
direct map.  Cache effects (`invlpg`) and the log output are left out.
-/

namespace Nekonix

/-! The flags of `mm/vmm.h` -/

def vmmPresent : U64 := 1#64
def vmmWritable : U64 := 2#64
def vmmNx : U64 := 1#64 <<< 63
def vmmUser : U64 := 4#64

/-! The four index fields of a virtual address -/

def pml1Idx (virt : U64) : U64 := (virt &&& (0x1ff#64 <<< 12)) >>> 12
def pml2Idx (virt : U64) : U64 := (virt &&& (0x1ff#64 <<< 21)) >>> 21
def pml3Idx (virt : U64) : U64 := (virt &&& (0x1ff#64 <<< 30)) >>> 30
def pml4Idx (virt : U64) : U64 := (virt &&& (0x1ff#64 <<< 39)) >>> 39

/-- The address bits of an entry. -/
def entryMask : U64 := 0x000FFFFFFFFFF000#64

/-- `table[idx]` -/
def readEntry (memory : Memory) (table idx : U64) : U64 := Memory.load64 memory (table + idx * 8#64)

/-- `table[idx] = value` -/
def writeEntry (memory : Memory) (table idx value : U64) : Memory :=
  Memory.store64 memory (table + idx * 8#64) value

/-- `(u64 *)HIGHER_HALF(entry & 0x000FFFFFFFFFF000)` -/
def entryTable (hhdmOffset entry : U64) : U64 := higherHalf hhdmOffset (entry &&& entryMask)

/-- `!(entry & 1)` -/
def notPresent (entry : U64) : Prop := entry &&& 1#64 = 0#64

instance (entry : U64) : Decidable (notPresent entry) := inferInstanceAs (Decidable (_ = _))

def virtToPhys (hhdmOffset : U64) (memory : Memory) (pagemap virt : U64) : U64 :=
  if notPresent (readEntry memory pagemap (pml4Idx virt)) then
    0#64
  else
    let pml3Table := entryTable hhdmOffset (readEntry memory pagemap (pml4Idx virt))
    if notPresent (readEntry memory pml3Table (pml3Idx virt)) then
      0#64
    else
      let pml2Table := entryTable hhdmOffset (readEntry memory pml3Table (pml3Idx virt))
      if notPresent (readEntry memory pml2Table (pml2Idx virt)) then
        0#64
      else
        let pml1Table := entryTable hhdmOffset (readEntry memory pml2Table (pml2Idx virt))
        readEntry memory pml1Table (pml1Idx virt) &&& entryMask

/-- `if (!(table[idx] & 1)) table[idx] = (u64)pmm_request_page() | flags;` as
`vmm_map` has it at each of the three upper levels. -/
def requestTable (hhdmOffset : U64) (machine : Machine) (table idx flags : U64) : Machine :=
  if notPresent (readEntry machine.memory table idx) then
    let (page, machine) := pmmRequestPage hhdmOffset machine
    { machine with memory := writeEntry machine.memory table idx (page ||| flags) }
  else
    machine

def vmmMap (hhdmOffset : U64) (machine : Machine) (pagemap virt phys flags : U64) : Machine :=
  let machine := requestTable hhdmOffset machine pagemap (pml4Idx virt) flags
  let pml3Table := entryTable hhdmOffset (readEntry machine.memory pagemap (pml4Idx virt))
  let machine := requestTable hhdmOffset machine pml3Table (pml3Idx virt) flags
  let pml2Table := entryTable hhdmOffset (readEntry machine.memory pml3Table (pml3Idx virt))
  let machine := requestTable hhdmOffset machine pml2Table (pml2Idx virt) flags
  let pml1Table := entryTable hhdmOffset (readEntry machine.memory pml2Table (pml2Idx virt))
  { machine with memory := writeEntry machine.memory pml1Table (pml1Idx virt) (phys ||| flags) }

def vmmUnmap (hhdmOffset : U64) (machine : Machine) (pagemap virt : U64) : Machine :=
  let memory := machine.memory
  if notPresent (readEntry memory pagemap (pml4Idx virt)) then
    { machine with memory := writeEntry memory pagemap (pml4Idx virt) 0#64 }
  else
    let pml3Table := entryTable hhdmOffset (readEntry memory pagemap (pml4Idx virt))
    if notPresent (readEntry memory pml3Table (pml3Idx virt)) then
      { machine with memory := writeEntry memory pml3Table (pml3Idx virt) 0#64 }
    else
      let pml2Table := entryTable hhdmOffset (readEntry memory pml3Table (pml3Idx virt))
      if notPresent (readEntry memory pml2Table (pml2Idx virt)) then
        { machine with memory := writeEntry memory pml2Table (pml2Idx virt) 0#64 }
      else
        let pml1Table := entryTable hhdmOffset (readEntry memory pml2Table (pml2Idx virt))
        { machine with memory := writeEntry memory pml1Table (pml1Idx virt) 0#64 }

/-- `for (i = 256; i < 512; i++) pagemap[i] = kernel_pagemap[i];` -/
def copyKernelEntries (memory : Memory) (pagemap kernelPagemap : U64) : Memory :=
  (List.range' 256 256).foldl
    (fun memory i =>
      writeEntry memory pagemap (BitVec.ofNat 64 i)
        (readEntry memory kernelPagemap (BitVec.ofNat 64 i)))
    memory

def vmmNewPagemap (hhdmOffset kernelPagemap : U64) (machine : Machine) : U64 × Machine :=
  let (page, machine) := pmmRequestPage hhdmOffset machine
  let pagemap := higherHalf hhdmOffset page
  if pagemap = 0#64 then
    (0#64, machine)
  else
    let memory := memset machine.memory pagemap 0#8 4096
    (pagemap, { machine with memory := copyKernelEntries memory pagemap kernelPagemap })

/-- The value `vmm_switch_pagemap` loads into `cr3`. -/
def vmmSwitchPagemap (hhdmOffset newPagemap : U64) : U64 := physical hhdmOffset newPagemap

def vmmDestroyPagemap (machine : Machine) (pagemap : U64) : Machine := pmmFreePage machine pagemap

/-- How many tables the walk of `virt` lacks: the frames `vmm_map` will request. -/
def missingTables (hhdmOffset : U64) (memory : Memory) (pagemap virt : U64) : Nat :=
  if notPresent (readEntry memory pagemap (pml4Idx virt)) then
    3
  else
    let pml3Table := entryTable hhdmOffset (readEntry memory pagemap (pml4Idx virt))
    if notPresent (readEntry memory pml3Table (pml3Idx virt)) then
      2
    else
      let pml2Table := entryTable hhdmOffset (readEntry memory pml3Table (pml3Idx virt))
      if notPresent (readEntry memory pml2Table (pml2Idx virt)) then 1 else 0

end Nekonix
