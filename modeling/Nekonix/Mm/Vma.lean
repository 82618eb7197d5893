import Nekonix.Mm.Vmm

/-!
# The region lists of `mm/vma.c`

A context and its regions lie in page frames of their own, reached through the
direct map.  A read through `NULL` is a read at address 0, which `vmm_init` has
mapped.  A call whose loop over `next` does not end has no result.  Log output
is left out.
-/

namespace Nekonix

/-! The fields of `vma_region_t` and `vma_context_t` -/

def regionStart (region : U64) : U64 := region
def regionSize (region : U64) : U64 := region + 8#64
def regionFlags (region : U64) : U64 := region + 16#64
def regionNext (region : U64) : U64 := region + 24#64
def regionPrev (region : U64) : U64 := region + 32#64

/-- `sizeof(vma_region_t)` -/
def vmaRegionSize : Nat := 40

def contextPagemap (ctx : U64) : U64 := ctx
def contextRoot (ctx : U64) : U64 := ctx + 8#64

/-- `sizeof(vma_context_t)` -/
def vmaContextSize : Nat := 16

/-- `region->next` -/
def nextRegion (memory : Memory) (region : U64) : U64 := Memory.load64 memory (regionNext region)

/-- `region->start + (region->size * PAGE_SIZE)` -/
def regionEnd (memory : Memory) (region : U64) : U64 :=
  Memory.load64 memory (regionStart region) + Memory.load64 memory (regionSize region) * pageSize

/-! Contexts -/

/-- `(vma_region_t *)HIGHER_HALF(pmm_request_page())` -/
def requestRegion (hhdmOffset : U64) (machine : Machine) : U64 × Machine :=
  let (page, machine) := pmmRequestPage hhdmOffset machine
  (higherHalf hhdmOffset page, machine)

def vmaCreateContext (hhdmOffset : U64) (machine : Machine) (pagemap : U64) : U64 × Machine :=
  let (ctx, machine) := requestRegion hhdmOffset machine
  let memory := memset machine.memory ctx 0#8 vmaContextSize
  let (root, machine) := requestRegion hhdmOffset { machine with memory }
  let memory := Memory.store64 machine.memory (contextRoot ctx) root
  let memory := memset memory (Memory.load64 memory (contextRoot ctx)) 0#8 vmaRegionSize
  let memory := Memory.store64 memory (contextPagemap ctx) pagemap
  let memory :=
    Memory.store64 memory (regionStart (Memory.load64 memory (contextRoot ctx))) 0#64
  let memory :=
    Memory.store64 memory (regionSize (Memory.load64 memory (contextRoot ctx))) 1#64
  (ctx, { machine with memory })

/-- The loop of `vma_destroy_context`. -/
def vmaDestroyRegions (hhdmOffset : U64) : (fuel : Nat) → Machine → (region : U64) → Option Machine
  | 0, _, _ => none
  | fuel + 1, machine, region =>
      if region = 0#64 then
        some machine
      else
        let next := nextRegion machine.memory region
        vmaDestroyRegions hhdmOffset fuel (pmmFreePage machine (physical hhdmOffset region)) next

def vmaDestroyContext (hhdmOffset : U64) (machine : Machine) (ctx : U64) : Option Machine := do
  let root := Memory.load64 machine.memory (contextRoot ctx)
  let machine ← vmaDestroyRegions hhdmOffset (2 ^ 64) machine root
  pure (pmmFreePage machine (physical hhdmOffset ctx))

/-! Allocation -/

/-- `region->start + (region->size * PAGE_SIZE) - region->next->start >= size` -/
def RegionFits (memory : Memory) (size region : U64) : Prop :=
  regionEnd memory region - Memory.load64 memory (regionStart (nextRegion memory region)) ≥ size

instance (memory : Memory) (size region : U64) : Decidable (RegionFits memory size region) :=
  inferInstanceAs (Decidable (_ ≥ _))

/-- `while (region != ctx->root)`: the region that passes the test, or `ctx->root`
when the loop has come back to it. -/
def vmaSearch (memory : Memory) (root size : U64) : (fuel : Nat) → (region : U64) → Option U64
  | 0, _ => none
  | fuel + 1, region =>
      if region = root then
        some root
      else if RegionFits memory size region then
        some region
      else
        vmaSearch memory root size fuel (nextRegion memory region)

/-- `while (last_region->next != NULL)` -/
def vmaLastRegion (memory : Memory) : (fuel : Nat) → (region : U64) → Option U64
  | 0, _ => none
  | fuel + 1, region =>
      if nextRegion memory region = 0#64 then some region
      else vmaLastRegion memory fuel (nextRegion memory region)

/-- The new region in the hole behind `region`. -/
def vmaInsert (memory : Memory) (newRegion region size flags : U64) : Memory :=
  let memory := Memory.store64 memory (regionSize newRegion) size
  let memory := Memory.store64 memory (regionFlags newRegion) flags
  let memory := Memory.store64 memory (regionStart newRegion) (regionEnd memory region)
  let memory := Memory.store64 memory (regionNext newRegion) (nextRegion memory region)
  let memory := Memory.store64 memory (regionPrev newRegion) region
  Memory.store64 memory (regionNext region) newRegion

/-- The new region at the end of the list: what follows the label `skip`. -/
def vmaAppend (memory : Memory) (newRegion lastRegion size flags : U64) : Memory :=
  let memory := Memory.store64 memory (regionStart newRegion) (regionEnd memory lastRegion)
  let memory := Memory.store64 memory (regionSize newRegion) size
  let memory := Memory.store64 memory (regionFlags newRegion) flags
  let memory := Memory.store64 memory (regionNext newRegion) 0#64
  let memory := Memory.store64 memory (regionPrev newRegion) lastRegion
  Memory.store64 memory (regionNext lastRegion) newRegion

/-- Everything before the mapping loop.  The new region is `NULL` where `vma_alloc`
returns `NULL` by then. -/
def vmaPlace (hhdmOffset : U64) (machine : Machine) (ctx size flags : U64) :
    Option (U64 × Machine) :=
  let root := Memory.load64 machine.memory (contextRoot ctx)
  if ctx = 0#64 ∨ root = 0#64 ∨ Memory.load64 machine.memory (contextPagemap ctx) = 0#64 then
    some (0#64, machine)
  else if nextRegion machine.memory root = 0#64 then
    let (newRegion, machine) := requestRegion hhdmOffset machine
    if newRegion = 0#64 then
      some (0#64, machine)
    else
      let memory := memset machine.memory newRegion 0#8 vmaRegionSize
      let lastRegion := Memory.load64 memory (contextRoot ctx)
      some (newRegion,
        { machine with memory := vmaAppend memory newRegion lastRegion size flags })
  else
    (vmaSearch machine.memory root size (2 ^ 64) (nextRegion machine.memory root)).bind fun region =>
      let (newRegion, machine) := requestRegion hhdmOffset machine
      if newRegion = 0#64 then
        some (0#64, machine)
      else
        let memory := memset machine.memory newRegion 0#8 vmaRegionSize
        if region = root then
          let first := Memory.load64 memory (contextRoot ctx)
          (vmaLastRegion memory (2 ^ 64) first).map fun lastRegion =>
            (newRegion,
              { machine with memory := vmaAppend memory newRegion lastRegion size flags })
        else
          some (newRegion, { machine with memory := vmaInsert memory newRegion region size flags })

/-- `ALIGN_UP(new_region->size, PAGE_SIZE) / PAGE_SIZE` -/
def mappedPages (size : U64) : U64 := alignUp size pageSize / pageSize

/-- One turn of the mapping loop: the page and the state after it; `0` is the return
for lack of memory. -/
def vmaMapPage (hhdmOffset ctx newRegion : U64) (machine : Machine) (i : U64) : U64 × Machine :=
  let (page, machine) := pmmRequestPage hhdmOffset machine
  if page = 0#64 then
    (0#64, machine)
  else
    let memory := machine.memory
    (page,
      vmmMap hhdmOffset machine (Memory.load64 memory (contextPagemap ctx))
        (Memory.load64 memory (regionStart newRegion) + i * pageSize) page
        (Memory.load64 memory (regionFlags newRegion)))

/-- The mapping loop; `false` is the return for lack of memory.  There are fewer than
2^52 pages. -/
def vmaMapPages (hhdmOffset ctx newRegion : U64) :
    (fuel : Nat) → Machine → (i : U64) → Bool × Machine
  | 0, machine, _ => (true, machine)
  | fuel + 1, machine, i =>
      if i < mappedPages (Memory.load64 machine.memory (regionSize newRegion)) then
        let (page, machine) := vmaMapPage hhdmOffset ctx newRegion machine i
        if page = 0#64 then (false, machine)
        else vmaMapPages hhdmOffset ctx newRegion fuel machine (i + 1#64)
      else
        (true, machine)

def vmaAlloc (hhdmOffset : U64) (machine : Machine) (ctx size flags : U64) :
    Option (U64 × Machine) :=
  (vmaPlace hhdmOffset machine ctx size flags).map fun (newRegion, machine) =>
    if newRegion = 0#64 then
      (0#64, machine)
    else
      let (mapped, machine) := vmaMapPages hhdmOffset ctx newRegion (2 ^ 52) machine 0#64
      if mapped then (Memory.load64 machine.memory (regionStart newRegion), machine)
      else (0#64, machine)

/-! Release -/

/-- The search loop of `vma_free`; `NULL` where no region starts at `ptr`. -/
def vmaFind (memory : Memory) (ptr : U64) : (fuel : Nat) → (region : U64) → Option U64
  | 0, _ => none
  | fuel + 1, region =>
      if region = 0#64 then
        some 0#64
      else if Memory.load64 memory (regionStart region) = ptr then
        some region
      else
        vmaFind memory ptr fuel (nextRegion memory region)

/-- One turn of the loop that gives back the pages. -/
def vmaFreeTurn (hhdmOffset ctx region : U64) (machine : Machine) (i : U64) : Machine :=
  let memory := machine.memory
  let machine := pmmFreePage machine
    (virtToPhys hhdmOffset memory (Memory.load64 memory (contextPagemap ctx))
      (Memory.load64 memory (regionStart region) + i * pageSize))
  vmmUnmap hhdmOffset machine (Memory.load64 memory (contextPagemap ctx))
    (Memory.load64 memory (regionStart region) + i * pageSize)

/-- The loop that gives back the pages.  `i` has 64 bits. -/
def vmaFreePages (hhdmOffset ctx region : U64) : (fuel : Nat) → Machine → (i : U64) → Machine
  | 0, machine, _ => machine
  | fuel + 1, machine, i =>
      if i < Memory.load64 machine.memory (regionSize region) then
        vmaFreePages hhdmOffset ctx region fuel
          (vmaFreeTurn hhdmOffset ctx region machine i) (i + 1#64)
      else
        machine

/-- Taking a region off the list; `prev` and `next` are read before. -/
def vmaUnlink (memory : Memory) (ctx region prev next : U64) : Memory :=
  let memory := if prev ≠ 0#64 then Memory.store64 memory (regionNext prev) next else memory
  let memory := if next ≠ 0#64 then Memory.store64 memory (regionPrev next) prev else memory
  if region = Memory.load64 memory (contextRoot ctx) then
    Memory.store64 memory (contextRoot ctx) next
  else
    memory

def vmaFree (hhdmOffset : U64) (machine : Machine) (ctx ptr : U64) : Option Machine :=
  if ctx = 0#64 then
    some machine
  else
    let root := Memory.load64 machine.memory (contextRoot ctx)
    (vmaFind machine.memory ptr (2 ^ 64) root).map fun region =>
      if region = 0#64 then
        machine
      else
        let prev := Memory.load64 machine.memory (regionPrev region)
        let next := nextRegion machine.memory region
        let machine := vmaFreePages hhdmOffset ctx region (2 ^ 64) machine 0#64
        let memory := vmaUnlink machine.memory ctx region prev next
        pmmFreePage { machine with memory } (physical hhdmOffset region)

end Nekonix
