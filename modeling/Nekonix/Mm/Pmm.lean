import Nekonix.Lib.String

/-!
# The physical frame stack of `mm/pmm.c`

`stack.pages` is an array of its own, apart from the memory the kernel reads
and writes through the direct map: `pmm_init` carves it out of a usable entry
before it lists the remaining frames.
-/

namespace Nekonix

/-- `pmm_stack_t` -/
structure PmmStack where
  pages : U64 → U64
  idx : U64
  max : U64

/-- The kernel's memory, as seen through its own pointers, and the frame stack. -/
structure Machine where
  memory : Memory
  stack : PmmStack

/-- `pmm_request_page`: the frame and the state after the call; `0` is `NULL`. -/
def pmmRequestPage (hhdmOffset : U64) (machine : Machine) : U64 × Machine :=
  let stack := machine.stack
  if stack.idx = 0#64 then
    (0#64, machine)
  else
    let idx := stack.idx - 1#64
    let pageAddr := stack.pages idx
    (pageAddr,
      { memory := memset machine.memory (higherHalf hhdmOffset pageAddr) 0#8 4096
        stack := { stack with idx := idx } })

/-- `pmm_free_page` -/
def pmmFreePage (machine : Machine) (ptr : U64) : Machine :=
  let stack := machine.stack
  if ptr = 0#64 then
    machine
  else if stack.idx ≥ stack.max then
    machine
  else
    { machine with
      stack := { stack with
        pages := Function.update stack.pages stack.idx ptr
        idx := stack.idx + 1#64 } }

/-- `struct limine_memmap_entry` -/
structure LimineMemmapEntry where
  base : U64
  length : U64
  type : U64

/-- `LIMINE_MEMMAP_USABLE` -/
def limineMemmapUsable : U64 := 0#64

/-- The first loop of `pmm_init`. -/
def countPages (memmap : List LimineMemmapEntry) : U64 :=
  memmap.foldl
    (fun freePages entry =>
      if entry.type = limineMemmapUsable then freePages + divRoundUp entry.length pageSize
      else freePages)
    0#64

/-- The second loop of `pmm_init`: the array comes out of the first usable entry
that is long enough. -/
def carveStack (arraySize : U64) : List LimineMemmapEntry → List LimineMemmapEntry
  | [] => []
  | entry :: rest =>
      if entry.length ≥ arraySize ∧ entry.type = limineMemmapUsable then
        { entry with length := entry.length - arraySize, base := entry.base + arraySize } :: rest
      else
        entry :: carveStack arraySize rest

/-- `for (; j < entry->length; j += PAGE_SIZE) stack.pages[stack.idx++] = entry->base + j;` -/
def pushPages (entry : LimineMemmapEntry) : (fuel : Nat) → (stack : PmmStack) → (j : U64) → PmmStack
  | 0, stack, _ => stack
  | fuel + 1, stack, j =>
      if j < entry.length then
        pushPages entry fuel
          { stack with
            pages := Function.update stack.pages stack.idx (entry.base + j)
            idx := stack.idx + 1#64 }
          (j + pageSize)
      else
        stack

/-- The last loop of `pmm_init`.  An entry of 64-bit length has at most 2^52 pages. -/
def pushEntries (stack : PmmStack) (memmap : List LimineMemmapEntry) : PmmStack :=
  memmap.foldl
    (fun stack entry =>
      if entry.type = limineMemmapUsable then pushPages entry (2 ^ 52) stack 0#64 else stack)
    stack

/-- `pmm_init`, where `pages` is what the array holds before. -/
def pmmInit (memory : Memory) (pages : U64 → U64) (memmap : List LimineMemmapEntry) : Machine :=
  let arraySize := alignUp (countPages memmap * 8#64) pageSize
  let stack := pushEntries { pages, idx := 0#64, max := 0#64 } (carveStack arraySize memmap)
  { memory, stack := { stack with max := stack.idx } }

/-- The free frames `pages[0..idx)`, bottom of the stack first. -/
def PmmStack.frames (stack : PmmStack) : List U64 :=
  (List.range stack.idx.toNat).map fun slot => stack.pages (BitVec.ofNat 64 slot)

/-- The free frames of a machine. -/
abbrev Machine.free (machine : Machine) : List U64 := machine.stack.frames

@[simp]
theorem PmmStack.length_frames (stack : PmmStack) : stack.frames.length = stack.idx.toNat := by
  simp [frames]

theorem PmmStack.frames_eq_nil_iff (stack : PmmStack) : stack.frames = [] ↔ stack.idx = 0#64 := by
  rw [← List.length_eq_zero_iff, length_frames, ← BitVec.toNat_inj]
  simp

/-- Taking the top slot off the stack. -/
theorem PmmStack.frames_pop (stack : PmmStack) (nonempty : stack.idx ≠ 0#64) :
    stack.frames =
      PmmStack.frames { stack with idx := stack.idx - 1#64 } ++
        [stack.pages (stack.idx - 1#64)] := by
  have count : stack.idx.toNat = (stack.idx - 1#64).toNat + 1 := by bv_omega
  have top : BitVec.ofNat 64 (stack.idx - 1#64).toNat = stack.idx - 1#64 :=
    BitVec.ofNat_toNat _ _ |>.trans (BitVec.setWidth_eq _)
  simp only [frames, count, List.range_succ, List.map_append, List.map_cons, List.map_nil, top]

/-- Putting a frame on top of the stack. -/
theorem PmmStack.frames_push (stack : PmmStack) (ptr : U64) (room : stack.idx.toNat + 1 < 2 ^ 64) :
    PmmStack.frames
        { stack with pages := Function.update stack.pages stack.idx ptr, idx := stack.idx + 1#64 } =
      stack.frames ++ [ptr] := by
  have count : (stack.idx + 1#64).toNat = stack.idx.toNat + 1 := by bv_omega
  have below : ∀ slot ∈ List.range stack.idx.toNat,
      Function.update stack.pages stack.idx ptr (BitVec.ofNat 64 slot) =
        stack.pages (BitVec.ofNat 64 slot) := by
    intro slot membership
    apply Function.update_of_ne
    have bound := List.mem_range.mp membership
    bv_omega
  simp only [frames, count, List.range_succ, List.map_append, List.map_cons, List.map_nil,
    List.map_congr_left below]
  simp

theorem pmmRequestPage_empty {hhdmOffset : U64} {machine : Machine} (empty : machine.free = []) :
    pmmRequestPage hhdmOffset machine = (0#64, machine) := by
  simp [pmmRequestPage, (machine.stack.frames_eq_nil_iff).mp empty]

/-- What a request that finds a frame does: it takes the top one and clears its page. -/
structure Requested (hhdmOffset : U64) (machine : Machine) (page : U64) (next : Machine) :
    Prop where
  free : machine.free = next.free ++ [page]
  memory : next.memory =
    FlatMemory.fill machine.memory 4096 (higherHalf hhdmOffset page) 0#8
  max : next.stack.max = machine.stack.max

theorem pmmRequestPage_spec (hhdmOffset : U64) {machine : Machine} (available : machine.free ≠ []) :
    Requested hhdmOffset machine (pmmRequestPage hhdmOffset machine).1
      (pmmRequestPage hhdmOffset machine).2 := by
  have nonempty : machine.stack.idx ≠ 0#64 :=
    fun empty => available ((machine.stack.frames_eq_nil_iff).mpr empty)
  refine ⟨?_, ?_, ?_⟩
  · simpa [pmmRequestPage, nonempty] using machine.stack.frames_pop nonempty
  · simp [pmmRequestPage, nonempty, memset_eq_fill]
  · simp [pmmRequestPage, nonempty]

@[simp]
theorem pmmFreePage_null (machine : Machine) : pmmFreePage machine 0#64 = machine := by
  simp [pmmFreePage]

theorem pmmFreePage_full {machine : Machine} (full : machine.stack.idx ≥ machine.stack.max)
    (ptr : U64) : pmmFreePage machine ptr = machine := by
  simp [pmmFreePage, full]

theorem pmmFreePage_free {machine : Machine} {ptr : U64} (nonnull : ptr ≠ 0#64)
    (room : machine.stack.idx < machine.stack.max) :
    (pmmFreePage machine ptr).free = machine.free ++ [ptr] := by
  have notFull : ¬machine.stack.max ≤ machine.stack.idx := BitVec.not_le.mpr room
  have noWrap : machine.stack.idx.toNat + 1 < 2 ^ 64 := by bv_omega
  simpa [pmmFreePage, nonnull, notFull] using machine.stack.frames_push ptr noWrap

@[simp]
theorem pmmFreePage_memory (machine : Machine) (ptr : U64) :
    (pmmFreePage machine ptr).memory = machine.memory := by
  simp only [pmmFreePage]
  split_ifs <;> rfl

@[simp]
theorem pmmFreePage_max (machine : Machine) (ptr : U64) :
    (pmmFreePage machine ptr).stack.max = machine.stack.max := by
  simp only [pmmFreePage]
  split_ifs <;> rfl

end Nekonix
