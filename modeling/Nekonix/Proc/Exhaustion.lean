import Nekonix.Mm.Vma.Regions
import Nekonix.Mm.Vmm.Cleared
import Nekonix.Proc.Scheduler

/-!
# Running out of frames

`pmm_request_page` returns `NULL` when no frame is free, and its callers test
`HIGHER_HALF` of that against `NULL`.  With a direct map that is not at 0 the test
never succeeds: they go on with page 0.
-/

namespace Nekonix

open FlatMemory

variable {Heap : Type} {hhdmOffset : U64} {machine : Machine} {system : System Heap}

theorem requestRegion_exhausted (empty : machine.free = []) :
    requestRegion hhdmOffset machine = (higherHalf hhdmOffset 0#64, machine) := by
  rw [requestRegion, pmmRequestPage_empty empty]

theorem higherHalf_zero_ne (nonzero : hhdmOffset ≠ 0#64) : higherHalf hhdmOffset 0#64 ≠ 0#64 := by
  rw [higherHalf, BitVec.zero_add]
  exact nonzero

/-! The three calls whose result is never `NULL` -/

theorem vmaCreateContext_exhausted (nonzero : hhdmOffset ≠ 0#64) (empty : machine.free = [])
    (pagemap : U64) : (vmaCreateContext hhdmOffset machine pagemap).1 ≠ 0#64 := by
  unfold vmaCreateContext
  rw [requestRegion_exhausted empty]
  exact higherHalf_zero_ne nonzero

theorem vmmNewPagemap_nonnull (nonzero : hhdmOffset ≠ 0#64) (empty : machine.free = [])
    (kernelPagemap : U64) : (vmmNewPagemap hhdmOffset kernelPagemap machine).1 ≠ 0#64 := by
  unfold vmmNewPagemap
  rw [pmmRequestPage_empty empty]
  dsimp only
  rw [if_neg (higherHalf_zero_ne nonzero)]
  exact higherHalf_zero_ne nonzero

/-- `pid_counter` goes up whatever `process_create` returns. -/
theorem processCreate_counts (nonzero : hhdmOffset ≠ 0#64) (empty : system.machine.free = [])
    (entry pagemap name : U64) :
    (processCreate hhdmOffset system entry pagemap name).2.pidCounter =
      system.pidCounter + 1#64 := by
  unfold processCreate
  rw [pmmRequestPage_empty empty]
  dsimp only
  rw [if_neg (higherHalf_zero_ne nonzero)]
  split_ifs <;> rfl

/-! `vma_alloc` -/

/-- Without a free frame the mapping loop changes nothing. -/
theorem vmaMapPages_exhausted (empty : machine.free = []) (ctx newRegion : U64) (fuel : Nat)
    (i : U64) : (vmaMapPages hhdmOffset ctx newRegion fuel machine i).2 = machine := by
  cases fuel with
  | zero => rfl
  | succ fuel =>
      unfold vmaMapPages vmaMapPage
      rw [pmmRequestPage_empty empty]
      dsimp only
      split
      · rfl
      · rfl

/-- A valid context gets page 0 as its new region. -/
theorem vmaPlace_exhausted (nonzero : hhdmOffset ≠ 0#64) (empty : machine.free = [])
    {ctx size flags newRegion : U64} {next : Machine}
    (valid : ¬InvalidContext machine.memory ctx)
    (placed : vmaPlace hhdmOffset machine ctx size flags = some (newRegion, next)) :
    newRegion = higherHalf hhdmOffset 0#64 ∧ next.free = [] ∧
      ∃ region, nextRegion next.memory region = newRegion := by
  rcases vmaPlace_cases (requestRegion_exhausted empty) placed with
    ⟨-, ⟨invalid, -⟩ | ⟨failed, -⟩⟩ | ⟨rfl, -, region, memory, linked, rfl⟩
  · exact absurd invalid valid
  · exact absurd failed (higherHalf_zero_ne nonzero)
  · exact ⟨rfl, empty, region, linked.next⟩

/-- Whenever `vma_alloc` returns from a valid context, page 0 is linked as a region. -/
theorem vmaAlloc_exhausted (nonzero : hhdmOffset ≠ 0#64) (empty : machine.free = [])
    {ctx size flags : U64} {result : U64 × Machine} (valid : ¬InvalidContext machine.memory ctx)
    (returned : vmaAlloc hhdmOffset machine ctx size flags = some result) :
    ∃ region, nextRegion result.2.memory region = higherHalf hhdmOffset 0#64 := by
  obtain ⟨⟨newRegion, next⟩, placed, rfl⟩ := Option.map_eq_some_iff.mp returned
  obtain ⟨rfl, stillEmpty, region, linked⟩ := vmaPlace_exhausted nonzero empty valid placed
  have unchanged := @vmaMapPages_exhausted hhdmOffset _ stillEmpty ctx
    (higherHalf hhdmOffset 0#64) (2 ^ 52) 0#64
  dsimp only
  rw [if_neg (higherHalf_zero_ne nonzero)]
  refine ⟨region, ?_⟩
  split
  · rw [unchanged]
    exact linked
  · rw [unchanged]
    exact linked

theorem vmaAlloc_invalid {ctx size flags : U64} (invalid : InvalidContext machine.memory ctx) :
    vmaAlloc hhdmOffset machine ctx size flags = some (0#64, machine) := by
  unfold vmaAlloc vmaPlace
  dsimp only
  rw [if_pos (by exact invalid)]
  rfl

/-- Without a free frame no call but `vma_alloc` on an invalid context returns `NULL`
and leaves the state as it was. -/
theorem exhaustion_is_not_reported (nonzero : hhdmOffset ≠ 0#64)
    (empty : system.machine.free = []) (kernelPagemap ctx size flags entry pagemap name : U64) :
    vmaCreateContext hhdmOffset system.machine pagemap ≠ (0#64, system.machine) ∧
      vmmNewPagemap hhdmOffset kernelPagemap system.machine ≠ (0#64, system.machine) ∧
      processCreate hhdmOffset system entry pagemap name ≠ (0#64, system) ∧
      ((∀ region, nextRegion system.machine.memory region ≠ higherHalf hhdmOffset 0#64) →
        (vmaAlloc hhdmOffset system.machine ctx size flags = some (0#64, system.machine) ↔
          InvalidContext system.machine.memory ctx)) := by
  refine ⟨?_, ?_, ?_, ?_⟩
  · intro same
    exact vmaCreateContext_exhausted nonzero empty pagemap (congrArg Prod.fst same)
  · intro same
    exact vmmNewPagemap_nonnull nonzero empty kernelPagemap (congrArg Prod.fst same)
  · intro same
    have counted := processCreate_counts nonzero empty entry pagemap name
    rw [same] at counted
    bv_omega
  · intro unlinked
    refine ⟨?_, vmaAlloc_invalid⟩
    intro returned
    by_contra valid
    obtain ⟨region, linked⟩ := vmaAlloc_exhausted nonzero empty valid returned
    exact unlinked region linked

/-- A machine without a free frame. -/
def exhausted : System Unit where
  heap := ()
  machine := .cleared 0
  scheduler := { processes := fun _ => 0#64, processCount := 0#32, currentIndex := 0#32 }
  pidCounter := 0#64
  cr3 := 0#64

theorem exhausted_unlinked (region : U64) :
    nextRegion exhausted.machine.memory region ≠ higherHalf 0xffff800000000000#64 0#64 := by
  have cleared : nextRegion exhausted.machine.memory region = 0#64 := by
    apply load_eq_of_bytes
    intro offset below
    rw [BitVec.extractLsb'_zero]
    rfl
  rw [cleared]
  decide

theorem exhaustion_is_not_reported_exhausted :
    vmmNewPagemap 0xffff800000000000#64 0x2000#64 exhausted.machine ≠ (0#64, exhausted.machine) ∧
      (vmaAlloc 0xffff800000000000#64 exhausted.machine 0x1000#64 0x1000#64 0#64 =
          some (0#64, exhausted.machine) ↔
        InvalidContext exhausted.machine.memory 0x1000#64) := by
  obtain ⟨-, newPagemap, -, alloc⟩ := exhaustion_is_not_reported
    (by decide : 0xffff800000000000#64 ≠ 0#64) (by decide : exhausted.machine.free = []) 0x2000#64
    0x1000#64 0x1000#64 0#64 0#64 0#64 0#64
  exact ⟨newPagemap, alloc exhausted_unlinked⟩

/-- A new pagemap without a free frame is page 0. -/
theorem new_pagemap_at_page_zero : ¬∀ (hhdmOffset : U64) (system : System Unit)
    (kernelPagemap ctx size flags entry pagemap name : U64),
    hhdmOffset ≠ 0#64 → system.machine.free = [] →
    vmaCreateContext hhdmOffset system.machine pagemap = (0#64, system.machine) ∧
      vmaAlloc hhdmOffset system.machine ctx size flags = some (0#64, system.machine) ∧
      vmmNewPagemap hhdmOffset kernelPagemap system.machine = (0#64, system.machine) ∧
      processCreate hhdmOffset system entry pagemap name = (0#64, system) := by
  intro reported
  obtain ⟨-, -, same, -⟩ := reported 0xffff800000000000#64 exhausted 0x2000#64 0x1000#64 0x1000#64
    0#64 0#64 0#64 0#64 (by decide) (by decide)
  exact vmmNewPagemap_nonnull (by decide) (by decide) 0x2000#64 (congrArg Prod.fst same)

end Nekonix
