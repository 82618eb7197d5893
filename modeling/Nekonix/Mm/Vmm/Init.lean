import Nekonix.Library.Loop.Counter
import Nekonix.Mm.Vmm.Supply

/-!
# `vmm_init`

`vmm_init` maps the sections of the kernel image and the first 4 GiB of physical
memory, these twice: at their own addresses and in the direct map.
-/

namespace Nekonix

open FlatMemory RadixTable Transition

/-- A section of the kernel image, by its two symbols in `linker.ld`. -/
structure ImageSection where
  start : U64
  finish : U64

/-- What the linker and the boot loader tell the kernel about its image. -/
structure KernelImage where
  limineRequests : ImageSection
  text : ImageSection
  rodata : ImageSection
  data : ImageSection
  kernelPhysBase : U64
  kernelVirtBase : U64

/-- `for (; virt < bound; virt += PAGE_SIZE)`.  There are 2^52 pages. -/
def forPages (virt bound : U64) (act : U64 → Machine → Machine) (machine : Machine) :
    Option Machine :=
  (Loop.run (Loop.forUp bound pageSize act) (2 ^ 52 + 1) (virt, machine)).map Prod.snd

/-- The loop over a section. -/
def mapSection (hhdmOffset : U64) (image : KernelImage) (kernelPagemap : U64)
    (part : ImageSection) (flags : U64) (machine : Machine) : Option Machine :=
  forPages (alignDown part.start pageSize) (alignUp part.finish pageSize)
    (fun virt machine => vmmMap hhdmOffset machine kernelPagemap virt
      (virt - image.kernelVirtBase + image.kernelPhysBase) flags)
    machine

/-- What `vmm_init` leaves: its result, `kernel_pagemap`, what it loads into `cr3`, and
the machine. -/
structure VmmInit where
  result : Int
  kernelPagemap : U64
  cr3 : Option U64
  machine : Machine

/-- `vmm_init`, with `none` where a loop does not end. -/
def vmmInit (hhdmOffset : U64) (image : KernelImage) (machine : Machine) : Option VmmInit :=
  let (page, machine) := pmmRequestPage hhdmOffset machine
  let kernelPagemap := higherHalf hhdmOffset page
  if kernelPagemap = 0#64 then
    some { result := 1, kernelPagemap, cr3 := none, machine }
  else do
    let machine := { machine with memory := memset machine.memory kernelPagemap 0#8 4096 }
    let map := mapSection hhdmOffset image kernelPagemap
    let machine ← map image.limineRequests (vmmPresent ||| vmmWritable) machine
    let machine ← map image.text vmmPresent machine
    let machine ← map image.rodata (vmmPresent ||| vmmNx) machine
    let machine ← map image.data (vmmPresent ||| vmmWritable ||| vmmNx) machine
    let machine ← forPages 0#64 0x100000000#64
      (fun gb4 machine =>
        let flags := vmmPresent ||| vmmWritable
        let machine := vmmMap hhdmOffset machine kernelPagemap gb4 gb4 flags
        vmmMap hhdmOffset machine kernelPagemap (higherHalf hhdmOffset gb4) gb4 flags)
      machine
    let cr3 := some (vmmSwitchPagemap hhdmOffset kernelPagemap)
    some { result := 0, kernelPagemap, cr3, machine }

variable {hhdmOffset : U64} {image : KernelImage} {machine : Machine}

/-! The loops -/

/-- The pages from `start` to below `bound`. -/
def loopPages (start bound : U64) : List U64 :=
  Loop.upwards pageSize start ((bound.toNat - start.toNat) / 4096)

theorem pageSize_toNat : pageSize.toNat = 4096 := rfl

/-- A loop over pages ends after it has done each of them. -/
theorem forPages_eq {start bound : U64} (startAligned : start.toNat % 4096 = 0)
    (boundAligned : bound.toNat % 4096 = 0) (act : U64 → Machine → Machine) (machine : Machine) :
    forPages start bound act machine =
      some ((loopPages start bound).foldl (fun machine virt => act virt machine) machine) := by
  have startBound := start.isLt
  have boundBound := bound.isLt
  have ends : Loop.Ends (Loop.countUp bound pageSize) start
      (Loop.upwards pageSize start ((bound.toNat - start.toNat) / 4096 + 1)) () := by
    apply Loop.countUp_ends
    · rw [pageSize_toNat]
      omega
    · intro turn less
      rw [pageSize_toNat]
      omega
    · rw [pageSize_toNat]
      omega
  obtain ⟨states, length, whole⟩ := @Loop.forUp_ends _ _ _ _ _ act machine _ _ ends
  have count : (Loop.upwards pageSize start
      ((bound.toNat - start.toNat) / 4096 + 1)).length ≤ 2 ^ 52 + 1 := by
    rw [Loop.upwards, List.length_map, List.length_range]
    omega
  rw [forPages, whole.run_of_le (length.trans_le count), Option.map_some,
    Loop.dropLast_upwards]
  rfl

theorem mem_loopPages {start bound virt : U64} (startAligned : start.toNat % 4096 = 0)
    (boundAligned : bound.toNat % 4096 = 0) :
    virt ∈ loopPages start bound ↔ virt.toNat % 4096 = 0 ∧ start ≤ virt ∧ virt < bound := by
  have startBound := start.isLt
  have boundBound := bound.isLt
  have turned : ∀ turn < (bound.toNat - start.toNat) / 4096,
      (start + BitVec.ofNat 64 turn * pageSize).toNat = start.toNat + turn * 4096 := by
    intro turn less
    rw [BitVec.toNat_add, BitVec.toNat_mul, pageSize_toNat, BitVec.toNat_ofNat]
    omega
  simp only [loopPages, Loop.upwards, List.mem_map, List.mem_range, BitVec.le_def, BitVec.lt_def]
  constructor
  · rintro ⟨turn, less, rfl⟩
    rw [turned turn less]
    omega
  · rintro ⟨aligned, atLeast, below⟩
    have less : (virt.toNat - start.toNat) / 4096 < (bound.toNat - start.toNat) / 4096 := by omega
    refine ⟨(virt.toNat - start.toNat) / 4096, less, ?_⟩
    apply BitVec.eq_of_toNat_eq
    rw [turned _ less]
    omega

theorem alignDown_aligned (address : U64) : (alignDown address pageSize).toNat % 4096 = 0 := by
  rw [alignDown_toNat]
  omega

theorem alignUp_aligned (address : U64) : (alignUp address pageSize).toNat % 4096 = 0 := by
  rw [alignUp, BitVec.toNat_mul, pageSize_toNat]
  omega

/-! The mappings -/

/-- What the loop over a section maps. -/
def sectionCalls (image : KernelImage) (part : ImageSection) (flags : U64) : List MapCall :=
  (loopPages (alignDown part.start pageSize) (alignUp part.finish pageSize)).map fun virt =>
    ⟨virt, virt - image.kernelVirtBase + image.kernelPhysBase, flags⟩

/-- What the last loop maps. -/
def directCalls (hhdmOffset : U64) : List MapCall :=
  (loopPages 0#64 0x100000000#64).flatMap fun gb4 =>
    [⟨gb4, gb4, vmmPresent ||| vmmWritable⟩,
      ⟨higherHalf hhdmOffset gb4, gb4, vmmPresent ||| vmmWritable⟩]

/-- The mappings of `vmm_init`, in order. -/
def initCalls (hhdmOffset : U64) (image : KernelImage) : List MapCall :=
  sectionCalls image image.limineRequests (vmmPresent ||| vmmWritable) ++
    sectionCalls image image.text vmmPresent ++
    sectionCalls image image.rodata (vmmPresent ||| vmmNx) ++
    sectionCalls image image.data (vmmPresent ||| vmmWritable ||| vmmNx) ++
    directCalls hhdmOffset

theorem length_sectionCalls (part : ImageSection) (flags : U64) :
    (sectionCalls image part flags).length =
      ((alignUp part.finish pageSize).toNat - (alignDown part.start pageSize).toNat) / 4096 := by
  simp [sectionCalls, loopPages, Loop.upwards]

theorem length_directCalls : (directCalls hhdmOffset).length = 2 ^ 21 := by
  simp only [directCalls, List.length_flatMap, List.length_cons, List.length_nil, List.map_const',
    List.sum_replicate_nat, loopPages, Loop.upwards, List.length_map, List.length_range]
  rfl

theorem mapSection_eq (kernelPagemap : U64) (part : ImageSection) (flags : U64)
    (machine : Machine) : mapSection hhdmOffset image kernelPagemap part flags machine =
      some ((sectionCalls image part flags).foldl (MapCall.apply hhdmOffset kernelPagemap)
        machine) := by
  rw [mapSection, forPages_eq (alignDown_aligned _) (alignUp_aligned _), sectionCalls,
    List.foldl_map]
  rfl

/-- `vmm_init` makes its mappings on a cleared table. -/
theorem vmmInit_eq (nonnull : higherHalf hhdmOffset (pmmRequestPage hhdmOffset machine).1 ≠ 0#64) :
    vmmInit hhdmOffset image machine =
      let kernelPagemap := higherHalf hhdmOffset (pmmRequestPage hhdmOffset machine).1
      let next := (pmmRequestPage hhdmOffset machine).2
      let cleared := { next with memory := memset next.memory kernelPagemap 0#8 4096 }
      some
        { result := 0
          kernelPagemap
          cr3 := some (vmmSwitchPagemap hhdmOffset kernelPagemap)
          machine := (initCalls hhdmOffset image).foldl (MapCall.apply hhdmOffset kernelPagemap)
            cleared } := by
  have direct := fun kernelPagemap machine => @forPages_eq 0#64 0x100000000#64 rfl rfl
    (fun gb4 machine => vmmMap hhdmOffset (vmmMap hhdmOffset machine kernelPagemap gb4 gb4
      (vmmPresent ||| vmmWritable)) kernelPagemap (higherHalf hhdmOffset gb4) gb4
        (vmmPresent ||| vmmWritable)) machine
  simp only [vmmInit, if_neg nonnull, mapSection_eq, Option.bind_eq_bind, Option.bind_some, direct,
    initCalls, List.foldl_append, directCalls, List.foldl_flatMap]
  rfl

def PageAligned (address : U64) : Prop := address.toNat % 4096 = 0

instance (address : U64) : Decidable (PageAligned address) := inferInstanceAs (Decidable (_ = _))

def KernelImage.sections (image : KernelImage) : List ImageSection :=
  [image.limineRequests, image.text, image.rodata, image.data]

theorem mem_initCalls {call : MapCall} (isCall : call ∈ initCalls hhdmOffset image) :
    (∃ part ∈ image.sections, ∃ flags, EntryFlags flags ∧ call ∈ sectionCalls image part flags) ∨
      call ∈ directCalls hhdmOffset := by
  simp only [initCalls, List.mem_append] at isCall
  rcases isCall with (((requests | text) | rodata) | data) | direct
  · exact Or.inl ⟨_, by simp [KernelImage.sections], _, ⟨by decide, by decide⟩, requests⟩
  · exact Or.inl ⟨_, by simp [KernelImage.sections], _, ⟨by decide, by decide⟩, text⟩
  · exact Or.inl ⟨_, by simp [KernelImage.sections], _, ⟨by decide, by decide⟩, rodata⟩
  · exact Or.inl ⟨_, by simp [KernelImage.sections], _, ⟨by decide, by decide⟩, data⟩
  · exact Or.inr direct

/-- The pages of the last loop. -/
theorem mem_directPages {gb4 : U64} :
    gb4 ∈ loopPages 0#64 0x100000000#64 ↔ PageAligned gb4 ∧ gb4 < 0x100000000#64 := by
  rw [mem_loopPages rfl rfl]
  simp [PageAligned, BitVec.le_def]

theorem mem_directCalls {call : MapCall} : call ∈ directCalls hhdmOffset ↔
    ∃ gb4, PageAligned gb4 ∧ gb4 < 0x100000000#64 ∧
      (call = ⟨gb4, gb4, vmmPresent ||| vmmWritable⟩ ∨
        call = ⟨higherHalf hhdmOffset gb4, gb4, vmmPresent ||| vmmWritable⟩) := by
  simp only [directCalls, List.mem_flatMap, mem_directPages, List.mem_cons, List.not_mem_nil,
    or_false, and_assoc]

theorem initCalls_flags {call : MapCall} (isCall : call ∈ initCalls hhdmOffset image) :
    EntryFlags call.flags := by
  rcases mem_initCalls isCall with ⟨part, -, flags, valid, inLoop⟩ | direct
  · obtain ⟨virt, -, rfl⟩ := List.mem_map.mp inLoop
    exact valid
  · have valid : EntryFlags (vmmPresent ||| vmmWritable) := ⟨by decide, by decide⟩
    obtain ⟨gb4, -, -, rfl | rfl⟩ := mem_directCalls.mp direct
    · exact valid
    · exact valid

theorem sectionCalls_subset {part : ImageSection} (isPart : part ∈ image.sections) :
    ∃ flags, ∀ call ∈ sectionCalls image part flags, call ∈ initCalls hhdmOffset image := by
  simp only [KernelImage.sections, List.mem_cons, List.not_mem_nil, or_false] at isPart
  rcases isPart with rfl | rfl | rfl | rfl
  · exact ⟨vmmPresent ||| vmmWritable, fun call isCall => by simp [initCalls, isCall]⟩
  · exact ⟨vmmPresent, fun call isCall => by simp [initCalls, isCall]⟩
  · exact ⟨vmmPresent ||| vmmNx, fun call isCall => by simp [initCalls, isCall]⟩
  · exact ⟨vmmPresent ||| vmmWritable ||| vmmNx, fun call isCall => by simp [initCalls, isCall]⟩

/-! The table -/

theorem EntryFlags.entry_masked {flags : U64} (valid : EntryFlags flags) (phys : U64) :
    (phys ||| flags) &&& entryMask = phys &&& entryMask := by
  rw [BitVec.and_comm, BitVec.and_or_distrib_left, BitVec.and_comm entryMask flags,
    valid.address, BitVec.or_zero, BitVec.and_comm]

/-- The cleared table that `vmm_init` begins with, whose frame is no longer free. -/
structure FirstTable (hhdmOffset : U64) (machine : Machine) (root : Frame) (cleared : Machine) :
    Prop where
  free : machine.free = cleared.free ++ [root.address]
  usable : cleared.stack.Usable
  max : cleared.stack.max = machine.stack.max
  notFree : root.address ∉ cleared.free
  cleared : ∀ index, tables hhdmOffset cleared.memory root index = 0#64

theorem pmmRequestPage_cleared (usable : machine.stack.Usable) (available : machine.free ≠ []) :
    ∃ root : Frame, (pmmRequestPage hhdmOffset machine).1 = root.address ∧
      let next := (pmmRequestPage hhdmOffset machine).2
      FirstTable hhdmOffset machine root
        { next with memory := memset next.memory (root.pointer hhdmOffset) 0#8 4096 } := by
  have requested := pmmRequestPage_spec hhdmOffset available
  obtain ⟨root, -, isFrame, taken⟩ := requested.frame usable
  refine ⟨root, isFrame, isFrame ▸ requested.free, requested.usable usable, requested.max, taken, ?_⟩
  intro index
  dsimp only
  rw [memset_eq_fill _ _ _ (by decide), tables_fill, blank_same]

/-- A frame for each table of `vmm_init`, none of them at NULL in the direct map. -/
structure InitSupply (hhdmOffset : U64) (image : KernelImage) (machine : Machine) : Prop where
  usable : machine.stack.Usable
  nonnull : ∀ page ∈ machine.free, higherHalf hhdmOffset page ≠ 0#64
  frames : (tablesOf (initCalls hhdmOffset image)).card + 1 ≤ machine.free.length

/-- `vmm_init` maps its pages on a table of its own. -/
theorem vmmInit_run (supply : InitSupply hhdmOffset image machine) :
    ∃ (root : Frame) (start : Machine) (mappings : List Mapping) (after : VmmInit),
      vmmInit hhdmOffset image machine = some after ∧ after.result = 0 ∧
      after.kernelPagemap = root.pointer hhdmOffset ∧ FirstTable hhdmOffset machine root start ∧
      mappings.map Mapping.call = initCalls hhdmOffset image ∧
      MapRun hhdmOffset root Set.univ start mappings after.machine ∧
      start.free.length =
        after.machine.free.length + (tablesOf (initCalls hhdmOffset image)).card := by
  obtain ⟨usable, nonnull, frames⟩ := supply
  have available : machine.free ≠ [] := by
    intro none
    rw [none] at frames
    exact absurd frames (Nat.not_succ_le_zero _)
  obtain ⟨root, isFrame, table⟩ := @pmmRequestPage_cleared hhdmOffset machine usable available
  have pagemap : higherHalf hhdmOffset (pmmRequestPage hhdmOffset machine).1 =
      root.pointer hhdmOffset := by rw [isFrame, Frame.pointer]
  have made : higherHalf hhdmOffset (pmmRequestPage hhdmOffset machine).1 ≠ 0#64 := by
    apply nonnull
    rw [(pmmRequestPage_spec hhdmOffset available).free]
    exact List.mem_append_right _ (List.mem_singleton_self _)
  have length := congrArg List.length table.free
  rw [List.length_append, List.length_singleton] at length
  obtain ⟨mappings, isCalls, run, taken⟩ :=
    MapRun.of_supply table.usable table.cleared table.notFree (initCalls hhdmOffset image)
      (fun call => initCalls_flags) (by omega)
  rw [vmmInit_eq made, pagemap]
  exact ⟨root, _, mappings, _, rfl, rfl, rfl, table, isCalls, run, taken⟩

/-- `vmm_init` takes a frame for each table.  The last mapping of a page decides. -/
theorem vmmInit_spec (supply : InitSupply hhdmOffset image machine) :
    ∃ after, vmmInit hhdmOffset image machine = some after ∧ after.result = 0 ∧
      machine.free.length =
        after.machine.free.length + ((tablesOf (initCalls hhdmOffset image)).card + 1) ∧
      ∀ virt, virtToPhys hhdmOffset after.machine.memory after.kernelPagemap virt =
        ((lastAt MapCall.page (initCalls hhdmOffset image) (pageNumber virt)).map
          MapCall.phys).getD 0#64 &&& entryMask := by
  obtain ⟨root, start, mappings, after, isAfter, success, isPagemap, table, isCalls, run, taken⟩ :=
    vmmInit_run supply
  have length := congrArg List.length table.free
  rw [List.length_append, List.length_singleton] at length
  refine ⟨after, isAfter, success, by omega, fun virt => ?_⟩
  rw [isPagemap, virtToPhys_eq, run.leaf (Set.mem_univ _), leafEntry_of_cleared (table.cleared _),
    isCalls]
  cases last : lastAt MapCall.page (initCalls hhdmOffset image) (pageNumber virt) with
  | none => rfl
  | some call => exact (initCalls_flags (lastAt_some last).1).entry_masked call.phys

end Nekonix
