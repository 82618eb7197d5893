import Nekonix.Mm.Vma.Integrity
import Nekonix.Mm.Vmm.KernelMap

/-!
# Regions of the kernel pagemap

`vma_alloc` does not look at the page table.  A new region takes pages that no live region of
its context has, but `vmm_init` has mapped the first 4 GiB, where the regions begin.
-/

namespace Nekonix

open FlatMemory LinkedList Transition

variable {hhdmOffset size flags returned newRegion : U64} {pool : List U64} {kernel ctx : Frame}
  {image : KernelImage} {booted start before placed machine after next : Machine}
  {calls : List VmaCall}

/-! A context over the kernel pagemap -/

/-- Frames for the tables of `vmm_init` and two more, which the direct map has. -/
structure KernelSupply (hhdmOffset : U64) (image : KernelImage) (machine : Machine) : Prop extends
    InitSupply hhdmOffset image machine where
  room : machine.stack.idx ≤ machine.stack.max
  mapped : DirectlyMapped hhdmOffset machine
  more : (tablesOf (initCalls hhdmOffset image)).card + 3 ≤ machine.free.length

theorem vmmInit_ready (supply : KernelSupply hhdmOffset image machine) :
    ∃ (root : Frame) (after : VmmInit), vmmInit hhdmOffset image machine = some after ∧
      after.result = 0 ∧ after.kernelPagemap = root.pointer hhdmOffset ∧
      ContextReady hhdmOffset root after.machine ∧
      (∀ page ∈ after.machine.free, page ∈ machine.free) ∧
      machine.free.length =
        after.machine.free.length + ((tablesOf (initCalls hhdmOffset image)).card + 1) := by
  obtain ⟨root, start, mappings, after, isAfter, success, isPagemap, table, -, run, taken⟩ :=
    vmmInit_run supply.toInitSupply
  have length := congrArg List.length table.free
  rw [List.length_append, List.length_singleton] at length
  have more := supply.more
  have stillFree : ∀ page ∈ after.machine.free, page ∈ machine.free := by
    intro page free
    rw [table.free, run.free]
    exact List.mem_append_left _ (List.mem_append_left _ free)
  have isFree : root.address ∈ machine.free := by
    rw [table.free]
    exact List.mem_append_right _ List.mem_cons_self
  refine ⟨root, after, isAfter, success, isPagemap, ?_, stillFree, by omega⟩
  exact
    { usable := run.usable table.usable
      room := by
        have counts : ∀ machine : Machine, machine.free.length = machine.stack.idx.toNat :=
          fun machine => machine.stack.length_frames
        have room := BitVec.le_def.mp supply.room
        rw [BitVec.le_def, run.max, table.max]
        have before := counts machine
        have behind := counts after.machine
        omega
      space := run.space (.of_cleared (fun index _ => table.cleared index) table.notFree)
      mapped := fun frame free => supply.mapped frame (stillFree _ free)
      pagemapNonnull := supply.nonnull _ isFree
      enough := by omega }

/-! Pages of the live regions -/

/-- A call after which the regions are in a row, each behind the one before it. -/
def OrderedStep (hhdmOffset : U64) (pool : List U64) (kernel ctx : Frame) (machine : Machine)
    (call : VmaCall) (next : Machine) : Prop :=
  LinkedStep hhdmOffset pool kernel ctx machine call next ∧
    KeepsApart machine.memory (ctx.pointer hhdmOffset) call

/-- The bytes of a page. -/
def pageExtent (page : U64) : Set Nat :=
  {byte | page.toNat ≤ byte ∧ byte < page.toNat + 4096}

theorem OrderedStep.apart {call : VmaCall}
    (step : OrderedStep hhdmOffset pool kernel ctx machine call next) :
    ApartStep hhdmOffset pool kernel ctx machine call next :=
  ⟨step.1.1, step.2⟩

/-- A region of a context does not wrap. -/
theorem HasRegions.bounded {holdings others : List Holding} {holding : Holding}
    (hasRegions : HasRegions hhdmOffset pool kernel ctx holdings machine)
    (membership : holding ∈ holdings)
    (sameRegions : HasRegions hhdmOffset pool kernel ctx others machine) (packed : Packed others) :
    holding.stop < 2 ^ 64 := by
  have listed := List.mem_map_of_mem (f := Holding.region hhdmOffset) membership
  rw [hasRegions.list.unique sameRegions.list] at listed
  obtain ⟨other, otherListed, same⟩ := List.mem_map.mp listed
  have bounded := packed.bounded other otherListed
  rwa [Holding.stop, ← sameRegions.start other otherListed, ← sameRegions.size other otherListed,
    same, hasRegions.start holding membership, hasRegions.size holding membership] at bounded

/-- The new region lies apart from the others. -/
theorem HoldingAdded.apart {front : List Holding} {last new : Holding} {other : List Holding}
    (added : HoldingAdded hhdmOffset pool kernel ctx size flags front last new [] returned before after)
    (others : HasRegions hhdmOffset pool kernel ctx other after) (packed : Packed other) :
    ∀ holding ∈ front ++ [last], ∀ byte ∈ regionExtent before.memory (holding.region hhdmOffset),
      byte ∉ regionExtent after.memory (new.region hhdmOffset) := by
  have apart := others.apart packed
  rw [others.list.unique added.hasRegions.list] at apart
  unfold RegionsApart at apart
  rw [List.append_cons, List.map_append, List.pairwise_append] at apart
  intro holding membership byte inside
  have fields := added.region.fields holding.record (by
    have listed := List.mem_map_of_mem (f := Holding.record) membership
    rwa [List.map_append, List.map_singleton] at listed)
  refine (apart.2.2 (holding.region hhdmOffset) (List.mem_map_of_mem membership)
    (new.region hhdmOffset) List.mem_cons_self).2 byte ?_
  unfold regionExtent at inside ⊢
  unfold Holding.region at *
  rw [fields.start, fields.size]
  exact inside

/-- A page at the end of the list keeps the regions in a row. -/
theorem CallsMade.ordered {count : Nat} {front : List Holding} {last : Holding} {record : U64}
    (made : CallsMade count ctx start calls (front ++ [last]) machine)
    (fail : ∀ holding ∈ front.tail, ¬RegionFits machine.memory 1#64 (holding.region 0#64))
    (bounded : last.stop + 4096 < 2 ^ 64)
    (step : VmaStep 0#64 (Machine.cleared count).free 1#40 ctx machine
      (.alloc 1#64 heapFlags record) after) :
    OrderedStep 0#64 (Machine.cleared count).free 1#40 ctx machine (.alloc 1#64 heapFlags record)
      after := by
  have ends : ∀ regions, RegionList machine.memory (ctx.pointer 0#64) regions →
      ∀ region ∈ regions.tail.dropLast, ¬RegionFits machine.memory 1#64 region := by
    intro regions list region membership
    rw [list.unique made.owned.list, ← List.map_tail, ← List.map_dropLast] at membership
    obtain ⟨holding, listed, rfl⟩ := List.mem_map.mp membership
    apply fail
    cases front with
    | nil => cases listed
    | cons root front => simpa using listed
  exact ⟨⟨step, ends⟩, by decide, made.owned.toHasRegions.hasRoom ends bounded⟩

/-- Sixteen million free frames are more than enough. -/
theorem kernelSupply_boot : KernelSupply bootOffset (bootImage bootData 0x200000#64)
    (Machine.cleared (2 ^ 24)) := by
  have few := @length_bootCalls bootData 0x200000#64 (by
    rw [length_sectionCalls]
    decide)
  refine ⟨initSupply_cleared few, BitVec.le_refl _, ?_, ?_⟩
  · intro frame free
    have bounds := Machine.mem_free_cleared (by decide) free
    rw [Frame.address_toNat, bootOffset, BitVec.toNat_ofNat]
    omega
  · have some := card_tablesOf_le (initCalls bootOffset (bootImage bootData 0x200000#64))
    rw [Machine.length_free_cleared (by decide)]
    omega

end Nekonix
