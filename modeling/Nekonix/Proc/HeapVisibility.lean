import Nekonix.Mm.Vma.Context
import Nekonix.Mm.Vmm.Cleared
import Nekonix.Mm.Vmm.KernelTables
import Nekonix.Proc.Elf.Loading

/-!
# The kernel heap in other pagemaps

A new pagemap shares the upper half of the kernel's top-level table.  The regions of
the kernel's context are placed from page 1 on, so a page of the heap is seen through
another pagemap exactly if its address has come into the upper half.
-/

namespace Nekonix

open FlatMemory RadixTable Transition

variable {hhdmOffset size flags : U64} {kernel ctx pagemap : Frame}
  {before middle fresh after : Machine} {mappings : List Mapping} {virt : U64}

/-! Images in the lower half -/

/-- Images are loaded one after the other. -/
def elfLoads (hhdmOffset pagemap : U64) : Machine → (images : List U64) → Machine
  | machine, [] => machine
  | machine, data :: images =>
      elfLoads hhdmOffset pagemap (elfLoad hhdmOffset machine data pagemap).2 images

/-- The pages of the images lie in the lower half and find the frames they need. -/
def LoadsLower (hhdmOffset pagemap : U64) : Machine → (images : List U64) → Prop
  | _, [] => True
  | machine, data :: images =>
      (∀ visit ∈ elfVisits hhdmOffset machine data pagemap,
        visit.Enough hhdmOffset pagemap ∧ slot4 visit.addr ∈ NewPagemap.lowerHalf) ∧
      LoadsLower hhdmOffset pagemap (elfLoad hhdmOffset machine data pagemap).2 images

/-- A page of one of the images lies here and is backed. -/
def ImagesCover (hhdmOffset pagemap : U64) (page : BitVec 36) :
    Machine → (images : List U64) → Prop
  | _, [] => False
  | machine, data :: images =>
      (∃ visit ∈ backedVisits (elfVisits hhdmOffset machine data pagemap),
        pageNumber visit.addr = page) ∨
      ImagesCover hhdmOffset pagemap page (elfLoad hhdmOffset machine data pagemap).2 images

/-- Mappings of pages of the lower half to frames taken for them. -/
structure LowerRun (hhdmOffset : U64) (pagemap : Frame) (before : Machine)
    (mappings : List Mapping) (after : Machine) : Prop where
  run : MapRun hhdmOffset pagemap Set.univ before mappings after
  lower : ∀ mapping ∈ mappings, slot4 mapping.call.virt ∈ NewPagemap.lowerHalf
  backed : ∀ mapping ∈ mappings, EntryFlags mapping.call.flags ∧
    ∃ frame ∈ mapping.taken, mapping.call.phys = frame.address

/-- The pages of a run of mappings are those of the visits that get a frame. -/
theorem PageRun.cover {machine finish : Machine} {slots : Set Slot} {visits : List PageVisit}
    (pages : PageRun hhdmOffset pagemap slots machine visits mappings finish) (page : BitVec 36) :
    (∃ mapping ∈ mappings, mapping.call.page = page) ↔
      ∃ visit ∈ backedVisits visits, pageNumber visit.addr = page := by
  have sameCalls : (∃ call ∈ mappings.map Mapping.call, call.page = page) ↔
      ∃ call ∈ (backedVisits visits).map (PageVisit.call hhdmOffset), call.page = page := by
    rw [pages.calls]
  simp only [List.mem_map, exists_exists_and_eq_and] at sameCalls
  exact sameCalls

theorem elfLoads_run {machine : Machine} {images : List U64} (usable : machine.stack.Usable)
    (space : AddressSpace hhdmOffset machine pagemap Set.univ)
    (allowed : LoadsLower hhdmOffset (pagemap.pointer hhdmOffset) machine images) :
    ∃ mappings,
      LowerRun hhdmOffset pagemap machine mappings
        (elfLoads hhdmOffset (pagemap.pointer hhdmOffset) machine images) ∧
      ∀ page, (∃ mapping ∈ mappings, mapping.call.page = page) ↔
        ImagesCover hhdmOffset (pagemap.pointer hhdmOffset) page machine images := by
  induction images generalizing machine with
  | nil => exact ⟨[], ⟨.nil, by simp, by simp⟩, by simp [ImagesCover]⟩
  | cons data images inductionHypothesis =>
      obtain ⟨first, rest⟩ := allowed
      obtain ⟨mappings, pages⟩ := elfLoad_run data usable space
        fun visit membership => ⟨(first visit membership).1, Set.mem_univ _⟩
      obtain ⟨others, later, coverLater⟩ :=
        inductionHypothesis (pages.run.usable usable) (pages.run.space space) rest
      have lower : ∀ mapping ∈ mappings, slot4 mapping.call.virt ∈ NewPagemap.lowerHalf := by
        intro mapping membership
        have isCall := List.mem_map_of_mem (f := Mapping.call) membership
        rw [pages.calls] at isCall
        obtain ⟨visit, visited, same⟩ := List.mem_map.mp isCall
        rw [← same]
        exact (first visit (List.mem_of_mem_filter visited)).2
      refine ⟨mappings ++ others, ⟨pages.run.append later.run, ?_, ?_⟩, ?_⟩
      · intro mapping membership
        rcases List.mem_append.mp membership with early | late
        · exact lower mapping early
        · exact later.lower mapping late
      · intro mapping membership
        rcases List.mem_append.mp membership with early | late
        · exact pages.backed mapping early
        · exact later.backed mapping late
      · intro page
        rw [ImagesCover, ← pages.cover, ← coverLater]
        simp only [List.mem_append, or_and_right, exists_or]

namespace LowerRun

/-- No mapping concerns a page of the upper half. -/
theorem lastAt_upper (run : LowerRun hhdmOffset pagemap before mappings after)
    (upper : 256 ≤ (slot4 virt).toNat) :
    lastAt MapCall.page (mappings.map Mapping.call) (pageNumber virt) = none := by
  cases last : lastAt MapCall.page (mappings.map Mapping.call) (pageNumber virt) with
  | none => rfl
  | some call =>
      obtain ⟨membership, here⟩ := lastAt_some last
      obtain ⟨mapping, isMapping, rfl⟩ := List.mem_map.mp membership
      have lower := run.lower mapping isMapping
      rw [slot4_of_pageNumber here] at lower
      exact absurd lower (Nat.not_lt.mpr upper)

/-- The kernel's leaves stay as they are. -/
theorem kernelLeaf (run : LowerRun hhdmOffset pagemap fresh mappings after)
    (made : NewPagemap hhdmOffset kernel before pagemap fresh)
    (space : AddressSpace hhdmOffset before kernel Set.univ) (virt : U64) :
    (leafEntry hhdmOffset after.memory kernel virt).getD 0#64 =
      (leafEntry hhdmOffset before.memory kernel virt).getD 0#64 := by
  rw [made.kernelLeaf space run.run]
  split_ifs with shares
  · rw [run.lastAt_upper shares.1]
    rfl
  · rfl

theorem virtToPhys_kernel (run : LowerRun hhdmOffset pagemap fresh mappings after)
    (made : NewPagemap hhdmOffset kernel before pagemap fresh)
    (space : AddressSpace hhdmOffset before kernel Set.univ) (virt : U64) :
    virtToPhys hhdmOffset after.memory (kernel.pointer hhdmOffset) virt =
      virtToPhys hhdmOffset before.memory (kernel.pointer hhdmOffset) virt := by
  rw [virtToPhys_eq, virtToPhys_eq, run.kernelLeaf made space]

theorem still_free (run : LowerRun hhdmOffset pagemap fresh mappings after)
    (made : NewPagemap hhdmOffset kernel before pagemap fresh) {page : U64}
    (free : page ∈ after.free) : page ∈ before.free := by
  rw [made.free, run.run.free]
  exact List.mem_append_left _ (List.mem_append_left _ free)

/-- The making of a pagemap and the loads into it change nothing that is in use. -/
theorem advances (run : LowerRun hhdmOffset pagemap fresh mappings after)
    (made : NewPagemap hhdmOffset kernel before pagemap fresh) (usable : before.stack.Usable)
    (space : AddressSpace hhdmOffset before kernel Set.univ) :
    Advances hhdmOffset kernel ∅ before after where
  usable := run.run.usable made.usable
  space := made.kernelSpace_finish usable space run.run
  inUse := fun _ inUse => (made.inUse_finish space run.run inUse).1
  same := fun _ _ inUse => (made.inUse_finish space run.run inUse).2
  held := by
    rintro virt ⟨frame, nonzero, notFree, translates⟩
    refine ⟨frame, nonzero, fun free => notFree (run.still_free made free), ?_⟩
    rw [run.virtToPhys_kernel made space, translates]

/-- In the upper half both pagemaps translate alike. -/
theorem upper_same (run : LowerRun hhdmOffset pagemap fresh mappings after)
    (made : NewPagemap hhdmOffset kernel before pagemap fresh)
    (space : AddressSpace hhdmOffset before kernel Set.univ) (upper : 256 ≤ (slot4 virt).toNat) :
    virtToPhys hhdmOffset after.memory (pagemap.pointer hhdmOffset) virt =
      virtToPhys hhdmOffset after.memory (kernel.pointer hhdmOffset) virt := by
  rw [run.virtToPhys_kernel made space, virtToPhys_eq, virtToPhys_eq, run.run.leaf (Set.mem_univ _),
    run.lastAt_upper upper, Option.map_none, Option.getD_none, made.leafEntry_pagemap space upper]

/-- In the lower half the pagemap leads nowhere, or to a frame that was free for the page
of an image. -/
theorem lower_fresh (run : LowerRun hhdmOffset pagemap fresh mappings after)
    (made : NewPagemap hhdmOffset kernel before pagemap fresh)
    (space : AddressSpace hhdmOffset before kernel Set.univ) (lower : ¬256 ≤ (slot4 virt).toNat) :
    (virtToPhys hhdmOffset after.memory (pagemap.pointer hhdmOffset) virt = 0#64 ∧
        ¬∃ mapping ∈ mappings, mapping.call.page = pageNumber virt) ∨
      virtToPhys hhdmOffset after.memory (pagemap.pointer hhdmOffset) virt ∈ before.free ∧
        ∃ mapping ∈ mappings, mapping.call.page = pageNumber virt := by
  have unlinked : leafEntry hhdmOffset fresh.memory pagemap virt = none := by
    unfold leafEntry entryAt tablePath
    rw [made.follow_pagemap space (tablePath_mem_within (Set.mem_univ _)), if_neg lower]
    rfl
  rw [virtToPhys_eq, run.run.leaf (Set.mem_univ _), unlinked]
  cases last : lastAt MapCall.page (mappings.map Mapping.call) (pageNumber virt) with
  | none =>
      refine Or.inl ⟨rfl, ?_⟩
      rintro ⟨mapping, membership, here⟩
      obtain ⟨call, isLast⟩ := lastAt_of_mem MapCall.page
        (List.mem_map_of_mem (f := Mapping.call) membership)
      rw [here, last] at isLast
      cases isLast
  | some call =>
      obtain ⟨membership, here⟩ := lastAt_some last
      obtain ⟨mapping, isMapping, rfl⟩ := List.mem_map.mp membership
      obtain ⟨valid, frame, taken, isFrame⟩ := run.backed mapping isMapping
      refine Or.inr ⟨?_, mapping, isMapping, here⟩
      rw [Option.map_some, Option.getD_some, MapCall.entry, isFrame, valid.masked, made.free,
        run.run.free]
      refine List.mem_append_left _ (List.mem_append_right _ (List.mem_map_of_mem ?_))
      exact List.mem_reverse.mpr (List.mem_flatMap.mpr ⟨mapping, isMapping, taken⟩)

/-- In the lower half the pagemap leads nowhere exactly if no image has a page there. -/
theorem lower_null_iff (run : LowerRun hhdmOffset pagemap fresh mappings after)
    (made : NewPagemap hhdmOffset kernel before pagemap fresh) (usable : before.stack.Usable)
    (space : AddressSpace hhdmOffset before kernel Set.univ) (lower : ¬256 ≤ (slot4 virt).toNat) :
    virtToPhys hhdmOffset after.memory (pagemap.pointer hhdmOffset) virt = 0#64 ↔
      ¬∃ mapping ∈ mappings, mapping.call.page = pageNumber virt := by
  rcases run.lower_fresh made space lower with ⟨null, noPage⟩ | ⟨wasFree, onPage⟩
  · exact iff_of_true null noPage
  · refine iff_of_false ?_ (not_not.mpr onPage)
    intro null
    obtain ⟨frame, nonzero, isFrame⟩ := usable.frame _ wasFree
    exact nonzero (Frame.address_inj.mp ((isFrame.symm.trans null).trans (by decide)))

/-- A held page of the kernel is seen through the pagemap exactly in the upper half. -/
theorem held_seen_iff (run : LowerRun hhdmOffset pagemap fresh mappings after)
    (made : NewPagemap hhdmOffset kernel before pagemap fresh)
    (space : AddressSpace hhdmOffset before kernel Set.univ)
    (held : HeldPage hhdmOffset kernel before virt) :
    virtToPhys hhdmOffset after.memory (pagemap.pointer hhdmOffset) virt =
        virtToPhys hhdmOffset after.memory (kernel.pointer hhdmOffset) virt ↔
      256 ≤ (slot4 virt).toNat := by
  refine ⟨?_, run.upper_same made space⟩
  intro same
  by_contra lower
  obtain ⟨frame, nonzero, notFree, translates⟩ := held
  rw [run.virtToPhys_kernel made space, translates] at same
  rcases run.lower_fresh made space lower with ⟨null, -⟩ | ⟨wasFree, -⟩
  · exact nonzero (Frame.address_inj.mp ((same.symm.trans null).trans (by decide)))
  · exact notFree (same ▸ wasFree)

end LowerRun

/-! Allocations and loads in any order -/

/-- The calls that take frames: a region for the heap, or a pagemap with the images
that are loaded into it. -/
inductive HeapUse where
  | alloc (size flags : U64)
  | load (images : List U64)

def HeapUse.apply (hhdmOffset kernelPagemap ctx : U64) (machine : Machine) :
    HeapUse → Option Machine
  | .alloc size flags => (vmaAlloc hhdmOffset machine ctx size flags).map Prod.snd
  | .load images =>
      let (pagemap, machine) := vmmNewPagemap hhdmOffset kernelPagemap machine
      some (if pagemap = 0#64 then machine else elfLoads hhdmOffset pagemap machine images)

/-- The regions are mapped present, the images lie in the lower half, and `vmm_map` finds
the frames for its tables. -/
def HeapUse.Allowed (hhdmOffset kernelPagemap ctx : U64) (machine : Machine) : HeapUse → Prop
  | .alloc size flags => EntryFlags flags ∧ AllocationEnough hhdmOffset machine ctx size flags
  | .load images => machine.free ≠ [] ∧
      LoadsLower hhdmOffset (vmmNewPagemap hhdmOffset kernelPagemap machine).1
        (vmmNewPagemap hhdmOffset kernelPagemap machine).2 images

def HeapStep (hhdmOffset kernelPagemap ctx : U64) (machine : Machine) (call : HeapUse)
    (next : Machine) : Prop :=
  call.Allowed hhdmOffset kernelPagemap ctx machine ∧
    call.apply hhdmOffset kernelPagemap ctx machine = some next

section Steps

variable {records : Set Frame} {call : HeapUse} {calls : List HeapUse} {machine next : Machine}

/-- A call keeps the context in order and held pages held. -/
theorem HeapContext.step (heap : HeapContext hhdmOffset kernel ctx records machine)
    (step : HeapStep hhdmOffset (kernel.pointer hhdmOffset) (ctx.pointer hhdmOffset) machine call
      next) :
    (∃ more, HeapContext hhdmOffset kernel ctx more next) ∧
      ∀ virt, HeldPage hhdmOffset kernel machine virt → HeldPage hhdmOffset kernel next virt := by
  obtain ⟨allowed, applied⟩ := step
  cases call with
  | alloc size flags =>
      obtain ⟨⟨region, after⟩, allocated, rfl⟩ := Option.map_eq_some_iff.mp applied
      obtain ⟨inOrder, held, -⟩ := vmaAlloc_spec heap allowed.1 allowed.2 allocated
      exact ⟨inOrder, held⟩
  | load images =>
      obtain ⟨available, lower⟩ := allowed
      have kernelTaken := heap.space.apart [] nil_mem_within kernel rfl
      have advances : Advances hhdmOffset kernel ∅ machine next := by
        unfold HeapUse.apply at applied
        dsimp only at applied
        split_ifs at applied with null
        · cases applied
          rw [vmmNewPagemap_null null]
          obtain ⟨_, requested, result, -, takes⟩ :=
            pmmRequestPage_takesFrame hhdmOffset heap.usable available
          rw [result]
          exact .of_takes takes heap.usable heap.space
        · obtain ⟨pagemap, isPagemap, made⟩ :=
            vmmNewPagemap_spec hhdmOffset heap.usable available kernelTaken null
          rw [isPagemap] at lower applied
          obtain ⟨mappings, run, -⟩ :=
            elfLoads_run made.usable (made.space heap.usable heap.space) lower
          cases applied
          exact run.advances made heap.usable heap.space
      exact ⟨⟨records, heap.advance advances⟩, advances.held⟩

theorem HeapContext.run (heap : HeapContext hhdmOffset kernel ctx records machine)
    (run : Run (HeapStep hhdmOffset (kernel.pointer hhdmOffset) (ctx.pointer hhdmOffset)) machine
      calls next) :
    (∃ more, HeapContext hhdmOffset kernel ctx more next) ∧
      ∀ virt, HeldPage hhdmOffset kernel machine virt → HeldPage hhdmOffset kernel next virt := by
  induction run with
  | nil => exact ⟨⟨records, heap⟩, fun _ held => held⟩
  | snoc _ step inductionHypothesis =>
      obtain ⟨⟨between, heapBetween⟩, held⟩ := inductionHypothesis
      obtain ⟨later, heldLater⟩ := heapBetween.step step
      exact ⟨later, fun virt early => heldLater virt (held virt early)⟩

end Steps

/-! What a pagemap sees of the heap -/

/-- An address on one of the first `count` pages from `region` on. -/
def OnRegion (region count address : U64) : Prop :=
  ∃ i < count, pageNumber address = pageNumber (region + i * pageSize)

/-- Once the images are loaded, the pagemap and the kernel's translate the address alike. -/
def SeenAlike (hhdmOffset kernelPagemap pagemap : U64) (fresh : Machine) (images : List U64)
    (address : U64) : Prop :=
  let loaded := elfLoads hhdmOffset pagemap fresh images
  virtToPhys hhdmOffset loaded.memory pagemap address =
    virtToPhys hhdmOffset loaded.memory kernelPagemap address

theorem HeldPage.congr {machine : Machine} {other : U64}
    (held : HeldPage hhdmOffset kernel machine virt) (same : pageNumber other = pageNumber virt) :
    HeldPage hhdmOffset kernel machine other := by
  obtain ⟨frame, nonzero, notFree, translates⟩ := held
  obtain ⟨samePath, sameSlot⟩ := pageNumber_eq_iff.mp same
  refine ⟨frame, nonzero, notFree, ?_⟩
  rw [virtToPhys_eq] at translates ⊢
  unfold leafEntry at translates ⊢
  rw [samePath, sameSlot, translates]

theorem pml4Idx_upper_iff (virt : U64) : 256 ≤ (pml4Idx virt).toNat ↔ 256 ≤ (slot4 virt).toNat := by
  rw [pml4Idx_eq, BitVec.toNat_setWidth, Nat.mod_eq_of_lt (by omega)]

section Seen

variable {pagemap address : U64} {records : Set Frame} {images : List U64}

/-- A page that the kernel holds when a pagemap is made. -/
theorem HeapContext.seen_iff (heap : HeapContext hhdmOffset kernel ctx records middle)
    (held : HeldPage hhdmOffset kernel middle address) (available : middle.free ≠ [])
    (made : vmmNewPagemap hhdmOffset (kernel.pointer hhdmOffset) middle = (pagemap, fresh))
    (nonnull : pagemap ≠ 0#64) (lower : LoadsLower hhdmOffset pagemap fresh images) :
    SeenAlike hhdmOffset (kernel.pointer hhdmOffset) pagemap fresh images address ↔
      256 ≤ (pml4Idx address).toNat := by
  have kernelTaken := heap.space.apart [] nil_mem_within kernel rfl
  obtain ⟨root, rfl, isNew⟩ := vmmNewPagemap_made heap.usable available kernelTaken made nonnull
  obtain ⟨mappings, run, -⟩ := elfLoads_run isNew.usable (isNew.space heap.usable heap.space) lower
  rw [pml4Idx_upper_iff]
  exact run.held_seen_iff isNew heap.space held

/-- Any address, whatever the images are. -/
theorem HeapContext.always_seen_iff (heap : HeapContext hhdmOffset kernel ctx records middle)
    (available : middle.free ≠ [])
    (made : vmmNewPagemap hhdmOffset (kernel.pointer hhdmOffset) middle = (pagemap, fresh))
    (nonnull : pagemap ≠ 0#64) :
    (∀ images, LoadsLower hhdmOffset pagemap fresh images →
        SeenAlike hhdmOffset (kernel.pointer hhdmOffset) pagemap fresh images address) ↔
      256 ≤ (pml4Idx address).toNat ∨
        virtToPhys hhdmOffset middle.memory (kernel.pointer hhdmOffset) address = 0#64 ∧
          ∀ images, LoadsLower hhdmOffset pagemap fresh images →
            ¬ImagesCover hhdmOffset pagemap (pageNumber address) fresh images := by
  have kernelTaken := heap.space.apart [] nil_mem_within kernel rfl
  obtain ⟨root, rfl, isNew⟩ := vmmNewPagemap_made heap.usable available kernelTaken made nonnull
  have loads := fun images allowed =>
    @elfLoads_run hhdmOffset root _ images isNew.usable (isNew.space heap.usable heap.space) allowed
  rw [pml4Idx_upper_iff]
  by_cases upper : 256 ≤ (slot4 address).toNat
  · refine iff_of_true ?_ (Or.inl upper)
    intro images allowed
    obtain ⟨mappings, run, -⟩ := loads images allowed
    exact run.upper_same isNew heap.space upper
  · rw [or_iff_right upper]
    constructor
    · intro always
      -- with no image the pagemap leads nowhere, so the kernel must lead nowhere too
      have null : virtToPhys hhdmOffset middle.memory (kernel.pointer hhdmOffset) address =
          0#64 := by
        obtain ⟨mappings, run, cover⟩ := loads [] trivial
        rw [← run.virtToPhys_kernel isNew heap.space]
        refine (always [] trivial).symm.trans ?_
        rw [run.lower_null_iff isNew heap.usable heap.space upper, cover]
        exact id
      refine ⟨null, ?_⟩
      intro images allowed
      obtain ⟨mappings, run, cover⟩ := loads images allowed
      rw [← cover, ← run.lower_null_iff isNew heap.usable heap.space upper]
      refine (always images allowed).trans ?_
      rw [run.virtToPhys_kernel isNew heap.space, null]
    · rintro ⟨null, uncovered⟩ images allowed
      obtain ⟨mappings, run, cover⟩ := loads images allowed
      have nowhere := (run.lower_null_iff isNew heap.usable heap.space upper).mpr
        (mt (cover _).mp (uncovered images allowed))
      exact nowhere.trans ((run.virtToPhys_kernel isNew heap.space address).trans null).symm

end Seen

/-- The pages of a region of the kernel's context are seen through a pagemap that is made
later, whatever is loaded into it, exactly if each lies in the upper half or neither the
kernel nor an image has anything there.  For a page that `vma_alloc` maps it is the upper
half alone, whichever images are loaded. -/
theorem heap_seen_iff {region ctx pagemap : U64} {booted start allocated : Machine}
    {records : Set Frame} {earlier later : List HeapUse}
    (ready : KernelReady hhdmOffset kernel records booted) (frames : 2 ≤ booted.free.length)
    (created : vmaCreateContext hhdmOffset booted (kernel.pointer hhdmOffset) = (ctx, start))
    (first : Run (HeapStep hhdmOffset (kernel.pointer hhdmOffset) ctx) start earlier before)
    (valid : EntryFlags flags) (enough : AllocationEnough hhdmOffset before ctx size flags)
    (result : vmaAlloc hhdmOffset before ctx size flags = some (region, allocated))
    (returned : region ≠ 0#64)
    (second : Run (HeapStep hhdmOffset (kernel.pointer hhdmOffset) ctx) allocated later middle)
    (available : middle.free ≠ [])
    (made : vmmNewPagemap hhdmOffset (kernel.pointer hhdmOffset) middle = (pagemap, fresh))
    (nonnull : pagemap ≠ 0#64) :
    ((∀ images, LoadsLower hhdmOffset pagemap fresh images →
        ∀ address, OnRegion region size address →
          SeenAlike hhdmOffset (kernel.pointer hhdmOffset) pagemap fresh images address) ↔
      ∀ address, OnRegion region size address →
        256 ≤ (pml4Idx address).toNat ∨
          virtToPhys hhdmOffset middle.memory (kernel.pointer hhdmOffset) address = 0#64 ∧
            ∀ images, LoadsLower hhdmOffset pagemap fresh images →
              ¬ImagesCover hhdmOffset pagemap (pageNumber address) fresh images) ∧
    ∀ images, LoadsLower hhdmOffset pagemap fresh images →
      ∀ address, OnRegion region (mappedPages size) address →
        (SeenAlike hhdmOffset (kernel.pointer hhdmOffset) pagemap fresh images address ↔
          256 ≤ (pml4Idx address).toNat) := by
  obtain ⟨ctxFrame, root, _, isContext, context, -⟩ := vmaCreateContext_fresh ready frames
  rw [created] at isContext
  cases isContext
  obtain ⟨⟨_, heapBefore⟩, -⟩ := context.heap.run first
  obtain ⟨⟨_, heapAllocated⟩, -, held⟩ := vmaAlloc_spec heapBefore valid enough result
  obtain ⟨⟨_, heapMiddle⟩, kept⟩ := heapAllocated.run second
  refine ⟨⟨?_, ?_⟩, ?_⟩
  · intro always address onRegion
    exact (heapMiddle.always_seen_iff available made nonnull).mp
      fun images allowed => always images allowed address onRegion
  · intro apart images allowed address onRegion
    exact (heapMiddle.always_seen_iff available made nonnull).mpr (apart address onRegion) images
      allowed
  · rintro images allowed address ⟨i, below, onPage⟩
    exact heapMiddle.seen_iff ((kept _ (held returned i below)).congr onPage) available made
      nonnull allowed

/-! The first page of the heap -/

/-- The context, its first page and the first pagemap after it, with nine free frames. -/
structure FirstPage (ctx pagemap : U64) (start allocated fresh : Machine) : Prop where
  created : vmaCreateContext 0#64 (Machine.cleared 9) (Frame.pointer 0#64 1#40) = (ctx, start)
  enough : AllocationEnough 0#64 start ctx 1#64 heapFlags
  result : vmaAlloc 0#64 start ctx 1#64 heapFlags = some (pageSize, allocated)
  available : allocated.free ≠ []
  made : vmmNewPagemap 0#64 (Frame.pointer 0#64 1#40) allocated = (pagemap, fresh)
  nonnull : pagemap ≠ 0#64
  heap : ∃ ctx records, HeapContext 0#64 1#40 ctx records allocated
  held : HeldPage 0#64 1#40 allocated pageSize

theorem firstPage_exists : ∃ ctx pagemap start allocated fresh,
    FirstPage ctx pagemap start allocated fresh := by
  have free : (Machine.cleared 9).free.length = 9 := Machine.length_free_cleared (by decide)
  obtain ⟨ctx, root, start, created, context, count⟩ :=
    vmaCreateContext_fresh (cleared_ready 9 (by decide)) (by omega)
  have valid : EntryFlags heapFlags := ⟨by decide, by decide⟩
  obtain ⟨enough, allocated, result, spent⟩ :=
    vmaAlloc_first_page context valid identity_nonnull (by omega)
  obtain ⟨⟨_, heap⟩, -, held⟩ := vmaAlloc_spec context.heap valid enough result
  have available : allocated.free ≠ [] := List.ne_nil_of_length_pos (by omega)
  have kernelTaken := heap.space.apart [] nil_mem_within 1#40 rfl
  obtain ⟨pagemap, fresh, made, pagemapNonnull, -⟩ :=
    vmmNewPagemap_identity heap.usable available kernelTaken
  exact ⟨_, _, _, _, _, created, enough, result, available, made, pagemapNonnull, ⟨_, _, heap⟩,
    held (by decide) 0#64 (by decide)⟩

theorem onRegion_first : OnRegion pageSize 1#64 pageSize := ⟨0#64, by decide, by decide⟩

/-- The first page of the heap is not seen. -/
theorem heap_seen_iff_first : ∃ ctx pagemap start allocated fresh,
    FirstPage ctx pagemap start allocated fresh ∧
      ¬SeenAlike 0#64 (Frame.pointer 0#64 1#40) pagemap fresh [] pageSize := by
  obtain ⟨ctx, pagemap, start, allocated, fresh, first⟩ := firstPage_exists
  have free : (Machine.cleared 9).free.length = 9 := Machine.length_free_cleared (by decide)
  have onePage : mappedPages 1#64 = 1#64 := by decide
  refine ⟨ctx, pagemap, start, allocated, fresh, first, fun same => ?_⟩
  obtain ⟨-, mapped⟩ := heap_seen_iff (cleared_ready 9 (by decide)) (by omega) first.created .nil
    ⟨by decide, by decide⟩ first.enough first.result (by decide) .nil first.available first.made
    first.nonnull
  rw [onePage] at mapped
  have upper := (mapped [] trivial pageSize onRegion_first).mp same
  exact absurd upper (by decide)

/-- A page of the heap need not be seen through a pagemap that is made after it. -/
theorem heap_not_seen : ¬∀ (hhdmOffset size flags region ctx pagemap address : U64)
    (kernel : Frame) (records : Set Frame) (booted start allocated fresh : Machine)
    (images : List U64), KernelReady hhdmOffset kernel records booted →
    2 ≤ booted.free.length →
    vmaCreateContext hhdmOffset booted (kernel.pointer hhdmOffset) = (ctx, start) →
    EntryFlags flags → AllocationEnough hhdmOffset start ctx size flags →
    vmaAlloc hhdmOffset start ctx size flags = some (region, allocated) → region ≠ 0#64 →
    allocated.free ≠ [] →
    vmmNewPagemap hhdmOffset (kernel.pointer hhdmOffset) allocated = (pagemap, fresh) →
    pagemap ≠ 0#64 → LoadsLower hhdmOffset pagemap fresh images →
    OnRegion region size address →
    virtToPhys hhdmOffset (elfLoads hhdmOffset pagemap fresh images).memory pagemap address =
      virtToPhys hhdmOffset (elfLoads hhdmOffset pagemap fresh images).memory
        (kernel.pointer hhdmOffset) address := by
  intro always
  obtain ⟨ctx, pagemap, start, allocated, fresh, first⟩ := firstPage_exists
  obtain ⟨_, _, heap⟩ := first.heap
  have free : (Machine.cleared 9).free.length = 9 := Machine.length_free_cleared (by decide)
  have noImages : LoadsLower 0#64 pagemap fresh [] := trivial
  have same := always 0#64 1#64 heapFlags pageSize ctx pagemap pageSize 1#40 {0#40}
    (Machine.cleared 9) start allocated fresh [] (cleared_ready 9 (by decide)) (by omega) first.created
    ⟨by decide, by decide⟩ first.enough first.result (by decide) first.available first.made
    first.nonnull noImages onRegion_first
  have upper := (heap.seen_iff first.held first.available first.made first.nonnull noImages).mp same
  exact absurd upper (by decide)

end Nekonix
