import Nekonix.Mm.Vmm.Init

/-!
# The kernel's address space

What `vmm_init` is to map, as a partial map of pages.  The tables it leaves translate by
this map wherever no section reaches into the last page of all addresses.
-/

namespace Nekonix

open FlatMemory RadixTable Transition

variable {hhdmOffset : U64} {image : KernelImage} {machine : Machine}

/-- The two halves of the canonical addresses. -/
def LowerHalf (virt : U64) : Prop := virt.toNat < 0x800000000000

def UpperHalf (virt : U64) : Prop := 0xffff800000000000 ≤ virt.toNat

def Canonical (virt : U64) : Prop := LowerHalf virt ∨ UpperHalf virt

instance (virt : U64) : Decidable (LowerHalf virt) := inferInstanceAs (Decidable (_ < _))
instance (virt : U64) : Decidable (UpperHalf virt) := inferInstanceAs (Decidable (_ ≤ _))
instance (virt : U64) : Decidable (Canonical virt) := inferInstanceAs (Decidable (_ ∨ _))

def ImageSection.Has (part : ImageSection) (virt : U64) : Prop :=
  part.start ≤ virt ∧ virt < part.finish

instance (part : ImageSection) (virt : U64) : Decidable (part.Has virt) :=
  inferInstanceAs (Decidable (_ ∧ _))

/-- Sections in the upper half that start at pages.  If two of them shared a page they would
map it alike. -/
structure KernelImage.Layout (image : KernelImage) : Prop where
  started : ∀ part ∈ image.sections, PageAligned part.start
  upper : ∀ part ∈ image.sections, ∀ virt, part.Has virt → UpperHalf virt

/-- In the last page of all addresses `ALIGN_UP` of the end of a section would be zero. -/
def KernelImage.BelowLastPage (image : KernelImage) : Prop :=
  ∀ part ∈ image.sections, part.finish.toNat ≤ 0xfffffffffffff000

/-- No two sections have a page in common. -/
def KernelImage.PageDisjoint (image : KernelImage) : Prop :=
  image.sections.Pairwise fun first second =>
    ∀ virt, PageAligned virt → ¬(first.Has virt ∧ second.Has virt)

/-- The direct map of the first 4 GiB lies in the upper half, apart from the image. -/
structure DirectWindow (hhdmOffset : U64) (image : KernelImage) : Prop where
  aligned : PageAligned hhdmOffset
  upper : ∀ gb4, gb4 < 0x100000000#64 → UpperHalf (higherHalf hhdmOffset gb4)
  apart : ∀ gb4, gb4 < 0x100000000#64 → ∀ part ∈ image.sections,
    ¬part.Has (higherHalf hhdmOffset gb4)

/-- The frame a page is to be mapped to. -/
def kernelMap (hhdmOffset : U64) (image : KernelImage) (page : U64) : Option U64 :=
  if ∃ part ∈ image.sections, part.Has page then
    some (page - image.kernelVirtBase + image.kernelPhysBase)
  else if page < 0x100000000#64 then
    some page
  else if page - hhdmOffset < 0x100000000#64 then
    some (page - hhdmOffset)
  else
    none

/-- A page of the canonical addresses is known by its number. -/
theorem page_eq_of_pageNumber {virt page : U64} (canonical : Canonical virt)
    (pageCanonical : Canonical page) (aligned : PageAligned page)
    (same : pageNumber page = pageNumber virt) : page = alignDown virt pageSize := by
  have numbers := congrArg BitVec.toNat same
  simp only [pageNumber, BitVec.extractLsb'_toNat, Nat.shiftRight_eq_div_pow] at numbers
  apply BitVec.eq_of_toNat_eq
  rw [alignDown_toNat]
  unfold Canonical LowerHalf UpperHalf at canonical pageCanonical
  unfold PageAligned at aligned
  omega

theorem pageNumber_alignDown (virt : U64) :
    pageNumber (alignDown virt pageSize) = pageNumber virt := by
  apply BitVec.eq_of_toNat_eq
  simp only [pageNumber, BitVec.extractLsb'_toNat, Nat.shiftRight_eq_div_pow, alignDown_toNat]
  omega

theorem PageAligned.higherHalf {gb4 : U64} (offset : PageAligned hhdmOffset)
    (aligned : PageAligned gb4) : PageAligned (higherHalf hhdmOffset gb4) := by
  unfold PageAligned at *
  rw [Nekonix.higherHalf, BitVec.toNat_add]
  omega

/-- No section and no page of the direct map is among the first 4 GiB. -/
theorem UpperHalf.not_low {virt : U64} (upper : UpperHalf virt) : ¬virt < 0x100000000#64 := by
  unfold UpperHalf at upper
  rw [BitVec.lt_def, BitVec.toNat_ofNat]
  omega

theorem lowerHalf_of_low {page : U64} (low : page < 0x100000000#64) : LowerHalf page := by
  rw [BitVec.lt_def, BitVec.toNat_ofNat] at low
  unfold LowerHalf
  omega

/-- The first 4 GiB are to be at their own addresses. -/
theorem kernelMap_low (layout : image.Layout) {page : U64} (low : page < 0x100000000#64) :
    kernelMap hhdmOffset image page = some page := by
  have noSection : ¬∃ part ∈ image.sections, part.Has page := by
    rintro ⟨part, isPart, has⟩
    exact (layout.upper part isPart page has).not_low low
  rw [kernelMap, if_neg noSection, if_pos low]

/-- And in the direct map. -/
theorem kernelMap_window (window : DirectWindow hhdmOffset image) {page : U64}
    (low : page < 0x100000000#64) :
    kernelMap hhdmOffset image (higherHalf hhdmOffset page) = some page := by
  have noSection : ¬∃ part ∈ image.sections, part.Has (higherHalf hhdmOffset page) := by
    rintro ⟨part, isPart, has⟩
    exact window.apart page low part isPart has
  have back : higherHalf hhdmOffset page - hhdmOffset = page := BitVec.add_sub_cancel page _
  rw [kernelMap, if_neg noSection, if_neg (window.upper page low).not_low, back, if_pos low]

/-- Nothing else is to be mapped. -/
theorem kernelMap_elsewhere {page : U64} (noSection : ∀ part ∈ image.sections, ¬part.Has page)
    (noPage : ∀ low, low < 0x100000000#64 → page ≠ low ∧ page ≠ higherHalf hhdmOffset low) :
    kernelMap hhdmOffset image page = none := by
  have outside : ¬∃ part ∈ image.sections, part.Has page :=
    fun ⟨part, isPart, has⟩ => noSection part isPart has
  have notLow : ¬page < 0x100000000#64 := fun low => (noPage page low).1 rfl
  have notInWindow : ¬page - hhdmOffset < 0x100000000#64 :=
    fun low => (noPage _ low).2 (BitVec.sub_add_cancel page hhdmOffset).symm
  rw [kernelMap, if_neg outside, if_neg notLow, if_neg notInWindow]

section Calls

variable (layout : image.Layout) (belowLastPage : image.BelowLastPage)
  (window : DirectWindow hhdmOffset image)
include layout belowLastPage

/-- The pages that the loop over a section maps are those of the section. -/
theorem mem_sectionPages {part : ImageSection} (isPart : part ∈ image.sections) {virt : U64} :
    virt ∈ loopPages (alignDown part.start pageSize) (alignUp part.finish pageSize) ↔
      PageAligned virt ∧ part.Has virt := by
  have started := layout.started part isPart
  have lastPage := belowLastPage part isPart
  have bound : (alignUp part.finish pageSize).toNat = (part.finish.toNat + 4095) / 4096 * 4096 :=
    alignUp_toNat (by omega)
  rw [mem_loopPages (alignDown_aligned _) (alignUp_aligned _)]
  unfold PageAligned ImageSection.Has at *
  simp only [BitVec.le_def, BitVec.lt_def, alignDown_toNat, bound]
  omega

include window

/-- Each mapping of `vmm_init` is one that is to be made. -/
theorem initCalls_sound {call : MapCall} (isCall : call ∈ initCalls hhdmOffset image) :
    Canonical call.virt ∧ PageAligned call.virt ∧
      kernelMap hhdmOffset image call.virt = some call.phys := by
  rcases mem_initCalls isCall with ⟨part, isPart, flags, -, inLoop⟩ | direct
  · obtain ⟨virt, isPage, rfl⟩ := List.mem_map.mp inLoop
    obtain ⟨aligned, has⟩ := (mem_sectionPages layout belowLastPage isPart).mp isPage
    exact ⟨Or.inr (layout.upper part isPart virt has), aligned,
      if_pos ⟨part, isPart, has⟩⟩
  · obtain ⟨gb4, aligned, low, rfl | rfl⟩ := mem_directCalls.mp direct
    · exact ⟨Or.inl (lowerHalf_of_low low), aligned, kernelMap_low layout low⟩
    · exact ⟨Or.inr (window.upper gb4 low), window.aligned.higherHalf aligned,
        kernelMap_window window low⟩

/-- Each page that is to be mapped is mapped. -/
theorem initCalls_complete {page phys : U64} (aligned : PageAligned page)
    (mapped : kernelMap hhdmOffset image page = some phys) :
    ∃ call ∈ initCalls hhdmOffset image, call.virt = page := by
  unfold kernelMap at mapped
  split_ifs at mapped with inSection low inWindow
  · obtain ⟨part, isPart, has⟩ := inSection
    obtain ⟨flags, subset⟩ := sectionCalls_subset isPart
    have isPage := (mem_sectionPages layout belowLastPage isPart).mpr ⟨aligned, has⟩
    exact ⟨_, subset _ (List.mem_map.mpr ⟨page, isPage, rfl⟩), rfl⟩
  · have direct : (⟨page, page, vmmPresent ||| vmmWritable⟩ : MapCall) ∈ directCalls hhdmOffset :=
      mem_directCalls.mpr ⟨page, aligned, low, Or.inl rfl⟩
    exact ⟨_, List.mem_append_right _ direct, rfl⟩
  · have offset : PageAligned (page - hhdmOffset) := by
      have offsetAligned := window.aligned
      unfold PageAligned at *
      rw [BitVec.toNat_sub]
      omega
    have direct : (⟨higherHalf hhdmOffset (page - hhdmOffset), page - hhdmOffset,
        vmmPresent ||| vmmWritable⟩ : MapCall) ∈ directCalls hhdmOffset :=
      mem_directCalls.mpr ⟨page - hhdmOffset, offset, inWindow, Or.inr rfl⟩
    exact ⟨_, List.mem_append_right _ direct, BitVec.sub_add_cancel page hhdmOffset⟩

end Calls

/-- What the mappings of `vmm_init` come to. -/
theorem lastAt_initCalls (layout : image.Layout) (belowLastPage : image.BelowLastPage)
    (window : DirectWindow hhdmOffset image) {virt : U64} (canonical : Canonical virt) :
    (lastAt MapCall.page (initCalls hhdmOffset image) (pageNumber virt)).map MapCall.phys =
      kernelMap hhdmOffset image (alignDown virt pageSize) := by
  cases last : lastAt MapCall.page (initCalls hhdmOffset image) (pageNumber virt) with
  | some call =>
      obtain ⟨isCall, here⟩ := lastAt_some last
      obtain ⟨callCanonical, aligned, mapped⟩ :=
        initCalls_sound layout belowLastPage window isCall
      rw [← page_eq_of_pageNumber canonical callCanonical aligned here, mapped]
      rfl
  | none =>
      cases mapped : kernelMap hhdmOffset image (alignDown virt pageSize) with
      | none => rfl
      | some phys =>
          obtain ⟨call, isCall, isPage⟩ :=
            initCalls_complete layout belowLastPage window (alignDown_aligned virt) mapped
          obtain ⟨other, found⟩ := lastAt_of_mem MapCall.page isCall
          rw [MapCall.page, isPage, pageNumber_alignDown, last] at found
          cases found

/-- The address space of `vmm_init` is the one that is to be. -/
theorem vmmInit_refines (layout : image.Layout) (belowLastPage : image.BelowLastPage)
    (window : DirectWindow hhdmOffset image) (supply : InitSupply hhdmOffset image machine) :
    ∃ after, vmmInit hhdmOffset image machine = some after ∧ after.result = 0 ∧
      ∀ virt, Canonical virt →
        virtToPhys hhdmOffset after.machine.memory after.kernelPagemap virt =
          (kernelMap hhdmOffset image (alignDown virt pageSize)).getD 0#64 &&& entryMask := by
  obtain ⟨after, isAfter, success, -, translation⟩ := vmmInit_spec supply
  refine ⟨after, isAfter, success, fun virt canonical => ?_⟩
  rw [translation virt, lastAt_initCalls layout belowLastPage window canonical]

theorem PageAligned.masked {page : U64} (aligned : PageAligned page)
    (small : page < 0x100000000#64) : page &&& entryMask = page := by
  rw [BitVec.lt_def, BitVec.toNat_ofNat] at small
  unfold PageAligned at aligned
  apply BitVec.eq_of_toNat_eq
  rw [and_entryMask, Frame.address_toNat, BitVec.extractLsb'_toNat, Nat.shiftRight_eq_div_pow]
  omega

theorem PageAligned.alignDown_eq {page : U64} (aligned : PageAligned page) :
    alignDown page pageSize = page := by
  unfold PageAligned at aligned
  apply BitVec.eq_of_toNat_eq
  rw [alignDown_toNat]
  omega

/-- After `vmm_init` the sections are where the image is loaded, as far as an entry has bits
for it, the first 4 GiB are at their own addresses and in the direct map, and nothing
else is mapped. -/
theorem vmm_init_maps (layout : image.Layout) (belowLastPage : image.BelowLastPage)
    (window : DirectWindow hhdmOffset image) (supply : InitSupply hhdmOffset image machine) :
    ∃ after, vmmInit hhdmOffset image machine = some after ∧ after.result = 0 ∧
      (∀ part ∈ image.sections, ∀ virt, PageAligned virt → part.Has virt →
        virtToPhys hhdmOffset after.machine.memory after.kernelPagemap virt =
          (virt - image.kernelVirtBase + image.kernelPhysBase) &&& entryMask) ∧
      (∀ page, PageAligned page → page < 0x100000000#64 →
        virtToPhys hhdmOffset after.machine.memory after.kernelPagemap page = page ∧
        virtToPhys hhdmOffset after.machine.memory after.kernelPagemap
          (higherHalf hhdmOffset page) = page) ∧
      ∀ virt, Canonical virt →
        (∀ part ∈ image.sections, ¬part.Has (alignDown virt pageSize)) →
        (∀ page, page < 0x100000000#64 → alignDown virt pageSize ≠ page ∧
          alignDown virt pageSize ≠ higherHalf hhdmOffset page) →
        virtToPhys hhdmOffset after.machine.memory after.kernelPagemap virt = 0#64 := by
  obtain ⟨after, isAfter, success, translation⟩ :=
    vmmInit_refines layout belowLastPage window supply
  refine ⟨after, isAfter, success, ?_, ?_, ?_⟩
  · intro part isPart virt aligned has
    rw [translation virt (Or.inr (layout.upper part isPart virt has)), aligned.alignDown_eq,
      kernelMap, if_pos ⟨part, isPart, has⟩]
    rfl
  · intro page aligned low
    have upper := window.upper page low
    have alignedUpper := window.aligned.higherHalf aligned
    rw [translation page (Or.inl (lowerHalf_of_low low)), translation _ (Or.inr upper),
      aligned.alignDown_eq, alignedUpper.alignDown_eq, kernelMap_low layout low,
      kernelMap_window window low]
    exact ⟨aligned.masked low, aligned.masked low⟩
  · intro virt canonical noSection noPage
    rw [translation virt canonical, kernelMap_elsewhere noSection noPage]
    rfl

/-- After `vmm_init` every page of a section is where the image is loaded. -/
def MapsSections (hhdmOffset : U64) (image : KernelImage) (machine : Machine) : Prop :=
  ∃ after, vmmInit hhdmOffset image machine = some after ∧
    ∀ part ∈ image.sections, ∀ virt, PageAligned virt → part.Has virt →
      virtToPhys hhdmOffset after.machine.memory after.kernelPagemap virt =
        virt - image.kernelVirtBase + image.kernelPhysBase

/-! Images -/

/-- An image of the linker, with the end of it where it may be. -/
def bootImage (data : ImageSection) (kernelPhysBase : U64) : KernelImage where
  limineRequests := ⟨0xffffffff80000000#64, 0xffffffff80000100#64⟩
  text := ⟨0xffffffff80001000#64, 0xffffffff80008123#64⟩
  rodata := ⟨0xffffffff80009000#64, 0xffffffff8000a400#64⟩
  data
  kernelPhysBase
  kernelVirtBase := 0xffffffff80000000#64

def bootOffset : U64 := 0xffff800000000000#64

variable {data : ImageSection} {kernelPhysBase : U64}

theorem mem_bootSections {part : ImageSection}
    (isPart : part ∈ (bootImage data kernelPhysBase).sections) :
    part = data ∨ PageAligned part.start ∧ 0xffffffff80000000 ≤ part.start.toNat ∧
      part.finish.toNat ≤ 0xfffffffffffff000 := by
  simp only [bootImage, KernelImage.sections, List.mem_cons, List.not_mem_nil, or_false] at isPart
  rcases isPart with rfl | rfl | rfl | rfl
  · exact Or.inr ⟨rfl, by decide, by decide⟩
  · exact Or.inr ⟨rfl, by decide, by decide⟩
  · exact Or.inr ⟨rfl, by decide, by decide⟩
  · exact Or.inl rfl

theorem bootImage_layout (aligned : PageAligned data.start)
    (upper : 0xffffffff80000000 ≤ data.start.toNat) :
    (bootImage data kernelPhysBase).Layout ∧
      DirectWindow bootOffset (bootImage data kernelPhysBase) := by
  have above : ∀ part ∈ (bootImage data kernelPhysBase).sections,
      PageAligned part.start ∧ 0xffffffff80000000 ≤ part.start.toNat := by
    intro part isPart
    rcases mem_bootSections isPart with rfl | ⟨started, high, -⟩
    · exact ⟨aligned, upper⟩
    · exact ⟨started, high⟩
  refine ⟨⟨fun part isPart => (above part isPart).1, fun part isPart virt has => ?_⟩,
    ⟨rfl, fun gb4 low => ?_, fun gb4 low part isPart has => ?_⟩⟩
  · have high := (above part isPart).2
    have atLeast := has.1
    rw [BitVec.le_def] at atLeast
    unfold UpperHalf
    omega
  · rw [BitVec.lt_def, BitVec.toNat_ofNat] at low
    rw [UpperHalf, higherHalf, BitVec.toNat_add, bootOffset, BitVec.toNat_ofNat]
    omega
  · have high := (above part isPart).2
    have atLeast := has.1
    rw [BitVec.lt_def, BitVec.toNat_ofNat] at low
    rw [BitVec.le_def, higherHalf, BitVec.toNat_add, bootOffset, BitVec.toNat_ofNat] at atLeast
    omega

/-- Sixteen million free frames are more than enough. -/
theorem initSupply_cleared (few : (initCalls bootOffset image).length ≤ 2 ^ 22) :
    InitSupply bootOffset image (Machine.cleared (2 ^ 24)) where
  usable := Machine.usable_cleared (by decide)
  nonnull := by
    intro page free
    obtain ⟨frame, -, rfl⟩ := (Machine.usable_cleared (by decide)).frame page free
    have bounds := Machine.mem_free_cleared (by decide) free
    intro null
    have zero := congrArg BitVec.toNat null
    rw [higherHalf, BitVec.toNat_add, Frame.address_toNat, bootOffset, BitVec.toNat_ofNat,
      BitVec.toNat_ofNat] at zero
    omega
  frames := by
    have some := card_tablesOf_le (initCalls bootOffset image)
    rw [Machine.length_free_cleared (by decide)]
    omega

theorem pageDisjoint_of_order (inOrder : image.sections.Pairwise fun first second =>
    first.finish ≤ second.start) : image.PageDisjoint := by
  refine inOrder.imp fun before virt _ both => ?_
  obtain ⟨⟨-, inFirst⟩, inSecond, -⟩ := both
  rw [BitVec.le_def] at before inSecond
  rw [BitVec.lt_def] at inFirst
  omega

theorem length_bootCalls (few : (sectionCalls (bootImage data kernelPhysBase) data
      (vmmPresent ||| vmmWritable ||| vmmNx)).length ≤ 1000) :
    (initCalls bootOffset (bootImage data kernelPhysBase)).length ≤ 2 ^ 22 := by
  have sections : ((alignUp 0xffffffff80000100#64 pageSize).toNat -
      (alignDown 0xffffffff80000000#64 pageSize).toNat) / 4096 = 1 ∧
      ((alignUp 0xffffffff80008123#64 pageSize).toNat -
        (alignDown 0xffffffff80001000#64 pageSize).toNat) / 4096 = 8 ∧
      ((alignUp 0xffffffff8000a400#64 pageSize).toNat -
        (alignDown 0xffffffff80009000#64 pageSize).toNat) / 4096 = 2 := by decide
  obtain ⟨requests, text, rodata⟩ := sections
  rw [length_sectionCalls] at few
  simp only [initCalls, List.length_append, length_sectionCalls, length_directCalls, bootImage,
    requests, text, rodata]
  omega

/-- Five pages behind the other sections. -/
def bootData : ImageSection := ⟨0xffffffff8000b000#64, 0xffffffff80010000#64⟩

theorem vmm_init_maps_boot :
    ∃ after, vmmInit bootOffset (bootImage bootData 0x200000#64) (Machine.cleared (2 ^ 24)) =
        some after ∧ after.result = 0 ∧
      virtToPhys bootOffset after.machine.memory after.kernelPagemap 0xffffffff80003000#64 =
        0x203000#64 ∧
      virtToPhys bootOffset after.machine.memory after.kernelPagemap 0xb8000#64 = 0xb8000#64 ∧
      virtToPhys bootOffset after.machine.memory after.kernelPagemap 0xffffffff80010000#64 =
        0#64 := by
  have fits := @bootImage_layout bootData 0x200000#64 rfl (by decide)
  have few := @length_bootCalls bootData 0x200000#64 (by
    rw [length_sectionCalls]
    decide)
  have below : (bootImage bootData 0x200000#64).BelowLastPage := by
    unfold KernelImage.BelowLastPage
    decide
  have isText : (bootImage bootData 0x200000#64).text ∈
      (bootImage bootData 0x200000#64).sections := by simp [KernelImage.sections]
  have isPage : alignDown 0xffffffff80010000#64 pageSize = 0xffffffff80010000#64 := by decide
  obtain ⟨after, isAfter, success, sections, pages, elsewhere⟩ :=
    vmm_init_maps fits.1 below fits.2 (initSupply_cleared few)
  refine ⟨after, isAfter, success, ?_, (pages 0xb8000#64 (by decide) (by decide)).1, ?_⟩
  · exact sections _ isText 0xffffffff80003000#64 (by decide) (by decide)
  · refine elsewhere _ (by decide) (by decide) fun page low => ?_
    rw [isPage, higherHalf, bootOffset]
    exact ⟨by bv_omega, by bv_omega⟩

/-- `.data` reaches into the last page of all addresses. -/
def lastData : ImageSection := ⟨0xfffffffffffff000#64, 0xffffffffffffff00#64⟩

/-- Its pages are not mapped. -/
theorem initCalls_lastData (kernelPhysBase : U64) :
    initCalls bootOffset (bootImage lastData kernelPhysBase) =
      initCalls bootOffset
        (bootImage ⟨0xfffffffffffff000#64, 0xfffffffffffff000#64⟩ kernelPhysBase) := by
  have none : ∀ image flags, sectionCalls image lastData flags = [] := by
    intro image flags
    rw [← List.length_eq_zero_iff, length_sectionCalls]
    decide
  have alsoNone : ∀ image flags,
      sectionCalls image ⟨0xfffffffffffff000#64, 0xfffffffffffff000#64⟩ flags = [] := by
    intro image flags
    rw [← List.length_eq_zero_iff, length_sectionCalls]
    decide
  simp only [initCalls, bootImage, none, alsoNone]
  rfl

/-- A frame from 2^52 on loses its upper bits, and a section that reaches into the last page
of all addresses is not mapped. -/
theorem vmm_init_misses :
    (¬ ∀ (hhdmOffset : U64) (image : KernelImage) (machine : Machine),
      image.Layout → image.PageDisjoint → image.BelowLastPage → DirectWindow hhdmOffset image →
      PageAligned image.kernelPhysBase → PageAligned image.kernelVirtBase →
      InitSupply hhdmOffset image machine → MapsSections hhdmOffset image machine) ∧
    ¬ ∀ (hhdmOffset : U64) (image : KernelImage) (machine : Machine),
      image.Layout → image.PageDisjoint → DirectWindow hhdmOffset image →
      PageAligned image.kernelPhysBase → PageAligned image.kernelVirtBase →
      image.kernelPhysBase.toNat < 2 ^ 32 →
      InitSupply hhdmOffset image machine → MapsSections hhdmOffset image machine := by
  constructor
  · intro always
    have fits := @bootImage_layout bootData 0x10000000000000#64 (by decide) (by decide)
    have few := @length_bootCalls bootData 0x10000000000000#64 (by
      rw [length_sectionCalls]
      decide)
    have below : (bootImage bootData 0x10000000000000#64).BelowLastPage := by
      unfold KernelImage.BelowLastPage
      decide
    have isText : (bootImage bootData 0x10000000000000#64).text ∈
        (bootImage bootData 0x10000000000000#64).sections := by simp [KernelImage.sections]
    have supply := initSupply_cleared few
    have disjoint : (bootImage bootData 0x10000000000000#64).PageDisjoint :=
      pageDisjoint_of_order (by decide)
    obtain ⟨after, isAfter, maps⟩ := always bootOffset (bootImage bootData 0x10000000000000#64)
      (Machine.cleared (2 ^ 24)) fits.1 disjoint below fits.2 (by decide) (by decide) supply
    obtain ⟨same, isSame, -, translation⟩ := vmmInit_refines fits.1 below fits.2 supply
    rw [isAfter] at isSame
    cases isSame
    have mapped := maps _ isText 0xffffffff80001000#64 (by decide) (by decide)
    rw [translation _ (by decide)] at mapped
    exact absurd mapped (by decide)
  · intro always
    have fits := @bootImage_layout lastData 0x200000#64 (by decide) (by decide)
    have few := @length_bootCalls lastData 0x200000#64 (by
      rw [length_sectionCalls]
      decide)
    have isData : (bootImage lastData 0x200000#64).data ∈
        (bootImage lastData 0x200000#64).sections := by simp [KernelImage.sections]
    have supply := initSupply_cleared few
    have disjoint : (bootImage lastData 0x200000#64).PageDisjoint :=
      pageDisjoint_of_order (by decide)
    obtain ⟨after, isAfter, maps⟩ := always bootOffset (bootImage lastData 0x200000#64)
      (Machine.cleared (2 ^ 24)) fits.1 disjoint fits.2 (by decide) (by decide) (by decide) supply
    obtain ⟨same, isSame, -, -, translation⟩ := vmmInit_spec supply
    rw [isAfter] at isSame
    cases isSame
    have mapped := maps _ isData 0xfffffffffffff000#64 (by decide) (by decide)
    -- the mappings are those of an image that ends before its last page
    have without := @bootImage_layout ⟨0xfffffffffffff000#64, 0xfffffffffffff000#64⟩ 0x200000#64
      (by decide) (by decide)
    have below : (bootImage ⟨0xfffffffffffff000#64, 0xfffffffffffff000#64⟩
        0x200000#64).BelowLastPage := by
      unfold KernelImage.BelowLastPage
      decide
    rw [translation, initCalls_lastData, lastAt_initCalls without.1 below without.2 (by decide)]
      at mapped
    exact absurd mapped (by decide)

end Nekonix
