import Nekonix.Proc.Elf.Image

/-!
# Reading the image back

Every byte of a loaded page, read through the page tables, is the one that the
last segment covering the page put there.
-/

namespace Nekonix

open FlatMemory RadixTable Transition

variable {hhdmOffset data : U64} {machine next finish : Machine} {root : Frame}
  {memory source : Memory} {size : Nat}

/-- The byte at a virtual address, read through `virt_to_phys`. -/
def readVirt (hhdmOffset : U64) (memory : Memory) (pagemap virt : U64) : U8 :=
  memory (higherHalf hhdmOffset
    (virtToPhys hhdmOffset memory pagemap virt + (virt &&& 0xfff#64)))

/-- The byte at a virtual address, if its page is present. -/
def mappedByte (hhdmOffset : U64) (memory : Memory) (root : Frame) (virt : U64) : Option U8 :=
  let entry := (leafEntry hhdmOffset memory root virt).getD 0#64
  if pageFormat.present entry then
    some (memory ((pageFormat.target entry).pointer hhdmOffset + (virt &&& 0xfff#64)))
  else none

theorem readVirt_of_mappedByte {virt : U64} {byte : U8}
    (mapped : mappedByte hhdmOffset memory root virt = some byte) :
    readVirt hhdmOffset memory (root.pointer hhdmOffset) virt = byte := by
  unfold mappedByte at mapped
  dsimp only at mapped
  split at mapped
  next =>
    rw [← Option.some.inj mapped, readVirt, virtToPhys_eq, and_entryMask]
    unfold Frame.pointer higherHalf pageFormat
    rw [BitVec.add_assoc, BitVec.add_assoc, BitVec.add_comm hhdmOffset]
  next => cases mapped

/-- The file is in place and the frames of all present pages are quiet. -/
structure Loading (hhdmOffset : U64) (root : Frame) (source : Memory) (data : U64) (size : Nat)
    (machine : Machine) : Prop where
  resident : Resident hhdmOffset root source data size machine
  quiet : ∀ virt, slot4 virt ∈ NewPagemap.lowerHalf →
    pageFormat.present ((leafEntry hhdmOffset machine.memory root virt).getD 0#64) = true →
    ∀ address, (pageFormat.target ((leafEntry hhdmOffset machine.memory root virt).getD
      0#64)).Holds hhdmOffset address →
    Quiet hhdmOffset root NewPagemap.lowerHalf machine address

/-- The byte a load puts at an address of its page. -/
def PageLoad.byte (source : Memory) (data : U64) (load : PageLoad) (virt : U64) : U8 :=
  load.header.loadedByte source data (load.addr - load.header.vaddrStart + (virt &&& 0xfff#64))

theorem Loading.step {load : PageLoad}
    (loading : Loading hhdmOffset root source data size machine)
    (step : LoadStep hhdmOffset data root source machine load next) :
    Loading hhdmOffset root source data size next := by
  refine ⟨loading.resident.step step, ?_⟩
  obtain ⟨start, frame, created, backed, -⟩ := step
  intro virt lower
  rw [backed.mapped.leaf virt lower]
  split_ifs with here
  · intro _
    rw [load.header.entryFlags.target]
    exact backed.quiet
  · intro present address inFrame
    exact backed.mapped.quiet (loading.quiet virt lower present address inFrame)

theorem pageOffset_lt (virt : U64) : (virt &&& 0xfff#64).toNat < 4096 := by
  rw [BitVec.toNat_and]
  exact Nat.lt_of_le_of_lt Nat.and_le_right (by decide)

theorem Loading.mappedByte_step {load : PageLoad}
    (loading : Loading hhdmOffset root source data size machine)
    (step : LoadStep hhdmOffset data root source machine load next) {virt : U64}
    (lower : slot4 virt ∈ NewPagemap.lowerHalf) :
    mappedByte hhdmOffset next.memory root virt =
      if load.page = pageNumber virt then some (load.byte source data virt)
      else mappedByte hhdmOffset machine.memory root virt := by
  obtain ⟨start, frame, created, backed, filled⟩ := step
  unfold mappedByte
  rw [backed.mapped.leaf virt lower]
  by_cases here : pageNumber virt = pageNumber load.addr
  · have atPlace : load.page = pageNumber virt := here.symm
    have content := filled (virt &&& 0xfff#64).toNat (pageOffset_lt virt)
    rw [BitVec.ofNat_toNat, BitVec.setWidth_eq] at content
    rw [if_pos here, if_pos atPlace]
    dsimp only
    rw [load.header.entryFlags.target, if_pos (load.header.entryFlags.entryPresent _), content]
    rfl
  · have elsewhere : ¬load.page = pageNumber virt := fun same => here same.symm
    rw [if_neg here, if_neg elsewhere]
    dsimp only
    split_ifs with present
    · have inFrame : (pageFormat.target ((leafEntry hhdmOffset machine.memory root virt).getD
          0#64)).Holds hhdmOffset ((pageFormat.target ((leafEntry hhdmOffset machine.memory root
            virt).getD 0#64)).pointer hhdmOffset + (virt &&& 0xfff#64)) := by
        have inside := inRange_offset ((pageFormat.target ((leafEntry hhdmOffset machine.memory root
          virt).getD 0#64)).pointer hhdmOffset) (by have := pageOffset_lt virt; omega)
          (pageOffset_lt virt)
        rw [BitVec.ofNat_toNat, BitVec.setWidth_eq] at inside
        exact inside
      rw [backed.mapped.byte start (loading.quiet virt lower present _ inFrame)]
    · rfl

/-! The last segment that covers a page -/

/-- `virt` lies in the pages that are loaded for the segment. -/
def ElfProgramHeader.Covers (header : ElfProgramHeader) (virt : U64) : Prop :=
  header.vaddrStart ≤ virt ∧ virt < header.vaddrEnd

instance (header : ElfProgramHeader) (virt : U64) : Decidable (header.Covers virt) :=
  inferInstanceAs (Decidable (_ ∧ _))

/-- The last of the segments whose pages cover `virt`. -/
def lastCovering (segments : List ElfProgramHeader) (virt : U64) : Option ElfProgramHeader :=
  segments.reverse.find? fun segment => segment.Covers virt

theorem pageNumber_toNat {virt : U64} (lower : virt.toNat < 2 ^ 47) :
    (pageNumber virt).toNat = virt.toNat / 4096 := by
  simp only [pageNumber, BitVec.extractLsb'_toNat, Nat.shiftRight_eq_div_pow]
  omega

theorem lastAt_pagesFrom (header : ElfProgramHeader) (count : Nat) {addr virt : U64}
    (aligned : 4096 ∣ addr.toNat) (lower : addr.toNat + count * 4096 ≤ 2 ^ 47)
    (virtLower : virt.toNat < 2 ^ 47) :
    lastAt PageLoad.page (pagesFrom header count addr) (pageNumber virt) =
      if addr.toNat ≤ virt.toNat ∧ virt.toNat < addr.toNat + count * 4096 then
        some ⟨header, alignDown virt pageSize⟩
      else none := by
  induction count generalizing addr with
  | zero =>
      have empty : ¬(addr.toNat ≤ virt.toNat ∧ virt.toNat < addr.toNat + 0 * 4096) := by omega
      rw [if_neg empty]
      rfl
  | succ count inductionHypothesis =>
      have advance : (addr + pageSize).toNat = addr.toNat + 4096 := by
        unfold pageSize
        bv_omega
      have further : pagesFrom header (count + 1) addr =
          [⟨header, addr⟩] ++ pagesFrom header count (addr + pageSize) := rfl
      have here : (PageLoad.mk header addr).page = pageNumber virt ↔
          addr.toNat ≤ virt.toNat ∧ virt.toNat < addr.toNat + 4096 := by
        change pageNumber addr = pageNumber virt ↔ _
        rw [← BitVec.toNat_inj, pageNumber_toNat virtLower, pageNumber_toNat (by omega)]
        omega
      rw [further, lastAt_append, lastAt_singleton,
        inductionHypothesis (by omega) (by omega), advance]
      simp only [here]
      by_cases later : addr.toNat + 4096 ≤ virt.toNat ∧
          virt.toNat < addr.toNat + 4096 + count * 4096
      · have inside : addr.toNat ≤ virt.toNat ∧ virt.toNat < addr.toNat + (count + 1) * 4096 := by
          omega
        rw [if_pos later, if_pos inside]
        rfl
      · rw [if_neg later, Option.none_or]
        by_cases first : addr.toNat ≤ virt.toNat ∧ virt.toNat < addr.toNat + 4096
        · have inside : addr.toNat ≤ virt.toNat ∧
              virt.toNat < addr.toNat + (count + 1) * 4096 := by omega
          have rounded : addr = alignDown virt pageSize := by
            apply BitVec.eq_of_toNat_eq
            rw [alignDown_toNat]
            omega
          rw [if_pos first, if_pos inside, ← rounded]
        · have outside : ¬(addr.toNat ≤ virt.toNat ∧
              virt.toNat < addr.toNat + (count + 1) * 4096) := by omega
          rw [if_neg first, if_neg outside]

theorem lastAt_pages {header : ElfProgramHeader} (lower : header.InLowerHalf) {virt : U64}
    (virtLower : virt.toNat < 2 ^ 47) :
    lastAt PageLoad.page header.pages (pageNumber virt) =
      if header.Covers virt then some ⟨header, alignDown virt pageSize⟩ else none := by
  have first := header.vaddrStart_toNat
  have last := header.vaddrEnd_toNat lower
  unfold ElfProgramHeader.InLowerHalf at lower
  have extent : header.vaddrStart.toNat + header.pageCount * 4096 = header.vaddrEnd.toNat := by
    unfold ElfProgramHeader.pageCount
    omega
  rw [ElfProgramHeader.pages, lastAt_pagesFrom header _ (by omega) (by omega) virtLower, extent]
  rfl

/-- The last load of a page is for the last segment that covers it. -/
theorem lastAt_flatMap_pages (segments : List ElfProgramHeader)
    (lower : ∀ segment ∈ segments, segment.InLowerHalf) {virt : U64}
    (virtLower : virt.toNat < 2 ^ 47) :
    lastAt PageLoad.page (segments.flatMap ElfProgramHeader.pages) (pageNumber virt) =
      (lastCovering segments virt).map fun segment => ⟨segment, alignDown virt pageSize⟩ := by
  induction segments using List.reverseRecOn with
  | nil => rfl
  | append_singleton segments segment inductionHypothesis =>
      have earlier : ∀ other ∈ segments, other.InLowerHalf :=
        fun other membership => lower other (List.mem_append_left _ membership)
      have covering : lastCovering (segments ++ [segment]) virt =
          if segment.Covers virt then some segment else lastCovering segments virt := by
        by_cases covers : segment.Covers virt <;> simp [lastCovering, covers]
      rw [List.flatMap_append, List.flatMap_singleton, lastAt_append,
        lastAt_pages (lower segment (by simp)) virtLower, inductionHypothesis earlier, covering]
      split <;> rfl

theorem alignDown_add_offset (virt : U64) : alignDown virt pageSize + (virt &&& 0xfff#64) = virt := by
  have low : (virt &&& 0xfff#64).toNat = virt.toNat % 4096 := by
    rw [BitVec.toNat_and]
    exact Nat.and_two_pow_sub_one_eq_mod virt.toNat 12
  have high := alignDown_toNat virt
  have bound := virt.isLt
  apply BitVec.eq_of_toNat_eq
  rw [BitVec.toNat_add, low, high]
  omega

/-- After loading some segments into clear lower-half tables, a covered address
has the byte of the last segment that covers it. -/
theorem Loading.readVirt (segments : List ElfProgramHeader)
    (lower : ∀ segment ∈ segments, segment.InLowerHalf)
    (loading : Loading hhdmOffset root source data size machine)
    (run : Run (LoadStep hhdmOffset data root source) machine
      (segments.flatMap ElfProgramHeader.pages) finish)
    {virt : U64} (virtLower : virt.toNat < 2 ^ 47) {segment : ElfProgramHeader}
    (last : lastCovering segments virt = some segment) :
    readVirt hhdmOffset finish.memory (root.pointer hhdmOffset) virt =
      segment.loadedByte source data (virt - segment.vaddrStart) := by
  have observed := run.lastAt (Loading hhdmOffset root source data size) loading
    (fun _ _ _ loading step => loading.step step) PageLoad.page
    (fun load => some (load.byte source data virt)) (pageNumber virt)
    (fun state => mappedByte hhdmOffset state.memory root virt)
    (fun _ _ _ loading step => loading.mappedByte_step step (slot4_lowerHalf virtLower))
  rw [lastAt_flatMap_pages segments lower virtLower, last] at observed
  have distance : alignDown virt pageSize - segment.vaddrStart + (virt &&& 0xfff#64) =
      virt - segment.vaddrStart := by
    have whole := alignDown_add_offset virt
    generalize alignDown virt pageSize = base at whole
    generalize virt &&& 0xfff#64 = offset at whole
    rw [← whole]
    bv_omega
  apply readVirt_of_mappedByte
  rw [observed]
  simp only [Option.map_some, Option.getD_some, PageLoad.byte, distance]

/-- The byte the image has at a distance from the segment's address. -/
def ElfProgramHeader.imageByte (source : Memory) (data : U64) (header : ElfProgramHeader)
    (j : U64) : U8 :=
  if j < header.pFilesz then source (data + (header.pOffset + j)) else 0#8

/-- A fresh pagemap beside a file that lies in no free frame. -/
theorem NewPagemap.loading {kernel pagemap : Frame} {before : Machine}
    (made : NewPagemap hhdmOffset kernel before pagemap machine) (usable : before.stack.Usable)
    (apart : ∀ address, InRange data size address → ∀ frame : Frame,
      frame.address ∈ before.free → ¬frame.Holds hhdmOffset address) :
    Loading hhdmOffset pagemap machine.memory data size machine := by
  have cleared : ∀ index ∈ NewPagemap.lowerHalf,
      tables hhdmOffset machine.memory pagemap index = 0#64 := by
    intro index lower
    rw [made.entries, if_neg (Nat.not_le.mpr lower)]
  refine ⟨⟨made.usable, .of_cleared cleared (made.notFree usable), ?_, fun _ _ => rfl⟩, ?_⟩
  · intro address inside
    constructor
    · intro frame free
      apply apart address inside
      rw [made.free]
      exact List.mem_append_left _ free
    · intro path membership table reached
      rw [(reached_of_cleared cleared membership reached).2]
      apply apart address inside
      rw [made.free]
      simp
  · intro virt lower present
    rw [leafEntry_of_cleared (cleared _ lower)] at present
    cases present

/-- The address of a segment's byte. -/
theorem ElfProgramHeader.covers_address {header : ElfProgramHeader} (lower : header.InLowerHalf)
    {j : U64} (inside : j < header.pMemsz) :
    (header.pVaddr + j).toNat < 2 ^ 47 ∧ header.Covers (header.pVaddr + j) := by
  have first := header.vaddrStart_toNat
  have last := ElfProgramHeader.vaddrEnd_toNat lower
  unfold InLowerHalf at lower
  have position : (header.pVaddr + j).toNat = header.pVaddr.toNat + j.toNat := by bv_omega
  refine ⟨by bv_omega, ?_, by bv_omega⟩
  rw [BitVec.le_def]
  omega

/-- A load returns the entry point, and every byte of a segment has the content of
the last segment that covers its page. -/
theorem NewPagemap.elfLoad_readVirt {kernel pagemap : Frame} {before : Machine}
    (made : NewPagemap hhdmOffset kernel before pagemap machine) (usable : before.stack.Usable)
    (file : ElfFile machine.memory data size)
    (apart : ∀ address, InRange data size address → ∀ frame : Frame,
      frame.address ∈ before.free → ¬frame.Holds hhdmOffset address)
    (supplied : ∀ visit ∈ elfVisits hhdmOffset machine data (pagemap.pointer hhdmOffset),
      visit.Supplied hhdmOffset (pagemap.pointer hhdmOffset)) :
    let result := elfLoad hhdmOffset machine data (pagemap.pointer hhdmOffset)
    let segments := loadSegments machine.memory data
    result.1 = (readElfHeader machine.memory data).eEntry ∧
      ∀ segment ∈ segments, ∀ j < segment.pMemsz, ∃ last,
        lastCovering segments (segment.pVaddr + j) = some last ∧
        readVirt hhdmOffset result.2.memory (pagemap.pointer hhdmOffset) (segment.pVaddr + j) =
          last.loadedByte machine.memory data (segment.pVaddr + j - last.vaddrStart) := by
  intro result segments
  have loading := made.loading usable apart
  obtain ⟨finish, loaded, run⟩ := elfLoad_image loading.resident file supplied
  have isResult : result = ((readElfHeader machine.memory data).eEntry, finish) := loaded
  rw [isResult]
  refine ⟨rfl, ?_⟩
  intro segment membership j inside
  obtain ⟨below, covers⟩ := ElfProgramHeader.covers_address (file.lower segment membership) inside
  have found : lastCovering segments (segment.pVaddr + j) ≠ none := by
    intro none
    have uncovered := List.find?_eq_none.mp none segment (List.mem_reverse.mpr membership)
    exact uncovered (decide_eq_true covers)
  obtain ⟨last, isLast⟩ := Option.ne_none_iff_exists'.mp found
  exact ⟨last, isLast, loading.readVirt segments file.lower run below isLast⟩

/-- Every byte of a segment gets the right content from the last segment that
covers its page. -/
def Faithful (source : Memory) (data : U64) (segments : List ElfProgramHeader) : Prop :=
  ∀ segment ∈ segments, ∀ j < segment.pMemsz, ∀ last ∈ lastCovering segments (segment.pVaddr + j),
    last.loadedByte source data (segment.pVaddr + j - last.vaddrStart) =
      segment.imageByte source data j

/-- Segments that start at a page and share no page are loaded faithfully. -/
theorem faithful_of_aligned {segments : List ElfProgramHeader}
    (lower : ∀ segment ∈ segments, segment.InLowerHalf)
    (aligned : ∀ segment ∈ segments, segment.vaddrStart = segment.pVaddr)
    (separate : ∀ segment ∈ segments, ∀ other ∈ segments, ∀ virt,
      segment.Covers virt → other.Covers virt → segment = other) :
    Faithful source data segments := by
  intro segment membership j inside last isLast
  have covers := (ElfProgramHeader.covers_address (lower segment membership) inside).2
  have isCovering := List.find?_some isLast
  have listed := List.mem_reverse.mp (List.mem_of_find?_eq_some isLast)
  have same := separate last listed segment membership _ (of_decide_eq_true isCovering) covers
  have distance : segment.pVaddr + j - segment.vaddrStart = j := by
    rw [aligned segment membership]
    bv_omega
  rw [same, distance]
  rfl

/-- A load leaves in memory what the image says exactly where, for every byte of a
segment, the last segment that covers its page has the right byte at the distance
from its own rounded-down start. -/
theorem elfLoad_image_iff {hhdmOffset pagemap data : U64} {before machine : Machine}
    {kernel : Frame} {size : Nat} (usable : before.stack.Usable) (available : before.free ≠ [])
    (kernelTaken : kernel.address ∉ before.free)
    (created : vmmNewPagemap hhdmOffset (kernel.pointer hhdmOffset) before = (pagemap, machine))
    (nonnull : pagemap ≠ 0#64) (file : ElfFile machine.memory data size)
    (apart : ∀ address, InRange data size address → ∀ frame : Frame,
      frame.address ∈ before.free → ¬frame.Holds hhdmOffset address)
    (supplied : ∀ visit ∈ elfVisits hhdmOffset machine data pagemap,
      visit.Supplied hhdmOffset pagemap) :
    let result := elfLoad hhdmOffset machine data pagemap
    let segments := loadSegments machine.memory data
    result.1 = (readElfHeader machine.memory data).eEntry ∧
      ((∀ segment ∈ segments, ∀ j < segment.pMemsz,
          readVirt hhdmOffset result.2.memory pagemap (segment.pVaddr + j) =
            segment.imageByte machine.memory data j) ↔
        Faithful machine.memory data segments) := by
  intro result segments
  obtain ⟨fresh, rfl, made⟩ := vmmNewPagemap_made usable available kernelTaken created nonnull
  obtain ⟨entry, read⟩ := made.elfLoad_readVirt usable file apart supplied
  refine ⟨entry, ?_⟩
  constructor
  · intro right segment membership j inside last isLast
    obtain ⟨covering, isCovering, byte⟩ := read segment membership j inside
    obtain rfl := Option.some.inj (isCovering.symm.trans isLast)
    rw [← byte]
    exact right segment membership j inside
  · intro faithful segment membership j inside
    obtain ⟨covering, isCovering, byte⟩ := read segment membership j inside
    rw [byte]
    exact faithful segment membership j inside covering isCovering

/-- The sample file at 0x400010 can be loaded into a fresh pagemap. -/
theorem sample_loadable {pagemap : Frame}
    (made : NewPagemap 0#64 1#40 (Machine.holding (sampleFile 0x400010#64) sampleAddress 9)
      pagemap machine) :
    ElfFile machine.memory sampleAddress 120 ∧
      (readElfHeader machine.memory sampleAddress).eEntry = 0x400010#64 ∧
      loadSegments machine.memory sampleAddress = [sampleHeader 0x400010#64] ∧
      (∀ address, InRange sampleAddress 120 address → ∀ frame : Frame,
        frame.address ∈ (Machine.holding (sampleFile 0x400010#64) sampleAddress 9).free →
          ¬frame.Holds 0#64 address) ∧
      ∀ visit ∈ elfVisits 0#64 machine sampleAddress (pagemap.pointer 0#64),
        visit.Supplied 0#64 (pagemap.pointer 0#64) := by
  obtain ⟨usable, space, quiet, -⟩ := sample_kernel 0x400010#64
  obtain ⟨-, same⟩ := made.quiet space quiet
  obtain ⟨visits, supplied, -⟩ := sample_visits made readElfHeader_sample
    readElfProgramHeader_sample (by decide) (by decide)
  have header : readElfHeader machine.memory sampleAddress =
      ⟨elfMagic, 2#8, 0x400010#64, 64#64, 1#16⟩ := by
    rw [(same.part fun _ inside => inside.mono (by decide)).readElfHeader]
    exact readElfHeader_sample
  have programHeader : programHeaderAt machine.memory sampleAddress 0 =
      sampleHeader 0x400010#64 := by
    have inFile : ∀ address, InRange (sampleAddress + 64#64) 56 address →
        InRange sampleAddress 120 address := fun address inside => sample_part (by decide) inside
    rw [programHeaderAt, header]
    change readElfProgramHeader machine.memory (sampleAddress + 64#64) = _
    rw [(same.part inFile).readElfProgramHeader]
    exact readElfProgramHeader_sample
  have segments : loadSegments machine.memory sampleAddress = [sampleHeader 0x400010#64] := by
    rw [loadSegments, header]
    change loadSegmentsAt machine.memory sampleAddress [0] = _
    rw [loadSegmentsAt, List.map_singleton, programHeader]
    rfl
  refine ⟨?_, by rw [header], segments, ?_, ?_⟩
  · refine ⟨by decide, by rw [header], by rw [header], by decide, ?_, ?_, ?_⟩
    · rw [header]
      decide
    · rw [segments]
      intro segment membership
      rw [List.mem_singleton.mp membership]
      change 16 + 8 ≤ 120
      decide
    · rw [segments]
      intro segment membership
      rw [List.mem_singleton.mp membership]
      change 0x400010 + 8 ≤ 2 ^ 47
      decide
  · exact fun address inside frame free => (quiet address inside).notFree frame free
  · rw [visits]
    intro visit membership
    rw [List.mem_singleton.mp membership]
    exact supplied

theorem elfLoad_image_iff_sample :
    ∃ (pagemap : U64) (machine : Machine),
      vmmNewPagemap 0#64 (Frame.pointer 0#64 1#40)
          (Machine.holding (sampleFile 0x400010#64) sampleAddress 9) = (pagemap, machine) ∧
        pagemap ≠ 0#64 ∧ (elfLoad 0#64 machine sampleAddress pagemap).1 = 0x400010#64 := by
  obtain ⟨pagemap, machine, created, nonnull, made⟩ := sample_created 0x400010#64
  obtain ⟨usable, space, -, count⟩ := sample_kernel 0x400010#64
  obtain ⟨file, entry, -, apart, supplied⟩ := sample_loadable made
  have available : (Machine.holding (sampleFile 0x400010#64) sampleAddress 9).free ≠ [] :=
    List.ne_nil_of_length_pos (by omega)
  refine ⟨_, machine, created, nonnull, ?_⟩
  rw [(elfLoad_image_iff usable available (space.apart [] nil_mem_within 1#40 rfl) created
    nonnull file apart supplied).1, entry]

/-- The segment of the sample file starts at offset 16 of its page with a byte 2,
and after the load the address has a 0. -/
theorem elfLoad_image_shifted :
    ¬∀ (hhdmOffset pagemap data : U64) (before machine : Machine) (kernel : Frame) (size : Nat),
      before.stack.Usable → before.free ≠ [] → kernel.address ∉ before.free →
      vmmNewPagemap hhdmOffset (kernel.pointer hhdmOffset) before = (pagemap, machine) →
      pagemap ≠ 0#64 → ElfFile machine.memory data size →
      (∀ segment ∈ loadSegments machine.memory data, segment.pFilesz ≤ segment.pMemsz ∧
        segment.pVaddr % pageSize = segment.pOffset % pageSize) →
      ((loadSegments machine.memory data).Pairwise fun segment other =>
        ∀ virt, InRange segment.pVaddr segment.pMemsz.toNat virt →
          ¬InRange other.pVaddr other.pMemsz.toNat virt) →
      (∀ address, InRange data size address → ∀ frame : Frame,
        frame.address ∈ before.free → ¬frame.Holds hhdmOffset address) →
      (∀ visit ∈ elfVisits hhdmOffset machine data pagemap,
        visit.Supplied hhdmOffset pagemap) →
      (elfLoad hhdmOffset machine data pagemap).1 = (readElfHeader machine.memory data).eEntry ∧
        ∀ segment ∈ loadSegments machine.memory data, ∀ j < segment.pMemsz,
          readVirt hhdmOffset (elfLoad hhdmOffset machine data pagemap).2.memory pagemap
            (segment.pVaddr + j) = segment.imageByte machine.memory data j := by
  intro claim
  obtain ⟨pagemap, machine, created, nonnull, made⟩ := sample_created 0x400010#64
  obtain ⟨usable, space, quiet, count⟩ := sample_kernel 0x400010#64
  obtain ⟨file, -, segments, apart, supplied⟩ := sample_loadable made
  have available : (Machine.holding (sampleFile 0x400010#64) sampleAddress 9).free ≠ [] :=
    List.ne_nil_of_length_pos (by omega)
  have right := (claim 0#64 _ sampleAddress _ machine 1#40 120 usable available
    (space.apart [] nil_mem_within 1#40 rfl) created nonnull file (by rw [segments]; decide)
    (by rw [segments]; exact List.pairwise_singleton _ _) apart supplied).2
  have read := (made.elfLoad_readVirt usable file apart supplied).2
  rw [segments] at right read
  obtain ⟨last, isLast, byte⟩ := read _ List.mem_cons_self 0#64 (by decide)
  have isSample : last = sampleHeader 0x400010#64 :=
    List.mem_singleton.mp (List.mem_reverse.mp (List.mem_of_find?_eq_some isLast))
  have loaded : last.loadedByte machine.memory sampleAddress
      ((sampleHeader 0x400010#64).pVaddr + 0#64 - last.vaddrStart) = 0#8 := by
    rw [isSample]
    rfl
  have wanted : (sampleHeader 0x400010#64).imageByte machine.memory sampleAddress 0#64 = 2#8 := by
    change machine.memory (sampleAddress + 16#64) = 2#8
    rw [(made.quiet space quiet).2 (sampleAddress + 16#64) (by decide)]
    decide +kernel
  have conflict := right _ List.mem_cons_self 0#64 (by decide)
  rw [byte, loaded, wanted] at conflict
  exact absurd conflict (by decide)

end Nekonix
