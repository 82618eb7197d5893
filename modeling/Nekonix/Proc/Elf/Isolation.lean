import Nekonix.Proc.Elf.Reading

/-!
# A load and the kernel's address space

The upper half of a fresh pagemap shares the kernel's tables.  A load changes
the kernel's address space exactly through the pages it puts there.
-/

namespace Nekonix

open FlatMemory RadixTable Transition

variable {hhdmOffset : U64} {before machine finish : Machine} {kernel pagemap : Frame}
  {data : U64}

/-- Both states translate every address alike, through leaves with the same flags. -/
def SameTranslations (hhdmOffset : U64) (kernel : Frame) (memory other : Memory) : Prop :=
  ∀ virt, virtToPhys hhdmOffset other (kernel.pointer hhdmOffset) virt =
      virtToPhys hhdmOffset memory (kernel.pointer hhdmOffset) virt ∧
    (leafEntry hhdmOffset other kernel virt).getD 0#64 =
      (leafEntry hhdmOffset memory kernel virt).getD 0#64

theorem NewPagemap.shares_iff (made : NewPagemap hhdmOffset kernel before pagemap machine)
    (space : AddressSpace hhdmOffset before kernel Set.univ) (virt : U64) :
    SharesTables hhdmOffset machine.memory kernel virt ↔
      SharesTables hhdmOffset before.memory kernel virt := by
  unfold SharesTables
  rw [(made.sameTables space).tables_eq nil_mem_within rfl]

/-- The kernel's translations survive mappings in a fresh pagemap exactly where
the last mapping of each shared page repeats the leaf the page had. -/
theorem NewPagemap.sameTranslations_iff
    (made : NewPagemap hhdmOffset kernel before pagemap machine)
    (space : AddressSpace hhdmOffset before kernel Set.univ) {mappings : List Mapping}
    (run : MapRun hhdmOffset pagemap Set.univ machine mappings finish) :
    SameTranslations hhdmOffset kernel machine.memory finish.memory ↔
      ∀ virt, SharesTables hhdmOffset machine.memory kernel virt →
        ∀ call ∈ lastAt MapCall.page (mappings.map Mapping.call) (pageNumber virt),
          (leafEntry hhdmOffset machine.memory kernel virt).getD 0#64 = call.entry := by
  have leaf : ∀ virt, (leafEntry hhdmOffset finish.memory kernel virt).getD 0#64 =
      if SharesTables hhdmOffset machine.memory kernel virt then
        ((lastAt MapCall.page (mappings.map Mapping.call) (pageNumber virt)).map
          MapCall.entry).getD ((leafEntry hhdmOffset machine.memory kernel virt).getD 0#64)
      else (leafEntry hhdmOffset machine.memory kernel virt).getD 0#64 := by
    intro virt
    rw [made.kernelLeaf space run, (made.sameTables space).leafEntry (Set.mem_univ _)]
    simp only [made.shares_iff space]
  constructor
  · intro same virt shares call last
    have leafSame := (same virt).2
    rw [leaf, if_pos shares, Option.mem_def.mp last] at leafSame
    exact leafSame.symm
  · intro repeated virt
    have leafSame : (leafEntry hhdmOffset finish.memory kernel virt).getD 0#64 =
        (leafEntry hhdmOffset machine.memory kernel virt).getD 0#64 := by
      rw [leaf]
      split_ifs with shares
      · cases last : lastAt MapCall.page (mappings.map Mapping.call) (pageNumber virt) with
        | none => rfl
        | some call => exact (repeated virt shares call last).symm
      · rfl
    refine ⟨?_, leafSame⟩
    rw [virtToPhys_eq, virtToPhys_eq, leafSame]

/-- A load into a fresh pagemap keeps the kernel's translations exactly where it
maps no page in the tables that the pagemap shares with the kernel's, or maps it
to the frame and with the flags that it has already. -/
theorem elfLoad_sameTranslations_iff {hhdmOffset pagemap : U64} {before machine : Machine}
    {kernel : Frame} (usable : before.stack.Usable)
    (space : AddressSpace hhdmOffset before kernel Set.univ) (available : before.free ≠ [])
    (created : vmmNewPagemap hhdmOffset (kernel.pointer hhdmOffset) before = (pagemap, machine))
    (nonnull : pagemap ≠ 0#64) (data : U64)
    (enough : ∀ visit ∈ elfVisits hhdmOffset machine data pagemap,
      visit.Enough hhdmOffset pagemap) :
    SameTranslations hhdmOffset kernel machine.memory
        (elfLoad hhdmOffset machine data pagemap).2.memory ↔
      ∀ virt, SharesTables hhdmOffset machine.memory kernel virt →
        ∀ call ∈ lastAt MapCall.page
            ((backedVisits (elfVisits hhdmOffset machine data pagemap)).map
              (PageVisit.call hhdmOffset)) (pageNumber virt),
          (leafEntry hhdmOffset machine.memory kernel virt).getD 0#64 = call.entry := by
  have kernelTaken : kernel.address ∉ before.free := space.apart [] nil_mem_within kernel rfl
  obtain ⟨fresh, rfl, made⟩ := vmmNewPagemap_made usable available kernelTaken created nonnull
  obtain ⟨mappings, pages⟩ := elfLoad_run data made.usable (made.space usable space)
    fun visit membership => ⟨enough visit membership, Set.mem_univ _⟩
  rw [made.sameTranslations_iff space pages.run, pages.calls]

theorem elfLoad_sameTranslations_iff_sample :
    ∃ (pagemap : U64) (machine : Machine),
      vmmNewPagemap 0#64 (Frame.pointer 0#64 1#40)
          (Machine.holding (sampleFile 0x400010#64) sampleAddress 9) = (pagemap, machine) ∧
        pagemap ≠ 0#64 ∧
        SameTranslations 0#64 1#40 machine.memory
          (elfLoad 0#64 machine sampleAddress pagemap).2.memory := by
  obtain ⟨pagemap, machine, created, nonnull, made⟩ := sample_created 0x400010#64
  obtain ⟨usable, space, -, count⟩ := sample_kernel 0x400010#64
  obtain ⟨visits, supplied, -⟩ := sample_visits made readElfHeader_sample
    readElfProgramHeader_sample (by decide) (by decide)
  refine ⟨_, machine, created, nonnull, ?_⟩
  refine (elfLoad_sameTranslations_iff usable space (List.ne_nil_of_length_pos (by omega)) created
    nonnull sampleAddress ?_).mpr ?_
  · rw [visits]
    intro visit membership
    rw [List.mem_singleton.mp membership]
    exact Or.inr supplied
  · intro virt shares
    have absent := ((made.shares_iff space virt).mp shares).2
    have short : (sampleFile 0x400010#64).length < 2 ^ 20 := by
      rw [sampleFile_length]
      decide
    have cleared : tables 0#64 (Machine.holding (sampleFile 0x400010#64) sampleAddress 9).memory
        1#40 (slot4 virt) = 0#64 := Machine.tables_holding (by decide) rfl short _
    rw [cleared] at absent
    cases absent

/-! A kernel with a page in its upper half -/

/-- The kernel maps one page of its upper half, to frame 1. -/
def upperKernel : MapCall where
  virt := 0xffff800000000000#64
  phys := 0x1000#64
  flags := vmmPresent

/-- A segment in the kernel's page takes the page over. -/
theorem elfLoad_takes_kernel_page :
    ¬∀ (hhdmOffset pagemap data : U64) (before machine : Machine) (kernel : Frame),
      before.stack.Usable → AddressSpace hhdmOffset before kernel Set.univ → before.free ≠ [] →
      vmmNewPagemap hhdmOffset (kernel.pointer hhdmOffset) before = (pagemap, machine) →
      pagemap ≠ 0#64 →
      SameTranslations hhdmOffset kernel machine.memory
        (elfLoad hhdmOffset machine data pagemap).2.memory := by
  intro claim
  obtain ⟨usable, kernelSpace, quiet, count⟩ := sample_kernel 0xffff800000000010#64
  have valid : EntryFlags upperKernel.flags := ⟨rfl, rfl⟩
  obtain ⟨taken, step, spent⟩ := MapStep.of_supply usable kernelSpace valid (by omega)
  generalize upperKernel.apply 0#64 (Frame.pointer 0#64 1#40)
    (Machine.holding (sampleFile 0xffff800000000010#64) sampleAddress 9) = before at step spent
  obtain ⟨stillQuiet, same⟩ := quiet.step step
  have space := step.2.space
  have available : before.free ≠ [] := List.ne_nil_of_length_pos (by omega)
  have kernelTaken : Frame.address 1#40 ∉ before.free := space.apart [] nil_mem_within 1#40 rfl
  obtain ⟨pagemap, machine, created, nonnull, made⟩ :=
    vmmNewPagemap_identity step.2.usable available kernelTaken
  have headerPart : ∀ address, InRange sampleAddress 64 address →
      InRange sampleAddress 120 address :=
    fun address inside => inside.mono (by decide)
  have programHeaderPart : ∀ address, InRange (sampleAddress + 64#64) 56 address →
      InRange sampleAddress 120 address := fun address inside => sample_part (by decide) inside
  have header := (same.part headerPart).readElfHeader.trans readElfHeader_upperSample
  have programHeader :=
    (same.part programHeaderPart).readElfProgramHeader.trans readElfProgramHeader_upperSample
  obtain ⟨visits, supplied, -⟩ := made.elfVisits_single step.2.usable space stillQuiet headerPart
    programHeaderPart header programHeader rfl (by decide) (by decide) (by omega)
  have supply : VisitsAllowed 0#64 pagemap Set.univ
      (elfVisits 0#64 machine sampleAddress (pagemap.pointer 0#64)) := by
    rw [visits]
    intro visit membership
    rw [List.mem_singleton.mp membership]
    exact ⟨Or.inr supplied, Set.mem_univ _⟩
  obtain ⟨mappings, pages⟩ := elfLoad_run sampleAddress made.usable
    (made.space step.2.usable space) supply
  have oldLeaf : leafEntry 0#64 machine.memory 1#40 upperKernel.virt = some upperKernel.entry := by
    rw [(made.sameTables space).leafEntry (Set.mem_univ _)]
    exact step.2.leafSet
  have nonempty : machine.free ≠ [] := List.ne_nil_of_length_pos (by omega)
  have last : lastAt MapCall.page (mappings.map Mapping.call) (pageNumber upperKernel.virt) =
      some (PageVisit.call 0#64 ⟨machine, (sampleHeader 0xffff800000000010#64).vaddrStart,
        sampleHeader 0xffff800000000010#64⟩) := by
    rw [pages.calls, visits]
    simp only [backedVisits, nonempty, ne_eq, not_false_eq_true, decide_true,
      List.filter_cons_of_pos, List.filter_nil, List.map_cons, List.map_nil, lastAt_singleton]
    exact if_pos rfl
  have taken := (made.sameTranslations_iff space pages.run).mp
    (claim 0#64 _ sampleAddress before machine 1#40 step.2.usable space available created nonnull)
    upperKernel.virt (sharesTables_of_leafEntry (by decide) oldLeaf) _ last
  -- The frame that the page now has was free, the one it had was not.
  have requested := pmmRequestPage_spec 0#64 nonempty
  obtain ⟨frame, nonzero, isFrame, -⟩ := requested.frame made.usable
  have wasFree : frame.address ∈ before.free := by
    rw [made.free, requested.free, isFrame]
    simp
  have entry : upperKernel.entry = frame.address ||| (sampleHeader 0xffff800000000010#64).flags := by
    rw [oldLeaf, Option.getD_some] at taken
    rw [taken, ← isFrame, MapCall.entry, PageVisit.call]
  have sameFrame := congrArg pageFormat.target entry
  rw [(sampleHeader 0xffff800000000010#64).entryFlags.target] at sameFrame
  apply kernelTaken
  rw [← sameFrame] at wasFree
  exact wasFree

end Nekonix
