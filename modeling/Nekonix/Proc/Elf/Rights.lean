import Nekonix.Mm.Vmm.Cleared
import Nekonix.Mm.Vmm.Rights
import Nekonix.Proc.Elf.Loading

/-!
# The rights of loaded pages

A load is a run of mappings, so its pages have the rights of their segments
exactly where the segments that made the upper entries allow them.
-/

namespace Nekonix

open FlatMemory RadixTable Transition

variable {hhdmOffset data pagemap ph addr virt : U64} {machine : Machine}
  {header : ElfProgramHeader} {visit : PageVisit}

/-! Every visit is for a page of a `PT_LOAD` segment -/

/-- The visit is for a page between the rounded ends of a `PT_LOAD` segment. -/
structure PageVisit.InSegment (visit : PageVisit) : Prop where
  load : visit.header.pType = ptLoad
  before : visit.addr < visit.header.vaddrEnd

theorem elfPageVisits_inSegment (load : header.pType = ptLoad) (fuel : Nat)
    (membership : visit ∈ elfPageVisits hhdmOffset data pagemap ph header fuel machine addr) :
    visit.InSegment := by
  induction fuel generalizing machine addr with
  | zero => cases membership
  | succ fuel inductionHypothesis =>
      unfold elfPageVisits at membership
      by_cases inside : addr < header.vaddrEnd
      · simp only [if_pos inside] at membership
        rcases List.mem_cons.mp membership with rfl | later
        · exact ⟨load, inside⟩
        · split at later
          · exact inductionHypothesis later
          · cases later
      · simp only [if_neg inside] at membership
        cases membership

theorem elfSegmentsVisits_inSegment (fuel : Nat) {i : U16}
    (membership : visit ∈ elfSegmentsVisits hhdmOffset data pagemap ph fuel machine i) :
    visit.InSegment := by
  induction fuel generalizing machine i with
  | zero => cases membership
  | succ fuel inductionHypothesis =>
      unfold elfSegmentsVisits at membership
      by_cases further : i < (readElfHeader machine.memory data).ePhnum
      · simp only [if_pos further] at membership
        rcases List.mem_append.mp membership with here | later
        · unfold elfSegmentVisits at here
          dsimp only at here
          split at here
          · cases here
          · next load => exact elfPageVisits_inSegment (not_not.mp load) _ here
        · split at later
          · exact inductionHypothesis later
          · cases later
      · simp only [if_neg further] at membership
        cases membership

theorem elfVisits_inSegment (membership : visit ∈ elfVisits hhdmOffset machine data pagemap) :
    visit.InSegment := by
  unfold elfVisits at membership
  dsimp only at membership
  split at membership
  · cases membership
  · split at membership
    · cases membership
    · exact elfSegmentsVisits_inSegment _ membership

/-! The rights of a segment -/

/-- Writable iff the segment has `PF_W`, and executable iff it has `PF_X`. -/
def ElfProgramHeader.Granted (header : ElfProgramHeader) (rights : Rights) : Prop :=
  (rights.writable = true ↔ header.pFlags &&& pfW ≠ 0#32) ∧
    (rights.noExecute = false ↔ header.pFlags &&& pfX ≠ 0#32)

theorem ElfProgramHeader.entryRights_flags (header : ElfProgramHeader) :
    entryRights header.flags =
      ⟨decide (header.pFlags &&& pfW ≠ 0#32), decide (header.pFlags &&& pfX = 0#32), false⟩ := by
  unfold flags
  by_cases writable : header.pFlags &&& pfW = 0#32 <;>
    by_cases denied : header.pFlags &&& pfX = 0#32 <;> simp [writable, denied] <;> rfl

/-- Narrowed rights are as granted where the narrower allows the segment's rights. -/
theorem ElfProgramHeader.granted_iff (header : ElfProgramHeader) (upper : Rights) :
    header.Granted (upper.narrow (entryRights header.flags)) ↔
      upper.Allows (entryRights header.flags) := by
  rw [← Rights.narrow_eq_iff, header.entryRights_flags]
  unfold Granted Rights.narrow
  by_cases writable : header.pFlags &&& pfW = 0#32 <;>
    by_cases denied : header.pFlags &&& pfX = 0#32 <;> simp [writable, denied]

/-- The page a visit is for. -/
def PageVisit.page (visit : PageVisit) : BitVec 36 := pageNumber visit.addr

/-- A mapped page has the rights of its last mapping exactly where each upper entry
of its walk, as it was at the start or as the first mapping through it made it,
allows them; a loaded page has the rights of its segment exactly there too. -/
theorem effectiveRights_last_mapping_iff {hhdmOffset : U64} {root : Frame} {start : Machine}
    (usable : start.stack.Usable) (space : AddressSpace hhdmOffset start root Set.univ) :
    (∀ (calls : List MapCall) (finish : Machine),
      Run (guarded (MapCall.apply hhdmOffset (root.pointer hhdmOffset))
        (MapCall.Allowed hhdmOffset (root.pointer hhdmOffset))) start calls finish →
      ∀ virt, ∀ call ∈ lastAt MapCall.page calls (pageNumber virt),
        effectiveRights hhdmOffset finish.memory (root.pointer hhdmOffset) virt =
            entryRights call.flags ↔
          ∀ step ∈ upperSteps virt, ∀ flags ∈ upperFlags hhdmOffset start.memory root calls step,
            (entryRights flags).Allows (entryRights call.flags)) ∧
    ∀ data : U64,
      let visits := elfVisits hhdmOffset start data (root.pointer hhdmOffset)
      (∀ visit ∈ visits, visit.Enough hhdmOffset (root.pointer hhdmOffset)) →
      ∀ virt, ∀ visit ∈ lastAt PageVisit.page (backedVisits visits) (pageNumber virt),
        visit.InSegment ∧
          (visit.header.Granted (effectiveRights hhdmOffset
              (elfLoad hhdmOffset start data (root.pointer hhdmOffset)).2.memory
              (root.pointer hhdmOffset) virt) ↔
            ∀ step ∈ upperSteps virt, ∀ flags ∈ upperFlags hhdmOffset start.memory root
              ((backedVisits visits).map (PageVisit.call hhdmOffset)) step,
                (entryRights flags).Allows (entryRights visit.header.flags)) := by
  constructor
  · intro calls finish run virt call last
    obtain ⟨mappings, rfl, mapRun⟩ := MapRun.of_calls usable space run
    have carries : Carries call.flags call.entry := by
      have aligned := run.all (fun call => call.phys &&& entryMask = call.phys)
        (fun _ _ _ step => step.1.aligned) call (lastAt_some last).1
      exact carries_of_aligned aligned call.flags
    obtain ⟨upper, rights, allows⟩ := mapRun.effectiveRights last carries
    rw [rights, Rights.narrow_eq_iff, allows]
  · intro data visits enough virt visit last
    obtain ⟨mappings, pages⟩ := elfLoad_run data usable space
      fun visit membership => ⟨enough visit membership, Set.mem_univ _⟩
    have lastCall : lastAt MapCall.page (mappings.map Mapping.call) (pageNumber virt) =
        some (visit.call hhdmOffset) := by
      rw [pages.calls, lastAt_map]
      exact congrArg (Option.map (PageVisit.call hhdmOffset)) last
    have inVisits : visit ∈ visits := List.mem_of_mem_filter (lastAt_some last).1
    have carries : Carries (visit.call hhdmOffset).flags (visit.call hhdmOffset).entry := by
      obtain ⟨mapping, inRun, isCall⟩ := List.mem_map.mp (lastAt_some lastCall).1
      obtain ⟨frame, -, isFrame⟩ := (pages.backed mapping inRun).2
      rw [isCall] at isFrame
      exact ⟨frame, by rw [MapCall.entry, isFrame]⟩
    obtain ⟨upper, rights, allows⟩ := pages.run.effectiveRights lastCall carries
    refine ⟨elfVisits_inSegment inVisits, ?_⟩
    rw [rights, ← pages.calls, ← allows]
    exact visit.header.granted_iff upper

/-- On a cleared machine an upper entry of the top-level table is the first call's. -/
theorem upperFlags_cleared (count : Nat) (calls : List MapCall) (index : Slot) :
    upperFlags hhdmOffset (Machine.cleared count).memory 1#40 calls ([], index) =
      (firstAlong calls [index]).map MapCall.flags := by
  have unlinked : linkEntry hhdmOffset (Machine.cleared count).memory 1#40 [] index = none := by
    rw [linkEntry, link_of_follow rfl, Machine.tables_cleared]
    rfl
  unfold upperFlags
  rw [unlinked]
  rfl

/-- A page that is neither writable nor executable, and after it a page of the same
table that is both. -/
def readThenWrite : List MapCall :=
  [⟨0x1000#64, 0x7000#64, vmmPresent ||| vmmNx⟩, ⟨0x2000#64, 0x8000#64, vmmPresent ||| vmmWritable⟩]

theorem run_readThenWrite :
    ∃ finish, Run (guarded (MapCall.apply 0#64 (Frame.pointer 0#64 1#40))
      (MapCall.Allowed 0#64 (Frame.pointer 0#64 1#40))) (Machine.cleared 9) readThenWrite
      finish := by
  have count : (Machine.cleared 9).free.length = 9 := by
    rw [Machine.length_free_cleared (by decide)]
  have first : MapCall.Allowed 0#64 (Frame.pointer 0#64 1#40) (Machine.cleared 9)
      ⟨0x1000#64, 0x7000#64, vmmPresent ||| vmmNx⟩ :=
    .of_supply (by decide) ⟨by decide, by decide⟩ (by omega)
  have usable : (Machine.cleared 9).stack.Usable := Machine.usable_cleared (by decide)
  have space : AddressSpace 0#64 (Machine.cleared 9) 1#40 Set.univ :=
    Machine.addressSpace_cleared (by decide)
  obtain ⟨taken, step, spent⟩ := MapStep.of_supply usable space first.flags (by omega)
  exact ⟨_, (Run.single ⟨first, rfl⟩).snoc
    ⟨.of_supply (by decide) ⟨by decide, by decide⟩ (by omega), rfl⟩⟩

theorem effectiveRights_last_mapping_iff_first :
    ∃ finish, Run (guarded (MapCall.apply 0#64 (Frame.pointer 0#64 1#40))
        (MapCall.Allowed 0#64 (Frame.pointer 0#64 1#40))) (Machine.cleared 9) readThenWrite
        finish ∧
      effectiveRights 0#64 finish.memory (Frame.pointer 0#64 1#40) 0x1000#64 =
        ⟨false, true, false⟩ := by
  obtain ⟨finish, run⟩ := run_readThenWrite
  refine ⟨finish, run, ?_⟩
  refine ((effectiveRights_last_mapping_iff (Machine.usable_cleared (by decide))
    (Machine.addressSpace_cleared (by decide))).1 readThenWrite finish run 0x1000#64
      ⟨0x1000#64, 0x7000#64, vmmPresent ||| vmmNx⟩ rfl).mpr ?_
  intro step _ flags _
  refine ⟨?_, ?_, ?_⟩
  · exact fun writable => absurd writable (by decide)
  · exact fun executable => absurd executable (by decide)
  · exact fun user => absurd user (by decide)

/-- The second page of `readThenWrite` is neither writable nor executable. -/
theorem effectiveRights_first_mapping :
    ¬∀ (hhdmOffset : U64) (root : Frame) (start finish : Machine) (calls : List MapCall),
      start.stack.Usable → AddressSpace hhdmOffset start root Set.univ →
      Run (guarded (MapCall.apply hhdmOffset (root.pointer hhdmOffset))
        (MapCall.Allowed hhdmOffset (root.pointer hhdmOffset))) start calls finish →
      ∀ virt, ∀ call ∈ lastAt MapCall.page calls (pageNumber virt),
        effectiveRights hhdmOffset finish.memory (root.pointer hhdmOffset) virt =
          entryRights call.flags := by
  intro claim
  have usable : (Machine.cleared 9).stack.Usable := Machine.usable_cleared (by decide)
  have space : AddressSpace 0#64 (Machine.cleared 9) 1#40 Set.univ :=
    Machine.addressSpace_cleared (by decide)
  obtain ⟨finish, run⟩ := run_readThenWrite
  have claimed := claim 0#64 1#40 _ finish readThenWrite usable space run 0x2000#64
    ⟨0x2000#64, 0x8000#64, vmmPresent ||| vmmWritable⟩ rfl
  obtain ⟨mappings, isCalls, mapRun⟩ := MapRun.of_calls usable space run
  have last : lastAt MapCall.page (mappings.map Mapping.call) (pageNumber 0x2000#64) =
      some ⟨0x2000#64, 0x8000#64, vmmPresent ||| vmmWritable⟩ := by
    rw [isCalls]
    rfl
  obtain ⟨upper, rights, allows⟩ := mapRun.effectiveRights last (carries_of_aligned (by decide) _)
  rw [rights, Rights.narrow_eq_iff, allows, isCalls] at claimed
  have allowed := claimed _ List.mem_cons_self (vmmPresent ||| vmmNx) (
    upperFlags_cleared 9 readThenWrite _)
  exact absurd (allowed.writable rfl) (by decide)

end Nekonix
