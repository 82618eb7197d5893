import Nekonix.Mm.Vmm.MapRun
import Nekonix.Proc.Elf

/-!
# `elf_load` as a run of mappings

Every turn of the page loop that finds a frame backs one page.  So what a load
does to the page tables is what a run of mappings does, whatever the headers
say, as long as `vmm_map` itself finds its frames.
-/

namespace Nekonix

open FlatMemory RadixTable Transition

variable {hhdmOffset data ph : U64} {header : ElfProgramHeader} {machine : Machine} {root : Frame}
  {slots : Set Slot} {addr : U64}

theorem ElfProgramHeader.entryFlags (header : ElfProgramHeader) : EntryFlags header.flags := by
  unfold flags
  split_ifs <;> exact ⟨by decide, by decide⟩

/-- Filling a page writes only its frame. -/
theorem elfFillPage_outside {memory : Memory} {offset vaddrStart phys address : U64}
    (outside : ¬InRange (higherHalf hhdmOffset phys) 4096 address) :
    elfFillPage memory data ph offset vaddrStart addr phys hhdmOffset address = memory address := by
  unfold elfFillPage
  dsimp only
  generalize offset + (addr - vaddrStart) = fileOffset
  generalize offset + (readElfProgramHeader memory ph).pFilesz = fileEnd
  have shorter : ∀ count : Nat, count ≤ 4096 →
      ¬InRange (higherHalf hhdmOffset phys) count address :=
    fun count bound inside => outside (inside.mono bound)
  split_ifs with inFile last
  · have bound : (fileEnd - fileOffset).toNat ≤ 4096 := by
      unfold pageSize at last
      bv_omega
    exact memcpy_outside (by omega) (shorter _ bound)
  · exact memcpy_outside (by decide) (shorter _ (by decide))
  · rw [memset_eq_fill _ _ _ (by decide)]
    exact fill_outside outside

/-- A turn that finds no frame. -/
theorem elfLoadPage_empty {pagemap : U64} (empty : machine.free = []) :
    elfLoadPage hhdmOffset data pagemap ph header machine addr = (false, machine) := by
  simp [elfLoadPage, pmmRequestPage_empty empty]

/-- What a turn of the page loop does: `mapped` is the state before the page is filled. -/
structure PageLoaded (hhdmOffset data ph : U64) (root : Frame) (slots : Set Slot)
    (header : ElfProgramHeader) (addr : U64) (frame : Frame) (created : List Frame)
    (machine mapped next : Machine) : Prop where
  requested : (pmmRequestPage hhdmOffset machine).1 = frame.address
  cleared : ∀ address, frame.Holds hhdmOffset address → mapped.memory address = 0#8
  backed : Backed hhdmOffset root slots addr header.flags frame created machine mapped
  filled : next.memory = elfFillPage mapped.memory data ph header.pOffset header.vaddrStart addr
    frame.address hhdmOffset
  loaded : Backed hhdmOffset root slots addr header.flags frame created machine next

theorem PageLoaded.step {frame : Frame} {created : List Frame} {mapped next : Machine}
    (turn : PageLoaded hhdmOffset data ph root slots header addr frame created machine mapped next)
    (start : slot4 addr ∈ slots) :
    MapStep hhdmOffset root slots machine ⟨⟨addr, frame.address, header.flags⟩, frame :: created⟩
      next :=
  ⟨start, turn.loaded.mapped⟩

/-- A turn that finds its frames. -/
theorem elfLoadPage_spec (data ph : U64) (header : ElfProgramHeader)
    (usable : machine.stack.Usable) (space : AddressSpace hhdmOffset machine root slots)
    (start : slot4 addr ∈ slots)
    (enough : 1 + missingTables hhdmOffset machine.memory (root.pointer hhdmOffset) addr ≤
      machine.free.length) :
    let result := elfLoadPage hhdmOffset data (root.pointer hhdmOffset) ph header machine addr
    result.1 = true ∧ ∃ frame created mapped,
      PageLoaded hhdmOffset data ph root slots header addr frame created machine mapped
        result.2 := by
  intro result
  obtain ⟨frame, created, nonzero, isFrame, cleared, backed⟩ :=
    backPage_spec usable space start header.entryFlags enough
  have nonnull : frame.address ≠ 0#64 := by
    intro null
    apply nonzero
    rw [← Frame.address_inj, null]
    rfl
  have turn : result = (true,
      { vmmMap hhdmOffset (pmmRequestPage hhdmOffset machine).2 (root.pointer hhdmOffset) addr
          frame.address header.flags with
        memory := elfFillPage
          (vmmMap hhdmOffset (pmmRequestPage hhdmOffset machine).2 (root.pointer hhdmOffset) addr
            frame.address header.flags).memory data ph header.pOffset header.vaddrStart addr
          frame.address hhdmOffset }) := by
    simp only [result, elfLoadPage, isFrame, if_neg nonnull]
  rw [turn]
  refine ⟨rfl, frame, created, _, isFrame, cleared, backed _ (fun _ _ => rfl) rfl, rfl,
    backed _ ?_ rfl⟩
  intro address outside
  exact elfFillPage_outside outside

/-- A turn takes four frames at most. -/
theorem elfLoadPage_supply (usable : machine.stack.Usable)
    (space : AddressSpace hhdmOffset machine root Set.univ) (supply : 4 ≤ machine.free.length) :
    machine.free.length ≤
      (elfLoadPage hhdmOffset data (root.pointer hhdmOffset) ph header machine addr).2.free.length +
        4 := by
  have requested := pmmRequestPage_spec hhdmOffset
    (List.ne_nil_of_length_pos (Nat.lt_of_lt_of_le (by decide) supply))
  obtain ⟨frame, -, isFrame, -⟩ := requested.frame usable
  have count : machine.free.length = (pmmRequestPage hhdmOffset machine).2.free.length + 1 := by
    rw [requested.free, List.length_append, List.length_singleton]
  obtain ⟨-, -, spent⟩ := @MapStep.of_supply _ _ _
    ⟨addr, (pmmRequestPage hhdmOffset machine).1, header.flags⟩ (requested.usable usable)
    (requested.space isFrame space) header.entryFlags (by omega)
  unfold elfLoadPage
  dsimp only
  split_ifs
  · dsimp only
    omega
  · rw [count]
    exact Nat.succ_le_succ spent

/-- The page is found to be out of memory at once, or has frames for itself and
the tables it lacks. -/
def PageVisit.Enough (hhdmOffset pagemap : U64) (visit : PageVisit) : Prop :=
  visit.machine.free = [] ∨
    1 + missingTables hhdmOffset visit.machine.memory pagemap visit.addr ≤
      visit.machine.free.length

/-- The visits that get a frame. -/
def backedVisits (visits : List PageVisit) : List PageVisit :=
  visits.filter fun visit => visit.machine.free ≠ []

/-- The mapping a visit makes: of its page, to the frame on top of the stack. -/
def PageVisit.call (hhdmOffset : U64) (visit : PageVisit) : MapCall where
  virt := visit.addr
  phys := (pmmRequestPage hhdmOffset visit.machine).1
  flags := visit.header.flags

/-- The mappings a list of visits amounts to. -/
structure PageRun (hhdmOffset : U64) (root : Frame) (slots : Set Slot) (machine : Machine)
    (visits : List PageVisit) (mappings : List Mapping) (finish : Machine) : Prop where
  run : MapRun hhdmOffset root slots machine mappings finish
  calls : mappings.map Mapping.call = (backedVisits visits).map (PageVisit.call hhdmOffset)
  backed : ∀ mapping ∈ mappings, EntryFlags mapping.call.flags ∧
    ∃ frame ∈ mapping.taken, mapping.call.phys = frame.address
  quiet : ∀ mapping ∈ mappings, ∀ frame : Frame, mapping.call.phys = frame.address →
    ∀ address, frame.Holds hhdmOffset address → Quiet hhdmOffset root slots finish address

theorem PageRun.nil : PageRun hhdmOffset root slots machine [] [] machine :=
  ⟨.nil, rfl, by simp, by simp⟩

theorem PageRun.append {middle finish : Machine} {visits further : List PageVisit}
    {mappings others : List Mapping}
    (first : PageRun hhdmOffset root slots machine visits mappings middle)
    (second : PageRun hhdmOffset root slots middle further others finish) :
    PageRun hhdmOffset root slots machine (visits ++ further) (mappings ++ others) finish := by
  refine ⟨first.run.append second.run, ?_, ?_, ?_⟩
  · simp only [List.map_append, first.calls, second.calls, backedVisits, List.filter_append]
  · intro mapping membership
    rcases List.mem_append.mp membership with inFirst | inSecond
    · exact first.backed mapping inFirst
    · exact second.backed mapping inSecond
  · intro mapping membership frame isFrame address inFrame
    rcases List.mem_append.mp membership with inFirst | inSecond
    · exact MapRun.quiet second.run (first.quiet mapping inFirst frame isFrame address inFrame)
    · exact second.quiet mapping inSecond frame isFrame address inFrame

/-- What the loops need of the visits ahead. -/
def VisitsAllowed (hhdmOffset : U64) (root : Frame) (slots : Set Slot)
    (visits : List PageVisit) : Prop :=
  ∀ visit ∈ visits, visit.Enough hhdmOffset (root.pointer hhdmOffset) ∧ slot4 visit.addr ∈ slots

theorem elfLoadPages_run (fuel : Nat) (usable : machine.stack.Usable)
    (space : AddressSpace hhdmOffset machine root slots)
    (allowed : VisitsAllowed hhdmOffset root slots
      (elfPageVisits hhdmOffset data (root.pointer hhdmOffset) ph header fuel machine addr)) :
    ∃ mappings, PageRun hhdmOffset root slots machine
      (elfPageVisits hhdmOffset data (root.pointer hhdmOffset) ph header fuel machine addr)
      mappings
      (elfLoadPages hhdmOffset data (root.pointer hhdmOffset) ph header fuel machine addr).2 := by
  induction fuel generalizing machine addr with
  | zero => exact ⟨[], .nil⟩
  | succ fuel inductionHypothesis =>
      unfold elfPageVisits at allowed ⊢
      unfold elfLoadPages
      by_cases inside : addr < header.vaddrEnd
      · simp only [if_pos inside] at allowed ⊢
        obtain ⟨enough, start⟩ := allowed _ List.mem_cons_self
        rcases enough with empty | enough
        · rw [elfLoadPage_empty empty]
          refine ⟨[], .nil, ?_, by simp, by simp⟩
          simp [backedVisits, empty]
        · obtain ⟨loaded, frame, created, mapped, turn⟩ :=
            elfLoadPage_spec data ph header usable space start enough
          have step := turn.step start
          have isFrame := turn.requested
          rw [if_pos loaded] at allowed ⊢
          rw [if_pos loaded]
          obtain ⟨mappings, rest⟩ := inductionHypothesis step.2.usable step.2.space
            (fun visit later => allowed visit (List.mem_cons_of_mem _ later))
          have nonempty : machine.free ≠ [] := by
            intro empty
            rw [empty] at enough
            simp at enough
          have here : PageRun hhdmOffset root slots machine [⟨machine, addr, header⟩]
              [⟨⟨addr, frame.address, header.flags⟩, frame :: created⟩]
              (elfLoadPage hhdmOffset data (root.pointer hhdmOffset) ph header machine addr).2 := by
            refine ⟨.single step, by simp [backedVisits, nonempty, PageVisit.call, isFrame], ?_, ?_⟩
            · intro mapping membership
              obtain rfl := List.mem_singleton.mp membership
              exact ⟨header.entryFlags, frame, List.mem_cons_self, rfl⟩
            · intro mapping membership other isOther
              obtain rfl := List.mem_singleton.mp membership
              obtain rfl := Frame.address_inj.mp isOther
              exact turn.loaded.quiet
          exact ⟨_, here.append rest⟩
      · simp only [if_neg inside]
        exact ⟨[], .nil⟩

theorem elfLoadSegment_run (ph : U64) (usable : machine.stack.Usable)
    (space : AddressSpace hhdmOffset machine root slots)
    (allowed : VisitsAllowed hhdmOffset root slots
      (elfSegmentVisits hhdmOffset data (root.pointer hhdmOffset) machine ph)) :
    ∃ mappings, PageRun hhdmOffset root slots machine
      (elfSegmentVisits hhdmOffset data (root.pointer hhdmOffset) machine ph) mappings
      (elfLoadSegment hhdmOffset data (root.pointer hhdmOffset) machine ph).2 := by
  unfold elfSegmentVisits at allowed ⊢
  unfold elfLoadSegment
  dsimp only at allowed ⊢
  split_ifs at allowed ⊢ with skipped
  · exact ⟨[], .nil⟩
  · exact elfLoadPages_run _ usable space allowed

theorem elfLoadSegments_run (ph : U64) (fuel : Nat) (i : U16) (usable : machine.stack.Usable)
    (space : AddressSpace hhdmOffset machine root slots)
    (allowed : VisitsAllowed hhdmOffset root slots
      (elfSegmentsVisits hhdmOffset data (root.pointer hhdmOffset) ph fuel machine i)) :
    ∃ mappings, PageRun hhdmOffset root slots machine
      (elfSegmentsVisits hhdmOffset data (root.pointer hhdmOffset) ph fuel machine i) mappings
      (elfLoadSegments hhdmOffset data (root.pointer hhdmOffset) ph fuel machine i).2 := by
  induction fuel generalizing machine i with
  | zero => exact ⟨[], .nil⟩
  | succ fuel inductionHypothesis =>
      unfold elfSegmentsVisits at allowed ⊢
      unfold elfLoadSegments
      by_cases inside : i < (readElfHeader machine.memory data).ePhnum
      · simp only [if_pos inside] at allowed ⊢
        obtain ⟨mappings, first⟩ := elfLoadSegment_run (ph + i.setWidth 64 * elfProgramHeaderSize)
          usable space fun visit here => allowed visit (List.mem_append_left _ here)
        by_cases loaded : (elfLoadSegment hhdmOffset data (root.pointer hhdmOffset) machine
            (ph + i.setWidth 64 * elfProgramHeaderSize)).1 = true
        · rw [if_pos loaded] at allowed ⊢
          rw [if_pos loaded]
          obtain ⟨others, rest⟩ := inductionHypothesis (i + 1#16) (first.run.usable usable)
            (first.run.space space) fun visit later => allowed visit (List.mem_append_right _ later)
          exact ⟨mappings ++ others, first.append rest⟩
        · rw [if_neg loaded, if_neg loaded]
          exact ⟨mappings ++ [], first.append .nil⟩
      · simp only [if_neg inside]
        exact ⟨[], .nil⟩

/-- Whatever the file says, a load is a run of mappings. -/
theorem elfLoad_run (data : U64) (usable : machine.stack.Usable)
    (space : AddressSpace hhdmOffset machine root slots)
    (allowed : VisitsAllowed hhdmOffset root slots
      (elfVisits hhdmOffset machine data (root.pointer hhdmOffset))) :
    ∃ mappings, PageRun hhdmOffset root slots machine
      (elfVisits hhdmOffset machine data (root.pointer hhdmOffset)) mappings
      (elfLoad hhdmOffset machine data (root.pointer hhdmOffset)).2 := by
  unfold elfVisits at allowed ⊢
  unfold elfLoad
  dsimp only at allowed ⊢
  by_cases magic : (readElfHeader machine.memory data).eMagic ≠ elfMagic
  · rw [if_pos magic, if_pos magic]
    exact ⟨[], .nil⟩
  · by_cases width : (readElfHeader machine.memory data).eClass ≠ 2#8
    · rw [if_neg magic, if_pos width, if_neg magic, if_pos width]
      exact ⟨[], .nil⟩
    · rw [if_neg magic, if_neg width] at allowed
      rw [if_neg magic, if_neg width, if_neg magic, if_neg width]
      obtain ⟨mappings, pages⟩ := elfLoadSegments_run _ _ _ usable space allowed
      refine ⟨mappings, ?_⟩
      split <;> exact pages

end Nekonix
