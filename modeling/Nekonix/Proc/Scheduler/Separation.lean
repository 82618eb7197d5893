import Nekonix.Proc.Elf.Image
import Nekonix.Proc.Elf.Rights
import Nekonix.Proc.Scheduler.Transparency

/-!
# Processes do not share memory

A process whose image lies in the lower half has its tables and its pages to
itself: the tables below the lower half of its pagemap are frames that its creation
took, and so are the pages they lead to.  Above, its pagemap has entries of the
kernel only.
-/

namespace Nekonix

open FlatMemory RadixTable Transition

variable {Heap : Type} {hhdmOffset : U64} {kernel : Frame} {held : Heap → Set Frame}
  {files : Files Heap} {history : History Heap} {owneds : List Owned} {owned : Owned}
  {system next : System Heap} {memory other : Memory} {pages : Set Frame}

/-- The lower half of the address space of a process leads to `pages` through tables of
its own, and the upper half is the kernel's. -/
structure Isolated (hhdmOffset : U64) (kernel : Frame) (memory : Memory) (owned : Owned)
    (pages : Set Frame) : Prop where
  taken : ∀ page ∈ pages, page ∈ owned.taken
  tables : ∀ path ∈ within NewPagemap.lowerHalf, ∀ table,
    follow pageFormat (tables hhdmOffset memory) owned.pagemap path = some table →
    table ∈ owned.pagemap :: owned.taken ∧ table ∉ pages
  leaves : ∀ virt, slot4 virt ∈ NewPagemap.lowerHalf →
    virtToPhys hhdmOffset memory (owned.pagemap.pointer hhdmOffset) virt = 0#64 ∨
      ∃ page ∈ pages,
        virtToPhys hhdmOffset memory (owned.pagemap.pointer hhdmOffset) virt = page.address
  upper : ∀ index : Slot, 256 ≤ index.toNat →
    pageFormat.present (Nekonix.tables hhdmOffset memory owned.pagemap index) = true →
    Nekonix.tables hhdmOffset memory owned.pagemap index = Nekonix.tables hhdmOffset memory kernel index

namespace Isolated

/-- The tables of the process and the present top-level entries of the kernel decide. -/
theorem congr (isolated : Isolated hhdmOffset kernel memory owned pages)
    (same : SameTables hhdmOffset owned.pagemap NewPagemap.lowerHalf memory other)
    (topLevel : ∀ index,
      pageFormat.present (Nekonix.tables hhdmOffset memory kernel index) = true →
      Nekonix.tables hhdmOffset other kernel index = Nekonix.tables hhdmOffset memory kernel index) :
    Isolated hhdmOffset kernel other owned pages where
  taken := isolated.taken
  tables := by
    intro path membership table reached
    rw [same.follow membership] at reached
    exact isolated.tables path membership table reached
  leaves := by
    intro virt lower
    have leaf := isolated.leaves virt lower
    rwa [virtToPhys_eq, ← same.leafEntry lower, ← virtToPhys_eq] at leaf
  upper := by
    intro index upper present
    rw [same.tables_eq nil_mem_within rfl] at present ⊢
    have entry := isolated.upper index upper present
    rw [entry] at present ⊢
    rw [topLevel index present]

theorem sameTables (isolated : Isolated hhdmOffset kernel memory owned pages)
    (kept : ∀ frame ∈ owned.pagemap :: owned.taken, SameFrame hhdmOffset memory other frame) :
    SameTables hhdmOffset owned.pagemap NewPagemap.lowerHalf memory other := by
  intro path membership table reached address inTable
  exact kept table (isolated.tables path membership table reached).1 address inTable

/-- The frames of tables and pages are among those of the process. -/
theorem mem_frames {frame : Frame} (membership : frame ∈ owned.pagemap :: owned.taken) :
    frame ∈ owned.frames := by
  unfold Owned.frames
  rcases List.mem_cons.mp membership with rfl | taken
  · exact List.mem_cons_self
  · exact List.mem_cons_of_mem _ (List.mem_append_left _ taken)

end Isolated

/-! Building -/

namespace Building

variable {before fresh loaded after : Machine} {visits : List PageVisit} {mappings : List Mapping}

/-- The pages of the image lie in the lower half. -/
theorem mappings_lower
    (building : Building hhdmOffset kernel owned before fresh visits mappings loaded after)
    (inSegment : ∀ visit ∈ visits, visit.InSegment)
    (lower : ∀ visit ∈ visits, visit.header.InLowerHalf) :
    ∀ mapping ∈ mappings, slot4 mapping.call.virt ∈ NewPagemap.lowerHalf := by
  intro mapping membership
  have isCall := List.mem_map_of_mem (f := Mapping.call) membership
  rw [building.pages.calls] at isCall
  obtain ⟨visit, visited, same⟩ := List.mem_map.mp isCall
  have isVisit := (List.mem_filter.mp visited).1
  have top := (visit.header).vaddrEnd_toNat (lower visit isVisit)
  have below := (inSegment visit isVisit).before
  have bound := lower visit isVisit
  rw [← same]
  apply slot4_lowerHalf
  unfold ElfProgramHeader.InLowerHalf at bound
  change visit.addr.toNat < 2 ^ 47
  bv_omega

theorem lower_cleared
    (building : Building hhdmOffset kernel owned before fresh visits mappings loaded after) :
    ∀ index ∈ NewPagemap.lowerHalf, tables hhdmOffset fresh.memory owned.pagemap index = 0#64 := by
  intro index lower
  rw [building.made.entries, if_neg (Nat.not_le.mpr lower)]

/-- A creation below the lower half writes to the frames it took only. -/
theorem takesFrames
    (building : Building hhdmOffset kernel owned before fresh visits mappings loaded after)
    (lower : ∀ mapping ∈ mappings, slot4 mapping.call.virt ∈ NewPagemap.lowerHalf) :
    TakesFrames hhdmOffset owned.frames before after := by
  refine ⟨building.free, ?_⟩
  intro address outside
  have offPagemap : ¬owned.pagemap.Holds hhdmOffset address :=
    outside _ (Isolated.mem_frames List.mem_cons_self)
  have run := building.pages.run.restrict (Set.subset_univ NewPagemap.lowerHalf) lower
  rw [building.takes.outside address, MapRun.outside run, building.made.outside address offPagemap]
  · intro frame taken
    rw [← building.taken] at taken
    exact outside frame (Isolated.mem_frames (List.mem_cons_of_mem _ taken))
  · intro path membership table reached
    rw [(reached_of_cleared building.lower_cleared membership reached).2]
    exact offPagemap
  · intro frame last
    apply outside
    unfold Owned.frames
    exact List.mem_cons_of_mem _ (List.mem_append_right _ last)

/-- The frames of the loaded pages. -/
def pageFrames (mappings : List Mapping) : Set Frame :=
  {frame | ∃ mapping ∈ mappings, mapping.call.phys = frame.address}

theorem isolated_loaded
    (building : Building hhdmOffset kernel owned before fresh visits mappings loaded after)
    (space : AddressSpace hhdmOffset before kernel Set.univ)
    (lower : ∀ mapping ∈ mappings, slot4 mapping.call.virt ∈ NewPagemap.lowerHalf) :
    Isolated hhdmOffset kernel loaded.memory owned (pageFrames mappings) := by
  have cleared := building.lower_cleared
  have run := building.pages.run
  refine ⟨?taken, ?reached, ?leaves, ?upper⟩
  case taken =>
    rintro page ⟨mapping, membership, isPage⟩
    obtain ⟨-, frame, taken, isFrame⟩ := building.pages.backed mapping membership
    rw [isPage] at isFrame
    rw [Frame.address_inj.mp isFrame, building.taken]
    exact List.mem_flatMap.mpr ⟨mapping, membership, taken⟩
  case reached =>
    intro path membership table reached
    have anywhere := within_mono (Set.subset_univ _) membership
    constructor
    · rcases run.origin anywhere reached with early | taken
      · rw [(reached_of_cleared cleared membership early).2]
        exact List.mem_cons_self
      · rw [building.taken]
        exact List.mem_cons_of_mem _ taken
    · rintro ⟨mapping, isMapping, isPage⟩
      have quiet := building.pages.quiet mapping isMapping table isPage _ table.holds_pointer
      exact quiet.notTable path anywhere table reached table.holds_pointer
  case leaves =>
    intro virt inLower
    have leaf := run.leaf (Set.mem_univ (slot4 virt))
    rw [leafEntry_of_cleared (cleared _ inLower), Option.getD_none] at leaf
    rw [virtToPhys_eq, leaf]
    cases last : lastAt MapCall.page (mappings.map Mapping.call) (pageNumber virt) with
    | none => exact Or.inl (BitVec.zero_and)
    | some call =>
        obtain ⟨mapping, isMapping, rfl⟩ := List.mem_map.mp (lastAt_some last).1
        obtain ⟨valid, frame, -, isFrame⟩ := building.pages.backed mapping isMapping
        refine Or.inr ⟨frame, ⟨mapping, isMapping, isFrame⟩, ?_⟩
        rw [Option.map_some, Option.getD_some, MapCall.entry, isFrame]
        exact valid.masked frame
  case upper =>
    intro index upper present
    have apart : ∀ mapping ∈ mappings, ¬[] ++ [index] <+: tablePath mapping.call.virt := by
      intro mapping membership isPrefix
      obtain ⟨rest, whole⟩ := isPrefix
      have same : index = slot4 mapping.call.virt := (List.cons.inj whole).1
      have inLower := lower mapping membership
      rw [← same] at inLower
      exact Nat.not_le.mpr inLower upper
    have inSlots : [] ++ [index] ∈ within (Set.univ : Set Slot) := by
      simp [mem_within]
    have link := run.linkEntry_apart inSlots apart
    have linked : linkEntry hhdmOffset loaded.memory owned.pagemap [] index =
        some (tables hhdmOffset loaded.memory owned.pagemap index) := by
      rw [linkEntry, link_of_follow rfl, if_pos present]
    rw [linked, eq_comm, linkEntry, link_of_follow rfl] at link
    split at link
    next =>
      rw [← Option.some.inj link, building.made.entries, if_pos upper]
      exact (congrFun ((building.made.lowerTables space run).tables_eq nil_mem_within rfl) index).symm
    next => cases link

/-- A page of the image is mapped once it is loaded. -/
theorem mapped_loaded
    (building : Building hhdmOffset kernel owned before fresh visits mappings loaded after)
    (usable : before.stack.Usable) {mapping : Mapping} (membership : mapping ∈ mappings) :
    virtToPhys hhdmOffset loaded.memory (owned.pagemap.pointer hhdmOffset) mapping.call.virt ≠
      0#64 := by
  have leaf := building.pages.run.leaf (Set.mem_univ (slot4 mapping.call.virt))
  obtain ⟨last, isLast⟩ :=
    lastAt_of_mem MapCall.page (List.mem_map_of_mem (f := Mapping.call) membership)
  change lastAt MapCall.page _ (pageNumber mapping.call.virt) = some last at isLast
  obtain ⟨other, isOther, rfl⟩ := List.mem_map.mp (lastAt_some isLast).1
  obtain ⟨valid, frame, taken, isFrame⟩ := building.pages.backed other isOther
  rw [isLast, Option.map_some, Option.getD_some, MapCall.entry, isFrame] at leaf
  rw [virtToPhys_eq, leaf, valid.masked frame]
  intro null
  have wasFree : frame.address ∈ before.free := by
    apply building.wasFree
    apply Isolated.mem_frames
    rw [building.taken]
    exact List.mem_cons_of_mem _ (List.mem_flatMap.mpr ⟨other, isOther, taken⟩)
  obtain ⟨page, nonzero, isPage⟩ := usable.frame _ wasFree
  rw [isPage] at null
  exact nonzero (Frame.address_inj.mp null)

/-- The record and the stack are other frames than the tables. -/
theorem finish_sameTables
    (building : Building hhdmOffset kernel owned before fresh visits mappings loaded after)
    (usable : before.stack.Usable)
    (loading : Isolated hhdmOffset kernel loaded.memory owned pages) :
    SameTables hhdmOffset owned.pagemap NewPagemap.lowerHalf loaded.memory after.memory := by
  apply loading.sameTables
  intro frame membership address inFrame
  apply building.takes.outside
  intro last isLast inLast
  have nodup := (building.nodup usable).1
  unfold Owned.frames at nodup
  rw [← List.cons_append, List.nodup_append] at nodup
  exact nodup.2.2 frame membership last isLast (inFrame.unique inLast)

/-- The frames of a process below the lower half are private once it is built. -/
theorem isolated
    (building : Building hhdmOffset kernel owned before fresh visits mappings loaded after)
    {heap : Heap} (sound : Sound hhdmOffset kernel held (heap, before))
    (lower : ∀ mapping ∈ mappings, slot4 mapping.call.virt ∈ NewPagemap.lowerHalf) :
    Isolated hhdmOffset kernel after.memory owned (pageFrames mappings) ∧
      ∀ frame ∈ owned.frames, Private hhdmOffset kernel held (heap, after) frame := by
  have takes := building.takesFrames lower
  obtain ⟨-, isPrivate⟩ := takes.careful sound
  have loading := building.isolated_loaded sound.space lower
  refine ⟨loading.congr (building.finish_sameTables sound.usable loading) ?_, isPrivate⟩
  intro index present
  have kernelLoaded := building.made.kernelSpace_finish sound.usable sound.space building.pages.run
  rw [(building.takes.sameTables kernelLoaded).tables_eq nil_mem_within rfl]

end Building

/-! Histories -/

/-- The frames of every process are private, and every process is isolated. -/
structure Separated (hhdmOffset : U64) (kernel : Frame) (held : Heap → Set Frame)
    (owneds : List Owned) (history : History Heap) : Prop where
  orderly : Orderly hhdmOffset kernel held owneds history
  isPrivate : ∀ owned ∈ owneds, ∀ frame ∈ owned.frames,
    Private hhdmOffset kernel held history.system.state frame
  isolated : ∀ owned ∈ owneds, ∃ pages,
    Isolated hhdmOffset kernel history.system.machine.memory owned pages

/-- No byte of the interrupt frame is in a table of a process. -/
def Tick.OffTables (hhdmOffset : U64) (history : History Heap) (interrupt : Tick) : Prop :=
  ∀ address, InRange interrupt.frame intFrameSize address →
    ∀ birth ∈ history.births, ∀ root : Frame, birth.pagemap = root.pointer hhdmOffset →
      ∀ path ∈ within (Set.univ : Set Slot), ∀ table,
        follow pageFormat (tables hhdmOffset history.system.machine.memory) root path = some table →
        ¬table.Holds hhdmOffset address

section Bearing

variable {making : Making} {heap : Heap} {fresh loaded : Machine} {visits : List PageVisit}
  {mappings : List Mapping}

/-- What comes after the building keeps the tables of the process. -/
theorem Bearing.sameTables
    (bearing : Bearing hhdmOffset kernel held system next making owned heap fresh visits
      mappings loaded)
    (built : Isolated hhdmOffset kernel making.after.memory owned pages)
    (isPrivate : ∀ frame ∈ owned.frames,
      Private hhdmOffset kernel held (heap, making.after) frame) :
    SameTables hhdmOffset owned.pagemap NewPagemap.lowerHalf making.after.memory
      next.machine.memory := by
  apply built.sameTables
  intro frame membership
  exact (bearing.later.kept frame (isPrivate frame (Isolated.mem_frames membership))).2

/-- After the creation the pages of the image are mapped. -/
theorem Bearing.mapped
    (bearing : Bearing hhdmOffset kernel held system next making owned heap fresh visits
      mappings loaded)
    (inSegment : ∀ visit ∈ visits, visit.InSegment)
    (lower : ∀ visit ∈ visits, visit.header.InLowerHalf) {visit : PageVisit}
    (isVisit : visit ∈ visits) (backed : visit.machine.free ≠ []) :
    virtToPhys hhdmOffset next.machine.memory (owned.pagemap.pointer hhdmOffset) visit.addr ≠
      0#64 := by
  have building := bearing.building
  have sound := bearing.earlier.sound
  have inLower := building.mappings_lower inSegment lower
  have isBacked : visit ∈ backedVisits visits := List.mem_filter.mpr ⟨isVisit, by simp [backed]⟩
  have isCall := List.mem_map_of_mem (f := PageVisit.call hhdmOffset) isBacked
  rw [← building.pages.calls] at isCall
  obtain ⟨mapping, membership, same⟩ := List.mem_map.mp isCall
  have isAddr : mapping.call.virt = visit.addr := by rw [same, PageVisit.call]
  have start := inLower mapping membership
  have mapped := building.mapped_loaded sound.usable membership
  obtain ⟨built, isPrivate⟩ := building.isolated sound inLower
  have finished := building.finish_sameTables sound.usable
    (building.isolated_loaded sound.space inLower)
  have later := bearing.sameTables built isPrivate
  rw [← isAddr, virtToPhys_eq, later.leafEntry start, finished.leafEntry start, ← virtToPhys_eq]
  exact mapped

end Bearing

/-- As `History.Allowed`, and the images lie in the lower half. -/
structure History.LowerHalf (files : Files Heap) (hhdmOffset : U64) (kernel : Frame)
    (history : History Heap) (call : SchedulerCall) : Prop where
  allowed : history.Allowed files hhdmOffset kernel call
  lower : ∀ visit ∈ call.visits files hhdmOffset (kernel.pointer hhdmOffset) history.system,
    visit.header.InLowerHalf
  tables : ∀ interrupt, call = .tick interrupt → interrupt.OffTables hhdmOffset history

theorem SchedulerCall.visits_inSegment {kernelPagemap : U64} {call : SchedulerCall} :
    ∀ visit ∈ call.visits files hhdmOffset kernelPagemap system, visit.InSegment := by
  intro visit membership
  cases call with
  | createElfProcess path name =>
      simp only [SchedulerCall.visits] at membership
      split at membership
      · cases membership
      · exact elfVisits_inSegment membership
  | createProcess entry name => cases membership
  | tick interrupt => cases membership
  | terminate => cases membership

namespace Separated

/-- Processes stay as they are where nothing private is touched. -/
theorem careful (separated : Separated hhdmOffset kernel held owneds history)
    (careful : Careful hhdmOffset kernel held history.system.state next.state) :
    (∀ owned ∈ owneds, ∀ frame ∈ owned.frames,
      Private hhdmOffset kernel held next.state frame) ∧
    ∀ owned ∈ owneds, ∃ pages, Isolated hhdmOffset kernel next.machine.memory owned pages := by
  refine ⟨fun owned isOwned frame membership =>
    (careful.kept frame (separated.isPrivate owned isOwned frame membership)).1, ?_⟩
  intro owned isOwned
  obtain ⟨pages, isolated⟩ := separated.isolated owned isOwned
  refine ⟨pages, isolated.congr (isolated.sameTables ?_) careful.topLevel⟩
  intro frame membership
  exact (careful.kept frame
    (separated.isPrivate owned isOwned frame (Isolated.mem_frames membership))).2

theorem unborn (separated : Separated hhdmOffset kernel held owneds history)
    (isCareful : Careful hhdmOffset kernel held history.system.state next.state)
    (scheduler : next.scheduler = history.system.scheduler) :
    Separated hhdmOffset kernel held owneds { history with system := next } := by
  obtain ⟨isPrivate, isolated⟩ := separated.careful isCareful
  exact ⟨separated.orderly.unborn isCareful scheduler, isPrivate, isolated⟩

theorem newborn {making : Making} {heap : Heap} {fresh loaded : Machine} {visits : List PageVisit}
    {mappings : List Mapping} (separated : Separated hhdmOffset kernel held owneds history)
    (bearing : Bearing hhdmOffset kernel held history.system next making owned heap fresh visits
      mappings loaded)
    (room : history.system.scheduler.processCount < maxProcesses)
    (inSegment : ∀ visit ∈ visits, visit.InSegment)
    (lower : ∀ visit ∈ visits, visit.header.InLowerHalf) :
    Separated hhdmOffset kernel held (owneds ++ [owned])
      { history with
        system := next
        births := history.births ++ [owned.birth hhdmOffset]
        stored := history.stored ++ [(history.births.length,
          readContext next.machine.memory (processCtx (owned.record.pointer hhdmOffset)))] } := by
  have born := bearing.newborn
  obtain ⟨isPrivate, isolated⟩ := separated.careful born.careful
  obtain ⟨built, ownPrivate⟩ := bearing.building.isolated bearing.earlier.sound
    (bearing.building.mappings_lower inSegment lower)
  refine ⟨separated.orderly.newborn born room, ?_, ?_⟩
  · intro other isOwned frame membership
    rcases List.mem_append.mp isOwned with early | new
    · exact isPrivate other early frame membership
    · rw [List.mem_singleton.mp new] at membership
      exact (bearing.later.kept frame (ownPrivate frame membership)).1
  · intro other isOwned
    rcases List.mem_append.mp isOwned with early | new
    · exact isolated other early
    · rw [List.mem_singleton.mp new]
      exact ⟨_, built.congr (bearing.sameTables built ownPrivate) bearing.later.topLevel⟩

/-- A frame belongs to one process only. -/
theorem owner_index (separated : Separated hhdmOffset kernel held owneds history)
    {first second : Owned} {frame : Frame} {index position : Nat}
    (isFirst : owneds[index]? = some first) (isSecond : owneds[position]? = some second)
    (inFirst : frame ∈ first.frames) (inSecond : frame ∈ second.frames) : index = position := by
  obtain ⟨-, apart⟩ := List.nodup_flatMap.mp separated.orderly.nodup
  have disjoint := List.pairwise_iff_getElem.mp apart
  obtain ⟨indexBelow, rfl⟩ := List.getElem?_eq_some_iff.mp isFirst
  obtain ⟨positionBelow, rfl⟩ := List.getElem?_eq_some_iff.mp isSecond
  rcases Nat.lt_trichotomy index position with before | same | after
  · exact (disjoint index position indexBelow positionBelow before inFirst inSecond).elim
  · exact same
  · exact (disjoint position index positionBelow indexBelow after inSecond inFirst).elim

theorem owner_unique (separated : Separated hhdmOffset kernel held owneds history)
    {first second : Owned} {frame : Frame} (firstIn : first ∈ owneds) (secondIn : second ∈ owneds)
    (inFirst : frame ∈ first.frames) (inSecond : frame ∈ second.frames) : first = second := by
  obtain ⟨index, isFirst⟩ := List.getElem?_of_mem firstIn
  obtain ⟨position, isSecond⟩ := List.getElem?_of_mem secondIn
  have same := separated.owner_index isFirst isSecond inFirst inSecond
  rw [same, isSecond] at isFirst
  exact (Option.some.inj isFirst).symm

/-- The record and the stack of a process are no table and no page of a process. -/
theorem last_apart (separated : Separated hhdmOffset kernel held owneds history)
    {other : Owned} {frame last : Frame} (isOwned : owned ∈ owneds) (otherIn : other ∈ owneds)
    (membership : frame ∈ owned.pagemap :: owned.taken) (isLast : last ∈ [other.record, other.stack]) :
    frame ≠ last := by
  rintro rfl
  have inOther : frame ∈ other.frames := by
    unfold Owned.frames
    exact List.mem_cons_of_mem _ (List.mem_append_right _ isLast)
  obtain rfl := separated.owner_unique isOwned otherIn (Isolated.mem_frames membership) inOther
  have nodup := (List.nodup_flatMap.mp separated.orderly.nodup).1 owned isOwned
  unfold Owned.frames at nodup
  rw [← List.cons_append, List.nodup_append] at nodup
  exact nodup.2.2 frame membership frame isLast rfl

theorem tick (separated : Separated hhdmOffset kernel held owneds history) {interrupt : Tick}
    (safe : interrupt.Safe hhdmOffset kernel history)
    (offTables : interrupt.OffTables hhdmOffset history) :
    Separated hhdmOffset kernel held owneds
      (history.after files hhdmOffset (kernel.pointer hhdmOffset) (.tick interrupt)) := by
  have orderly := separated.orderly
  have later := @Orderly.tick _ _ _ _ files _ _ orderly _ safe
  by_cases empty : history.births = []
  · have none := orderly.births_eq_nil_iff.mp empty
    subst none
    exact ⟨later, by simp, by simp⟩
  have dispatched := orderly.dispatched safe empty
  have kernelSame := orderly.sameTables safe dispatched.outside
  obtain ⟨-, stillPrivate⟩ := orderly.sound.write kernelSame
  have state : (history.after files hhdmOffset (kernel.pointer hhdmOffset)
      (.tick interrupt)).system.state =
        (history.system.heap, { history.system.machine with
          memory := (interrupt.apply hhdmOffset history.system).machine.memory }) := by
    have stack := dispatched.stack
    change (interrupt.apply hhdmOffset history.system).state = _
    rw [System.state, dispatched.heap]
    simp only [← stack]
  refine ⟨later, ?_, ?_⟩
  · intro owned isOwned frame membership
    rw [state]
    exact stillPrivate frame (separated.isPrivate owned isOwned frame membership)
  · intro owned isOwned
    obtain ⟨pages, isolated⟩ := separated.isolated owned isOwned
    refine ⟨pages, isolated.congr ?_ ?_⟩
    · intro path membership table reached address inTable
      apply dispatched.outside
      · intro inFrame
        have isBirth : owned.birth hhdmOffset ∈ history.births := by
          rw [orderly.births]
          exact List.mem_map_of_mem isOwned
        exact offTables address inFrame _ isBirth owned.pagemap rfl path
          (within_mono (Set.subset_univ _) membership) table reached inTable
      · intro proc listed inRecord
        obtain ⟨other, otherIn, rfl⟩ := orderly.record_mem listed
        have inFrame : other.record.Holds hhdmOffset address :=
          inRecord.mono (by decide)
        exact separated.last_apart isOwned otherIn (isolated.tables path membership table reached).1
          List.mem_cons_self (inTable.unique inFrame)
    · intro index _
      exact congrFun (kernelSame.tables_eq nil_mem_within rfl) index

/-- What one call preserves. -/
theorem step (separated : Separated hhdmOffset kernel held owneds history) {call : SchedulerCall}
    (respects : files.Respects hhdmOffset kernel held)
    (allowed : history.LowerHalf files hhdmOffset kernel call) :
    ∃ more, Separated hhdmOffset kernel held (owneds ++ more)
      (history.after files hhdmOffset (kernel.pointer hhdmOffset) call) := by
  rcases separated.orderly.step_cases respects allowed.allowed with ⟨interrupt, rfl, safe⟩ |
    ⟨next, after, careful, scheduler⟩ |
    ⟨next, making, owned, heap, fresh, mappings, loaded, room, bearing, after⟩
  · exact ⟨[], by simpa using separated.tick safe (allowed.tables interrupt rfl)⟩
  · rw [after]
    exact ⟨[], by simpa using separated.unborn careful scheduler⟩
  · rw [after]
    exact ⟨[owned], separated.newborn bearing room SchedulerCall.visits_inSegment allowed.lower⟩

theorem of_run {calls : List SchedulerCall} (respects : files.Respects hhdmOffset kernel held)
    (sound : Sound hhdmOffset kernel held system.state)
    (run : Run (guarded (History.after files hhdmOffset (kernel.pointer hhdmOffset))
      (History.LowerHalf files hhdmOffset kernel)) (History.begin system) calls history) :
    ∃ owneds, Separated hhdmOffset kernel held owneds history := by
  refine run.invariant (fun history => ∃ owneds, Separated hhdmOffset kernel held owneds history)
    ⟨[], .begin sound, by simp, by simp⟩ ?_
  rintro history call next ⟨owneds, separated⟩ ⟨allowed, rfl⟩
  obtain ⟨more, later⟩ := separated.step respects allowed
  exact ⟨owneds ++ more, later⟩

/-- A page of a process is no table of any process. -/
theorem not_table (separated : Separated hhdmOffset kernel held owneds history) {other : Owned}
    {page table : Frame} {path : List Slot} (isOwned : owned ∈ owneds) (otherIn : other ∈ owneds)
    (isolated : Isolated hhdmOffset kernel history.system.machine.memory owned pages)
    (isPage : page ∈ pages) (membership : path ∈ within (Set.univ : Set Slot))
    (reached : follow pageFormat (tables hhdmOffset history.system.machine.memory) other.pagemap
      path = some table) : page ≠ table := by
  rintro rfl
  have ownPage : page ∈ owned.frames :=
    Isolated.mem_frames (List.mem_cons_of_mem _ (isolated.taken page isPage))
  obtain ⟨otherPages, otherIsolated⟩ := separated.isolated other otherIn
  by_cases lower : path ∈ within NewPagemap.lowerHalf
  · have own := (otherIsolated.tables path lower page reached).1
    obtain rfl := separated.owner_unique isOwned otherIn ownPage (Isolated.mem_frames own)
    exact (isolated.tables path lower page reached).2 isPage
  · -- above the lower half the tables are the kernel's
    cases path with
    | nil => exact lower nil_mem_within
    | cons index rest =>
        have upper : 256 ≤ index.toNat := by
          by_contra below
          apply lower
          refine ⟨membership.1, ?_⟩
          rintro first ⟨⟩
          exact Nat.not_le.mp below
        obtain ⟨child, linked, further⟩ := Option.bind_eq_some_iff.mp reached
        obtain ⟨present, target⟩ := next_eq_some_iff.mp linked
        have entry := otherIsolated.upper index upper present
        have isPrivate := separated.isPrivate owned isOwned page ownPage
        apply isPrivate.inUse.notTable (index :: rest) membership
        rw [entry] at present target
        rw [follow_cons, next_eq_some_iff.mpr ⟨present, target⟩]
        exact further

end Separated

section Opened

variable {path name init data pagemap entry : U64} {heap : Heap} {machine fresh loaded : Machine}

/-- A creation once the file is open and the image is loaded. -/
theorem SchedulerCall.opened
    (fetched : fetchFile files system.state path = (some (init, data), heap, machine))
    (isPagemap : vmmNewPagemap hhdmOffset (kernel.pointer hhdmOffset) machine = (pagemap, fresh))
    (isLoaded : elfLoad hhdmOffset fresh data pagemap = (entry, loaded)) :
    ((SchedulerCall.createElfProcess path name).Supplied files hhdmOffset
        (kernel.pointer hhdmOffset) system ↔
      DirectlyMapped hhdmOffset machine ∧ machine.free ≠ [] ∧
        (∀ visit ∈ elfVisits hhdmOffset fresh data pagemap, visit.Enough hhdmOffset pagemap) ∧
          (entry ≠ 0#64 → 2 ≤ loaded.free.length)) ∧
    (SchedulerCall.createElfProcess path name).visits files hhdmOffset
        (kernel.pointer hhdmOffset) system = elfVisits hhdmOffset fresh data pagemap ∧
    (system.scheduler.processCount < maxProcesses → entry ≠ 0#64 → ∃ making,
      (SchedulerCall.createElfProcess path name).making files hhdmOffset
        (kernel.pointer hhdmOffset) system = some making) := by
  refine ⟨?_, ?_, ?_⟩
  · simp only [SchedulerCall.Supplied, fetched, isPagemap, isLoaded]
  · simp only [SchedulerCall.visits, fetched, isPagemap]
  · intro room nonzero
    simp only [SchedulerCall.making, if_neg (BitVec.not_le.mpr room), fetched, isPagemap, isLoaded,
      if_neg nonzero]
    exact ⟨_, rfl⟩

end Opened

/-- A file system with one file, whose buffer has the bytes of the sample file. -/
def sampleFiles : Files Unit where
  openFile state _ := (1#64, state)
  permissionCheck _ _ := true
  vnodeSize _ _ := 120#64
  kmalloc state _ := (sampleAddress, state)
  read state _ _ _ := state
  close state _ := state

theorem sampleFiles_respects : sampleFiles.Respects hhdmOffset kernel nothingHeld where
  openFile _ _ sound := .refl sound
  kmalloc _ _ sound := .refl sound
  read _ _ _ _ sound := .refl sound
  close _ _ sound := .refl sound

/-- As `System.cleared 9`, with the sample file in memory. -/
def System.holding : System Unit :=
  { System.cleared 9 with machine := .holding (sampleFile 0x400010#64) sampleAddress 9 }

theorem System.sound_holding : Sound 0#64 1#40 nothingHeld System.holding.state := by
  obtain ⟨usable, space, -, -⟩ := sample_kernel 0x400010#64
  exact ⟨usable, space, by simp [nothingHeld]⟩

theorem Machine.directlyMapped_holding :
    DirectlyMapped 0#64 (Machine.holding (sampleFile 0x400010#64) sampleAddress 9) := by
  intro frame isFree
  rw [Machine.free_holding] at isFree
  exact Machine.directlyMapped_cleared (by decide) frame isFree

theorem holding_created (path name : U64) :
    ∃ (history : History Unit) (birth : Birth),
      Run (guarded (History.after sampleFiles 0#64 (Frame.pointer 0#64 1#40))
          (History.LowerHalf sampleFiles 0#64 1#40)) (History.begin System.holding)
        [.createElfProcess path name] history ∧
      history.births[0]? = some birth ∧
      virtToPhys 0#64 history.system.machine.memory birth.pagemap 0x400000#64 ≠ 0#64 := by
  obtain ⟨-, -, -, count⟩ := sample_kernel 0x400010#64
  obtain ⟨pagemap, fresh, isPagemap, -, made⟩ := sample_created 0x400010#64
  obtain ⟨isVisits, enough, entry, left⟩ := sample_visits made readElfHeader_sample
    readElfProgramHeader_sample (by decide) (by decide)
  have fetched : fetchFile sampleFiles (History.begin System.holding).system.state path =
      (some (1#64, sampleAddress), (), .holding (sampleFile 0x400010#64) sampleAddress 9) := rfl
  generalize isLoaded : elfLoad 0#64 fresh sampleAddress (pagemap.pointer 0#64) = result at entry left
  obtain ⟨start, loaded⟩ := result
  obtain rfl : start = 0x400010#64 := entry
  change 9 ≤ loaded.free.length + 5 at left
  obtain ⟨supplied, visits, makes⟩ := @SchedulerCall.opened _ _ _ _ _ _ name _ _ _ _ _ _ _ _
    fetched isPagemap isLoaded
  rw [isVisits] at visits supplied
  have isSupplied := supplied.mpr ⟨Machine.directlyMapped_holding,
    List.ne_nil_of_length_pos (by omega), List.forall_mem_singleton.mpr (Or.inr enough),
    fun _ => by omega⟩
  have inLower : ∀ visit ∈ (SchedulerCall.createElfProcess path name).visits sampleFiles 0#64
      (Frame.pointer 0#64 1#40) (History.begin System.holding).system,
      visit.header.InLowerHalf := by
    rw [visits]
    intro visit membership
    rw [List.mem_singleton.mp membership]
    change 0x400010 + 8 ≤ 2 ^ 47
    decide
  obtain ⟨making, isMaking⟩ := makes (by decide) (by decide)
  have sound : Sound 0#64 1#40 nothingHeld (History.begin System.holding).system.state :=
    System.sound_holding
  obtain ⟨owned, heap, machine, mappings, loaded, bearing⟩ :=
    schedulerCreateElfProcess_bearing sampleFiles_respects sound isSupplied isMaking
  have allowed : (History.begin System.holding).LowerHalf sampleFiles 0#64 1#40
      (.createElfProcess path name) := ⟨fun _ => isSupplied, inLower, by simp⟩
  refine ⟨_, owned.birth 0#64, Run.single ⟨allowed, rfl⟩, ?_, ?_⟩
  · rw [History.births_after isMaking, bearing.birth]
    rfl
  · have isVisit : (⟨fresh, (sampleHeader 0x400010#64).vaddrStart, sampleHeader 0x400010#64⟩ :
        PageVisit) ∈ (SchedulerCall.createElfProcess path name).visits sampleFiles 0#64
          (Frame.pointer 0#64 1#40) (History.begin System.holding).system := by
      rw [visits]
      exact List.mem_cons_self
    have mapped := bearing.mapped SchedulerCall.visits_inSegment inLower isVisit
      (List.ne_nil_of_length_pos (Nat.lt_of_lt_of_le (Nat.lt_add_right _ Nat.one_pos) enough))
    have isStart : (sampleHeader 0x400010#64).vaddrStart = 0x400000#64 := by decide
    rw [isStart] at mapped
    rw [History.system_after]
    exact mapped

end Nekonix
