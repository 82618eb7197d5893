import Nekonix.Mm.Vma.Regions
import Nekonix.Mm.Vmm.Ownership

/-!
# `vma_alloc` on the kernel's pagemap

A call takes frames from the free stack, links a record and maps the pages of the
region.  Everything else that is in use stays as it is, and the kernel maps each
page of the region to a frame that is not free any more.
-/

namespace Nekonix

open FlatMemory RadixTable

variable {hhdmOffset size flags : U64} {kernel ctx : Frame} {machine before middle after : Machine}
  {written further : Set Frame} {records more : Set Frame} {virt : U64}

/-- The kernel maps the page to a frame, and the frame is not free. -/
def HeldPage (hhdmOffset : U64) (kernel : Frame) (machine : Machine) (virt : U64) : Prop :=
  ∃ frame : Frame, frame ≠ 0#40 ∧ frame.address ∉ machine.free ∧
    virtToPhys hhdmOffset machine.memory (kernel.pointer hhdmOffset) virt = frame.address

/-- The kernel's address space stays in order, frames in use stay in use, and only the
bytes of those in `written` change; every page that is held stays held. -/
structure Advances (hhdmOffset : U64) (kernel : Frame) (written : Set Frame)
    (before after : Machine) : Prop where
  usable : after.stack.Usable
  space : AddressSpace hhdmOffset after kernel Set.univ
  inUse : ∀ frame, InUse hhdmOffset kernel before frame → InUse hhdmOffset kernel after frame
  same : ∀ frame ∉ written, InUse hhdmOffset kernel before frame →
    SameFrame hhdmOffset before.memory after.memory frame
  held : ∀ virt, HeldPage hhdmOffset kernel before virt → HeldPage hhdmOffset kernel after virt

namespace Advances

theorem refl (usable : machine.stack.Usable)
    (space : AddressSpace hhdmOffset machine kernel Set.univ) :
    Advances hhdmOffset kernel ∅ machine machine :=
  ⟨usable, space, fun _ inUse => inUse, fun _ _ _ _ _ => rfl, fun _ held => held⟩

theorem trans (first : Advances hhdmOffset kernel written before middle)
    (second : Advances hhdmOffset kernel further middle after) :
    Advances hhdmOffset kernel (written ∪ further) before after where
  usable := second.usable
  space := second.space
  inUse := fun frame inUse => second.inUse frame (first.inUse frame inUse)
  same := by
    intro frame unwritten inUse address inFrame
    rw [second.same frame (fun late => unwritten (Or.inr late)) (first.inUse frame inUse) address
        inFrame,
      first.same frame (fun early => unwritten (Or.inl early)) inUse address inFrame]
  held := fun virt held => second.held virt (first.held virt held)

/-- Taking frames from the free stack. -/
theorem of_takes {taken : List Frame} (takes : TakesFrames hhdmOffset taken before after)
    (usable : before.stack.Usable) (space : AddressSpace hhdmOffset before kernel Set.univ) :
    Advances hhdmOffset kernel ∅ before after := by
  have same := takes.sameTables space
  refine ⟨takes.usable usable, same.space space fun page free => takes.still_free free, ?_, ?_, ?_⟩
  · intro frame inUse
    refine ⟨fun free => inUse.notFree (takes.still_free free), ?_⟩
    intro path membership reached
    rw [same.follow membership] at reached
    exact inUse.notTable path membership reached
  · intro frame _ inUse address inFrame
    apply takes.outside
    intro other inTaken inOther
    apply inUse.notFree
    rw [inFrame.unique inOther]
    exact takes.taken_free inTaken
  · rintro virt ⟨frame, nonzero, notFree, translates⟩
    refine ⟨frame, nonzero, fun free => notFree (takes.still_free free), ?_⟩
    rw [virtToPhys_eq, same.leafEntry (Set.mem_univ _), ← virtToPhys_eq, translates]

/-- Writing to frames in use. -/
theorem of_write {memory : Memory} (usable : machine.stack.Usable)
    (space : AddressSpace hhdmOffset machine kernel Set.univ)
    (inUse : ∀ frame ∈ written, InUse hhdmOffset kernel machine frame)
    (outside : ∀ address, (∀ frame ∈ written, ¬frame.Holds hhdmOffset address) →
      memory address = machine.memory address) :
    Advances hhdmOffset kernel written machine { machine with memory } := by
  have same : SameTables hhdmOffset kernel Set.univ machine.memory memory := by
    intro path membership table reached address inTable
    apply outside
    intro frame isWritten inFrame
    rw [inTable.unique inFrame] at reached
    exact (inUse frame isWritten).notTable path membership reached
  refine ⟨usable, same.space space fun _ free => free, ?_, ?_, ?_⟩
  · intro frame wasInUse
    refine ⟨wasInUse.notFree, ?_⟩
    intro path membership reached
    rw [same.follow membership] at reached
    exact wasInUse.notTable path membership reached
  · intro frame unwritten _ address inFrame
    apply outside
    intro other isWritten inOther
    exact unwritten (inFrame.unique inOther ▸ isWritten)
  · rintro virt ⟨frame, nonzero, notFree, translates⟩
    refine ⟨frame, nonzero, notFree, ?_⟩
    rw [virtToPhys_eq, same.leafEntry (Set.mem_univ _), ← virtToPhys_eq, translates]

/-- Mapping a page to a frame that has been taken for it. -/
theorem of_mapped {frame : Frame} {created : List Frame} (nonzero : frame ≠ 0#40)
    (valid : EntryFlags flags) (usable : before.stack.Usable)
    (mapped : Mapped hhdmOffset kernel Set.univ virt flags (frame.address ||| flags)
      (frame :: created) before after) :
    Advances hhdmOffset kernel ∅ before after ∧ HeldPage hhdmOffset kernel after virt := by
  have touched := mapped.touched
  have taken : frame.address ∉ after.free := by
    exact touched.takes.taken_notFree usable List.mem_cons_self
  have target := valid.masked frame
  refine ⟨⟨touched.usable usable, touched.space, ?_, ?_, ?_⟩, frame, nonzero, taken, ?_⟩
  · exact fun other inUse => (touched.inUse inUse).1
  · exact fun other _ inUse => (touched.inUse inUse).2
  · rintro other ⟨backing, backingNonzero, notFree, translates⟩
    rw [virtToPhys_eq] at translates
    by_cases here : pageNumber other = pageNumber virt
    · refine ⟨frame, nonzero, taken, ?_⟩
      rw [virtToPhys_eq, mapped.leaf other (Set.mem_univ _), if_pos here, target]
    · refine ⟨backing, backingNonzero, fun free => notFree (touched.still_free free), ?_⟩
      rw [virtToPhys_eq, mapped.leaf other (Set.mem_univ _), if_neg here, translates]
  · rw [virtToPhys_eq, mapped.leafSet, Option.getD_some, target]

end Advances

/-! The context over the kernel's pagemap -/

/-- The context and the records of its list lie in frames in use, and `next` does not
lead out of the records.  The end of the list counts as a record: the search reads it
like one.  Page 0 takes the record for which there is no frame. -/
structure HeapContext (hhdmOffset : U64) (kernel ctx : Frame) (records : Set Frame)
    (machine : Machine) : Prop where
  usable : machine.stack.Usable
  space : AddressSpace hhdmOffset machine kernel Set.univ
  context : InUse hhdmOffset kernel machine ctx
  notRecord : ctx ∉ records
  notPageZero : ctx ≠ 0#40
  pageZero : InUse hhdmOffset kernel machine 0#40
  pagemap : Memory.load64 machine.memory (contextPagemap (ctx.pointer hhdmOffset)) =
    kernel.pointer hhdmOffset
  root : ∃ root ∈ records,
    Memory.load64 machine.memory (contextRoot (ctx.pointer hhdmOffset)) = root.pointer hhdmOffset
  recordsInUse : ∀ record ∈ records, InUse hhdmOffset kernel machine record
  next : ClosedUnderNext hhdmOffset machine.memory records
  null : ∃ last ∈ records, last.pointer hhdmOffset = 0#64

namespace HeapContext

/-- The context stays in order where its own frame is not written. -/
theorem relink (heap : HeapContext hhdmOffset kernel ctx records before)
    (advances : Advances hhdmOffset kernel written before after) (unwritten : ctx ∉ written)
    (subset : records ⊆ more) (notRecord : ctx ∉ more)
    (inUse : ∀ record ∈ more, InUse hhdmOffset kernel after record)
    (next : ClosedUnderNext hhdmOffset after.memory more) :
    HeapContext hhdmOffset kernel ctx more after where
  usable := advances.usable
  space := advances.space
  context := advances.inUse ctx heap.context
  notRecord := notRecord
  notPageZero := heap.notPageZero
  pageZero := advances.inUse 0#40 heap.pageZero
  pagemap := by
    have kept := Frame.load64_start_congr (advances.same ctx unwritten heap.context)
    exact kept.trans heap.pagemap
  root := by
    obtain ⟨root, rootIn, isRoot⟩ := heap.root
    have kept := @Frame.load64_congr hhdmOffset 8#64 _ _ _
      (advances.same ctx unwritten heap.context) (by decide)
    exact ⟨root, subset rootIn, kept.trans isRoot⟩
  recordsInUse := inUse
  next := next
  null := by
    obtain ⟨last, lastIn, isNull⟩ := heap.null
    exact ⟨last, subset lastIn, isNull⟩

theorem ne_fresh (heap : HeapContext hhdmOffset kernel ctx records machine) {record : Frame}
    (fresh : record = 0#40 ∨ record.address ∈ machine.free) : ctx ≠ record := by
  rintro rfl
  exact fresh.elim heap.notPageZero heap.context.notFree

/-- Nothing in use is written. -/
theorem advance (heap : HeapContext hhdmOffset kernel ctx records before)
    (advances : Advances hhdmOffset kernel ∅ before after) :
    HeapContext hhdmOffset kernel ctx records after := by
  refine heap.relink advances (Set.notMem_empty _) (fun _ membership => membership) heap.notRecord
    (fun record membership => advances.inUse record (heap.recordsInUse record membership)) ?_
  exact heap.next.congr fun record membership =>
    advances.same record (Set.notMem_empty _) (heap.recordsInUse record membership)

end HeapContext

/-! The record -/

/-- A request for a record: a frame that was free, or page 0 where none is. -/
theorem requestRegion_spec (usable : machine.stack.Usable)
    (space : AddressSpace hhdmOffset machine kernel Set.univ)
    (pageZero : InUse hhdmOffset kernel machine 0#40) :
    ∃ (record : Frame) (next : Machine),
      requestRegion hhdmOffset machine = (record.pointer hhdmOffset, next) ∧
      (record = 0#40 ∨ record.address ∈ machine.free) ∧
      InUse hhdmOffset kernel next record ∧ Advances hhdmOffset kernel ∅ machine next := by
  unfold requestRegion
  by_cases empty : machine.free = []
  · rw [pmmRequestPage_empty empty]
    exact ⟨0#40, machine, rfl, Or.inl rfl, pageZero, .refl usable space⟩
  · obtain ⟨record, next, result, -, takes⟩ := pmmRequestPage_takesFrame hhdmOffset usable empty
    rw [result]
    exact ⟨record, next, rfl, Or.inr (takes.taken_free List.mem_cons_self),
      takes.inUse_taken usable space List.mem_cons_self, .of_takes takes usable space⟩

/-- What is left of the placing of a region. -/
structure Placed (hhdmOffset : U64) (kernel ctx : Frame) (size flags : U64) (before : Machine)
    (newRegion : U64) (records : Set Frame) (after : Machine) : Prop where
  heap : HeapContext hhdmOffset kernel ctx records after
  held : ∀ virt, HeldPage hhdmOffset kernel before virt → HeldPage hhdmOffset kernel after virt
  record : newRegion ≠ 0#64 → ∃ record ∈ records, newRegion = record.pointer hhdmOffset
  size : newRegion ≠ 0#64 → Memory.load64 after.memory (regionSize newRegion) = size
  flags : newRegion ≠ 0#64 → Memory.load64 after.memory (regionFlags newRegion) = flags

theorem clearRegion_outside {memory : Memory} {record : Frame} {address : U64}
    (off : ¬record.Holds hhdmOffset address) :
    memset memory (record.pointer hhdmOffset) 0#8 vmaRegionSize address = memory address := by
  rw [memset_eq_fill _ _ _ (by decide)]
  exact fill_outside fun inside => off (inside.mono (by decide))

theorem nextRegion_clear (memory : Memory) (record : Frame) :
    nextRegion (memset memory (record.pointer hhdmOffset) 0#8 vmaRegionSize)
      (record.pointer hhdmOffset) = 0#64 := by
  rw [memset_eq_fill _ _ _ (by decide)]
  apply load_fill_inside
  intro position below
  unfold InRange regionNext vmaRegionSize
  bv_omega

theorem ClosedUnderNext.clear {memory : Memory} (closed : ClosedUnderNext hhdmOffset memory records)
    (null : ∃ last ∈ records, last.pointer hhdmOffset = 0#64) (record : Frame) :
    ClosedUnderNext hhdmOffset
      (memset memory (record.pointer hhdmOffset) 0#8 vmaRegionSize) records := by
  intro other membership
  by_cases here : other = record
  · obtain ⟨last, lastIn, isNull⟩ := null
    exact ⟨last, lastIn, by rw [here, isNull, nextRegion_clear]⟩
  · have same : ∀ address, other.Holds hhdmOffset address →
        memset memory (record.pointer hhdmOffset) 0#8 vmaRegionSize address = memory address :=
      fun address inOther => clearRegion_outside fun inRecord => here (inOther.unique inRecord)
    have kept := @Frame.load64_congr hhdmOffset 24#64 _ _ _ same (by decide)
    obtain ⟨next, nextIn, leads⟩ := closed other membership
    exact ⟨next, nextIn, kept.trans leads⟩

/-- Clearing a new record does not change where the context leads. -/
theorem HeapContext.contextRoot_kept {record : Frame}
    (heap : HeapContext hhdmOffset kernel ctx records before)
    (fresh : record = 0#40 ∨ record.address ∈ before.free)
    (requested : Advances hhdmOffset kernel ∅ before middle) :
    Memory.load64 (memset middle.memory (record.pointer hhdmOffset) 0#8 vmaRegionSize)
        (contextRoot (ctx.pointer hhdmOffset)) =
      Memory.load64 before.memory (contextRoot (ctx.pointer hhdmOffset)) := by
  have same : ∀ address, ctx.Holds hhdmOffset address →
      memset middle.memory (record.pointer hhdmOffset) 0#8 vmaRegionSize address =
        middle.memory address :=
    fun address inContext =>
      clearRegion_outside fun inRecord => heap.ne_fresh fresh (inContext.unique inRecord)
  have kept := @Frame.load64_congr hhdmOffset 8#64 _ _ _ same (by decide)
  have early := @Frame.load64_congr hhdmOffset 8#64 _ _ _
    (requested.same ctx (Set.notMem_empty _) heap.context) (by decide)
  exact kept.trans early

/-- The new record is linked behind a record of the list. -/
theorem HeapContext.place {record previous : Frame} {memory : Memory}
    (heap : HeapContext hhdmOffset kernel ctx records before) (previousIn : previous ∈ records)
    (fresh : record = 0#40 ∨ record.address ∈ before.free)
    (inUse : InUse hhdmOffset kernel middle record)
    (requested : Advances hhdmOffset kernel ∅ before middle)
    (linked : RegionLinked hhdmOffset
      (memset middle.memory (record.pointer hhdmOffset) 0#8 vmaRegionSize) record previous size
      flags memory) :
    Placed hhdmOffset kernel ctx size flags before (record.pointer hhdmOffset)
      (insert record records) { middle with memory } := by
  have between := heap.advance requested
  have otherFrame := heap.ne_fresh fresh
  have otherRecord : ctx ≠ previous := fun same => heap.notRecord (same ▸ previousIn)
  have writes : Advances hhdmOffset kernel {record, previous} middle { middle with memory } := by
    refine .of_write between.usable between.space ?_ ?_
    · rintro frame (rfl | rfl)
      · exact inUse
      · exact between.recordsInUse _ previousIn
    · intro address outside
      have offRecord := outside record (Or.inl rfl)
      rw [linked.outside address offRecord (outside previous (Or.inr rfl)),
        clearRegion_outside offRecord]
  refine ⟨between.relink writes ?_ (fun _ membership => Or.inr membership) ?_ ?_ ?_, ?_, ?_, ?_, ?_⟩
  · rintro (same | same)
    · exact otherFrame same
    · exact otherRecord same
  · rintro (same | listed)
    · exact otherFrame same
    · exact heap.notRecord listed
  · rintro frame (rfl | listed)
    · exact writes.inUse _ inUse
    · exact writes.inUse frame (between.recordsInUse frame listed)
  · exact (between.next.clear between.null record).link between.null previousIn linked
  · exact fun virt held => writes.held virt (requested.held virt held)
  · exact fun _ => ⟨record, Set.mem_insert _ _, rfl⟩
  · exact fun _ => linked.size
  · exact fun _ => linked.flags

/-- Nothing is placed, or a record of the list has the region. -/
theorem vmaPlace_spec (heap : HeapContext hhdmOffset kernel ctx records before) {newRegion : U64}
    (placed : vmaPlace hhdmOffset before (ctx.pointer hhdmOffset) size flags =
      some (newRegion, after)) :
    ∃ more, Placed hhdmOffset kernel ctx size flags before newRegion more after := by
  obtain ⟨root, rootIn, isRoot⟩ := heap.root
  obtain ⟨record, middle, isRequest, fresh, inUse, requested⟩ :=
    requestRegion_spec heap.usable heap.space heap.pageZero
  have between := heap.advance requested
  have unplaced : ∀ {machine : Machine}, Advances hhdmOffset kernel ∅ before machine →
      Placed hhdmOffset kernel ctx size flags before 0#64 records machine := fun advances =>
    ⟨heap.advance advances, advances.held, fun nonnull => absurd rfl nonnull,
      fun nonnull => absurd rfl nonnull, fun nonnull => absurd rfl nonnull⟩
  have rootKept := (heap.contextRoot_kept fresh requested).trans isRoot
  rcases vmaPlace_cases isRequest placed with
    ⟨rfl, ⟨-, rfl⟩ | ⟨-, rfl⟩⟩ | ⟨rfl, -, region, memory, linked, rfl⟩
  · exact ⟨records, unplaced (.refl heap.usable heap.space)⟩
  · exact ⟨records, unplaced requested⟩
  · cases linked with
    | alone nothing =>
        rw [rootKept]
        exact ⟨_, heap.place rootIn fresh inUse requested vmaAppend_linked⟩
    | last more isLast =>
        rw [rootKept] at isLast
        obtain ⟨last, lastIn, rfl⟩ :=
          vmaLastRegion_mem (between.next.clear between.null record) rootIn isLast
        exact ⟨_, heap.place lastIn fresh inUse requested vmaAppend_linked⟩
    | fitting more found =>
        obtain ⟨first, firstIn, leads⟩ := heap.next root rootIn
        rw [isRoot, leads] at found
        obtain ⟨fitting, fittingIn, rfl⟩ := vmaSearch_mem heap.next rootIn firstIn found
        exact ⟨_, heap.place fittingIn fresh inUse requested vmaInsert_linked⟩

/-! The mapping loop -/

/-- The turn finds no frame at all, or frames for the page and the tables it lacks. -/
def TurnEnough (hhdmOffset ctx newRegion : U64) (machine : Machine) (i : U64) : Prop :=
  machine.free = [] ∨
    1 + missingTables hhdmOffset machine.memory
        (Memory.load64 machine.memory (contextPagemap ctx))
        (Memory.load64 machine.memory (regionStart newRegion) + i * pageSize) ≤
      machine.free.length

/-- Every turn of the loop finds enough. -/
def TurnsEnough (hhdmOffset ctx newRegion : U64) : (fuel : Nat) → Machine → (i : U64) → Prop
  | 0, _, _ => True
  | fuel + 1, machine, i =>
      i < mappedPages (Memory.load64 machine.memory (regionSize newRegion)) →
        TurnEnough hhdmOffset ctx newRegion machine i ∧
          TurnsEnough hhdmOffset ctx newRegion fuel
            (vmaMapPage hhdmOffset ctx newRegion machine i).2 (i + 1#64)

section Loop

variable {record : Frame} {i : U64}

/-- What the mapping loop works on: the context and the record of the region. -/
structure MappingRegion (hhdmOffset : U64) (kernel ctx record : Frame) (machine : Machine) :
    Prop where
  usable : machine.stack.Usable
  space : AddressSpace hhdmOffset machine kernel Set.univ
  context : InUse hhdmOffset kernel machine ctx
  pagemap : Memory.load64 machine.memory (contextPagemap (ctx.pointer hhdmOffset)) =
    kernel.pointer hhdmOffset
  recordInUse : InUse hhdmOffset kernel machine record

theorem HeapContext.mapping (heap : HeapContext hhdmOffset kernel ctx records machine)
    (recordIn : record ∈ records) : MappingRegion hhdmOffset kernel ctx record machine where
  usable := heap.usable
  space := heap.space
  context := heap.context
  pagemap := heap.pagemap
  recordInUse := heap.recordsInUse record recordIn

theorem MappingRegion.advance (region : MappingRegion hhdmOffset kernel ctx record before)
    (advances : Advances hhdmOffset kernel ∅ before after) :
    MappingRegion hhdmOffset kernel ctx record after where
  usable := advances.usable
  space := advances.space
  context := advances.inUse ctx region.context
  pagemap := by
    have kept := Frame.load64_start_congr
      (advances.same ctx (Set.notMem_empty _) region.context)
    exact kept.trans region.pagemap
  recordInUse := advances.inUse record region.recordInUse

/-- A turn finds no frame, or it backs its page with one. -/
theorem vmaMapPage_backed (region : MappingRegion hhdmOffset kernel ctx record machine)
    (valid : EntryFlags
      (Memory.load64 machine.memory (regionFlags (record.pointer hhdmOffset))))
    (enough : TurnEnough hhdmOffset (ctx.pointer hhdmOffset) (record.pointer hhdmOffset) machine i) :
    let turn := vmaMapPage hhdmOffset (ctx.pointer hhdmOffset) (record.pointer hhdmOffset) machine i
    turn = (0#64, machine) ∨ ∃ (frame : Frame) (created : List Frame),
      frame ≠ 0#40 ∧ turn.1 = frame.address ∧ turn.1 ≠ 0#64 ∧
        Backed hhdmOffset kernel Set.univ
          (Memory.load64 machine.memory (regionStart (record.pointer hhdmOffset)) + i * pageSize)
          (Memory.load64 machine.memory (regionFlags (record.pointer hhdmOffset))) frame created
          machine turn.2 := by
  intro turn
  by_cases empty : machine.free = []
  · left
    simp [turn, vmaMapPage, pmmRequestPage_empty empty]
  · have supply := enough.resolve_left empty
    rw [region.pagemap] at supply
    obtain ⟨frame, created, nonzero, isFrame, -, backed⟩ :=
      backPage_spec region.usable region.space (Set.mem_univ _) valid supply
    have nonnull : frame.address ≠ 0#64 :=
      fun null => nonzero (Frame.address_inj.mp (null.trans (by decide)))
    -- the request has not changed what the turn reads
    obtain ⟨_, next, result, -, takes⟩ := pmmRequestPage_takesFrame hhdmOffset region.usable empty
    have requested := Advances.of_takes takes region.usable region.space
    have isNext : (pmmRequestPage hhdmOffset machine).2 = next := by rw [result]
    rw [← isNext] at requested
    have inContext := requested.same ctx (Set.notMem_empty _) region.context
    have inRecord := requested.same record (Set.notMem_empty _) region.recordInUse
    have isTurn : turn = (frame.address, vmmMap hhdmOffset (pmmRequestPage hhdmOffset machine).2
        (kernel.pointer hhdmOffset)
        (Memory.load64 machine.memory (regionStart (record.pointer hhdmOffset)) + i * pageSize)
        frame.address
        (Memory.load64 machine.memory (regionFlags (record.pointer hhdmOffset)))) := by
      simp only [turn, vmaMapPage, isFrame, if_neg nonnull, contextPagemap, regionStart, regionFlags,
        Frame.load64_start_congr inContext, Frame.load64_start_congr inRecord,
        @Frame.load64_congr hhdmOffset 16#64 _ _ _ inRecord (by decide)]
      rw [← region.pagemap, contextPagemap]
    rw [isTurn]
    exact Or.inr ⟨frame, created, nonzero, rfl, nonnull, backed _ (fun _ _ => rfl) rfl⟩

theorem vmaMapPage_spec (region : MappingRegion hhdmOffset kernel ctx record machine)
    (valid : EntryFlags
      (Memory.load64 machine.memory (regionFlags (record.pointer hhdmOffset))))
    (enough : TurnEnough hhdmOffset (ctx.pointer hhdmOffset) (record.pointer hhdmOffset) machine i) :
    let turn := vmaMapPage hhdmOffset (ctx.pointer hhdmOffset) (record.pointer hhdmOffset) machine i
    Advances hhdmOffset kernel ∅ machine turn.2 ∧
      (turn.1 ≠ 0#64 → HeldPage hhdmOffset kernel turn.2
        (Memory.load64 machine.memory (regionStart (record.pointer hhdmOffset)) + i * pageSize)) := by
  intro turn
  rcases vmaMapPage_backed region valid enough with failed | ⟨frame, created, nonzero, -, -, backed⟩
  · change turn = (0#64, machine) at failed
    rw [failed]
    exact ⟨.refl region.usable region.space, fun nonnull => absurd rfl nonnull⟩
  · obtain ⟨advances, held⟩ := Advances.of_mapped nonzero valid region.usable backed.mapped
    exact ⟨advances, fun _ => held⟩

/-- Where the loop ends well, each of its pages is held. -/
theorem vmaMapPages_spec (fuel : Nat)
    (region : MappingRegion hhdmOffset kernel ctx record machine)
    (valid : EntryFlags
      (Memory.load64 machine.memory (regionFlags (record.pointer hhdmOffset))))
    (enough : TurnsEnough hhdmOffset (ctx.pointer hhdmOffset) (record.pointer hhdmOffset) fuel
      machine i) :
    let loop := vmaMapPages hhdmOffset (ctx.pointer hhdmOffset) (record.pointer hhdmOffset) fuel
      machine i
    Advances hhdmOffset kernel ∅ machine loop.2 ∧
      (loop.1 = true → ∀ j, i ≤ j → (j - i).toNat < fuel →
        j < mappedPages (Memory.load64 machine.memory (regionSize (record.pointer hhdmOffset))) →
        HeldPage hhdmOffset kernel loop.2
          (Memory.load64 machine.memory (regionStart (record.pointer hhdmOffset)) +
            j * pageSize)) := by
  induction fuel generalizing machine i with
  | zero => exact ⟨.refl region.usable region.space, fun _ j _ few => absurd few (Nat.not_lt_zero _)⟩
  | succ fuel inductionHypothesis =>
      intro loop
      by_cases inside :
          i < mappedPages (Memory.load64 machine.memory (regionSize (record.pointer hhdmOffset)))
      · obtain ⟨enoughHere, enoughLater⟩ := enough inside
        obtain ⟨turn, heldHere⟩ := vmaMapPage_spec region valid enoughHere
        by_cases failed : (vmaMapPage hhdmOffset (ctx.pointer hhdmOffset)
            (record.pointer hhdmOffset) machine i).1 = 0#64
        · have stopped : loop = (false, (vmaMapPage hhdmOffset (ctx.pointer hhdmOffset)
              (record.pointer hhdmOffset) machine i).2) := by
            simp only [loop, vmaMapPages, if_pos inside, if_pos failed]
          rw [stopped]
          exact ⟨turn, fun done => nomatch done⟩
        · have continues : loop = vmaMapPages hhdmOffset (ctx.pointer hhdmOffset)
              (record.pointer hhdmOffset) fuel (vmaMapPage hhdmOffset (ctx.pointer hhdmOffset)
                (record.pointer hhdmOffset) machine i).2 (i + 1#64) := by
            simp only [loop, vmaMapPages, if_pos inside, if_neg failed]
          -- the turn leaves the record as it is
          have same := turn.same record (Set.notMem_empty _) region.recordInUse
          have sameStart := Frame.load64_start_congr same
          have sameSize := @Frame.load64_congr hhdmOffset 8#64 _ _ _ same (by decide)
          have sameFlags := @Frame.load64_congr hhdmOffset 16#64 _ _ _ same (by decide)
          unfold regionStart regionSize regionFlags at *
          rw [← sameFlags] at valid
          obtain ⟨rest, heldLater⟩ := inductionHypothesis (region.advance turn) valid enoughLater
          rw [continues]
          rw [sameStart, sameSize] at heldLater
          refine ⟨Set.empty_union ∅ ▸ turn.trans rest, ?_⟩
          intro done j behind few below
          by_cases here : j = i
          · rw [here]
            exact rest.held _ (heldHere failed)
          · exact heldLater done j (by bv_omega) (by bv_omega) below
      · have ended : loop = (true, machine) := by
          simp only [loop, vmaMapPages, if_neg inside]
        rw [ended]
        refine ⟨.refl region.usable region.space, fun _ j behind _ below => ?_⟩
        exact absurd (Nat.lt_of_le_of_lt behind below) inside

end Loop

/-! The whole call -/

theorem mappedPages_lt (size : U64) : (mappedPages size).toNat < 2 ^ 52 := by
  unfold mappedPages pageSize
  have divisor : (4096#64 : U64).toNat = 4096 := rfl
  rw [BitVec.toNat_udiv, divisor]
  omega

/-- Each mapping of the call finds the frames it needs. -/
def AllocationEnough (hhdmOffset : U64) (machine : Machine) (ctx size flags : U64) : Prop :=
  ∀ newRegion placed, vmaPlace hhdmOffset machine ctx size flags = some (newRegion, placed) →
    newRegion ≠ 0#64 → TurnsEnough hhdmOffset ctx newRegion (2 ^ 52) placed 0#64

/-- What a call does, whether it returns a region or `NULL`. -/
theorem vmaAlloc_spec (heap : HeapContext hhdmOffset kernel ctx records before)
    (valid : EntryFlags flags)
    (enough : AllocationEnough hhdmOffset before (ctx.pointer hhdmOffset) size flags) {region : U64}
    (allocated : vmaAlloc hhdmOffset before (ctx.pointer hhdmOffset) size flags =
      some (region, after)) :
    (∃ more, HeapContext hhdmOffset kernel ctx more after) ∧
      (∀ virt, HeldPage hhdmOffset kernel before virt → HeldPage hhdmOffset kernel after virt) ∧
      (region ≠ 0#64 → ∀ i < mappedPages size,
        HeldPage hhdmOffset kernel after (region + i * pageSize)) := by
  obtain ⟨⟨newRegion, middle⟩, isPlaced, result⟩ := Option.map_eq_some_iff.mp allocated
  obtain ⟨more, placed⟩ := vmaPlace_spec heap isPlaced
  dsimp only at result
  by_cases null : newRegion = 0#64
  · rw [if_pos null] at result
    cases result
    exact ⟨⟨more, placed.heap⟩, placed.held, fun nonnull => absurd rfl nonnull⟩
  · rw [if_neg null] at result
    obtain ⟨record, recordIn, rfl⟩ := placed.record null
    obtain ⟨advances, held⟩ := vmaMapPages_spec (2 ^ 52) (placed.heap.mapping recordIn)
      ((placed.flags null).symm ▸ valid) (enough _ _ isPlaced null)
    have kept : ∀ virt, HeldPage hhdmOffset kernel before virt → HeldPage hhdmOffset kernel
        (vmaMapPages hhdmOffset (ctx.pointer hhdmOffset) (record.pointer hhdmOffset) (2 ^ 52)
          middle 0#64).2 virt := fun virt early => advances.held virt (placed.held virt early)
    have same := advances.same record (Set.notMem_empty _)
      (placed.heap.recordsInUse record recordIn)
    split_ifs at result with done
    · cases result
      refine ⟨⟨more, placed.heap.advance advances⟩, kept, ?_⟩
      intro _ i below
      have few := mappedPages_lt size
      have page := held done i (by bv_omega) (by bv_omega) (by rw [placed.size null]; exact below)
      unfold regionStart at page ⊢
      rw [Frame.load64_start_congr same]
      exact page
    · cases result
      exact ⟨⟨more, placed.heap.advance advances⟩, kept, fun nonnull => absurd rfl nonnull⟩

end Nekonix
