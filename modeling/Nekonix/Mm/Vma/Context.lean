import Nekonix.Mm.Vma.Allocation
import Nekonix.Mm.Vmm.Cleared
import Nekonix.Mm.Vmm.MapRun

/-!
# Fresh contexts

`vma_create_context` puts the context and the root of its list in two frames.  The
root stands for page 0, so the first region begins at page 1.
-/

namespace Nekonix

open FlatMemory RadixTable

variable {hhdmOffset size flags : U64} {kernel ctx : Frame} {before middle after : Machine}
  {records : Set Frame}

/-- What the context starts from: the kernel's pagemap, page 0, and behind `NULL`
nothing but frames in use. -/
structure KernelReady (hhdmOffset : U64) (kernel : Frame) (records : Set Frame)
    (machine : Machine) : Prop where
  usable : machine.stack.Usable
  space : AddressSpace hhdmOffset machine kernel Set.univ
  pageZero : InUse hhdmOffset kernel machine 0#40
  recordsInUse : ∀ record ∈ records, InUse hhdmOffset kernel machine record
  next : ClosedUnderNext hhdmOffset machine.memory records
  null : ∃ last ∈ records, last.pointer hhdmOffset = 0#64

/-- The list of a fresh context: the root, one page long and followed by nothing. -/
structure FreshContext (hhdmOffset : U64) (kernel ctx root : Frame) (records : Set Frame)
    (machine : Machine) : Prop where
  heap : HeapContext hhdmOffset kernel ctx (insert root records) machine
  nonzero : root ≠ 0#40
  isRoot : Memory.load64 machine.memory (contextRoot (ctx.pointer hhdmOffset)) =
    root.pointer hhdmOffset
  last : nextRegion machine.memory (root.pointer hhdmOffset) = 0#64
  regionEnd : regionEnd machine.memory (root.pointer hhdmOffset) = pageSize

/-- The fields of a context and its root, once their frames are there. -/
def freshContext (memory : Memory) (ctx root pagemap : U64) : Memory :=
  let memory := Memory.store64 memory (contextRoot ctx) root
  let memory := memset memory root 0#8 vmaRegionSize
  let memory := Memory.store64 memory (contextPagemap ctx) pagemap
  let memory := Memory.store64 memory (regionStart root) 0#64
  Memory.store64 memory (regionSize root) 1#64

section Fresh

variable {root : Frame} {memory other : Memory} {pagemap : U64}

/-- What is stored in the root's frame does not change where the context leads. -/
theorem load64_contextRoot (different : ctx ≠ root)
    (outside : ∀ address, ¬root.Holds hhdmOffset address → other address = memory address) :
    Memory.load64 other (contextRoot (ctx.pointer hhdmOffset)) =
      Memory.load64 memory (contextRoot (ctx.pointer hhdmOffset)) := by
  refine @Frame.load64_congr hhdmOffset 8#64 _ _ _ (fun address inContext => ?_) (by decide)
  exact outside address fun inRoot => different (inContext.unique inRoot)

theorem vmaCreateContext_eq (different : ctx ≠ root)
    (first : pmmRequestPage hhdmOffset before = (ctx.address, middle))
    (cleared : memset middle.memory (ctx.pointer hhdmOffset) 0#8 vmaContextSize = memory)
    (second : pmmRequestPage hhdmOffset { middle with memory } = (root.address, after)) :
    vmaCreateContext hhdmOffset before pagemap =
      (ctx.pointer hhdmOffset,
        { after with
          memory := freshContext after.memory (ctx.pointer hhdmOffset) (root.pointer hhdmOffset)
            pagemap }) := by
  -- each time the context is read it leads to the root
  have linked : Memory.load64 (Memory.store64 after.memory (contextRoot (ctx.pointer hhdmOffset))
      (root.pointer hhdmOffset)) (contextRoot (ctx.pointer hhdmOffset)) =
        root.pointer hhdmOffset := Memory.load64_store64_same _ _ _
  have afterPagemap : ∀ memory : Memory,
      Memory.load64 (Memory.store64 memory (contextPagemap (ctx.pointer hhdmOffset)) pagemap)
          (contextRoot (ctx.pointer hhdmOffset)) =
        Memory.load64 memory (contextRoot (ctx.pointer hhdmOffset)) := fun memory =>
    Memory.load64_store64_separate (start_separate (by decide) (by decide))
  have afterClear : ∀ memory : Memory,
      Memory.load64 (memset memory (root.pointer hhdmOffset) 0#8 vmaRegionSize)
          (contextRoot (ctx.pointer hhdmOffset)) =
        Memory.load64 memory (contextRoot (ctx.pointer hhdmOffset)) := fun memory =>
    load64_contextRoot different fun _ off => clearRegion_outside off
  have afterStart : ∀ memory : Memory,
      Memory.load64 (Memory.store64 memory (regionStart (root.pointer hhdmOffset)) 0#64)
          (contextRoot (ctx.pointer hhdmOffset)) =
        Memory.load64 memory (contextRoot (ctx.pointer hhdmOffset)) := fun memory =>
    load64_contextRoot different fun _ off => Frame.store64_start_outside off
  unfold Frame.pointer at *
  simp only [vmaCreateContext, requestRegion, first, cleared, second, linked, afterPagemap,
    afterClear, afterStart, freshContext]

/-- Behind the store of the pagemap only the root's frame is written. -/
theorem freshContext_outside_root {address : U64} (off : ¬root.Holds hhdmOffset address) :
    freshContext memory (ctx.pointer hhdmOffset) (root.pointer hhdmOffset) pagemap address =
      Memory.store64 (memset (Memory.store64 memory (contextRoot (ctx.pointer hhdmOffset))
          (root.pointer hhdmOffset)) (root.pointer hhdmOffset) 0#8 vmaRegionSize)
        (contextPagemap (ctx.pointer hhdmOffset)) pagemap address := by
  unfold freshContext regionSize regionStart
  rw [Frame.store64_outside off (by decide), Frame.store64_start_outside off]

theorem freshContext_outside {address : U64} (offContext : ¬ctx.Holds hhdmOffset address)
    (offRoot : ¬root.Holds hhdmOffset address) :
    freshContext memory (ctx.pointer hhdmOffset) (root.pointer hhdmOffset) pagemap address =
      memory address := by
  rw [freshContext_outside_root offRoot, contextPagemap, Frame.store64_start_outside offContext,
    clearRegion_outside offRoot, contextRoot, Frame.store64_outside offContext (by decide)]

theorem freshContext_context (different : ctx ≠ root) :
    let fresh := freshContext memory (ctx.pointer hhdmOffset) (root.pointer hhdmOffset) pagemap
    Memory.load64 fresh (contextPagemap (ctx.pointer hhdmOffset)) = pagemap ∧
      Memory.load64 fresh (contextRoot (ctx.pointer hhdmOffset)) = root.pointer hhdmOffset := by
  constructor
  · have same := Frame.load64_start_congr fun address (inContext : ctx.Holds hhdmOffset address) =>
      @freshContext_outside_root hhdmOffset ctx root memory pagemap address
        fun inRoot => different (inContext.unique inRoot)
    exact same.trans (Memory.load64_store64_same _ _ _)
  · have stored := load64_contextRoot different fun address off =>
      @freshContext_outside_root hhdmOffset ctx root memory pagemap address off
    have separate : Separate (ctx.pointer hhdmOffset + 8#64) 8 (ctx.pointer hhdmOffset) 8 :=
      start_separate (by decide) (by decide)
    rw [stored, contextPagemap, contextRoot, Memory.load64_store64_separate separate]
    have cleared := load64_contextRoot different fun address off =>
      @clearRegion_outside hhdmOffset (Memory.store64 memory
        (contextRoot (ctx.pointer hhdmOffset)) (root.pointer hhdmOffset)) root address off
    exact cleared.trans (Memory.load64_store64_same _ _ _)

theorem freshContext_root (different : ctx ≠ root) :
    let fresh := freshContext memory (ctx.pointer hhdmOffset) (root.pointer hhdmOffset) pagemap
    nextRegion fresh (root.pointer hhdmOffset) = 0#64 ∧
      regionEnd fresh (root.pointer hhdmOffset) = pageSize := by
  constructor
  · unfold freshContext nextRegion regionNext regionSize regionStart contextPagemap
    dsimp only
    rw [Memory.load64_store64_separate (fields_separate (by decide) (by decide)).symm,
      Memory.load64_store64_separate (start_separate (by decide) (by decide)),
      Memory.load64_store64_separate]
    · exact nextRegion_clear _ root
    · have apart := @Frame.fields_separate hhdmOffset 24#64 0#64 root ctx different.symm
        (by decide) (by decide)
      rw [BitVec.add_zero] at apart
      exact apart
  · unfold freshContext regionEnd regionSize regionStart
    dsimp only
    rw [Memory.load64_store64_same,
      Memory.load64_store64_separate (start_separate (by decide) (by decide)).symm,
      Memory.load64_store64_same]
    decide

/-- The root begins at page 0, is one page long, and has no `prev`. -/
theorem freshContext_fields (different : ctx ≠ root) :
    let fresh := freshContext memory (ctx.pointer hhdmOffset) (root.pointer hhdmOffset) pagemap
    Memory.load64 fresh (regionStart (root.pointer hhdmOffset)) = 0#64 ∧
      Memory.load64 fresh (regionSize (root.pointer hhdmOffset)) = 1#64 ∧
      Memory.load64 fresh (regionPrev (root.pointer hhdmOffset)) = 0#64 := by
  unfold freshContext regionStart regionSize regionPrev contextPagemap
  refine ⟨?_, Memory.load64_store64_same _ _ _, ?_⟩
  · dsimp only
    rw [Memory.load64_store64_separate (start_separate (by decide) (by decide)).symm,
      Memory.load64_store64_same]
  · dsimp only
    rw [Memory.load64_store64_separate (fields_separate (by decide) (by decide)).symm,
      Memory.load64_store64_separate (start_separate (by decide) (by decide)),
      Memory.load64_store64_separate]
    · rw [memset_eq_fill _ _ _ (by decide)]
      apply load_fill_inside
      intro position below
      unfold InRange vmaRegionSize
      bv_omega
    · have apart := @Frame.fields_separate hhdmOffset 32#64 0#64 root ctx different.symm
        (by decide) (by decide)
      rw [BitVec.add_zero] at apart
      exact apart

end Fresh

/-- A context and its root in two frames that were free. -/
structure ContextCreated (hhdmOffset pagemap : U64) (ctx root : Frame) (before after : Machine) :
    Prop where
  takes : TakesFrames hhdmOffset [ctx, root] before after
  ctxNonzero : ctx ≠ 0#40
  rootNonzero : root ≠ 0#40
  different : ctx ≠ root
  isPagemap : Memory.load64 after.memory (contextPagemap (ctx.pointer hhdmOffset)) = pagemap
  isRoot : Memory.load64 after.memory (contextRoot (ctx.pointer hhdmOffset)) =
    root.pointer hhdmOffset
  last : nextRegion after.memory (root.pointer hhdmOffset) = 0#64
  regionEnd : Nekonix.regionEnd after.memory (root.pointer hhdmOffset) = pageSize

/-- ... with all fields of the root. -/
structure RootCreated (hhdmOffset pagemap : U64) (ctx root : Frame) (before after : Machine) :
    Prop extends ContextCreated hhdmOffset pagemap ctx root before after where
  start : Memory.load64 after.memory (regionStart (root.pointer hhdmOffset)) = 0#64
  size : Memory.load64 after.memory (regionSize (root.pointer hhdmOffset)) = 1#64
  prev : Memory.load64 after.memory (regionPrev (root.pointer hhdmOffset)) = 0#64

theorem vmaCreateContext_spec {pagemap : U64} (usable : before.stack.Usable)
    (enough : 2 ≤ before.free.length) :
    ∃ (ctx root : Frame) (after : Machine),
      vmaCreateContext hhdmOffset before pagemap = (ctx.pointer hhdmOffset, after) ∧
      RootCreated hhdmOffset pagemap ctx root before after := by
  obtain ⟨ctx, middle, first, ctxNonzero, ctxTakes⟩ := pmmRequestPage_takesFrame hhdmOffset
    usable (List.ne_nil_of_length_pos (by omega))
  have head := ctxTakes.write (memset middle.memory (ctx.pointer hhdmOffset) 0#8 vmaContextSize) (by
    intro address outside
    rw [memset_eq_fill _ _ _ (by decide)]
    apply fill_outside
    exact fun inside => outside ctx List.mem_cons_self (inside.mono (by decide)))
  have count := head.length_free
  rw [List.length_singleton] at count
  obtain ⟨root, last, second, rootNonzero, rootTakes⟩ := pmmRequestPage_takesFrame hhdmOffset
    (head.usable usable) (List.ne_nil_of_length_pos (by omega))
  have different : ctx ≠ root := by
    rintro rfl
    exact head.taken_notFree usable List.mem_cons_self (rootTakes.taken_free List.mem_cons_self)
  have takes := (head.trans rootTakes).write (freshContext last.memory (ctx.pointer hhdmOffset)
      (root.pointer hhdmOffset) pagemap) (by
    intro address outside
    exact freshContext_outside (outside ctx (by simp)) (outside root (by simp)))
  obtain ⟨isPagemap, isRoot⟩ := @freshContext_context hhdmOffset ctx root last.memory
    pagemap different
  obtain ⟨isLast, isEnd⟩ := @freshContext_root hhdmOffset ctx root last.memory
    pagemap different
  obtain ⟨isStart, isSize, isPrev⟩ := @freshContext_fields hhdmOffset ctx root last.memory
    pagemap different
  exact ⟨ctx, root, _, vmaCreateContext_eq different first rfl second, ⟨takes, ctxNonzero,
    rootNonzero, different, isPagemap, isRoot, isLast, isEnd⟩, isStart, isSize, isPrev⟩

/-- With two free frames there is a context, and its list holds the root alone. -/
theorem vmaCreateContext_fresh (ready : KernelReady hhdmOffset kernel records before)
    (enough : 2 ≤ before.free.length) :
    ∃ (ctx root : Frame) (after : Machine),
      vmaCreateContext hhdmOffset before (kernel.pointer hhdmOffset) =
        (ctx.pointer hhdmOffset, after) ∧
      FreshContext hhdmOffset kernel ctx root records after ∧
      before.free.length = after.free.length + 2 := by
  obtain ⟨ctx, root, after, isContext, created⟩ :=
    @vmaCreateContext_spec hhdmOffset before (kernel.pointer hhdmOffset) ready.usable enough
  have takes := created.takes
  have advances := Advances.of_takes takes ready.usable ready.space
  have inUse : ∀ frame ∈ [ctx, root], InUse hhdmOffset kernel after frame :=
    fun frame taken => takes.inUse_taken ready.usable ready.space taken
  refine ⟨ctx, root, after, isContext,
    ⟨?_, created.rootNonzero, created.isRoot, created.last, created.regionEnd⟩, takes.length_free⟩
  obtain ⟨null, nullIn, isNull⟩ := ready.null
  refine ⟨advances.usable, advances.space, inUse ctx (by simp), ?_, created.ctxNonzero,
    advances.inUse _ ready.pageZero, created.isPagemap,
    ⟨root, Set.mem_insert _ _, created.isRoot⟩, ?_, ?_,
    ⟨null, Set.mem_insert_of_mem _ nullIn, isNull⟩⟩
  · rintro (same | listed)
    · exact created.different same
    · exact (ready.recordsInUse ctx listed).notFree (takes.taken_free (by simp))
  · rintro frame (rfl | listed)
    · exact inUse _ (by simp)
    · exact advances.inUse frame (ready.recordsInUse frame listed)
  · have kept := ready.next.congr fun record listed =>
      advances.same record (Set.notMem_empty _) (ready.recordsInUse record listed)
    rintro record (rfl | listed)
    · exact ⟨null, Set.mem_insert_of_mem _ nullIn, created.last.trans isNull.symm⟩
    · obtain ⟨next, nextIn, leads⟩ := kept record listed
      exact ⟨next, Set.mem_insert_of_mem _ nextIn, leads⟩

/-- Where the direct map begins at 0 only page 0 lies at `NULL`. -/
theorem identity_nonnull (frame : Frame) (nonzero : frame ≠ 0#40) : frame.pointer 0#64 ≠ 0#64 := by
  intro null
  rw [Frame.pointer, higherHalf, BitVec.add_zero] at null
  exact nonzero (Frame.address_inj.mp null)

/-- A cleared machine, where page 0 stands behind `NULL`. -/
theorem cleared_ready (count : Nat) (small : count < 2 ^ 39) :
    KernelReady 0#64 1#40 {0#40} (Machine.cleared count) := by
  have space : AddressSpace 0#64 (Machine.cleared count) 1#40 Set.univ :=
    Machine.addressSpace_cleared small
  have pageZero : InUse 0#64 1#40 (Machine.cleared count) 0#40 := by
    constructor
    · intro free
      have bounds := Machine.mem_free_cleared small free
      exact absurd bounds.1 (by decide)
    · intro path membership reached
      have atRoot := (reached_of_cleared (fun index _ => Machine.tables_cleared count 1#40 index)
        membership reached).2
      exact absurd atRoot (by decide)
  refine ⟨Machine.usable_cleared small, space, pageZero, ?_, ?_, ⟨0#40, rfl, rfl⟩⟩
  · rintro record rfl
    exact pageZero
  · rintro record rfl
    have leads : nextRegion (Machine.cleared count).memory (Frame.pointer 0#64 0#40) = 0#64 := by
      apply load_eq_of_bytes
      intro offset below
      rw [BitVec.extractLsb'_zero]
      rfl
    exact ⟨0#40, rfl, leads⟩

/-! The first region -/

/-- The flags of `liballoc_alloc`. -/
def heapFlags : U64 := vmmPresent ||| vmmWritable

section First

variable {root : Frame} {region newRegion : U64}

/-- The first record goes behind the root. -/
theorem vmaPlace_first (fresh : FreshContext hhdmOffset kernel ctx root records before)
    (placed : vmaPlace hhdmOffset before (ctx.pointer hhdmOffset) size flags =
      some (newRegion, after)) (nonnull : newRegion ≠ 0#64) :
    Memory.load64 after.memory (regionStart newRegion) = pageSize := by
  have rootInUse := fresh.heap.recordsInUse root (Set.mem_insert _ _)
  obtain ⟨record, middle, isRequest, available, -, requested⟩ :=
    requestRegion_spec fresh.heap.usable fresh.heap.space fresh.heap.pageZero
  have different : record ≠ root := by
    rintro rfl
    exact available.elim fresh.nonzero rootInUse.notFree
  have rootKept := (fresh.heap.contextRoot_kept available requested).trans fresh.isRoot
  have alone := (congrArg (nextRegion before.memory) fresh.isRoot).trans fresh.last
  have cleared : ∀ address, root.Holds hhdmOffset address →
      memset middle.memory (record.pointer hhdmOffset) 0#8 vmaRegionSize address =
        before.memory address := by
    intro address inRoot
    rw [clearRegion_outside fun inRecord => different (inRecord.unique inRoot)]
    exact requested.same root (Set.notMem_empty _) rootInUse address inRoot
  rcases vmaPlace_cases isRequest placed with ⟨null, -⟩ | ⟨rfl, -, region, memory, linked, rfl⟩
  · exact absurd null nonnull
  · cases linked with
    | alone nothing =>
        rw [rootKept]
        have linked := @vmaAppend_linked hhdmOffset size flags
          (memset middle.memory (record.pointer hhdmOffset) 0#8 vmaRegionSize) record root
        exact ((linked.start different).trans (Frame.regionEnd_congr cleared)).trans fresh.regionEnd
    | last more isLast => exact absurd alone more
    | fitting more found => exact absurd alone more

/-- The first region of a context begins at page 1. -/
theorem vmaAlloc_first (fresh : FreshContext hhdmOffset kernel ctx root records before)
    (valid : EntryFlags flags)
    (enough : AllocationEnough hhdmOffset before (ctx.pointer hhdmOffset) size flags)
    (allocated : vmaAlloc hhdmOffset before (ctx.pointer hhdmOffset) size flags =
      some (region, after)) (returned : region ≠ 0#64) : region = pageSize := by
  obtain ⟨⟨newRegion, middle⟩, isPlaced, result⟩ := Option.map_eq_some_iff.mp allocated
  obtain ⟨more, placed⟩ := vmaPlace_spec fresh.heap isPlaced
  dsimp only at result
  by_cases null : newRegion = 0#64
  · rw [if_pos null] at result
    cases result
    exact absurd rfl returned
  · rw [if_neg null] at result
    obtain ⟨record, recordIn, rfl⟩ := placed.record null
    obtain ⟨advances, -⟩ := vmaMapPages_spec (2 ^ 52) (placed.heap.mapping recordIn)
      ((placed.flags null).symm ▸ valid) (enough _ _ isPlaced null)
    have same := advances.same record (Set.notMem_empty _)
      (placed.heap.recordsInUse record recordIn)
    split_ifs at result with done
    · cases result
      exact (Frame.load64_start_congr same).trans (vmaPlace_first fresh isPlaced null)
    · cases result
      exact absurd rfl returned

/-- A frame that is free gives the first region its record. -/
theorem vmaPlace_first_returns (fresh : FreshContext hhdmOffset kernel ctx root records before)
    (nonnull : ∀ frame : Frame, frame ≠ 0#40 → frame.pointer hhdmOffset ≠ 0#64)
    (available : before.free ≠ []) :
    ∃ newRegion placed, newRegion ≠ 0#64 ∧
      vmaPlace hhdmOffset before (ctx.pointer hhdmOffset) size flags = some (newRegion, placed) ∧
      before.free.length = placed.free.length + 1 := by
  obtain ⟨record, next, result, recordNonzero, takes⟩ :=
    pmmRequestPage_takesFrame hhdmOffset fresh.heap.usable available
  have kernelNonzero : kernel ≠ 0#40 :=
    fun isZero => fresh.heap.pageZero.notTable [] nil_mem_within (congrArg some isZero)
  have valid : ¬(ctx.pointer hhdmOffset = 0#64 ∨ root.pointer hhdmOffset = 0#64 ∨
      kernel.pointer hhdmOffset = 0#64) := by
    rintro (null | null | null)
    · exact nonnull ctx fresh.heap.notPageZero null
    · exact nonnull root fresh.nonzero null
    · exact nonnull kernel kernelNonzero null
  have recordNonnull : higherHalf hhdmOffset record.address ≠ 0#64 := nonnull record recordNonzero
  let cleared := memset next.memory (higherHalf hhdmOffset record.address) 0#8 vmaRegionSize
  let memory := vmaAppend cleared (higherHalf hhdmOffset record.address)
    (Memory.load64 cleared (contextRoot (ctx.pointer hhdmOffset))) size flags
  refine ⟨_, { next with memory }, recordNonnull, ?_, takes.length_free⟩
  unfold vmaPlace
  simp only [fresh.isRoot, fresh.heap.pagemap, if_neg valid, if_pos fresh.last, requestRegion,
    result, if_neg recordNonnull, memory, cleared]

/-- A turn takes four frames at most. -/
theorem vmaMapPage_supply {machine : Machine} {record : Frame} {i : U64}
    (region : MappingRegion hhdmOffset kernel ctx record machine)
    (valid : EntryFlags (Memory.load64 machine.memory (regionFlags (record.pointer hhdmOffset))))
    (supply : 4 ≤ machine.free.length) :
    let turn := vmaMapPage hhdmOffset (ctx.pointer hhdmOffset) (record.pointer hhdmOffset) machine i
    turn.1 ≠ 0#64 ∧ machine.free.length ≤ turn.2.free.length + 4 := by
  intro turn
  obtain ⟨frame, next, result, nonzero, takes⟩ := pmmRequestPage_takesFrame hhdmOffset region.usable
    (List.ne_nil_of_length_pos (Nat.lt_of_lt_of_le (by decide) supply))
  have requested := Advances.of_takes takes region.usable region.space
  have between := region.advance requested
  have same := requested.same record (Set.notMem_empty _) region.recordInUse
  have count := takes.length_free
  rw [List.length_singleton] at count
  have nonnull : frame.address ≠ 0#64 :=
    fun null => nonzero (Frame.address_inj.mp (null.trans (by decide)))
  have validThen : EntryFlags
      (Memory.load64 next.memory (regionFlags (record.pointer hhdmOffset))) := by
    unfold regionFlags at *
    rw [Frame.load64_congr same (by decide)]
    exact valid
  obtain ⟨-, -, spent⟩ := @MapStep.of_supply _ kernel next
    ⟨Memory.load64 next.memory (regionStart (record.pointer hhdmOffset)) + i * pageSize,
      frame.address, _⟩ between.usable between.space validThen (by omega)
  have isTurn : turn = (frame.address, MapCall.apply hhdmOffset (kernel.pointer hhdmOffset) next
      ⟨Memory.load64 next.memory (regionStart (record.pointer hhdmOffset)) + i * pageSize,
        frame.address, Memory.load64 next.memory (regionFlags (record.pointer hhdmOffset))⟩) := by
    simp only [turn, vmaMapPage, result, if_neg nonnull, between.pagemap, MapCall.apply]
  rw [isTurn]
  refine ⟨nonnull, ?_⟩
  rw [count]
  exact Nat.succ_le_succ spent

/-- A loop of one turn. -/
theorem vmaMapPages_single {machine : Machine} {ctx newRegion : U64}
    (single : mappedPages (Memory.load64 machine.memory (regionSize newRegion)) = 1#64)
    (enough : TurnEnough hhdmOffset ctx newRegion machine 0#64)
    (kept : Memory.load64 (vmaMapPage hhdmOffset ctx newRegion machine 0#64).2.memory
      (regionSize newRegion) = Memory.load64 machine.memory (regionSize newRegion))
    (backed : (vmaMapPage hhdmOffset ctx newRegion machine 0#64).1 ≠ 0#64) (fuel : Nat) :
    TurnsEnough hhdmOffset ctx newRegion (fuel + 2) machine 0#64 ∧
      vmaMapPages hhdmOffset ctx newRegion (fuel + 2) machine 0#64 =
        (true, (vmaMapPage hhdmOffset ctx newRegion machine 0#64).2) := by
  have first : 0#64 < mappedPages (Memory.load64 machine.memory (regionSize newRegion)) := by
    rw [single]
    decide
  have last : ¬0#64 + 1#64 < mappedPages (Memory.load64
      (vmaMapPage hhdmOffset ctx newRegion machine 0#64).2.memory (regionSize newRegion)) := by
    rw [kept, single]
    decide
  refine ⟨fun _ => ⟨enough, fun further => absurd further last⟩, ?_⟩
  simp only [vmaMapPages, if_pos first, if_neg backed, if_neg last]

/-- Five free frames are enough for a first region of one page. -/
theorem vmaAlloc_first_page (fresh : FreshContext hhdmOffset kernel ctx root records before)
    (valid : EntryFlags flags)
    (nonnull : ∀ frame : Frame, frame ≠ 0#40 → frame.pointer hhdmOffset ≠ 0#64)
    (supply : 5 ≤ before.free.length) :
    AllocationEnough hhdmOffset before (ctx.pointer hhdmOffset) 1#64 flags ∧
      ∃ after, vmaAlloc hhdmOffset before (ctx.pointer hhdmOffset) 1#64 flags =
        some (pageSize, after) ∧ before.free.length ≤ after.free.length + 5 := by
  obtain ⟨newRegion, machine, isRegion, isPlaced, count⟩ :=
    @vmaPlace_first_returns _ 1#64 flags _ _ _ _ _ fresh nonnull
      (List.ne_nil_of_length_pos (by omega))
  obtain ⟨more, placed⟩ := vmaPlace_spec fresh.heap isPlaced
  obtain ⟨record, recordIn, rfl⟩ := placed.record isRegion
  have single : mappedPages (Memory.load64 machine.memory
      (regionSize (record.pointer hhdmOffset))) = 1#64 := by
    rw [placed.size isRegion]
    decide
  have validFlags := (placed.flags isRegion).symm ▸ valid
  have enough : TurnEnough hhdmOffset (ctx.pointer hhdmOffset) (record.pointer hhdmOffset) machine
      0#64 := by
    right
    exact (Nat.add_le_add_left (missingTables_le _ _ _ _) 1).trans (by omega)
  obtain ⟨advances, -⟩ := vmaMapPage_spec (placed.heap.mapping recordIn) validFlags enough
  have same := advances.same record (Set.notMem_empty _)
    (placed.heap.recordsInUse record recordIn)
  have kept := @Frame.load64_congr hhdmOffset 8#64 _ _ _ same (by decide)
  obtain ⟨backed, spent⟩ :=
    @vmaMapPage_supply _ _ _ _ _ 0#64 (placed.heap.mapping recordIn) validFlags (by omega)
  obtain ⟨turns, loop⟩ := vmaMapPages_single single enough kept backed (2 ^ 52 - 2)
  have supplied : AllocationEnough hhdmOffset before (ctx.pointer hhdmOffset) 1#64 flags := by
    intro other otherPlaced isOther _
    rw [isPlaced] at isOther
    cases isOther
    exact turns
  have result : vmaAlloc hhdmOffset before (ctx.pointer hhdmOffset) 1#64 flags =
      some (Memory.load64 machine.memory (regionStart (record.pointer hhdmOffset)),
        (vmaMapPage hhdmOffset (ctx.pointer hhdmOffset) (record.pointer hhdmOffset) machine
          0#64).2) := by
    have fuel : 2 ^ 52 - 2 + 2 = 2 ^ 52 := by decide
    rw [fuel] at loop
    unfold vmaAlloc
    simp only [isPlaced, Option.map_some, if_neg isRegion, loop, if_true]
    exact congrArg some (Prod.ext (Frame.load64_start_congr same) rfl)
  rw [vmaPlace_first fresh isPlaced isRegion] at result
  exact ⟨supplied, _, result, by omega⟩

end First

end Nekonix
