import Nekonix.Mm.Vma.History

/-!
# Where the search ends

The search of `vma_alloc` goes on until it is back at the root, but the list ends in
`NULL`.  It stays in the list exactly where a region before the last one passes the test.
-/

namespace Nekonix

open FlatMemory RadixTable LinkedList Loop Transition

variable {hhdmOffset size flags region : U64} {pool : List U64} {kernel ctx record : Frame}
  {records : List Frame} {booted start before machine middle : Machine} {memory : Memory}

/-- `vma_alloc` comes to its search loop. -/
def EntersSearch (memory : Memory) (ctx : U64) : Prop :=
  ctx ≠ 0#64 ∧ Memory.load64 memory (contextRoot ctx) ≠ 0#64 ∧
    Memory.load64 memory (contextPagemap ctx) ≠ 0#64 ∧
    nextRegion memory (Memory.load64 memory (contextRoot ctx)) ≠ 0#64

/-- From the end of the region to the start of the next one there are `size` bytes. -/
def GapFits (memory : Memory) (size region : U64) : Prop :=
  (regionEnd memory region).toNat + size.toNat ≤
    (Memory.load64 memory (regionStart (nextRegion memory region))).toNat

/-- The search ends, the regions it works on are listed and have a region behind them, and
where no gap fits the new region goes to the end of the list. -/
structure SearchInside (hhdmOffset : U64) (machine : Machine) (ctx size flags : U64) : Prop where
  ends : EntersSearch machine.memory ctx → ∃ heads found,
    let root := Memory.load64 machine.memory (contextRoot ctx)
    Ends (vmaSearchTurn machine.memory root size) (nextRegion machine.memory root) heads found
  linked : EntersSearch machine.memory ctx → ∀ region,
    let root := Memory.load64 machine.memory (contextRoot ctx)
    Reaches (vmaSearchTurn machine.memory root size) (nextRegion machine.memory root) region →
    region ≠ root →
    (∃ regions, RegionList machine.memory ctx regions ∧ region ∈ regions) ∧
      nextRegion machine.memory region ≠ 0#64
  appended : ∀ regions, RegionList machine.memory ctx regions →
    (∀ region ∈ regions.dropLast, ¬GapFits machine.memory size region) →
    ∀ newRegion placed, vmaPlace hhdmOffset machine ctx size flags = some (newRegion, placed) →
      newRegion ≠ 0#64 → RegionList placed.memory ctx (regions ++ [newRegion])

/-- There is no region behind the root; or one before the last passes the test, and either a
gap fits or there is no frame for a record. -/
def SearchStays (hhdmOffset : U64) (machine : Machine) (size : U64) (regions : List U64) : Prop :=
  regions.tail = [] ∨
    (∃ region ∈ regions.tail.dropLast, RegionFits machine.memory size region) ∧
      ((∃ region ∈ regions.dropLast, GapFits machine.memory size region) ∨
        machine.free = [] ∧ hhdmOffset = 0#64)

/-- One region behind the root is not enough. -/
theorem not_searchStays_pair {root last : U64} :
    ¬SearchStays hhdmOffset machine size [root, last] := by
  rintro (none | ⟨⟨_, listed, -⟩, -⟩)
  · cases none
  · cases listed

/-- Behind regions that fail the test the search comes to the next one. -/
theorem vmaSearch_reaches {start root last : U64} {passed : List U64}
    (list : Segment (nextRegion memory) 0#64 start (passed ++ [last])) (apart : root ∉ passed)
    (fail : ∀ earlier ∈ passed, ¬RegionFits memory size earlier) :
    Reaches (vmaSearchTurn memory root size) start last := by
  induction passed generalizing start with
  | nil =>
      obtain ⟨rfl, -, -⟩ := list
      exact .refl
  | cons first passed inductionHypothesis =>
      obtain ⟨rfl, -, further⟩ := list
      rw [List.mem_cons, not_or] at apart
      refine .head ?_ (inductionHypothesis further apart.2
        fun earlier membership => fail earlier (List.mem_cons_of_mem _ membership))
      rw [vmaSearchTurn, if_neg (Ne.symm apart.1), if_neg (fail start List.mem_cons_self)]

namespace SoundContext

/-- The search is entered where the root has a region behind it. -/
theorem enters_iff (sound : SoundContext hhdmOffset pool kernel ctx records machine)
    (ctxNonnull : ctx.pointer hhdmOffset ≠ 0#64) (pagemapNonnull : kernel.pointer hhdmOffset ≠ 0#64) :
    EntersSearch machine.memory (ctx.pointer hhdmOffset) ↔ records.tail ≠ [] := by
  have list := sound.list
  unfold EntersSearch
  rw [sound.pagemap]
  cases records with
  | nil =>
      have noRoot : Memory.load64 machine.memory (contextRoot (ctx.pointer hhdmOffset)) = 0#64 := list
      exact iff_of_false (fun enters => enters.2.1 noRoot) (fun more => more rfl)
  | cons root rest =>
      obtain ⟨isRoot, rootNonnull, further⟩ := list
      rw [isRoot, List.tail_cons]
      constructor
      · rintro ⟨-, -, -, more⟩ rfl
        exact more further
      · intro more
        refine ⟨ctxNonnull, rootNonnull, pagemapNonnull, fun alone => more ?_⟩
        rw [alone] at further
        exact List.map_eq_nil_iff.mp further.eq_nil

/-- A record has a frame, unless none is left and the direct map begins at `NULL`. -/
theorem record_null_iff (sound : SoundContext hhdmOffset pool kernel ctx records before)
    (mapped : ∀ frame : Frame, frame.address ∈ pool → frame.pointer hhdmOffset ≠ 0#64)
    (requested : RecordRequested hhdmOffset ctx records record before middle) :
    record.pointer hhdmOffset = 0#64 ↔ before.free = [] ∧ hhdmOffset = 0#64 := by
  by_cases empty : before.free = []
  · have isRequest := requested.isRequest
    rw [requestRegion, pmmRequestPage_empty empty] at isRequest
    have isRecord : 0#64 + hhdmOffset = record.pointer hhdmOffset := congrArg Prod.fst isRequest
    rw [← isRecord, BitVec.zero_add, and_iff_right empty]
  · refine iff_of_false (mapped record ?_) (fun none => empty none.1)
    exact sound.pooled _ ((requested.takes empty).taken_free List.mem_cons_self)

/-- Where a region before the last one passes the test, the search stays in front of the
last one. -/
theorem search_stays (sound : SoundContext hhdmOffset pool kernel ctx records machine)
    (early : ∃ region ∈ (records.map (Frame.pointer hhdmOffset)).tail.dropLast,
      RegionFits machine.memory size region) :
    let root := Memory.load64 machine.memory (contextRoot (ctx.pointer hhdmOffset))
    ∃ heads found,
      Ends (vmaSearchTurn machine.memory root size) (nextRegion machine.memory root) heads found ∧
      ∀ region ∈ heads, region ∈ records.map (Frame.pointer hhdmOffset) ∧
        nextRegion machine.memory region ≠ 0#64 := by
  have list := sound.list
  have distinct := list.nodup
  unfold RegionList at list
  generalize records.map (Frame.pointer hhdmOffset) = regions at early list distinct ⊢
  cases regions with
  | nil =>
      obtain ⟨_, listed, -⟩ := early
      cases listed
  | cons root rest =>
      obtain ⟨isRoot, -, further⟩ := list
      rw [List.tail_cons] at early
      rcases List.eq_nil_or_concat' rest with rfl | ⟨front, last, rfl⟩
      · obtain ⟨_, listed, -⟩ := early
        cases listed
      rw [List.dropLast_concat] at early
      obtain ⟨passed, region, later, rfl, passes, fail⟩ := exists_first_fit early
      have inFront : ∀ head ∈ passed ++ [region], head ∈ passed ++ region :: later := by
        intro head membership
        rw [List.append_cons]
        exact List.mem_append_left _ membership
      have apart : root ∉ passed ++ [region] := fun again =>
        (List.nodup_cons.mp distinct).1 (List.mem_append_left _ (inFront root again))
      have leads := further.next_ne_stop
      rw [List.append_assoc, List.cons_append] at further
      rw [isRoot]
      refine ⟨_, region, vmaSearch_ends further apart fail passes, fun head membership => ⟨?_, ?_⟩⟩
      · exact List.mem_cons_of_mem _ (List.mem_append_left _ (inFront head membership))
      · exact leads head (inFront head membership)

/-- Where none does, it comes to the last one. -/
theorem search_leaves (sound : SoundContext hhdmOffset pool kernel ctx records machine)
    (more : (records.map (Frame.pointer hhdmOffset)).tail ≠ [])
    (none : ¬∃ region ∈ (records.map (Frame.pointer hhdmOffset)).tail.dropLast,
      RegionFits machine.memory size region) :
    let root := Memory.load64 machine.memory (contextRoot (ctx.pointer hhdmOffset))
    ∃ last,
      Reaches (vmaSearchTurn machine.memory root size) (nextRegion machine.memory root) last ∧
      last ≠ root ∧ nextRegion machine.memory last = 0#64 := by
  have list := sound.list
  have distinct := list.nodup
  unfold RegionList at list
  generalize records.map (Frame.pointer hhdmOffset) = regions at more none list distinct
  cases regions with
  | nil => exact absurd rfl more
  | cons root rest =>
      obtain ⟨isRoot, -, further⟩ := list
      rw [List.tail_cons] at more none
      obtain ⟨front, last, rfl⟩ := (List.eq_nil_or_concat' rest).resolve_left more
      rw [List.dropLast_concat] at none
      have apart := (List.nodup_cons.mp distinct).1
      rw [isRoot]
      refine ⟨last, vmaSearch_reaches further (fun again => apart (List.mem_append_left _ again)) ?_,
        ?_, further.drop.2.2⟩
      · exact fun earlier membership passes => none ⟨earlier, membership, passes⟩
      · rintro rfl
        exact apart (List.mem_append_right _ (List.mem_singleton_self _))

/-- Where there is no region behind the root, the new one is. -/
theorem appended_of_alone {newRegion : U64} {placed : Machine}
    (sound : SoundContext hhdmOffset pool kernel ctx records before) (alone : records.tail = [])
    (isPlaced : vmaPlace hhdmOffset before (ctx.pointer hhdmOffset) size flags =
      some (newRegion, placed)) (nonnull : newRegion ≠ 0#64) :
    RegionList placed.memory (ctx.pointer hhdmOffset)
      (records.map (Frame.pointer hhdmOffset) ++ [newRegion]) := by
  obtain ⟨record, middle, requested⟩ := sound.request
  have inside : EndsInList before.memory (ctx.pointer hhdmOffset) size := by
    intro regions list
    rw [list.unique sound.list, ← List.map_tail, alone]
    exact Or.inl rfl
  obtain ⟨_, _, alsoPlaced, cases⟩ := sound.place_spec flags requested inside
  rw [isPlaced] at alsoPlaced
  cases alsoPlaced
  rcases cases with ⟨null, -⟩ | ⟨rfl, recordNonnull, front, previous, back, rfl, behind, linked⟩
  · exact absurd null nonnull
  · have list := sound.linked_list requested recordNonnull linked.toLinkedBehind
    cases front with
    | nil =>
        cases alone
        exact list
    | cons root front => simp at alone

/-- Where a region before the last one passes the test, the new one goes behind that. -/
theorem inserted_of_early (flags : U64)
    (sound : SoundContext hhdmOffset pool kernel ctx records before)
    (ctxNonnull : ctx.pointer hhdmOffset ≠ 0#64) (pagemapNonnull : kernel.pointer hhdmOffset ≠ 0#64)
    (requested : RecordRequested hhdmOffset ctx records record before middle)
    (early : ∃ region ∈ (records.map (Frame.pointer hhdmOffset)).tail.dropLast,
      RegionFits before.memory size region) :
    ∃ placed,
      vmaPlace hhdmOffset before (ctx.pointer hhdmOffset) size flags =
        some (record.pointer hhdmOffset, placed) ∧
      (record.pointer hhdmOffset ≠ 0#64 →
        ¬RegionList placed.memory (ctx.pointer hhdmOffset)
          (records.map (Frame.pointer hhdmOffset) ++ [record.pointer hhdmOffset])) := by
  have inside : EndsInList before.memory (ctx.pointer hhdmOffset) size := by
    intro regions list
    rw [list.unique sound.list]
    obtain ⟨region, listed, passes⟩ := early
    exact Or.inr ⟨region, List.dropLast_subset _ listed, passes⟩
  obtain ⟨newRegion, placed, isPlaced, cases⟩ := sound.place_spec flags requested inside
  rcases cases with ⟨rfl, ⟨none | none | none, -⟩ | ⟨null, -⟩⟩ |
    ⟨rfl, recordNonnull, front, previous, back, rfl, behind, linked⟩
  · exact absurd none ctxNonnull
  · subst none
    obtain ⟨_, listed, -⟩ := early
    cases listed
  · exact absurd none pagemapNonnull
  · refine ⟨placed, ?_, fun nonnull => absurd null nonnull⟩
    rw [null]
    exact isPlaced
  · refine ⟨placed, isPlaced, fun _ appended => ?_⟩
    have list := sound.linked_list requested recordNonnull linked.toLinkedBehind
    have same := list.unique appended
    rw [← List.map_singleton (f := Frame.pointer hhdmOffset), ← List.map_append] at same
    have sameRecords := List.map_injective_iff.mpr (fun _ _ => Frame.pointer_inj.mp) same
    rw [List.append_assoc, List.append_cancel_left_eq, List.cons_append,
      List.cons_inj_right] at sameRecords
    cases back with
    | cons next back =>
        -- the new record would be listed before
        obtain ⟨rfl, -⟩ := List.cons_eq_cons.mp sameRecords
        exact requested.fresh (by simp)
    | nil =>
        -- the record would go behind the last one, which is not the first that passes
        obtain ⟨region, listed, passes⟩ := early
        cases front with
        | nil => cases listed
        | cons root front =>
            have fail := (behind.resolve_left fun none => nomatch none.1).2.2
            rw [← List.map_tail, List.cons_append, List.tail_cons, ← List.map_dropLast,
              List.dropLast_concat] at listed
            obtain ⟨earlier, membership, rfl⟩ := List.mem_map.mp listed
            exact fail earlier membership passes

/-- The search stays in the list and appends where no gap fits, exactly under
`SearchStays`. -/
theorem searchInside_iff (sound : SoundContext hhdmOffset pool kernel ctx records machine)
    (mapped : ∀ frame : Frame, frame.address ∈ pool → frame.pointer hhdmOffset ≠ 0#64)
    (pagemapNonnull : kernel.pointer hhdmOffset ≠ 0#64) :
    SearchInside hhdmOffset machine (ctx.pointer hhdmOffset) size flags ↔
      SearchStays hhdmOffset machine size (records.map (Frame.pointer hhdmOffset)) := by
  have ctxNonnull := mapped ctx (sound.fromPool ctx List.mem_cons_self)
  have entersIff := sound.enters_iff ctxNonnull pagemapNonnull
  obtain ⟨record, middle, requested⟩ := sound.request
  have recordNull := sound.record_null_iff mapped requested
  have tailIff : (records.map (Frame.pointer hhdmOffset)).tail = [] ↔ records.tail = [] := by
    rw [← List.map_tail, List.map_eq_nil_iff]
  constructor
  · intro inside
    refine or_iff_not_imp_left.mpr fun more => ?_
    have enters := entersIff.mpr (mt tailIff.mpr more)
    by_cases early : ∃ region ∈ (records.map (Frame.pointer hhdmOffset)).tail.dropLast,
        RegionFits machine.memory size region
    · refine ⟨early, or_iff_not_imp_right.mpr fun record => ?_⟩
      by_contra gapless
      obtain ⟨placed, isPlaced, notAppended⟩ :=
        sound.inserted_of_early flags ctxNonnull pagemapNonnull requested early
      have nonnull := mt recordNull.mp record
      refine notAppended nonnull (inside.appended _ sound.list ?_ _ _ isPlaced nonnull)
      exact fun region listed fits => gapless ⟨region, listed, fits⟩
    · obtain ⟨last, reaches, notRoot, stops⟩ := sound.search_leaves more early
      exact absurd stops (inside.linked enters last reaches notRoot).2
  · rintro (alone | ⟨early, gap⟩)
    · have outside := mt entersIff.mp (not_not.mpr (tailIff.mp alone))
      refine ⟨fun enters => absurd enters outside, fun enters => absurd enters outside, ?_⟩
      intro regions list _ newRegion placed isPlaced nonnull
      rw [list.unique sound.list]
      exact sound.appended_of_alone (tailIff.mp alone) isPlaced nonnull
    · obtain ⟨heads, found, ends, linked⟩ := sound.search_stays early
      refine ⟨fun _ => ⟨heads, found, ends⟩, ?_, ?_⟩
      · intro _ region root reaches _
        obtain ⟨listed, further⟩ := linked region (ends.mem_of_reaches reaches)
        exact ⟨⟨_, sound.list, listed⟩, further⟩
      · intro regions list gapless newRegion placed isPlaced nonnull
        rw [list.unique sound.list] at gapless
        obtain ⟨_, alsoPlaced, -⟩ :=
          sound.inserted_of_early flags ctxNonnull pagemapNonnull requested early
        rw [isPlaced] at alsoPlaced
        cases alsoPlaced
        rcases gap with ⟨region, listed, fits⟩ | none
        · exact absurd fits (gapless region listed)
        · exact absurd (recordNull.mpr none) nonnull

end SoundContext

theorem ContextReady.pool_nonnull (ready : ContextReady hhdmOffset kernel booted) {frame : Frame}
    (inPool : frame.address ∈ booted.free) : frame.pointer hhdmOffset ≠ 0#64 := by
  obtain ⟨same, nonzero, isFrame⟩ := ready.usable.frame _ inPool
  cases Frame.address_inj.mp isFrame
  exact pointer_ne_zero nonzero (ready.mapped frame inPool)

/-- In a context that any calls have left, the search for any size stays in the list, and
appends where no gap fits, exactly if there is no region behind the root, or one before the
last passes the test and a gap fits. -/
theorem vma_search_inside_iff {calls : List VmaCall} (ready : ContextReady hhdmOffset kernel booted)
    (created : vmaCreateContext hhdmOffset booted (kernel.pointer hhdmOffset) =
      (ctx.pointer hhdmOffset, start))
    (run : Run (VmaStep hhdmOffset booted.free kernel ctx) start calls machine) :
    ∃ regions, RegionList machine.memory (ctx.pointer hhdmOffset) regions ∧
      ∀ size flags, SearchInside hhdmOffset machine (ctx.pointer hhdmOffset) size flags ↔
        SearchStays hhdmOffset machine size regions := by
  obtain ⟨records, sound⟩ := ready.reached created run
  exact ⟨_, sound.list, fun size flags =>
    sound.searchInside_iff (fun _ inPool => ready.pool_nonnull inPool) ready.pagemapNonnull⟩

/-- With one region behind the root the search does not stay in the list. -/
theorem vma_search_inside_iff_one : ∃ ctx root record start machine,
    OneRegion ctx root record start machine ∧
      ¬SearchInside 0#64 machine (ctx.pointer 0#64) 1#64 heapFlags := by
  obtain ⟨ctx, root, record, start, machine, one⟩ := oneRegion_exists
  refine ⟨ctx, root, record, start, machine, one, fun inside => ?_⟩
  obtain ⟨regions, list, iff⟩ :=
    vma_search_inside_iff (contextReady_cleared 9 (by decide) (by decide)) one.created one.run
  rw [list.unique one.sound.list] at iff
  exact not_searchStays_pair ((iff 1#64 heapFlags).mp inside)

/-- The search can leave the list: the region behind the root has `NULL` behind it. -/
theorem vma_search_leaves_list : ¬∀ (hhdmOffset size flags : U64) (kernel ctx : Frame)
    (booted start machine : Machine) (calls : List VmaCall),
    ContextReady hhdmOffset kernel booted →
    vmaCreateContext hhdmOffset booted (kernel.pointer hhdmOffset) =
      (ctx.pointer hhdmOffset, start) →
    Run (VmaStep hhdmOffset booted.free kernel ctx) start calls machine →
    SearchInside hhdmOffset machine (ctx.pointer hhdmOffset) size flags := by
  intro always
  obtain ⟨ctx, root, record, start, machine, one⟩ := oneRegion_exists
  have ready := contextReady_cleared 9 (by decide) (by decide)
  have inside := always 0#64 1#64 heapFlags 1#40 ctx _ start machine _ ready one.created one.run
  exact not_searchStays_pair ((one.sound.searchInside_iff (fun _ inPool => ready.pool_nonnull inPool)
    ready.pagemapNonnull).mp inside)

end Nekonix
