import Nekonix.Library.Loop
import Nekonix.Mm.Vma.Lists

/-!
# Allocation in a list

The search of `vma_alloc` goes from region to region.  Where one of them passes the test
the new region is linked behind it, and the list stays a list.
-/

namespace Nekonix

open FlatMemory RadixTable LinkedList Loop

variable {hhdmOffset size flags region root : U64} {pool : List U64}
  {kernel ctx record : Frame} {records front back : List Frame}
  {machine before middle after : Machine} {memory : Memory}

/-! The search -/

/-- One turn of the search loop. -/
def vmaSearchTurn (memory : Memory) (root size region : U64) : Turn U64 U64 :=
  if region = root then
    .leave root
  else if RegionFits memory size region then
    .leave region
  else
    .next (nextRegion memory region)

theorem vmaSearch_of_ends {heads : List U64} {found : U64} {fuel : Nat}
    (ends : Ends (vmaSearchTurn memory root size) region heads found)
    (enough : heads.length ≤ fuel) : vmaSearch memory root size fuel region = some found := by
  induction ends generalizing fuel with
  | leave turn =>
      obtain ⟨fuel, rfl⟩ := Nat.exists_eq_add_of_le' enough
      rw [vmaSearchTurn] at turn
      change vmaSearch memory root size (fuel + 1) _ = _
      rw [vmaSearch]
      split_ifs at turn ⊢ <;> cases turn <;> rfl
  | turn turn _ inductionHypothesis =>
      obtain ⟨fuel, rfl⟩ := Nat.exists_eq_add_of_le' (Nat.one_le_of_lt enough)
      rw [vmaSearchTurn] at turn
      rw [vmaSearch]
      split_ifs at turn ⊢
      cases turn
      exact inductionHypothesis (Nat.le_of_succ_le_succ enough)

/-- The search passes the regions that fail the test and stops at the first other one. -/
theorem vmaSearch_ends {start : U64} {passed rest : List U64}
    (list : Segment (nextRegion memory) 0#64 start (passed ++ region :: rest))
    (apart : root ∉ passed ++ [region]) (fail : ∀ earlier ∈ passed, ¬RegionFits memory size earlier)
    (fits : RegionFits memory size region) :
    Ends (vmaSearchTurn memory root size) start (passed ++ [region]) region := by
  induction passed generalizing start with
  | nil =>
      obtain ⟨rfl, -, -⟩ := list
      refine .leave ?_
      rw [vmaSearchTurn, if_neg fun same => apart (by simp [same]), if_pos fits]
  | cons first passed inductionHypothesis =>
      obtain ⟨rfl, -, further⟩ := list
      rw [List.cons_append, List.mem_cons, not_or] at apart
      refine .turn ?_ (inductionHypothesis further apart.2
        fun earlier membership => fail earlier (List.mem_cons_of_mem _ membership))
      rw [vmaSearchTurn, if_neg (Ne.symm apart.1), if_neg (fail start List.mem_cons_self)]

/-- Where regions pass the test there is a first one. -/
theorem exists_first_fit {regions : List U64} (fits : ∃ region ∈ regions, RegionFits memory size region) :
    ∃ passed region rest, regions = passed ++ region :: rest ∧ RegionFits memory size region ∧
      ∀ earlier ∈ passed, ¬RegionFits memory size earlier := by
  obtain ⟨region, listed, passes⟩ := fits
  have found : (regions.find? fun region => RegionFits memory size region).isSome := by
    rw [List.find?_isSome]
    exact ⟨region, listed, decide_eq_true passes⟩
  obtain ⟨first, isFirst⟩ := Option.isSome_iff_exists.mp found
  obtain ⟨passes, passed, rest, split, fail⟩ := List.find?_eq_some_iff_append.mp isFirst
  refine ⟨passed, first, rest, split, of_decide_eq_true passes, fun earlier membership => ?_⟩
  simpa using fail earlier membership

/-! The new record -/

/-- The list holds one region at most behind its head, or a region passes the test. -/
def EndsInList (memory : Memory) (ctx size : U64) : Prop :=
  ∀ regions, RegionList memory ctx regions →
    regions.tail = [] ∨ ∃ region ∈ regions.tail, RegionFits memory size region

/-- The new record goes behind the only one, or behind the first record after the root
that passes the test. -/
def GoesBehind (hhdmOffset : U64) (memory : Memory) (size : U64) (front : List Frame)
    (previous : Frame) (back : List Frame) : Prop :=
  front = [] ∧ back = [] ∨
    front ≠ [] ∧ RegionFits memory size (previous.pointer hhdmOffset) ∧
      ∀ earlier ∈ front.tail, ¬RegionFits memory size (earlier.pointer hhdmOffset)

/-- The record, which has been cleared, is filled and linked behind `previous`. -/
structure LinkedBehind (hhdmOffset size flags : U64) (record previous : Frame)
    (middle after : Machine) : Prop where
  stack : after.stack = middle.stack
  linked : RegionLinked hhdmOffset
    (memset middle.memory (record.pointer hhdmOffset) 0#8 vmaRegionSize) record previous size flags
    after.memory
  leads : record ≠ previous → nextRegion after.memory (record.pointer hhdmOffset) =
    nextRegion (memset middle.memory (record.pointer hhdmOffset) 0#8 vmaRegionSize)
      (previous.pointer hhdmOffset)

theorem LinkedBehind.of_append {previous : Frame}
    (last : nextRegion (memset middle.memory (record.pointer hhdmOffset) 0#8 vmaRegionSize)
      (previous.pointer hhdmOffset) = 0#64)
    (stored : memory = vmaAppend
      (memset middle.memory (record.pointer hhdmOffset) 0#8 vmaRegionSize)
      (record.pointer hhdmOffset) (previous.pointer hhdmOffset) size flags) :
    LinkedBehind hhdmOffset size flags record previous middle { middle with memory } where
  stack := rfl
  linked := stored ▸ vmaAppend_linked
  leads := fun different => stored ▸ (vmaAppend_next different).trans last.symm

theorem LinkedBehind.of_insert {previous : Frame}
    (stored : memory = vmaInsert
      (memset middle.memory (record.pointer hhdmOffset) 0#8 vmaRegionSize)
      (record.pointer hhdmOffset) (previous.pointer hhdmOffset) size flags) :
    LinkedBehind hhdmOffset size flags record previous middle { middle with memory } where
  stack := rfl
  linked := stored ▸ vmaInsert_linked
  leads := fun different => stored ▸ vmaInsert_next different

/-- ... and it knows `previous`, which has its other fields still. -/
structure FilledBehind (hhdmOffset size flags : U64) (record previous : Frame)
    (middle after : Machine) : Prop extends
    LinkedBehind hhdmOffset size flags record previous middle after where
  prev : record ≠ previous →
    Memory.load64 after.memory (regionPrev (record.pointer hhdmOffset)) = previous.pointer hhdmOffset
  fields : record ≠ previous → SameFields hhdmOffset
    (memset middle.memory (record.pointer hhdmOffset) 0#8 vmaRegionSize) after.memory previous

theorem FilledBehind.of_append {previous : Frame}
    (last : nextRegion (memset middle.memory (record.pointer hhdmOffset) 0#8 vmaRegionSize)
      (previous.pointer hhdmOffset) = 0#64)
    (stored : memory = vmaAppend
      (memset middle.memory (record.pointer hhdmOffset) 0#8 vmaRegionSize)
      (record.pointer hhdmOffset) (previous.pointer hhdmOffset) size flags) :
    FilledBehind hhdmOffset size flags record previous middle { middle with memory } where
  toLinkedBehind := .of_append last stored
  prev := fun different => stored ▸ vmaAppend_prev different
  fields := fun different => stored ▸ vmaAppend_fields different

theorem FilledBehind.of_insert {previous : Frame}
    (stored : memory = vmaInsert
      (memset middle.memory (record.pointer hhdmOffset) 0#8 vmaRegionSize)
      (record.pointer hhdmOffset) (previous.pointer hhdmOffset) size flags) :
    FilledBehind hhdmOffset size flags record previous middle { middle with memory } where
  toLinkedBehind := .of_insert stored
  prev := fun different => stored ▸ vmaInsert_prev different
  fields := fun different => stored ▸ vmaInsert_fields different

/-- The frame for a record is none of the context's, and neither the request nor the
clearing of the record writes one of those. -/
structure RecordRequested (hhdmOffset : U64) (ctx : Frame) (records : List Frame) (record : Frame)
    (before middle : Machine) : Prop where
  isRequest : requestRegion hhdmOffset before = (record.pointer hhdmOffset, middle)
  drawn : Drawn before middle
  takes : before.free ≠ [] → TakesFrames hhdmOffset [record] before middle
  fresh : record ∉ ctx :: records
  kept : ∀ frame ∈ ctx :: records, SameFrame hhdmOffset before.memory
    (memset middle.memory (record.pointer hhdmOffset) 0#8 vmaRegionSize) frame

theorem SoundContext.request
    (sound : SoundContext hhdmOffset pool kernel ctx records before) :
    ∃ record middle, RecordRequested hhdmOffset ctx records record before middle := by
  have drawn := Drawn.request hhdmOffset before
  by_cases empty : before.free = []
  · -- page 0, which is no frame of the context
    have fresh : (0#40 : Frame) ∉ ctx :: records :=
      fun listed => sound.nonzero listed (by decide)
    refine ⟨0#40, before, ?_, .of_stack rfl, fun available => absurd empty available, fresh, ?_⟩
    · rw [requestRegion, pmmRequestPage_empty empty]
      rfl
    · intro frame listed address inFrame
      exact clearRegion_outside fun inRecord => fresh (inRecord.unique inFrame ▸ listed)
  · obtain ⟨record, middle, request, -, takes⟩ :=
      pmmRequestPage_takesFrame hhdmOffset sound.usable empty
    have fresh : record ∉ ctx :: records := fun listed =>
      (sound.inUse record listed).notFree (takes.taken_free List.mem_cons_self)
    rw [request] at drawn
    refine ⟨record, middle, ?_, drawn, fun _ => takes, fresh, ?_⟩
    · rw [requestRegion, request]
      rfl
    · intro frame listed address inFrame
      have apart : ¬record.Holds hhdmOffset address :=
        fun inRecord => fresh (inRecord.unique inFrame ▸ listed)
      rw [clearRegion_outside apart]
      exact (Advances.of_takes takes sound.usable sound.space).same frame (Set.notMem_empty _)
        (sound.inUse frame listed) address inFrame

/-- The search finds the first record behind the root that passes the test. -/
theorem SoundContext.search_found {root : Frame}
    (sound : SoundContext hhdmOffset pool kernel ctx (root :: records) before)
    (fits : ∃ region ∈ records.map (Frame.pointer hhdmOffset),
      RegionFits before.memory size region) :
    ∃ front fitting back, records = front ++ fitting :: back ∧
      vmaSearch before.memory (root.pointer hhdmOffset) size (2 ^ 64)
          (nextRegion before.memory (root.pointer hhdmOffset)) =
        some (fitting.pointer hhdmOffset) ∧
      RegionFits before.memory size (fitting.pointer hhdmOffset) ∧
      ∀ earlier ∈ front, ¬RegionFits before.memory size (earlier.pointer hhdmOffset) := by
  obtain ⟨-, -, further⟩ := sound.list
  have apart : root.pointer hhdmOffset ∉ records.map (Frame.pointer hhdmOffset) := by
    rw [Frame.pointer_mem]
    exact (List.nodup_cons.mp (List.nodup_cons.mp sound.nodup).2).1
  obtain ⟨passed, first, later, split, passes, fail⟩ := exists_first_fit fits
  obtain ⟨front, others, rfl, rfl, isRest⟩ := List.map_eq_append_iff.mp split
  obtain ⟨fitting, back, rfl, rfl, rfl⟩ := List.map_eq_cons_iff.mp isRest
  rw [split] at further apart
  have notPassed : root.pointer hhdmOffset ∉
      front.map (Frame.pointer hhdmOffset) ++ [fitting.pointer hhdmOffset] := by
    rw [List.append_cons] at apart
    exact fun again => apart (List.mem_append_left _ again)
  have ends := vmaSearch_ends further notPassed fail passes
  have short := further.length_lt_width
  refine ⟨front, fitting, back, rfl, vmaSearch_of_ends ends (by simp at short ⊢; omega), passes, ?_⟩
  exact fun earlier membership => fail _ (List.mem_map_of_mem membership)

/-- Up to the mapping loop the call ends: there is no new region, for want of a context, a
root, a pagemap or a frame, or it is linked. -/
theorem SoundContext.place_spec (flags : U64)
    (sound : SoundContext hhdmOffset pool kernel ctx records before)
    (requested : RecordRequested hhdmOffset ctx records record before middle)
    (inside : EndsInList before.memory (ctx.pointer hhdmOffset) size) :
    ∃ newRegion after,
      vmaPlace hhdmOffset before (ctx.pointer hhdmOffset) size flags = some (newRegion, after) ∧
      (newRegion = 0#64 ∧
          ((ctx.pointer hhdmOffset = 0#64 ∨ records = [] ∨ kernel.pointer hhdmOffset = 0#64) ∧
              after = before ∨
            record.pointer hhdmOffset = 0#64 ∧ after = middle) ∨
        newRegion = record.pointer hhdmOffset ∧ record.pointer hhdmOffset ≠ 0#64 ∧
          ∃ front previous back, records = front ++ previous :: back ∧
            GoesBehind hhdmOffset before.memory size front previous back ∧
            FilledBehind hhdmOffset size flags record previous middle after) := by
  have list := sound.list
  unfold vmaPlace
  dsimp only
  cases records with
  | nil =>
      have noRoot : Memory.load64 before.memory (contextRoot (ctx.pointer hhdmOffset)) = 0#64 := list
      rw [if_pos (Or.inr (Or.inl noRoot))]
      exact ⟨_, _, rfl, Or.inl ⟨rfl, Or.inl ⟨Or.inr (Or.inl rfl), rfl⟩⟩⟩
  | cons root rest =>
      obtain ⟨isRoot, rootNonnull, further⟩ := list
      have rootKept := (requested.kept ctx List.mem_cons_self).contextRoot.trans isRoot
      have nextKept := (requested.kept root (by simp)).nextRegion
      rw [isRoot, sound.pagemap, requested.isRequest]
      dsimp only
      split_ifs with invalid alone failed failed
      · refine ⟨_, _, rfl, Or.inl ⟨rfl, Or.inl ⟨?_, rfl⟩⟩⟩
        exact invalid.imp_right fun either => Or.inr (either.resolve_left rootNonnull)
      · exact ⟨_, _, rfl, Or.inl ⟨rfl, Or.inr ⟨failed, rfl⟩⟩⟩
      · -- the root is the only record
        have none : rest = [] := by
          rw [alone] at further
          exact List.map_eq_nil_iff.mp further.eq_nil
        subst none
        rw [rootKept]
        exact ⟨_, _, rfl, Or.inr ⟨rfl, failed, [], root, [], rfl, Or.inl ⟨rfl, rfl⟩,
          .of_append (nextKept.trans alone) rfl⟩⟩
      all_goals
        have fits := (inside _ sound.list).resolve_left fun none => by
          rw [List.map_cons, List.tail_cons, List.map_eq_nil_iff] at none
          subst none
          exact alone further
        obtain ⟨front, fitting, back, rfl, search, passes, fail⟩ := sound.search_found fits
        rw [search, Option.bind_some]
      · exact ⟨_, _, rfl, Or.inl ⟨rfl, Or.inr ⟨failed, rfl⟩⟩⟩
      · have distinct := (List.nodup_cons.mp (List.nodup_cons.mp sound.nodup).2).1
        have notRoot : fitting.pointer hhdmOffset ≠ root.pointer hhdmOffset := by
          intro same
          apply distinct
          simp [← Frame.pointer_inj.mp same]
        rw [if_neg notRoot]
        exact ⟨_, _, rfl, Or.inr ⟨rfl, failed, root :: front, fitting, back, rfl,
          Or.inr ⟨by simp, passes, fail⟩, .of_insert rfl⟩⟩

/-- The record is listed behind `previous` from then on. -/
theorem SoundContext.linked_list {previous : Frame}
    (sound : SoundContext hhdmOffset pool kernel ctx (front ++ previous :: back) before)
    (requested : RecordRequested hhdmOffset ctx (front ++ previous :: back) record before middle)
    (nonnull : record.pointer hhdmOffset ≠ 0#64)
    (linked : LinkedBehind hhdmOffset size flags record previous middle after) :
    RegionList after.memory (ctx.pointer hhdmOffset)
      ((front ++ previous :: record :: back).map (Frame.pointer hhdmOffset)) := by
  have different : record ≠ previous := by
    rintro rfl
    exact requested.fresh (by simp)
  have distinct := sound.nodup
  rw [← List.cons_append, List.nodup_middle, List.nodup_cons, List.cons_append] at distinct
  have previousKept := (requested.kept previous (by simp)).nextRegion
  refine sound.list.insert nonnull ((linked.leads different).trans previousKept)
    linked.linked.link ?_
  intro frame membership address inFrame
  have listed : frame ∈ ctx :: (front ++ previous :: back) := by
    simp only [List.mem_cons, List.mem_append] at membership ⊢
    tauto
  have offRecord : ¬record.Holds hhdmOffset address :=
    fun inRecord => requested.fresh (inRecord.unique inFrame ▸ listed)
  have offPrevious : ¬previous.Holds hhdmOffset address :=
    fun inPrevious => distinct.1 (inPrevious.unique inFrame ▸ membership)
  rw [linked.linked.outside address offRecord offPrevious]
  exact requested.kept frame listed address inFrame

/-- The new region lies behind `previous`. -/
structure RegionPlaced (hhdmOffset : U64) (pool : List U64) (kernel ctx : Frame)
    (size flags : U64) (front : List Frame) (previous record : Frame) (back : List Frame)
    (before after : Machine) : Prop where
  wasFree : record.address ∈ before.free
  nonnull : record.pointer hhdmOffset ≠ 0#64
  sound : SoundContext hhdmOffset pool kernel ctx (front ++ previous :: record :: back) after
  size : Memory.load64 after.memory (regionSize (record.pointer hhdmOffset)) = size
  flags : Memory.load64 after.memory (regionFlags (record.pointer hhdmOffset)) = flags

/-- The record goes into the list of the context. -/
theorem SoundContext.placed {previous : Frame}
    (sound : SoundContext hhdmOffset pool kernel ctx (front ++ previous :: back) before)
    (requested : RecordRequested hhdmOffset ctx (front ++ previous :: back) record before middle)
    (nonnull : record.pointer hhdmOffset ≠ 0#64) (available : before.free ≠ [])
    (linked : LinkedBehind hhdmOffset size flags record previous middle after) :
    RegionPlaced hhdmOffset pool kernel ctx size flags front previous record back before after := by
  have takes := requested.takes available
  have different : record ≠ previous := by
    rintro rfl
    exact requested.fresh (by simp)
  have wasFree := takes.taken_free List.mem_cons_self
  have between := sound.advance (.of_takes takes sound.usable sound.space) requested.drawn
  have cleared : SameFrame hhdmOffset middle.memory
      (memset middle.memory (record.pointer hhdmOffset) 0#8 vmaRegionSize) previous :=
    fun address inPrevious =>
      clearRegion_outside fun inRecord => different (inRecord.unique inPrevious)
  obtain ⟨sameStack, linked, leads⟩ := linked
  obtain ⟨memory, stack⟩ := after
  dsimp only at sameStack linked leads
  subst sameStack
  refine ⟨wasFree, nonnull, ?_, linked.size, linked.flags⟩
  refine between.link requested.fresh
    (takes.inUse_taken sound.usable sound.space List.mem_cons_self) (sound.pooled _ wasFree) nonnull
    ?_ linked.link ((leads different).trans cleared.nextRegion)
  intro address offRecord offPrevious
  rw [linked.outside address offRecord offPrevious, clearRegion_outside offRecord]

/-- Before the mapping loop the list has a new region, or is what it was. -/
theorem SoundContext.place {newRegion : U64}
    (sound : SoundContext hhdmOffset pool kernel ctx records before) (available : before.free ≠ [])
    (inside : EndsInList before.memory (ctx.pointer hhdmOffset) size)
    (placed : vmaPlace hhdmOffset before (ctx.pointer hhdmOffset) size flags =
      some (newRegion, after)) :
    newRegion = 0#64 ∧ SoundContext hhdmOffset pool kernel ctx records after ∨
      ∃ front previous record back, records = front ++ previous :: back ∧
        newRegion = record.pointer hhdmOffset ∧
        RegionPlaced hhdmOffset pool kernel ctx size flags front previous record back before
          after := by
  obtain ⟨record, middle, requested⟩ := sound.request
  obtain ⟨_, _, isPlaced, cases⟩ := sound.place_spec flags requested inside
  rw [placed] at isPlaced
  cases isPlaced
  rcases cases with ⟨null, ⟨-, rfl⟩ | ⟨-, rfl⟩⟩ |
    ⟨rfl, nonnull, front, previous, back, rfl, -, linked⟩
  · exact Or.inl ⟨null, sound⟩
  · have takes := requested.takes available
    exact Or.inl ⟨null, sound.advance (.of_takes takes sound.usable sound.space) requested.drawn⟩
  · exact Or.inr ⟨front, previous, record, back, rfl, rfl,
      sound.placed requested nonnull available linked.toLinkedBehind⟩

/-! The mapping loop -/

theorem vmaMapPage_drawn (hhdmOffset ctx newRegion : U64) (machine : Machine) (i : U64) :
    Drawn machine (vmaMapPage hhdmOffset ctx newRegion machine i).2 := by
  have requested := Drawn.request hhdmOffset machine
  unfold vmaMapPage
  dsimp only
  split
  · exact requested
  · exact requested.trans (Drawn.map ..)

theorem vmaMapPages_drawn (hhdmOffset ctx newRegion : U64) (fuel : Nat) (machine : Machine)
    (i : U64) : Drawn machine (vmaMapPages hhdmOffset ctx newRegion fuel machine i).2 := by
  induction fuel generalizing machine i with
  | zero => exact .of_stack rfl
  | succ fuel inductionHypothesis =>
      have turn := vmaMapPage_drawn hhdmOffset ctx newRegion machine i
      unfold vmaMapPages
      dsimp only
      split
      · split
        · exact turn
        · exact turn.trans (inductionHypothesis _ _)
      · exact .of_stack rfl

/-- What is mapped for a record of the list does not touch the list. -/
theorem SoundContext.map (sound : SoundContext hhdmOffset pool kernel ctx records machine)
    (listed : record ∈ records)
    (valid : EntryFlags (Memory.load64 machine.memory (regionFlags (record.pointer hhdmOffset))))
    (fuel : Nat) {i : U64}
    (enough : TurnsEnough hhdmOffset (ctx.pointer hhdmOffset) (record.pointer hhdmOffset) fuel
      machine i) :
    let loop := vmaMapPages hhdmOffset (ctx.pointer hhdmOffset) (record.pointer hhdmOffset) fuel
      machine i
    SoundContext hhdmOffset pool kernel ctx records loop.2 ∧
      ∀ frame ∈ records, SameFrame hhdmOffset machine.memory loop.2.memory frame := by
  have region : MappingRegion hhdmOffset kernel ctx record machine :=
    { usable := sound.usable
      space := sound.space
      context := sound.inUse ctx List.mem_cons_self
      pagemap := sound.pagemap
      recordInUse := sound.inUse record (List.mem_cons_of_mem _ listed) }
  have advances := (vmaMapPages_spec fuel region valid enough).1
  refine ⟨sound.advance advances (vmaMapPages_drawn ..), fun frame membership => ?_⟩
  exact advances.same frame (Set.notMem_empty _)
    (sound.inUse frame (List.mem_cons_of_mem _ membership))

/-- `vma_alloc` returns `NULL` without a new region, or it links one and returns where it
begins, or `NULL` for lack of memory. -/
theorem SoundContext.alloc {newRegion returned : U64}
    (sound : SoundContext hhdmOffset pool kernel ctx records before) (available : before.free ≠ [])
    (inside : EndsInList before.memory (ctx.pointer hhdmOffset) size) (valid : EntryFlags flags)
    (enough : AllocationEnough hhdmOffset before (ctx.pointer hhdmOffset) size flags)
    (placed : vmaPlace hhdmOffset before (ctx.pointer hhdmOffset) size flags =
      some (newRegion, middle))
    (allocated : vmaAlloc hhdmOffset before (ctx.pointer hhdmOffset) size flags =
      some (returned, after)) :
    newRegion = 0#64 ∧ returned = 0#64 ∧ SoundContext hhdmOffset pool kernel ctx records after ∨
      ∃ front previous record back, records = front ++ previous :: back ∧
        newRegion = record.pointer hhdmOffset ∧
        SoundContext hhdmOffset pool kernel ctx (front ++ previous :: record :: back) after ∧
        Memory.load64 after.memory (regionSize (record.pointer hhdmOffset)) = size ∧
        (returned = 0#64 ∨
          returned = Memory.load64 after.memory (regionStart (record.pointer hhdmOffset))) := by
  unfold vmaAlloc at allocated
  rw [placed, Option.map_some] at allocated
  dsimp only at allocated
  rcases sound.place available inside placed with ⟨rfl, kept⟩ |
    ⟨front, previous, record, back, rfl, rfl, isPlaced⟩
  · rw [if_pos rfl] at allocated
    cases allocated
    exact Or.inl ⟨rfl, rfl, kept⟩
  · have listed : record ∈ front ++ previous :: record :: back := by simp
    obtain ⟨mapped, same⟩ := isPlaced.sound.map listed (isPlaced.flags.symm ▸ valid) (2 ^ 52)
      (enough _ _ placed isPlaced.nonnull)
    have size := (@Frame.load64_congr hhdmOffset 8#64 _ _ _ (same record listed) (by decide)).trans
      isPlaced.size
    rw [if_neg isPlaced.nonnull] at allocated
    split_ifs at allocated with done
    · cases allocated
      exact Or.inr ⟨front, previous, record, back, rfl, rfl, mapped, size, Or.inr rfl⟩
    · cases allocated
      exact Or.inr ⟨front, previous, record, back, rfl, rfl, mapped, size, Or.inl rfl⟩

end Nekonix
