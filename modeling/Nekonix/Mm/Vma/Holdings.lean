import Nekonix.Mm.Vma.Backing

/-!
# The list of a context as a list of regions

What the records of a context say, without the memory they lie in: where each region begins,
how many pages it has, and the frames that `vma_alloc` got for them.  `vma_alloc` adds one
region to such a list, and `vma_free` leaves a part of it.
-/

namespace Nekonix

open LinkedList Transition

variable {hhdmOffset size flags returned newRegion ptr : U64} {pool : List U64} {kernel ctx : Frame}
  {machine before placed after : Machine}

/-- A region of a context: its record, its start and size, and the frames of its first pages. -/
structure Holding where
  record : Frame
  start : U64
  size : U64
  data : List Frame

namespace Holding

/-- Where the record lies. -/
def region (hhdmOffset : U64) (holding : Holding) : U64 := holding.record.pointer hhdmOffset

theorem physical_region (holding : Holding) :
    physical hhdmOffset (holding.region hhdmOffset) = holding.record.address :=
  Frame.physical_pointer

/-- `start + size * PAGE_SIZE` -/
def finish (holding : Holding) : U64 := holding.start + holding.size * pageSize

/-- The root of a context stands for page 0. -/
def ofRoot (record : Frame) : Holding := ⟨record, 0#64, 1#64, []⟩

theorem finish_ofRoot (record : Frame) : (ofRoot record).finish = pageSize := by
  change 0#64 + 1#64 * pageSize = pageSize
  decide

end Holding

/-- The search of `vma_free` finds the first region that begins at `ptr`. -/
theorem vmaFind_of_first {memory : Memory} {regions rest : List U64} {start region : U64}
    {fuel : Nat} (list : Segment (nextRegion memory) 0#64 start (regions ++ region :: rest))
    (enough : regions.length < fuel)
    (apart : ∀ earlier ∈ regions, Memory.load64 memory (regionStart earlier) ≠ ptr)
    (here : Memory.load64 memory (regionStart region) = ptr) :
    vmaFind memory ptr fuel start = some region := by
  induction regions generalizing start fuel with
  | nil =>
      obtain ⟨rfl, nonnull, -⟩ := list
      obtain ⟨fuel, rfl⟩ := Nat.exists_eq_add_of_le' (Nat.one_le_of_lt enough)
      rw [vmaFind, if_neg nonnull, if_pos here]
  | cons first regions inductionHypothesis =>
      obtain ⟨rfl, nonnull, further⟩ := list
      obtain ⟨fuel, rfl⟩ := Nat.exists_eq_add_of_le' (Nat.one_le_of_lt enough)
      rw [vmaFind, if_neg nonnull, if_neg (apart start List.mem_cons_self)]
      exact inductionHypothesis further (Nat.lt_of_succ_lt_succ enough)
        fun earlier membership => apart earlier (List.mem_cons_of_mem _ membership)

/-- What is neither first nor last. -/
theorem mem_tail_dropLast {Item : Type} {front back : List Item} {item : Item} (more : front ≠ [])
    (further : back ≠ []) : item ∈ (front ++ item :: back).tail.dropLast := by
  obtain ⟨first, front, rfl⟩ := List.exists_cons_of_ne_nil more
  rw [List.cons_append, List.tail_cons, List.dropLast_append_of_ne_nil (by simp),
    List.dropLast_cons_of_ne_nil further]
  simp

/-- Where no region between the root and the last one passes the test, the new one goes to the
end. -/
theorem GoesBehind.last {memory : Memory} {front back : List Frame} {previous : Frame}
    (behind : GoesBehind hhdmOffset memory size front previous back)
    (fail : ∀ frame ∈ (front ++ previous :: back).tail.dropLast,
      ¬RegionFits memory size (frame.pointer hhdmOffset)) : back = [] := by
  rcases behind with ⟨-, none⟩ | ⟨more, fits, -⟩
  · exact none
  · by_contra further
    exact fail previous (mem_tail_dropLast more further) fits

/-- The list of the context has these regions. -/
structure HasRegions (hhdmOffset : U64) (pool : List U64) (kernel ctx : Frame)
    (holdings : List Holding) (machine : Machine) : Prop where
  sound : SoundContext hhdmOffset pool kernel ctx (holdings.map Holding.record) machine
  start : ∀ holding ∈ holdings,
    Memory.load64 machine.memory (regionStart (holding.region hhdmOffset)) = holding.start
  size : ∀ holding ∈ holdings,
    Memory.load64 machine.memory (regionSize (holding.region hhdmOffset)) = holding.size

/-- A region has been added behind `previous`. -/
structure HoldingAdded (hhdmOffset : U64) (pool : List U64) (kernel ctx : Frame)
    (size flags : U64) (front : List Holding) (previous new : Holding) (back : List Holding)
    (returned : U64) (before after : Machine) : Prop where
  region : RegionAllocated hhdmOffset pool kernel ctx size flags (front.map Holding.record)
    previous.record new.record (back.map Holding.record) new.data returned before after
  hasRegions : HasRegions hhdmOffset pool kernel ctx (front ++ previous :: new :: back) after
  start : new.start = previous.finish
  size : new.size = size

namespace HasRegions

variable {holdings front back : List Holding} {holding previous : Holding}

theorem list (hasRegions : HasRegions hhdmOffset pool kernel ctx holdings machine) :
    RegionList machine.memory (ctx.pointer hhdmOffset) (holdings.map (Holding.region hhdmOffset)) := by
  have list := hasRegions.sound.list
  rw [List.map_map] at list
  exact list

theorem regionEnd (hasRegions : HasRegions hhdmOffset pool kernel ctx holdings machine)
    (membership : holding ∈ holdings) :
    regionEnd machine.memory (holding.region hhdmOffset) = holding.finish := by
  rw [Nekonix.regionEnd, hasRegions.start holding membership, hasRegions.size holding membership]
  rfl

/-- Starts and sizes are what they were. -/
theorem relist {fewer : List Holding}
    (hasRegions : HasRegions hhdmOffset pool kernel ctx holdings before)
    (sound : SoundContext hhdmOffset pool kernel ctx (fewer.map Holding.record) after)
    (part : fewer.Sublist holdings)
    (extent : ∀ holding ∈ holdings,
      SameExtent hhdmOffset before.memory after.memory holding.record) :
    HasRegions hhdmOffset pool kernel ctx fewer after where
  sound := sound
  start := fun holding membership =>
    (extent holding (part.subset membership)).start.trans
      (hasRegions.start holding (part.subset membership))
  size := fun holding membership =>
    (extent holding (part.subset membership)).size.trans
      (hasRegions.size holding (part.subset membership))

theorem added {record : Frame} {data : List Frame}
    (hasRegions : HasRegions hhdmOffset pool kernel ctx (front ++ previous :: back) before)
    (region : RegionAllocated hhdmOffset pool kernel ctx size flags (front.map Holding.record)
      previous.record record (back.map Holding.record) data returned before after) :
    HoldingAdded hhdmOffset pool kernel ctx size flags front previous
      ⟨record, previous.finish, size, data⟩ back returned before after := by
  have listed : previous ∈ front ++ previous :: back := by simp
  have finish := hasRegions.regionEnd listed
  have kept : ∀ holding ∈ front ++ previous :: back,
      SameFields hhdmOffset before.memory after.memory holding.record := by
    intro holding membership
    apply region.fields
    have listed := List.mem_map_of_mem (f := Holding.record) membership
    rwa [List.map_append, List.map_cons] at listed
  have cases : ∀ holding ∈ front ++ previous :: ⟨record, previous.finish, size, data⟩ :: back,
      holding = ⟨record, previous.finish, size, data⟩ ∨ holding ∈ front ++ previous :: back := by
    intro holding membership
    simp only [List.mem_append, List.mem_cons] at membership ⊢
    tauto
  refine ⟨region, ⟨?_, ?_, ?_⟩, rfl, rfl⟩
  · rw [List.map_append, List.map_cons, List.map_cons]
    exact region.sound
  · intro holding membership
    rcases cases holding membership with rfl | old
    · exact region.isStart.trans finish
    · exact (kept holding old).start.trans (hasRegions.start holding old)
  · intro holding membership
    rcases cases holding membership with rfl | old
    · exact region.isSize
    · exact (kept holding old).size.trans (hasRegions.size holding old)

/-- `vma_alloc` leaves the regions alone, or adds one. -/
theorem alloc (hasRegions : HasRegions hhdmOffset pool kernel ctx holdings before)
    (allowed : AllocAllowed hhdmOffset ctx before size flags)
    (isPlaced : vmaPlace hhdmOffset before (ctx.pointer hhdmOffset) size flags =
      some (newRegion, placed))
    (allocated : vmaAlloc hhdmOffset before (ctx.pointer hhdmOffset) size flags =
      some (returned, after)) :
    newRegion = 0#64 ∧ returned = 0#64 ∧ HasRegions hhdmOffset pool kernel ctx holdings after ∧
        RegionsKept hhdmOffset pool kernel ctx (holdings.map Holding.record) before after ∨
      ∃ front previous new back, holdings = front ++ previous :: back ∧
        newRegion = new.region hhdmOffset ∧ newRegion ≠ 0#64 ∧
        HoldingAdded hhdmOffset pool kernel ctx size flags front previous new back returned before
          after := by
  rcases hasRegions.sound.alloc_region allowed isPlaced allocated with
    ⟨null, failed, kept⟩ | ⟨_, _, record, _, data, split, rfl, nonnull, region⟩
  · refine Or.inl ⟨null, failed, hasRegions.relist kept.sound (List.Sublist.refl _) ?_, kept⟩
    exact fun holding membership =>
      (kept.fields holding.record (List.mem_map_of_mem membership)).toSameExtent
  · obtain ⟨front, rest, rfl, rfl, isRest⟩ := List.map_eq_append_iff.mp split
    obtain ⟨previous, back, rfl, rfl, rfl⟩ := List.map_eq_cons_iff.mp isRest
    exact Or.inr ⟨front, previous, ⟨record, previous.finish, size, data⟩, back, rfl, rfl, nonnull,
      hasRegions.added region⟩

/-- `vma_free` finds none of the regions, and does nothing, or it finds one. -/
theorem found {region : U64}
    (hasRegions : HasRegions hhdmOffset pool kernel ctx holdings before)
    (nonnull : ctx.pointer hhdmOffset ≠ 0#64)
    (isFound : vmaFind before.memory ptr (2 ^ 64)
      (Memory.load64 before.memory (contextRoot (ctx.pointer hhdmOffset))) = some region)
    (freed : vmaFree hhdmOffset before (ctx.pointer hhdmOffset) ptr = some after) :
    region = 0#64 ∧ after = before ∨ ∃ front holding back,
      holdings = front ++ holding :: back ∧ region = holding.region hhdmOffset := by
  have list := hasRegions.list
  unfold RegionList at list
  rcases vmaFind_listed list isFound with rfl | listed
  · unfold vmaFree at freed
    rw [if_neg nonnull] at freed
    dsimp only at freed
    rw [isFound, Option.map_some, if_pos rfl] at freed
    exact Or.inl ⟨rfl, (Option.some.inj freed).symm⟩
  · obtain ⟨holding, membership, rfl⟩ := List.mem_map.mp listed
    obtain ⟨front, back, rfl⟩ := List.append_of_mem membership
    exact Or.inr ⟨front, holding, back, rfl, rfl⟩

theorem find (hasRegions : HasRegions hhdmOffset pool kernel ctx (front ++ holding :: back) machine)
    (apart : ∀ earlier ∈ front, earlier.start ≠ holding.start) :
    vmaFind machine.memory holding.start (2 ^ 64)
      (Memory.load64 machine.memory (contextRoot (ctx.pointer hhdmOffset))) =
      some (holding.region hhdmOffset) := by
  have list := hasRegions.list
  unfold RegionList at list
  have short := list.length_lt_width
  rw [List.map_append, List.map_cons] at list
  refine vmaFind_of_first list ?_ ?_ (hasRegions.start holding (by simp))
  · rw [List.length_map, List.length_append] at short
    rw [List.length_map]
    omega
  · intro earlier membership
    obtain ⟨other, inFront, rfl⟩ := List.mem_map.mp membership
    rw [hasRegions.start other (List.mem_append_left _ inFront)]
    exact apart other inFront

/-- What is left of the regions is a part of them, in order. -/
theorem free {region : U64} (hasRegions : HasRegions hhdmOffset pool kernel ctx holdings before)
    (nonnull : ctx.pointer hhdmOffset ≠ 0#64)
    (allowed : FreeAllowed hhdmOffset pool kernel ctx before ptr)
    (isFound : vmaFind before.memory ptr (2 ^ 64)
      (Memory.load64 before.memory (contextRoot (ctx.pointer hhdmOffset))) = some region)
    (freed : vmaFree hhdmOffset before (ctx.pointer hhdmOffset) ptr = some after) :
    ∃ fewer, fewer.Sublist holdings ∧ HasRegions hhdmOffset pool kernel ctx fewer after := by
  rcases hasRegions.found nonnull isFound freed with ⟨-, rfl⟩ | ⟨front, holding, back, rfl, rfl⟩
  · exact ⟨holdings, List.Sublist.refl _, hasRegions⟩
  have sound := hasRegions.sound
  have list := sound.list
  rw [List.map_append, List.map_cons] at sound list
  obtain ⟨isPrev, gives⟩ := allowed _ _ _ list isFound
  have left : ∃ fewer, LeftBehind hhdmOffset (front.map Holding.record) (back.map Holding.record)
      (Memory.load64 before.memory (regionPrev (holding.record.pointer hhdmOffset))) fewer := by
    rcases isPrev with ⟨previous, membership, isPrev⟩ | ⟨none, isPrev⟩
    · obtain ⟨before, passed, split⟩ := List.append_of_mem membership
      exact ⟨_, Or.inl ⟨before, previous, passed, split, isPrev, rfl⟩⟩
    · exact ⟨_, Or.inr ⟨none, isPrev, rfl⟩⟩
  obtain ⟨_, left⟩ := left
  have region := sound.free_found isFound nonnull left gives freed
  have listed := left.sublist
  rw [← List.map_append] at listed
  obtain ⟨fewer, part, rfl⟩ := List.sublist_map_iff.mp listed
  have shorter : fewer.Sublist (front ++ holding :: back) :=
    part.trans ((List.sublist_cons_self holding back).append_left front)
  refine ⟨fewer, shorter, hasRegions.relist region.sound shorter fun other membership => ?_⟩
  apply region.extent
  have listed := List.mem_map_of_mem (f := Holding.record) membership
  rwa [List.map_append, List.map_cons] at listed

end HasRegions

theorem NewContext.hasRegions {root : Frame} {booted : Machine}
    (new : NewContext hhdmOffset kernel ctx root booted machine) :
    HasRegions hhdmOffset booted.free kernel ctx [.ofRoot root] machine where
  sound := new.sound
  start := by
    intro holding membership
    rw [List.mem_singleton.mp membership]
    exact new.start
  size := by
    intro holding membership
    rw [List.mem_singleton.mp membership]
    exact new.size

end Nekonix
